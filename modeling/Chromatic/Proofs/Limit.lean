import Chromatic.Limit
import Mathlib.Logic.Function.Iterate
/-!
# When limits stop a search

A search asks its limit and tells it of a decision in turn. A limit stops it after as many
decisions as this can be repeated until the limit says yes, and never when it always says no.
-/

namespace Chromatic

variable {κ : Type} [TerminationCondition κ]

/-- The limit after it was asked and told of a decision. -/
def TerminationCondition.pass (limit : κ) : κ := decisionMade (shouldStop limit).2

/-- However many decisions were made, the limit does not stop the next one. -/
def NeverStops (limit : κ) : Prop :=
  ∀ n, (TerminationCondition.shouldStop (TerminationCondition.pass^[n] limit)).1 = false

namespace NeverStops

variable {limit limit' : κ}

theorem not_stopped (h : NeverStops limit) :
    TerminationCondition.shouldStop limit ≠ (true, limit') := by
  intro hl
  have hz := h 0
  rw [Function.iterate_zero, id, hl] at hz
  cases hz

theorem pass (h : NeverStops limit) {b : Bool}
    (hl : TerminationCondition.shouldStop limit = (b, limit')) :
    NeverStops (TerminationCondition.decisionMade limit') := by
  intro n
  have hn := h (n + 1)
  rw [Function.iterate_succ, Function.comp, TerminationCondition.pass, hl] at hn
  exact hn

end NeverStops

/-- The limit lets `n` decisions be made. -/
def Permits (limit : κ) (n : Nat) : Prop :=
  ∀ m < n, (TerminationCondition.shouldStop (TerminationCondition.pass^[m] limit)).1 = false

/-- The limit lets `n` decisions be made and no more. -/
structure StopsAfter (limit : κ) (n : Nat) : Prop where
  permits : Permits limit n
  stops : (TerminationCondition.shouldStop (TerminationCondition.pass^[n] limit)).1 = true

theorem NeverStops.permits {limit : κ} (h : NeverStops limit) (n : Nat) : Permits limit n :=
  fun m _ => h m

theorem permits_or_stopsAfter (limit : κ) (n : Nat) :
    Permits limit n ∨ ∃ m < n, StopsAfter limit m := by
  induction n with
  | zero => exact .inl nofun
  | succ n ih =>
    rcases ih with h | ⟨m, hm, h⟩
    · cases hn : (TerminationCondition.shouldStop (TerminationCondition.pass^[n] limit)).1 with
      | false =>
        left
        intro m hm
        rcases Nat.lt_succ_iff_lt_or_eq.mp hm with hm | rfl
        · exact h m hm
        · exact hn
      | true => exact .inr ⟨n, Nat.lt_succ_self n, h, hn⟩
    · exact .inr ⟨m, Nat.lt_succ_of_lt hm, h⟩

namespace Permits

variable {limit : κ} {m n : Nat}

theorem asked (h : Permits limit (n + 1)) :
    TerminationCondition.shouldStop limit =
      (false, (TerminationCondition.shouldStop limit).2) :=
  Prod.ext (h 0 n.succ_pos) rfl

theorem pass (h : Permits limit (n + 1)) : Permits (TerminationCondition.pass limit) n := by
  intro m hm
  rw [← Function.iterate_succ_apply]
  exact h (m + 1) (Nat.succ_lt_succ hm)

theorem left (h : Permits limit (m + n)) : Permits limit m :=
  fun i hi => h i (Nat.lt_add_right n hi)

theorem right (h : Permits limit (m + n)) :
    Permits (TerminationCondition.pass^[m] limit) n := by
  intro i hi
  rw [← Function.iterate_add_apply, Nat.add_comm]
  exact h (m + i) (Nat.add_lt_add_left hi m)

end Permits

namespace StopsAfter

variable {limit : κ} {m n : Nat}

theorem pass (h : StopsAfter limit (n + 1)) : StopsAfter (TerminationCondition.pass limit) n := by
  refine ⟨h.permits.pass, ?_⟩
  rw [← Function.iterate_succ_apply]
  exact h.stops

theorem right (h : StopsAfter limit (m + n)) :
    StopsAfter (TerminationCondition.pass^[m] limit) n := by
  refine ⟨h.permits.right, ?_⟩
  rw [← Function.iterate_add_apply, Nat.add_comm]
  exact h.stops

end StopsAfter

private theorem NeverStops.of_pass_eq {limit : κ}
    (h : (TerminationCondition.shouldStop limit).1 = false)
    (hpass : TerminationCondition.pass limit = limit) : NeverStops limit := by
  intro n
  rw [Function.iterate_fixed hpass]
  exact h

theorem Limit.neverStops_indefinite : NeverStops Limit.indefinite := .of_pass_eq rfl rfl

namespace Limit

/-- The limits that can be put together from numbers of decisions, none of them made. -/
inductive Built : Limit → Prop
  | indefinite : Built indefinite
  | budget (n : Nat) : Built (budget n)
  | either {a b : Limit} (ha : Built a) (hb : Built b) : Built (either a b)
  | absent : Built absent
  | present {a : Limit} (ha : Built a) : Built (present a)

/-- The numbers of decisions in a limit. -/
def budgets : Limit → List Nat
  | indefinite => []
  | decisions n _ => [n]
  | time _ => []
  | either a b => a.budgets ++ b.budgets
  | absent => []
  | present a => a.budgets

private theorem countDecision_iterate_either (a b : Limit) (n : Nat) :
    countDecision^[n] (either a b) = either (countDecision^[n] a) (countDecision^[n] b) := by
  induction n generalizing a b with
  | zero => rfl
  | succ n ih => exact ih a.countDecision b.countDecision

private theorem countDecision_iterate_present (a : Limit) (n : Nat) :
    countDecision^[n] (present a) = present (countDecision^[n] a) := by
  induction n generalizing a with
  | zero => rfl
  | succ n ih => exact ih a.countDecision

private theorem countDecision_iterate_decisions (budget made n : Nat) :
    countDecision^[n] (decisions budget made) = decisions budget (made + n) := by
  induction n generalizing made with
  | zero => rfl
  | succ n ih =>
    rw [Function.iterate_succ_apply, countDecision, ih, Nat.add_assoc, Nat.add_comm 1]

/-- A limit is reached once one of its numbers of decisions was made. -/
theorem Built.isReached_iff {a : Limit} (h : Built a) (n : Nat) :
    (countDecision^[n] a).isReached = true ↔ ∃ b ∈ a.budgets, b ≤ n := by
  induction h with
  | indefinite =>
    have hn : countDecision^[n] .indefinite = .indefinite := Function.iterate_fixed rfl n
    rw [hn]
    simp [isReached, budgets]
  | budget b =>
    rw [Limit.budget, countDecision_iterate_decisions]
    simp [isReached, budgets]
  | either _ _ iha ihb =>
    rw [countDecision_iterate_either, isReached, Bool.or_eq_true, iha, ihb]
    simp only [budgets, List.mem_append, or_and_right, exists_or]
  | absent =>
    have hn : countDecision^[n] .absent = .absent := Function.iterate_fixed rfl n
    rw [hn]
    simp [isReached, budgets]
  | present _ ih =>
    rw [countDecision_iterate_present]
    exact ih

end Limit

end Chromatic
