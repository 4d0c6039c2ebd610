import Chromatic.Proofs.Search.Allowance
import Chromatic.Proofs.Solver.Reached
/-!
# Numbers of decisions as limits

One limit may be handed to any number of calls, which use it up together. A call makes as many
decisions as the limit has left, or as it needs without a limit when these are fewer; only in the
first case it comes to no verdict.
-/

namespace Chromatic

namespace Solver

variable {p : Problem} {s : Solver}

def decisions (s : Solver) : Nat := s.search.counters.decisions

/-- A solver takes `n` decisions to come to a verdict, unless the limit stops it before. -/
structure Answers (s : Solver) (verdict : Verdict) (n : Nat) : Prop where
  decided : verdict ≠ .unknown
  permitted : ∀ {κ : Type} [TerminationCondition κ] {limit : κ}, Permits limit n →
    (s.satisfy limit).1 = .ok verdict ∧ (s.satisfy limit).2.1.decisions = s.decisions + n ∧
      (s.satisfy limit).2.2 = TerminationCondition.pass^[n] limit
  stopped : ∀ {κ : Type} [TerminationCondition κ] {limit : κ} {m : Nat}, m < n →
    StopsAfter limit m →
    (s.satisfy limit).1 = .ok .unknown ∧ (s.satisfy limit).2.1.decisions = s.decisions + m ∧
      (s.satisfy limit).2.2 =
        (TerminationCondition.shouldStop (TerminationCondition.pass^[m] limit)).2

private theorem Reached.answers (h : Reached p s) : ∃ verdict n, s.Answers verdict n := by
  obtain ⟨outcome, ho, hu⟩ := h.run_decided Limit.neverStops_indefinite
  obtain ⟨n, hn⟩ := Search.finishes_of_run h.prepared.atRoot.isIdle ho hu
  refine ⟨outcome.verdict, n, Outcome.verdict_ne_unknown hu, fun hp => ?_, fun hm hl => ?_⟩
  · have hrun := hn.permitted hp
    obtain ⟨hverdict, hcounters, -, hlimit⟩ := satisfy_of_run (congrArg Prod.fst hrun)
    rw [decisions, hcounters, hlimit, hrun]
    exact ⟨hverdict, hn.decisions, rfl⟩
  · obtain ⟨u, hrun, hu⟩ := hn.stopped hm hl
    obtain ⟨hverdict, hcounters, -, hlimit⟩ := satisfy_of_run (congrArg Prod.fst hrun)
    rw [decisions, hcounters, hlimit, hrun]
    exact ⟨hverdict, hu, rfl⟩

end Solver

namespace Limit

open Solver (Reached)

/-- What a limit can be after calls that made the given number of decisions in all. -/
inductive Shared (start : Limit) : Limit → Nat → Prop
  | unused : Shared start start 0
  | asked {limit : Limit} {used made : Nat} {p : Problem} {s : Solver}
    (h : Shared start limit used) (hs : Reached p s)
    (hd : (s.satisfy limit).2.1.decisions = s.decisions + made) :
    Shared start (s.satisfy limit).2.2 (used + made)

/-- The fewest decisions that any part of a limit has left after some were made, if there is such a
part. -/
def left (start : Limit) (used : Nat) : Option Nat := (start.budgets.map (· - used)).min?

private theorem exists_left_le {start : Limit} {used n : Nat} :
    (∃ r ∈ start.left used, r ≤ n) ↔ ∃ b ∈ start.budgets, b ≤ n + used := by
  constructor
  · rintro ⟨r, hr, hle⟩
    obtain ⟨hmem, -⟩ := List.min?_eq_some_iff.mp hr
    obtain ⟨b, hb, rfl⟩ := List.mem_map.mp hmem
    exact ⟨b, hb, Nat.sub_le_iff_le_add.mp hle⟩
  · rintro ⟨b, hb, hle⟩
    have hmem := List.mem_map_of_mem (f := (· - used)) hb
    cases hleft : start.left used with
    | none =>
      rw [List.min?_eq_none_iff.mp hleft] at hmem
      cases hmem
    | some r =>
      have hr := (List.min?_eq_some_iff.mp hleft).2 _ hmem
      exact ⟨r, rfl, hr.trans (Nat.sub_le_iff_le_add.mpr hle)⟩

private theorem limit_satisfy (hs : Reached p s) (limit : Limit) {made : Nat}
    (hd : (s.satisfy limit).2.1.decisions = s.decisions + made) :
    (s.satisfy limit).2.2 = countDecision^[made] limit := by
  obtain ⟨verdict, n, ha⟩ := hs.answers
  rcases permits_or_stopsAfter limit n with hp | ⟨m, hm, hl⟩
  · obtain ⟨-, hd', hlimit⟩ := ha.permitted hp
    obtain rfl : made = n := by omega
    exact hlimit
  · obtain ⟨-, hd', hlimit⟩ := ha.stopped hm hl
    obtain rfl : made = m := by omega
    exact hlimit

private theorem Shared.eq_countDecision {start limit : Limit} {used : Nat}
    (h : Shared start limit used) : limit = countDecision^[used] start := by
  induction h with
  | unused => rfl
  | @asked limit used made _ _ _ hs hd ih =>
    rw [limit_satisfy hs limit hd, Nat.add_comm, Function.iterate_add_apply, ← ih]

namespace Built

variable {start : Limit} {used : Nat}

private theorem stops_iff (h : Built start) (n : Nat) :
    (TerminationCondition.shouldStop (TerminationCondition.pass^[n]
      (countDecision^[used] start))).1 = true ↔ ∃ r ∈ start.left used, r ≤ n := by
  have hpass : TerminationCondition.pass^[n] (countDecision^[used] start) =
      countDecision^[n + used] start := (Function.iterate_add_apply countDecision n used start).symm
  rw [hpass, exists_left_le]
  exact h.isReached_iff (n + used)

private theorem permits (h : Built start) {n : Nat} (hn : ∀ r ∈ start.left used, n ≤ r) :
    Permits (countDecision^[used] start) n := by
  intro m hm
  rw [← Bool.not_eq_true, h.stops_iff]
  rintro ⟨r, hr, hrm⟩
  have hnr := hn r hr
  omega

private theorem stopsAfter (h : Built start) {n : Nat} (hn : start.left used = some n) :
    StopsAfter (countDecision^[used] start) n := by
  refine ⟨h.permits fun r hr => ?_, (h.stops_iff n).mpr ⟨n, hn, Nat.le_refl n⟩⟩
  rw [hn] at hr
  exact (Option.some.inj hr).le

end Built

end Limit

namespace Solver

variable {p : Problem} {s : Solver}

/-- With a limit put together from numbers of decisions, that earlier calls have used in part, a
call makes the decisions that the limit has left, or those of a call that was not interrupted,
whichever are fewer. It is interrupted exactly when the limit has fewer left, and otherwise comes
to the verdict of the other call. -/
theorem satisfy_budget (hs : Reached p s) {start limit : Limit} {used : Nat} (hb : start.Built)
    (hl : start.Shared limit used) {κ : Type} [TerminationCondition κ] {free : κ}
    (hf : (s.satisfy free).1 ≠ .ok .unknown) :
    ∃ needed made,
      (s.satisfy free).2.1.decisions = s.decisions + needed ∧
      (s.satisfy limit).2.1.decisions = s.decisions + made ∧
      made = (start.left used).elim needed (min · needed) ∧
      ((s.satisfy limit).1 = .ok .unknown ↔ ∃ r ∈ start.left used, r < needed) ∧
      ((∀ r ∈ start.left used, needed ≤ r) → (s.satisfy limit).1 = (s.satisfy free).1) := by
  obtain ⟨verdict, n, ha⟩ := hs.answers
  have hp : Permits free n := by
    rcases permits_or_stopsAfter free n with hp | ⟨m, hm, hstop⟩
    · exact hp
    · exact absurd (ha.stopped hm hstop).1 hf
  obtain ⟨hfree, hneeded, -⟩ := ha.permitted hp
  have hlimit := hl.eq_countDecision
  by_cases hshort : ∃ r ∈ start.left used, r < n
  · obtain ⟨r, hr, hrn⟩ := hshort
    have hstop := hb.stopsAfter hr
    rw [← hlimit] at hstop
    obtain ⟨hunknown, hmade, -⟩ := ha.stopped hrn hstop
    refine ⟨n, r, hneeded, hmade, ?_, iff_of_true hunknown ⟨r, hr, hrn⟩, fun hle => ?_⟩
    · rw [hr, Option.elim_some, Nat.min_eq_left hrn.le]
    · exact absurd (hle r hr) (Nat.not_le.mpr hrn)
  · have hle : ∀ r ∈ start.left used, n ≤ r :=
      fun r hr => Nat.not_lt.mp fun hrn => hshort ⟨r, hr, hrn⟩
    have hpermits := hb.permits hle
    rw [← hlimit] at hpermits
    obtain ⟨hverdict, hmade, -⟩ := ha.permitted hpermits
    refine ⟨n, n, hneeded, hmade, ?_, iff_of_false ?_ hshort, fun _ => ?_⟩
    · cases hleft : start.left used with
      | none => rfl
      | some r => exact (Nat.min_eq_right (hle r hleft)).symm
    · rw [hverdict]
      exact fun h => ha.decided (Except.ok.inj h)
    · rw [hverdict, hfree]

/-- A solver for the path with the vertices 0, 1 and 2, which takes three decisions. -/
def onPath : Solver where
  problem := .ofStatements (some 2) [] [(0, 1), (1, 2)]
  search := Problem.rootSearch _

theorem reached_onPath : Reached onPath.problem onPath :=
  .created (Prod.ext (Problem.create_of_accepted (k := 2) rfl (by decide) (by decide +kernel)
    (by decide)) rfl)

/-- Of four decisions the first call makes three, so the second one is stopped after one. -/
theorem satisfy_budget_onPath :
    let limit := Limit.either (.present (.budget 4)) (.either .absent .indefinite)
    let first := onPath.satisfy limit
    let second := first.2.1.satisfy first.2.2
    first.2.1.decisions = onPath.decisions + 3 ∧
      second.1 = .ok .unknown ∧ second.2.1.decisions = first.2.1.decisions + 1 := by
  intro limit first second
  have hb : limit.Built := .either (.present (.budget 4)) (.either .absent .indefinite)
  have hd : first.2.1.decisions = onPath.decisions + 3 := by
    simp only [first, satisfy_eq, Search.run_within 12]
    decide +kernel
  have hl : limit.Shared first.2.2 (0 + 3) := .asked .unused reached_onPath hd
  have hfree : (first.2.1.satisfy Limit.indefinite).2.1.decisions = first.2.1.decisions + 3 ∧
      (first.2.1.satisfy Limit.indefinite).1 ≠ .ok .unknown := by
    simp only [first, satisfy_eq, Search.run_within 12]
    decide +kernel
  obtain ⟨needed, made, hneeded, hmade, hmin, hunknown, -⟩ :=
    satisfy_budget (.asked reached_onPath limit) hb hl hfree.2
  obtain rfl : needed = 3 := Nat.add_left_cancel (hneeded.symm.trans hfree.1)
  have hleft : limit.left (0 + 3) = some 1 := rfl
  rw [hleft] at hmin hunknown
  obtain rfl : made = 1 := hmin
  exact ⟨hd, hunknown.mpr ⟨1, rfl, by decide⟩, hmade⟩

end Solver

end Chromatic
