import Chromatic.Branching.TieBreaker
import Mathlib.Data.List.Forall2
import Mathlib.Data.List.MinMax
/-!
# The first of the best candidates

A tie breaker holds the first best candidate among those offered since the last selection. A strict
improvement replaces it, a candidate that is only as good does not, and a selection leaves nothing
behind, so every selection answers for the offers of its own round.
-/

namespace Chromatic

section FirstMinimum

variable {α β : Type} [LinearOrder β] {f : α → β} {l : List α} {a : α}

/-- What comes before the first minimum is larger, and what comes after it is no smaller. -/
theorem exists_append_of_argmin (h : l.argmin f = some a) :
    ∃ before after, l = before ++ a :: after ∧ (∀ b ∈ before, f a < f b) ∧
      ∀ b ∈ after, f a ≤ f b := by
  induction l generalizing a with
  | nil => cases h
  | cons c rest ih =>
    rw [List.argmin_cons] at h
    cases hrest : rest.argmin f with
    | none =>
      rw [hrest] at h
      cases h
      rw [List.argmin_eq_none.mp hrest]
      exact ⟨[], [], rfl, List.forall_mem_nil _, List.forall_mem_nil _⟩
    | some m =>
      simp only [hrest] at h
      split at h
      · next hlt =>
        cases h
        obtain ⟨before, after, rfl, hbefore, hafter⟩ := ih hrest
        exact ⟨c :: before, after, rfl, List.forall_mem_cons.mpr ⟨hlt, hbefore⟩, hafter⟩
      · next hle =>
        cases h
        refine ⟨[], rest, rfl, List.forall_mem_nil _, ?_⟩
        intro b hb
        exact (not_lt.mp hle).trans (List.le_of_mem_argmin hb hrest)

theorem argmin_map {ι : Type} (g : ι → α) (f : α → β) (l : List ι) :
    (l.map g).argmin f = (l.argmin fun i => f (g i)).map g := by
  induction l with
  | nil => rfl
  | cons i rest ih =>
    rw [List.map_cons, List.argmin_cons, List.argmin_cons, ih]
    cases rest.argmin fun i => f (g i) with
    | none => rfl
    | some m =>
      simp only [Option.map_some]
      split <;> rfl

end FirstMinimum

variable {α β : Type} [LinearOrder β]

namespace Direction

/-- One score is at least as good as another. -/
def NoWorse (d : Direction) (s t : β) : Prop :=
  match d with
  | minimum => s ≤ t
  | maximum => t ≤ s

/-- A candidate with the best score of all that were offered, of which it is the first. -/
structure FirstBest (d : Direction) (offers : List (α × β)) (e : α × β) : Prop where
  best : ∀ o ∈ offers, d.NoWorse e.2 o.2
  first : ∃ before after, offers = before ++ e :: after ∧ ∀ o ∈ before, o.2 ≠ e.2

/-- The answer to a selection: none exactly when nothing was offered, and else the first of the best
candidates. -/
structure Answers (d : Direction) (offers : List (α × β)) (answer : Option α) : Prop where
  none_iff : answer = none ↔ offers = []
  firstBest : ∀ a, answer = some a → ∃ score, d.FirstBest offers (a, score)

/-- The first minimum or the first maximum of the scores. -/
def pick (d : Direction) (offers : List (α × β)) : Option (α × β) :=
  match d with
  | minimum => offers.argmin Prod.snd
  | maximum => offers.argmax Prod.snd

private theorem pick_eq_none {d : Direction} {offers : List (α × β)} :
    d.pick offers = none ↔ offers = [] := by
  cases d with
  | minimum => exact List.argmin_eq_none
  | maximum => exact List.argmax_eq_none

private theorem firstBest_of_pick {d : Direction} {offers : List (α × β)} {e : α × β}
    (h : d.pick offers = some e) : d.FirstBest offers e := by
  cases d with
  | minimum =>
    obtain ⟨before, after, hoffers, hbefore, -⟩ := exists_append_of_argmin h
    exact ⟨fun o ho => List.le_of_mem_argmin ho h, before, after, hoffers,
      fun o ho => (hbefore o ho).ne'⟩
  | maximum =>
    -- A maximum is a minimum of the reverse order.
    obtain ⟨before, after, hoffers, hbefore, -⟩ :=
      exists_append_of_argmin (β := βᵒᵈ) (f := Prod.snd) h
    exact ⟨fun o ho => List.le_of_mem_argmax ho h, before, after, hoffers,
      fun o ho => (hbefore o ho).ne'⟩

private theorem answers_pick (d : Direction) (offers : List (α × β)) :
    d.Answers offers ((d.pick offers).map Prod.fst) where
  none_iff := by rw [Option.map_eq_none_iff, pick_eq_none]
  firstBest := by
    intro a ha
    obtain ⟨⟨_, score⟩, he, rfl⟩ := Option.map_eq_some_iff.mp ha
    exact ⟨score, firstBest_of_pick he⟩

end Direction

namespace TieBreaker

/-- What can be asked of a tie breaker. -/
inductive Call (α β : Type)
  | consider (a : α) (score : β)
  | select
deriving DecidableEq

/-- The answers to the selections among some calls, in their order. -/
def answers (t : TieBreaker α β) : List (Call α β) → List (Option α)
  | [] => []
  | .consider a score :: rest => (t.consider a score).answers rest
  | .select :: rest => t.select.1 :: t.select.2.answers rest

/-- What is offered before each selection and after the one before it; the first of them has the
given offers besides. -/
def rounds (offers : List (α × β)) : List (Call α β) → List (List (α × β))
  | [] => []
  | .consider a score :: rest => rounds (offers ++ [(a, score)]) rest
  | .select :: rest => offers :: rounds [] rest

private theorem consider_pick (d : Direction) (offers : List (α × β)) (a : α) (score : β) :
    (mk d (d.pick offers)).consider a score = mk d (d.pick (offers ++ [(a, score)])) := by
  cases d with
  | minimum =>
    simp only [Direction.pick, List.argmin_concat]
    cases offers.argmin Prod.snd with
    | none => rfl
    | some e =>
      simp only [consider, decide_eq_true_eq]
      split <;> rfl
  | maximum =>
    simp only [Direction.pick, List.argmax_concat]
    cases offers.argmax Prod.snd with
    | none => rfl
    | some e =>
      simp only [consider, decide_eq_true_eq]
      split <;> rfl

theorem ofDirection_eq (d : Direction) : (ofDirection d : TieBreaker α β) = mk d (d.pick []) := by
  cases d <;> rfl

theorem foldl_consider (d : Direction) (offers more : List (α × β)) :
    more.foldl (fun t o => t.consider o.1 o.2) (mk d (d.pick offers)) =
      mk d (d.pick (offers ++ more)) := by
  induction more generalizing offers with
  | nil => rw [List.foldl_nil, List.append_nil]
  | cons o rest ih =>
    rw [List.foldl_cons, consider_pick, ih, List.append_assoc, List.singleton_append]

theorem select_pick (d : Direction) (offers : List (α × β)) :
    (mk d (d.pick offers)).select = ((d.pick offers).map Prod.fst, ofDirection d) := rfl

private theorem answers_of_pick (d : Direction) (offers : List (α × β)) (calls : List (Call α β)) :
    List.Forall₂ d.Answers (rounds offers calls) ((mk d (d.pick offers)).answers calls) := by
  induction calls generalizing offers with
  | nil => exact .nil
  | cons call rest ih =>
    cases call with
    | consider a score =>
      rw [rounds, answers, consider_pick]
      exact ih (offers ++ [(a, score)])
    | select =>
      -- The next round begins as the first one did.
      rw [rounds, answers, select_pick, ofDirection_eq]
      exact .cons (d.answers_pick offers) (ih [])

/-- Whatever is asked in whatever order, each selection answers with the first of the best
candidates that were offered since the selection before it, and with none exactly when there were
none. -/
theorem answers_firstBest (d : Direction) (calls : List (Call α β)) :
    List.Forall₂ d.Answers (rounds [] calls) ((ofDirection d).answers calls) := by
  rw [ofDirection_eq]
  exact answers_of_pick d [] calls

example : (ofDirection .maximum : TieBreaker Nat Int).answers
    [.consider 4 (-2), .consider 9 5, .consider 4 5, .select, .consider 7 (-2), .select,
      .select] = [some 9, some 7, none] := by decide

end TieBreaker

end Chromatic
