import Chromatic.Branching.Scripted
import Chromatic.Proofs.Search.Root
import Mathlib.Control.Monad.Basic
/-!
# Every search returns to the root

A search that comes to an end leaves the domains, the trail, the assignment and the stack as it
found them, in the middle of whichever branch it ended and whatever the selectors answered. On its
way it undoes only what was done, so no fault of undoing is its own.
-/

namespace Chromatic

/-- A fault of undoing: something is to be taken back that was not done. -/
def Fault.IsUndoing : Fault → Prop
  | undoBeyond .. | stillPresent .. | notAssigned .. => True
  | outOfBounds .. | assignedTwice .. | notAtRoot | maximumDirection => False

private theorem VariableId.not_isUndoing_of_locate {n : Nat} {x : VariableId} {fault : Fault}
    (h : x.locate n = .error fault) : ¬fault.IsUndoing := by
  unfold locate at h
  split at h
  · cases h
  · cases h
    exact id

private theorem Assignment.not_isUndoing_of_assign {n : Nat} {a : Assignment n} {i : Fin n}
    {c : Colour} {fault : Fault} (h : a.assign i c = .error fault) : ¬fault.IsUndoing := by
  unfold assign at h
  split at h
  · cases h
    exact id
  · cases h

/-- Asked about some view, the value selector itself answers with the fault. -/
def ValueSelector.Raises (G : Graph) (τ : Type) [ValueSelector τ] (fault : Fault) : Prop :=
  ∃ (view : View G) (x : VariableId) (w : τ), order view x w = .error fault

namespace Search

variable {G : Graph} {σ τ κ : Type} {s t : Search G σ τ} {x : VariableId} {c : Colour}
  {fault : Fault}

private theorem not_isUndoing_of_attempt (h : s.attempt x c = (.error fault, t)) :
    ¬fault.IsUndoing := by
  unfold attempt at h
  dsimp only at h
  split at h
  · next hx =>
    cases h
    exact VariableId.not_isUndoing_of_locate hx
  · split at h
    · next ha =>
      cases h
      exact Assignment.not_isUndoing_of_assign ha
    · split at h <;> cases h

variable [VariableSelector σ] [ValueSelector τ]

private theorem raises_of_choose (h : s.choose = (.error fault, t)) :
    ValueSelector.Raises G τ fault := by
  unfold choose at h
  dsimp only at h
  split at h
  · cases h
  · split at h
    · next ho =>
      cases h
      exact ⟨_, _, _, ho⟩
    · cases h

variable [TerminationCondition κ]

private theorem Swept.raises {untried : List Colour} {limit limit' : κ}
    {result : Option (Except Fault Outcome)} (h : Swept s x untried limit result t limit')
    (hr : result = some (.error fault)) (hf : fault.IsUndoing) :
    ValueSelector.Raises G τ fault := by
  induction h with
  | abandoned | stopped | solved => cases hr
  | faulted _ ha =>
    cases hr
    exact absurd hf (not_isUndoing_of_attempt ha)
  | misordered _ _ hc =>
    cases hr
    exact raises_of_choose hc
  | refuted _ _ _ ih => exact ih hr
  | settled _ _ _ _ ih => exact ih hr
  | defeated _ _ _ _ _ _ ih => exact ih hr

private theorem Explored.raises {limit limit' : κ} (h : Explored s limit (.error fault) t limit')
    (hf : fault.IsUndoing) : ValueSelector.Raises G τ fault := by
  cases h with
  | misordered hc => exact raises_of_choose hc
  | settled _ hb => exact hb.raises rfl hf

/-- A search that comes to an end leaves the domains, the trail, the assignment and the stack as
they were, with no variable assigned and no frame. Otherwise the fault is not one of undoing,
unless the value selector raised it. -/
theorem run_returns {k : Nat} {v : σ} {w : τ} (hs : AtRoot k v w s) (limit : κ) :
    (∀ outcome, (s.run limit).1 = .ok outcome →
      (s.run limit).2.1.store = s.store ∧
        ((s.run limit).2.1.assignment = s.assignment ∧ s.assignment = .empty G.order) ∧
          (s.run limit).2.1.frames = s.frames ∧ s.frames = []) ∧
      ∀ fault, (s.run limit).1 = .error fault → fault.IsUndoing →
        ValueSelector.Raises G τ fault := by
  refine ⟨fun outcome ho => ?_, fun fault hr hf => ?_⟩
  · obtain ⟨t, -, ht⟩ := run_ok hs.isIdle ho
    rw [ht]
    exact ⟨rfl, ⟨rfl, hs.isIdle.assignment⟩, hs.isIdle.frames.symm, hs.isIdle.frames⟩
  · obtain ⟨result, t, limit', he, hresult, -, -⟩ := run_explored hs.isIdle limit
    rw [hr] at hresult
    subst hresult
    exact he.raises hf

/-- A search on the path with the vertices 0, 1 and 2 that begins in the middle, with a colour that
does not exist, and goes on to both ends. -/
def fromMiddle : Search (Graph.ofProblem (.ofStatements none [] [(0, 1), (1, 2)]))
    ScriptedVariables ScriptedValues :=
  .start _ 2 ⟨[some ⟨1⟩, some ⟨0⟩, some ⟨2⟩]⟩ ⟨[[7, 1], [1, 2], [2]]⟩

/-- After four decisions, two of which failed, two variables have a colour and a third one was
chosen. -/
theorem run_returns_fromMiddle :
    (fromMiddle.run (Limit.budget 4)).1 = .ok .interrupted ∧
      (fromMiddle.run (Limit.budget 4)).2.1.store = fromMiddle.store ∧
        (fromMiddle.run (Limit.budget 4)).2.1.frames = [] := by
  have hroot : AtRoot 2 _ _ fromMiddle := .start
  have h : (fromMiddle.run (Limit.budget 4)).1 = .ok .interrupted := by
    rw [run_within 12]
    decide +kernel
  obtain ⟨hstore, -, hframes, hnil⟩ := (run_returns hroot (Limit.budget 4)).1 _ h
  exact ⟨h, hstore, hframes.trans hnil⟩

end Search

end Chromatic
