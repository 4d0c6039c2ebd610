import Chromatic.Family
import Chromatic.Fault
/-!
# Assignments

The colours to which a search has committed itself so far.
-/

namespace Chromatic

/-- A colour for some of `n` variables. -/
structure Assignment (n : Nat) where
  values : Family n (Option Colour)
deriving DecidableEq

namespace Assignment

variable {n : Nat}

def empty (n : Nat) : Assignment n := ⟨.replicate n none⟩

def value (a : Assignment n) (i : Fin n) : Option Colour := a.values.get i

def isAssigned (a : Assignment n) (i : Fin n) : Bool := (a.value i).isSome

/-- Gives a colour to a variable that has none. -/
def assign (a : Assignment n) (i : Fin n) (c : Colour) : Except Fault (Assignment n) :=
  if a.isAssigned i then .error (.assignedTwice (.ofFin i)) else .ok ⟨a.values.set i (some c)⟩

/-- Takes its colour from a variable that has one. -/
def unassign (a : Assignment n) (i : Fin n) : Except Fault (Assignment n) :=
  if a.isAssigned i then .ok ⟨a.values.set i none⟩ else .error (.notAssigned (.ofFin i))

def numAssigned (a : Assignment n) : Nat := a.values.total fun v => if v.isSome then 1 else 0

def numFree (a : Assignment n) : Nat := a.values.total fun v => if v.isNone then 1 else 0

def isComplete (a : Assignment n) : Bool := a.numAssigned = n

/-- The variables that have a colour, in ascending order, with it. -/
def entries (a : Assignment n) : List (Fin n × Colour) :=
  (List.finRange n).filterMap fun i => (a.value i).map fun c => (i, c)

@[simp] theorem value_empty (i : Fin n) : (empty n).value i = none := by
  simp [empty, value]

theorem ext_value {a b : Assignment n} (h : ∀ i, a.value i = b.value i) : a = b := by
  obtain ⟨f⟩ := a
  obtain ⟨g⟩ := b
  exact congrArg mk (Family.ext_get h)

theorem numAssigned_eq_zero {a : Assignment n} : a.numAssigned = 0 ↔ a = empty n := by
  rw [numAssigned, Family.total_eq_zero]
  constructor
  · intro h
    refine ext_value fun i => ?_
    rw [value_empty, value, ← Option.not_isSome_iff_eq_none]
    exact fun hs => absurd (h i) (by simp [hs])
  · rintro rfl i
    simp [empty]

theorem numFree_eq_zero {a : Assignment n} : a.numFree = 0 ↔ ∀ i, a.value i ≠ none := by
  rw [numFree, Family.total_eq_zero]
  simp [value]

theorem numFree_empty (n : Nat) : (empty n).numFree = n := by
  rw [numFree, empty, Family.total_replicate]
  simp

theorem value_of_assign {a b : Assignment n} {i j : Fin n} {c : Colour}
    (h : a.assign i c = .ok b) : b.value j = if i = j then some c else a.value j := by
  rw [assign] at h
  split at h
  · cases h
  · cases h
    exact Family.get_set ..

theorem value_of_unassign {a b : Assignment n} {i j : Fin n}
    (h : a.unassign i = .ok b) : b.value j = if i = j then none else a.value j := by
  rw [unassign] at h
  split at h
  · cases h
    exact Family.get_set ..
  · cases h

theorem numFree_of_assign {a b : Assignment n} {i : Fin n} {c : Colour}
    (h : a.assign i c = .ok b) : b.numFree + 1 = a.numFree := by
  rw [assign] at h
  split at h
  · cases h
  · next hi =>
    cases h
    have hn : (a.values.get i).isNone = true := by
      simpa [isAssigned, value, Option.not_isSome] using hi
    have ht := a.values.total_set (fun v => if v.isNone then 1 else 0) i (some c)
    simpa [hn, numFree] using ht

theorem numFree_of_unassign {a b : Assignment n} {i : Fin n}
    (h : a.unassign i = .ok b) : b.numFree = a.numFree + 1 := by
  rw [unassign] at h
  split at h
  · next hi =>
    cases h
    have hn : (a.values.get i).isNone = false := by
      simpa [isAssigned, value] using hi
    have ht := a.values.total_set (fun v => if v.isNone then 1 else 0) i none
    simpa [hn, numFree] using ht
  · cases h

end Assignment

end Chromatic
