import Chromatic.Variable
import Chromatic.Problem
/-!
# Faults

A fault is a use of the search machinery against its rules. It is no verdict on a problem.
-/

namespace Chromatic

/-- A broken rule of use. -/
inductive Fault
  | outOfBounds (size index : Nat)
  /-- A variable received a second colour before losing the first. -/
  | assignedTwice (x : VariableId)
  | notAssigned (x : VariableId)
  /-- A checkpoint lies beyond the end of the trail. -/
  | undoBeyond (checkpoint length : Nat)
  /-- A removal should be undone whose value was not missing. -/
  | stillPresent (c : Colour) (x : VariableId)
  | notAtRoot
  /-- Fewest remaining colours were to be found with a tie breaker for the maximum. -/
  | maximumDirection
deriving DecidableEq

namespace Fault

def message : Fault → String
  | outOfBounds size index =>
    s!"index out of bounds: the len is {size} but the index is {index}"
  | assignedTwice x => s!"{x} is assigned twice"
  | notAssigned x => s!"{x} is unassigned but it has no value"
  | undoBeyond checkpoint length =>
    s!"Cannot undo to checkpoint {checkpoint}, the trail only has {length} entries"
  | stillPresent c x => s!"The value {c} was on the trail of {x} but still in its domain"
  | notAtRoot => "The search has to start at the root"
  | maximumDirection =>
    "assertion \x60left == right\x60 failed: " ++
      "MinimumRemainingValues needs a tie-breaker which looks for the minimum\n" ++
      "  left: Maximum\n right: Minimum"

end Fault

/-- The place of a variable among `n` variables. -/
def VariableId.locate (n : Nat) (x : VariableId) : Except Fault (Fin n) :=
  if h : x.index < n then .ok ⟨x.index, h⟩ else .error (.outOfBounds n x.index)

@[simp] theorem VariableId.locate_ofFin {n : Nat} (i : Fin n) :
    (VariableId.ofFin i).locate n = .ok i := by
  simp [locate, ofFin]

end Chromatic
