import Chromatic.Solution
/-!
# Verdicts

The answer to a problem: a colouring, a reason why there is none, or nothing yet.
-/

namespace Chromatic

/-- Why a problem has no colouring. -/
inductive Infeasibility
  | missingColourCount
  /-- The stated number of colours is less than one. -/
  | nonPositiveColourCount (k : Int)
  | selfConstraint (v : Vertex)
  /-- There is one colour, and there are constraints. -/
  | singleColour (numConstraints : Nat)
  /-- Propagation emptied a domain before any decision. -/
  | rootInconsistency
  | exhausted
deriving DecidableEq

def Infeasibility.message : Infeasibility → String
  | missingColourCount => "invalid problem: the number of colours was not specified"
  | nonPositiveColourCount k =>
    s!"invalid problem: the number of colours must be at least 1, got {k}"
  | selfConstraint v => s!"invalid problem: vertex {v} is constrained to differ from itself"
  | singleColour m => s!"a single colour cannot satisfy {m} constraints"
  | rootInconsistency => "arc consistency at the root emptied a domain"
  | exhausted => "every branch of the search failed"

inductive Verdict
  /-- A proper colouring of every vertex. -/
  | satisfiable (s : Solution)
  | unsatisfiable (reason : Infeasibility)
  | unknown
deriving DecidableEq

namespace Verdict

def solution : Verdict → Option Solution
  | satisfiable s => some s
  | _ => none

def line : Verdict → String
  | satisfiable s => s.line
  | unsatisfiable _ => "failure"
  | unknown => "unknown"

end Verdict

end Chromatic
