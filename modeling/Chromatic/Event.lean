import Chromatic.Fault
import Chromatic.Verdict
/-!
# Events

What a search reports while it works. Every event has a level and a wording.
-/

namespace Chromatic

/-- How much an event matters, the least first. -/
inductive Level
  | trace
  | debug
  | info
  | warn
  | error
deriving DecidableEq

namespace Level

def name : Level → String
  | trace => "TRACE"
  | debug => "DEBUG"
  | info => "INFO"
  | warn => "WARN"
  | error => "ERROR"

def rank : Level → Nat
  | trace => 0
  | debug => 1
  | info => 2
  | warn => 3
  | error => 4

end Level

structure LogLine where
  level : Level
  text : String
deriving DecidableEq

/-- Why a colour could not be kept for a variable. -/
inductive Failure
  | emptyDomain
  /-- The neighbour already has the colour. -/
  | assignedNeighbour (y : VariableId)
deriving DecidableEq

def Failure.name : Failure → String
  | emptyDomain => "EmptyDomain"
  | assignedNeighbour y => "AssignedNeighbour(" ++ y.longForm ++ ")"

/-- Something that a search, a solver or its statistics report. -/
inductive Event
  /-- There are more colours than vertices, and only one a vertex is used. -/
  | coloursClamped (used : Nat) (stated : Int)
  | accepted (vertices constraints colours : Nat)
  /-- The revision of an arc emptied the domain of its tail. -/
  | domainEmptied (tail head : VariableId)
  /-- Every arc was revised before the first decision. -/
  | rootPropagated (removals : Nat)
  | rootEmptied
  | valueFailed (x : VariableId) (c : Colour) (cause : Failure)
  /-- A neighbour has the colour that propagation let pass. -/
  | neighbourConflict (x : VariableId) (c : Colour) (y : VariableId)
  | backtracked (x : VariableId)
  | interrupted
  /-- The search is over; the counts are those of all searches so far. -/
  | finished (decisions backtracks : Nat)
  | found (colours : Nat)
  | exhausted
  | rejected (reason : Infeasibility)
  | statisticLost (cause : String)
deriving DecidableEq

namespace Event

/-- The level and wording of an event. -/
def logLine : Event → LogLine
  | coloursClamped used stated =>
    ⟨.debug, s!"Using {used} of the {stated} colours, one per vertex"⟩
  | accepted vertices constraints colours =>
    ⟨.info, s!"Colouring {vertices} vertices and {constraints} constraints with {colours} colours"⟩
  | domainEmptied tail head => ⟨.trace, s!"Domain of {tail} was emptied by {head}"⟩
  | rootPropagated removals => ⟨.debug, s!"Root propagation removed {removals} values"⟩
  | rootEmptied => ⟨.debug, "Root propagation emptied a domain"⟩
  | valueFailed x c cause => ⟨.trace, s!"{x} = {c} failed: {cause.name}"⟩
  | neighbourConflict x c y =>
    ⟨.warn, s!"{x} = {c} conflicts with assigned neighbour {y} after propagation"⟩
  | backtracked x => ⟨.trace, s!"Backtracking from {x}"⟩
  | interrupted => ⟨.debug, "Search was interrupted by the termination condition"⟩
  | finished decisions backtracks =>
    ⟨.debug, s!"Search finished after {decisions} decisions and {backtracks} backtracks"⟩
  | found colours => ⟨.info, s!"Found a colouring using {colours} colours"⟩
  | exhausted => ⟨.info, "The search space was exhausted"⟩
  | rejected reason => ⟨.info, "No colouring exists: " ++ reason.message⟩
  | statisticLost cause => ⟨.debug, "Could not write statistic: " ++ cause⟩

end Event

end Chromatic
