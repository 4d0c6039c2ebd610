import Chromatic.Branching.View
import Chromatic.Event
import Chromatic.Limit
import Chromatic.Propagation
/-!
# The state of a search

A search goes down one variable at a time. The stack holds a frame for each variable that was
chosen, with the colours not tried yet; every frame but the top one belongs to a variable that
has a colour.
-/

namespace Chromatic

/-- A chosen variable with the colours not tried yet, and the checkpoint of the moment before
any of its colours was tried. -/
structure Frame where
  target : VariableId
  untried : List Colour
  checkpoint : Nat
deriving DecidableEq

/-- The work done by all searches so far. -/
structure SearchCounters where
  decisions : Nat
  /-- The number of variables none of whose colours was kept. -/
  backtracks : Nat
  /-- The number of tried colours that a neighbour turned out to have. -/
  neighbourConflicts : Nat
  /-- The time spent searching, in milliseconds, as charged by whoever holds the clock. -/
  milliseconds : Nat
deriving DecidableEq

structure Search (G : Graph) (σ τ : Type) where
  store : Store G.order
  assignment : Assignment G.order
  propagation : PropagationCounters
  variableSelector : σ
  valueSelector : τ
  /-- The stack, the top frame first. -/
  frames : List Frame
  counters : SearchCounters
  /-- What happened since the log was taken, the newest event first. -/
  log : List Event

/-- How a search ended. -/
inductive Outcome
  | solved (s : Solution)
  | exhausted
  | interrupted
deriving DecidableEq

namespace Search

variable {G : Graph} {σ τ : Type}

/-- The search in which every variable may take the colours from one up to `k`. -/
def start (G : Graph) (k : Nat) (variableSelector : σ) (valueSelector : τ) : Search G σ τ where
  store := .full G.order k
  assignment := .empty G.order
  propagation := ⟨0, 0⟩
  variableSelector := variableSelector
  valueSelector := valueSelector
  frames := []
  counters := ⟨0, 0, 0, 0⟩
  log := []

def view (s : Search G σ τ) : View G := ⟨s.store, s.assignment⟩

def note (s : Search G σ τ) (e : Event) : Search G σ τ := { s with log := e :: s.log }

/-- Takes the log, the oldest event first, and empties it. -/
def takeLog (s : Search G σ τ) : List Event × Search G σ τ :=
  (s.log.reverse, { s with log := [] })

/-- The colours of the assignment on the labels of the graph. -/
def solution (s : Search G σ τ) : Solution :=
  .ofList (s.assignment.entries.map fun e => (G.label e.1, e.2))

def charge (s : Search G σ τ) (milliseconds : Nat) : Search G σ τ :=
  { s with counters :=
    { s.counters with milliseconds := s.counters.milliseconds + milliseconds } }

/-- Takes over what propagation leaves; tells whether no domain is empty. -/
def absorb (s : Search G σ τ) (r : Propagated G.order) : Bool × Search G σ τ :=
  let s := { s with store := r.store, propagation := r.counters }
  match r.emptiedBy with
  | none => (true, s)
  | some a => (false, s.note (.domainEmptied (.ofFin a.tail) (.ofFin a.head)))

/-- Makes every arc consistent before the first decision; tells whether no domain is empty. -/
def propagateRoot (s : Search G σ τ) : Bool × Search G σ τ :=
  let (consistent, s) := s.absorb (G.propagateAll s.store s.propagation)
  (consistent, s.note (.rootPropagated s.store.checkpoint))

end Search

end Chromatic
