import Chromatic.Branching.FewestColours
import Chromatic.Branching.LeastConstraining
import Chromatic.Search.Run
import Chromatic.Statistics.Name
/-!
# Solving problems

A solver takes a problem that makes sense, narrows the domains once and for all, and then
searches as often as it is asked to. Every search starts from the same state, so asking again
gives the same verdict.
-/

namespace Chromatic

namespace Problem

/-- The first reason to refuse a problem before looking at its graph. -/
def objection (p : Problem) : Option Infeasibility :=
  match p.colourCount with
  | none => some .missingColourCount
  | some k =>
    if k < 1 then some (.nonPositiveColourCount k)
    else
      match p.selfConstraint with
      | some v => some (.selfConstraint v)
      | none =>
        if k = 1 ∧ p.constraints ≠ [] then some (.singleColour p.constraints.length) else none

/-- The number of colours worth trying: no colouring needs more colours than vertices. -/
def usableColours (p : Problem) : Nat :=
  match p.colourCount with
  | none => 0
  | some k => min k.toNat (max p.vertices.length 1)

/-- What there is to report when not every stated colour is tried. -/
def clampEvents (p : Problem) : List Event :=
  match p.colourCount with
  | none => []
  | some k => if p.usableColours < k then [.coloursClamped p.usableColours k] else []

/-- The search on the graph of a problem, fewest colours and least constraining colour first. -/
abbrev StandardSearch (p : Problem) : Type :=
  Search (Graph.ofProblem p) FewestColours LeastConstraining

/-- The search on a problem before any propagation. -/
def startSearch (p : Problem) : p.StandardSearch :=
  .start (Graph.ofProblem p) p.usableColours .standard {}

end Problem

namespace Search

variable {G : Graph} {σ τ : Type}

/-- The counters of the search and of propagation under their names. -/
def statistics (s : Search G σ τ) : List Statistic :=
  let own (name : String) (value : Nat) := Statistic.ofCounter (.ofParts [name]) value
  let ac3 (name : String) (value : Nat) :=
    Statistic.ofCounter ((StatisticName.ofParts ["ac3"]).attach name) value
  [own "num_decisions" s.counters.decisions,
    own "num_backtracks" s.counters.backtracks,
    own "num_neighbour_conflicts" s.counters.neighbourConflicts,
    own "time_spent_in_solver" s.counters.milliseconds,
    ac3 "num_revisions" s.propagation.revisions,
    ac3 "num_removals" s.propagation.removals]

end Search

/-- A solver for a problem. -/
structure Solver where
  problem : Problem
  search : problem.StandardSearch

namespace Solver

/-- A solver for a problem, or the reason why the problem has no colouring, with the events on
the way. -/
def create (p : Problem) : Except Infeasibility Solver × List Event :=
  match p.objection with
  | some reason => (.error reason, [])
  | none =>
    let G := Graph.ofProblem p
    let (consistent, search) := p.startSearch.propagateRoot
    let (rootLog, search) := search.takeLog
    let log := p.clampEvents ++ .accepted G.order G.numEdges p.usableColours :: rootLog
    if consistent then (.ok ⟨p, search⟩, log)
    else (.error .rootInconsistency, log ++ [.rootEmptied])

/-- Turns the result of a search into a verdict. -/
def settle (s : Solver) (result : Except Fault Outcome) (search : s.problem.StandardSearch) :
    Except Fault Verdict × Solver :=
  match result with
  | .error fault => (.error fault, { s with search })
  | .ok (.solved solution) =>
    (.ok (.satisfiable solution),
      { s with search := search.note (.found solution.numColoursUsed) })
  | .ok .exhausted =>
    (.ok (.unsatisfiable .exhausted), { s with search := search.note .exhausted })
  | .ok .interrupted => (.ok .unknown, { s with search })

/-- Searches until there is a verdict or the limit is reached. -/
def satisfy {κ : Type} [TerminationCondition κ] (s : Solver) (limit : κ) :
    Except Fault Verdict × Solver × κ :=
  let (result, search, limit) := s.search.run limit
  let (verdict, s) := s.settle result search
  (verdict, s, limit)

def takeLog (s : Solver) : List Event × Solver :=
  let (log, search) := s.search.takeLog
  (log, { s with search })

/-- The size of the problem and the counters of all searches so far. -/
def statistics (s : Solver) : List Statistic :=
  let G := Graph.ofProblem s.problem
  .ofCounter (.ofParts ["num_variables"]) G.order ::
    .ofCounter (.ofParts ["num_constraints"]) G.numEdges :: s.search.statistics

end Solver

/-- Solves a problem in one go; a problem that is refused has no colouring. -/
def solve {κ : Type} [TerminationCondition κ] (p : Problem) (limit : κ) :
    Except Fault Verdict × List Event :=
  match Solver.create p with
  | (.error reason, log) => (.ok (.unsatisfiable reason), log ++ [.rejected reason])
  | (.ok s, log) =>
    let (verdict, s, _) := s.satisfy limit
    (verdict, log ++ s.takeLog.1)

end Chromatic
