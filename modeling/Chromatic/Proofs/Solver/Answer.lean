import Chromatic.Proofs.Solver.GapFree
import Mathlib.Data.List.Sort
/-!
# Answers

The answer to any problem, whether it makes sense or not. A solution is found exactly if there are
colours, no vertex is required to differ from itself, and there is a colouring; the other problems
are refused or found to have no colouring. A search that nothing stops always finds the answer.
-/

namespace Chromatic

/-- The problem makes sense and has a colouring. -/
structure Problem.Solvable (p : Problem) : Prop where
  one_le_colourCount : ∃ k, p.colourCount = some k ∧ 1 ≤ k
  selfConstraint_eq : p.selfConstraint = none
  colourable : p.Colourable

/-- The solution colours every vertex once, in ascending order, with the stated colours, and the
two vertices of every constraint differ. -/
structure Solution.Solves (s : Solution) (p : Problem) : Prop where
  vertices_eq : s.entries.map Prod.fst = p.vertices
  allowed : ∀ e ∈ s.entries, p.Allows e.2
  proper : ∀ c ∈ p.constraints, s.colourOf c.low ≠ s.colourOf c.high

/-- The verdict is the right one: a solution exactly if there is one. -/
inductive Verdict.Answers (p : Problem) : Verdict → Prop
  | satisfiable {s : Solution} (hp : p.Solvable) (hs : s.Solves p) : Answers p (.satisfiable s)
  | unsatisfiable {reason : Infeasibility} (hp : ¬p.Solvable) : Answers p (.unsatisfiable reason)

variable {p : Problem} {k : Int} {s : Solution} {κ : Type} [TerminationCondition κ] {limit : κ}

end Chromatic
