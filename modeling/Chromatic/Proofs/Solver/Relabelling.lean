import Chromatic.Proofs.Problem.Renaming
import Chromatic.Proofs.Solver.Repetition
/-!
# Solving does not depend on the names of vertices

Only the order of the vertices matters. When they are renamed in the same order, solving makes the
same decisions and comes to the same verdict under the other names.
-/

namespace Chromatic

/-- The work of solving a problem, none when the problem is refused before any search. -/
def solveWork {κ : Type} [TerminationCondition κ] (p : Problem) (limit : κ) : Option Work :=
  match (Solver.create p).1 with
  | .error _ => none
  | .ok s => some (s.satisfy limit).2.1.work

def Verdict.rename (f : Vertex → Vertex) : Verdict → Verdict
  | satisfiable s => satisfiable (s.rename f)
  | unsatisfiable reason => unsatisfiable (reason.rename f)
  | unknown => unknown

private theorem Outcome.verdict_map (f : Vertex → Vertex) (outcome : Outcome) :
    (outcome.map (Solution.rename f)).verdict = outcome.verdict.rename f := by
  cases outcome <;> rfl

section Answers

variable {p : Problem} {κ : Type} [TerminationCondition κ]

theorem solve_of_objection {reason : Infeasibility} (h : p.objection = some reason) (limit : κ) :
    (solve p limit).1 = .ok (.unsatisfiable reason) ∧ solveWork p limit = none := by
  have hcreate := Solver.create_eq_error.mpr h
  refine ⟨solve_of_error hcreate limit, ?_⟩
  simp only [solveWork, hcreate]

private theorem solve_of_search {limit : κ} {outcome : Outcome} {work : Work}
    (h : p.objection = none)
    (hs : (Graph.ofProblem p).search p.usableColours limit = (.ok outcome, work)) :
    (solve p limit).1 = .ok outcome.verdict ∧ solveWork p limit = some work := by
  have hcreate := Solver.create_of_objection_eq_none h
  obtain ⟨hresult, hwork⟩ := Prod.mk.inj hs
  have hrun : (p.rootSearch.run limit).1 = .ok outcome := hresult
  constructor
  · rw [solve_of_ok hcreate]
    exact congrArg (Except.map Outcome.verdict) hrun
  · simp only [solveWork, hcreate]
    exact congrArg some ((Solver.satisfy_work hrun).2.trans hwork)

end Answers

/-- Renaming the vertices of a problem in the same order renames them in the verdict, and changes
nothing else: whatever the limit, solving does the same work. -/
theorem solve_rename {κ : Type} [TerminationCondition κ] (p : Problem) (f : Vertex → Vertex)
    (hf : StrictMonoOn f {v | v ∈ p.vertices}) (limit : κ) :
    ∃ verdict, (solve p limit).1 = .ok verdict ∧
      (solve (p.rename f hf) limit).1 = .ok (verdict.rename f) ∧
      solveWork (p.rename f hf) limit = solveWork p limit := by
  cases hobjection : p.objection with
  | some reason =>
    have hrefused : (p.rename f hf).objection = some (reason.rename f) := by
      rw [Problem.objection_rename, hobjection]
      rfl
    obtain ⟨hsolve, hwork⟩ := solve_of_objection hobjection limit
    obtain ⟨hsolve', hwork'⟩ := solve_of_objection hrefused limit
    exact ⟨.unsatisfiable reason, hsolve, hsolve', hwork'.trans hwork.symm⟩
  | none =>
    have haccepted : (p.rename f hf).objection = none := by
      rw [Problem.objection_rename, hobjection]
      rfl
    obtain ⟨outcome, work, hs, hs'⟩ := (Graph.ofProblem p).search_relabel f
      (Problem.orders_ofProblem hf) p.usableColours limit
    rw [← Problem.ofProblem_rename hf, ← Problem.usableColours_rename hf] at hs'
    obtain ⟨hsolve, hwork⟩ := solve_of_search hobjection hs
    obtain ⟨hsolve', hwork'⟩ := solve_of_search haccepted hs'
    rw [Outcome.verdict_map] at hsolve'
    exact ⟨outcome.verdict, hsolve, hsolve', hwork'.trans hwork.symm⟩

def spread (v : Vertex) : Vertex := 3 * v - 5

private theorem strictMono_spread : StrictMono spread := by
  intro u v huv
  simp only [spread]
  lia

/-- The path with the vertices 0, 1 and 2 renamed to -5, -2 and 1. -/
theorem solve_rename_path :
    (solve (.ofStatements (some 2) [] [(-5, -2), (-2, 1)]) Limit.indefinite).1 =
      .ok (.satisfiable (.ofList [(-5, 1), (-2, 2), (1, 1)])) := by
  let path : Problem := .ofStatements (some 2) [] [(0, 1), (1, 2)]
  have hrename : path.rename spread (strictMono_spread.strictMonoOn _) =
      .ofStatements (some 2) [] [(-5, -2), (-2, 1)] := by decide +kernel
  have hpath : (solve path Limit.indefinite).1 =
      .ok (.satisfiable (.ofList [(0, 1), (1, 2), (2, 1)])) := by
    rw [solve_of_ok (Solver.create_of_objection_eq_none (by decide)), Search.run_within 12]
    decide +kernel
  obtain ⟨verdict, hverdict, hrenamed, -⟩ :=
    solve_rename path spread (strictMono_spread.strictMonoOn _) Limit.indefinite
  rw [hpath] at hverdict
  rw [← hrename, hrenamed, ← Except.ok.inj hverdict]
  decide +kernel

end Chromatic
