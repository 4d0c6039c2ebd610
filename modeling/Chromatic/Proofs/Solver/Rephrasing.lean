import Chromatic.Proofs.Problem.Additions
import Chromatic.Proofs.Solver.Relabelling
/-!
# Solving does not depend on the order of additions

In whatever order a problem is built up, it is the same problem, unless a vertex is required to
differ from itself. Then it is refused before any search, but another such vertex may be named.
-/

namespace Chromatic

section Refused

variable {p q : Problem} {u v : Vertex}

private theorem Problem.objection_of_selfConstraint (hk : p.colourCount = q.colourCount)
    (hp : p.selfConstraint = some u) (hq : q.selfConstraint = some v) :
    (∃ reason, p.objection = some reason ∧ q.objection = some reason) ∨
      p.objection = some (.selfConstraint u) ∧ q.objection = some (.selfConstraint v) := by
  cases hcount : q.colourCount with
  | none => exact .inl ⟨.missingColourCount, by simp [objection, hk, hcount]⟩
  | some k =>
    by_cases h1 : k < 1
    · exact .inl ⟨.nonPositiveColourCount k, by simp [objection, hk, hcount, h1]⟩
    · exact .inr (by simp [objection, hk, hcount, h1, hp, hq])

private theorem solve_of_selfConstraint {κ : Type} [TerminationCondition κ]
    (hk : p.colourCount = q.colourCount) (hp : p.selfConstraint = some u)
    (hq : q.selfConstraint = some v) (limit : κ) :
    ((solve p limit).1 = (solve q limit).1 ∨
      (solve p limit).1 = .ok (.unsatisfiable (.selfConstraint u)) ∧
        (solve q limit).1 = .ok (.unsatisfiable (.selfConstraint v))) ∧
      solveWork p limit = solveWork q limit := by
  rcases Problem.objection_of_selfConstraint hk hp hq with ⟨reason, hobj, hobj'⟩ | ⟨hobj, hobj'⟩
  all_goals
    obtain ⟨hsolve, hwork⟩ := solve_of_objection hobj limit
    obtain ⟨hsolve', hwork'⟩ := solve_of_objection hobj' limit
    refine ⟨?_, hwork.trans hwork'.symm⟩
  · exact .inl (hsolve.trans hsolve'.symm)
  · exact .inr ⟨hsolve, hsolve'⟩

end Refused

/-- Additions that are rephrased build up a problem with the same vertices and the same
constraints. Whatever the limit, solving it comes to the same verdict by the same work, except that
of the vertices required to differ from themselves another one may be named. -/
theorem solve_rephrased {l m : List Addition} (h : Rephrased l m) (k : Option Int) {κ : Type}
    [TerminationCondition κ] (limit : κ) :
    (Problem.build k l).vertices = (Problem.build k m).vertices ∧
      (Problem.build k l).constraints = (Problem.build k m).constraints ∧
      ((Problem.build k l).selfConstraint = none ↔ (Problem.build k m).selfConstraint = none) ∧
      ((solve (Problem.build k l) limit).1 = (solve (Problem.build k m) limit).1 ∨
        ∃ u v, (solve (Problem.build k l) limit).1 = .ok (.unsatisfiable (.selfConstraint u)) ∧
          (solve (Problem.build k m) limit).1 = .ok (.unsatisfiable (.selfConstraint v))) ∧
      solveWork (Problem.build k l) limit = solveWork (Problem.build k m) limit := by
  refine ⟨h.vertices_eq, h.constraints_eq, h.selfConstraint_iff, ?_⟩
  cases hl : (Problem.build k l).selfConstraint with
  | none =>
    rw [h.build_eq hl]
    exact ⟨.inl rfl, rfl⟩
  | some u =>
    have hm : (Problem.build k m).selfConstraint ≠ none := by
      rw [ne_eq, ← h.selfConstraint_iff, hl]
      simp
    obtain ⟨v, hv⟩ := Option.ne_none_iff_exists'.mp hm
    have hcount : (Problem.build k l).colourCount = (Problem.build k m).colourCount := by
      rw [Problem.colourCount_build, Problem.colourCount_build]
    obtain ⟨hsame | hself, hwork⟩ := solve_of_selfConstraint hcount hl hv limit
    · exact ⟨.inl hsame, hwork⟩
    · exact ⟨.inr ⟨u, v, hself⟩, hwork⟩

/-- A path and a vertex apart from it, built up in two ways. -/
theorem solve_rephrased_path :
    (solve (Problem.build (some 2) [.vertex 7, .constraint 2 3, .constraint 2 1, .vertex 7])
      Limit.indefinite).1 = .ok (.satisfiable (.ofList [(1, 1), (2, 2), (3, 1), (7, 1)])) := by
  let first : List Addition := [.constraint 1 2, .constraint 2 3, .vertex 7]
  have hrephrased :
      Rephrased first [.vertex 7, .constraint 2 3, .constraint 2 1, .vertex 7] := by
    apply Rephrased.trans (.exchanged 1 2 _)
    apply Rephrased.trans (.repeated (s := .vertex 7) (by decide))
    exact .permuted (by decide)
  have hfirst : (solve (Problem.build (some 2) first) Limit.indefinite).1 =
      .ok (.satisfiable (.ofList [(1, 1), (2, 2), (3, 1), (7, 1)])) := by
    rw [solve_of_ok (Solver.create_of_objection_eq_none (by decide)), Search.run_within 12]
    decide +kernel
  obtain ⟨-, -, -, hsame | ⟨u, v, hself, -⟩, -⟩ :=
    solve_rephrased hrephrased (some 2) Limit.indefinite
  · rw [← hsame, hfirst]
  · rw [hfirst] at hself
    cases hself

end Chromatic
