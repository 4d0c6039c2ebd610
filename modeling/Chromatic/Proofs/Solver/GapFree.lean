import Chromatic.Proofs.Search.GapFree
import Chromatic.Proofs.Solver.Reached
/-!
# Colourings without a gap

A colouring that a solver returns has the colours from one up to the number of its colours, and
the vertex with the smallest label has colour one.
-/

namespace Chromatic

namespace Solution

variable {s : Solution} {c : Colour}

private theorem mem_coloursUsed : c ∈ s.coloursUsed ↔ ∃ v, s.colourOf v = some c := by
  simp [coloursUsed, mem_foldr_insertAscending, colourOf_eq_some]

private theorem nodup_coloursUsed (s : Solution) : s.coloursUsed.Nodup :=
  (pairwise_foldr_insertAscending _).imp Nat.ne_of_lt

private theorem numColoursUsed_eq {m : Nat} (h : ∀ c, c ∈ s.coloursUsed ↔ 1 ≤ c ∧ c ≤ m) :
    s.numColoursUsed = m := by
  have hperm : s.coloursUsed.Perm (List.range' 1 m) := by
    refine (List.perm_ext_iff_of_nodup s.nodup_coloursUsed List.nodup_range').mpr fun c => ?_
    rw [h c, List.mem_range'_1]
    lia
  rw [numColoursUsed, hperm.length_eq, List.length_range']

end Solution

namespace Solver

private theorem solved_of_settle (s : Solver) {result : Except Fault Outcome}
    {search : s.problem.StandardSearch} {sol : Solution}
    (h : (s.settle result search).1 = .ok (.satisfiable sol)) : result = .ok (.solved sol) := by
  rcases result with _ | _ | _ | _
  all_goals cases h
  rfl

/-- However often a solver was asked before, the colours of a colouring that it returns are those
from one up to the number of colours in use, and the first vertex has colour one. -/
theorem satisfy_gapless {p : Problem} {s : Solver} {κ : Type} [TerminationCondition κ]
    (hs : Reached p s) (limit : κ) {sol : Solution}
    (h : (s.satisfy limit).1 = .ok (.satisfiable sol)) :
    (∀ c, (∃ v, sol.colourOf v = some c) ↔ 1 ≤ c ∧ c ≤ sol.numColoursUsed) ∧
      ∀ v ∈ p.vertices, (∀ u ∈ p.vertices, v ≤ u) → sol.colourOf v = some 1 := by
  obtain rfl := hs.problem_eq
  have hrun := s.solved_of_settle h
  obtain ⟨⟨m, hm⟩, hfirst⟩ := Search.run_gapless hs.one_le_usableColours hs.prepared hrun
  have hnum : sol.numColoursUsed = m :=
    Solution.numColoursUsed_eq fun c => Solution.mem_coloursUsed.trans (hm c)
  rw [hnum]
  refine ⟨hm, fun v hv hleast => ?_⟩
  have hplace := hfirst (Graph.place s.problem v hv) fun j => by
    by_contra hj
    have hlt := (Graph.ofProblem s.problem).label_lt_label (Fin.not_le.mp hj)
    rw [Graph.label_place] at hlt
    exact absurd (hleast _ (Graph.label_mem j)) (Int.not_le.mpr hlt)
  rwa [Graph.label_place] at hplace

/-- A problem on which the search goes back once before it finds a colouring. -/
def goingBack : Problem :=
  .ofStatements (some 3) [] [(1, 2), (0, 3), (2, 3), (0, 4), (1, 4), (1, 5), (2, 5), (4, 5)]

theorem satisfy_gapless_goingBack :
    ((⟨goingBack, goingBack.rootSearch⟩ : Solver).satisfy Limit.indefinite).1 =
        .ok (.satisfiable (.ofList [(0, 1), (1, 1), (2, 3), (3, 2), (4, 3), (5, 2)])) ∧
      (Solution.ofList [(0, 1), (1, 1), (2, 3), (3, 2), (4, 3), (5, 2)]).colourOf 0 = some 1 := by
  have hs : Reached goingBack ⟨goingBack, goingBack.rootSearch⟩ :=
    .created (Prod.ext (Problem.create_of_accepted (k := 3) rfl (by decide) (by decide +kernel)
      (by decide)) rfl)
  have h : ((⟨goingBack, goingBack.rootSearch⟩ : Solver).satisfy Limit.indefinite).1 =
      .ok (.satisfiable (.ofList [(0, 1), (1, 1), (2, 3), (3, 2), (4, 3), (5, 2)])) := by
    rw [satisfy_eq, Search.run_within 12]
    decide +kernel
  exact ⟨h, (satisfy_gapless hs Limit.indefinite h).2 0 (by decide +kernel) (by decide +kernel)⟩

end Solver

end Chromatic
