import Chromatic.Proofs.Search.Completion
import Chromatic.Proofs.Solver.BacktrackFree
import Mathlib.Combinatorics.SimpleGraph.Star
/-!
# Problems that propagation keeps solvable

The constraints of a problem make a graph of its vertices. When this graph has no cycle, or when it
is bipartite and there are two colours, consistent arcs promise that every colour holds. With two
colours a single decision settles all vertices that are connected to its own.
-/

namespace Chromatic

/-- The graph whose edges are the constraints. -/
def Problem.constraintGraph (p : Problem) : SimpleGraph Vertex where
  Adj u v := ∃ c ∈ p.constraints, c.low = u ∧ c.high = v ∨ c.low = v ∧ c.high = u
  symm := by
    refine ⟨fun u v h => ?_⟩
    obtain ⟨c, hc, h⟩ := h
    exact ⟨c, hc, h.symm⟩
  loopless := by
    refine ⟨fun v h => ?_⟩
    obtain ⟨c, -, h⟩ := h
    have hlt := c.low_lt_high
    lia

namespace Graph

variable {p : Problem} {i j : Fin (ofProblem p).order}

private theorem toSimple_ofProblem (p : Problem) :
    (ofProblem p).toSimple = p.constraintGraph.comap (ofProblem p).label := by
  ext i j
  exact label_mem_neighbours.symm.trans Problem.mem_neighbours

private theorem toSimple_isAcyclic (h : p.constraintGraph.IsAcyclic) :
    (ofProblem p).toSimple.IsAcyclic := by
  rw [toSimple_ofProblem]
  exact h.of_comap ⟨(ofProblem p).label, (ofProblem p).label_injective⟩

private theorem toSimple_isBipartite (h : p.constraintGraph.IsBipartite) :
    (ofProblem p).toSimple.IsBipartite := by
  rw [toSimple_ofProblem]
  exact h.of_hom (SimpleGraph.Hom.comap (ofProblem p).label p.constraintGraph)

private theorem reachable_of_label
    (h : p.constraintGraph.Reachable ((ofProblem p).label i) ((ofProblem p).label j)) :
    (ofProblem p).toSimple.Reachable i j := by
  -- all vertices on the way have variables
  obtain ⟨path⟩ := h
  generalize hu : (ofProblem p).label i = u at path
  generalize hv : (ofProblem p).label j = v at path
  induction path generalizing i with
  | nil =>
    obtain rfl := (ofProblem p).label_injective (hu.trans hv.symm)
    exact .refl i
  | @cons u w v hadj _ ih =>
    have hw : w ∈ p.vertices := by
      obtain ⟨c, hc, ⟨-, rfl⟩ | ⟨rfl, -⟩⟩ := hadj
      · exact (p.endpoints_mem c hc).2
      · exact (p.endpoints_mem c hc).1
    obtain ⟨l, hl⟩ : ∃ l, (ofProblem p).label l = w := ⟨place p w hw, label_place hw⟩
    have hstep : (ofProblem p).toSimple.Adj i l := by
      rw [toSimple_ofProblem, SimpleGraph.comap_adj, hu, hl]
      exact hadj
    exact hstep.reachable.trans (ih hl hv)

end Graph

namespace Solver

variable {p : Problem} {k : Int}

private theorem objection_of_two_le (hk : p.colourCount = some k) (h2 : 2 ≤ k)
    (hself : p.selfConstraint = none) : p.objection = none := by
  rw [Problem.objection_eq hk (by omega) hself]
  apply if_neg
  omega

private theorem backtrackFree_of_completes (hp : p.objection = none)
    (hG : (Graph.ofProblem p).Completes p.usableColours) : p.BacktrackFree := by
  apply Problem.BacktrackFree.of_unfailing hp (Search.unfailing_of_completes hG)
  intro s hs
  exact ⟨hs.consistent (Problem.one_le_usableColours hp), hs.atRoot.bounded⟩

/-- A problem with at least two colours whose constraints make no cycle needs no going back. -/
theorem satisfy_forest (hk : p.colourCount = some k) (h2 : 2 ≤ k)
    (hself : p.selfConstraint = none) (hG : p.constraintGraph.IsAcyclic) : p.BacktrackFree := by
  apply backtrackFree_of_completes (objection_of_two_le hk h2 hself)
  exact Graph.completes_of_isAcyclic (Graph.toSimple_isAcyclic hG) _

/-- Three vertices around a fourth one, and a vertex by itself. -/
def star : Problem := .ofStatements (some 3) [7] [(1, 5), (2, 5), (3, 5)]

theorem satisfy_forest_star :
    let s : Solver := ⟨star, star.rootSearch⟩
    (∃ sol, (s.satisfy Limit.indefinite).1 = .ok (.satisfiable sol)) ∧
      (s.satisfy Limit.indefinite).2.1.work.decisions = 5 := by
  intro s
  have hcentre : ∀ c ∈ star.constraints, c.high = 5 := by decide +kernel
  have hforest : star.constraintGraph.IsAcyclic := by
    refine (SimpleGraph.isAcyclic_starGraph 5).anti ?_
    intro u v huv
    rw [SimpleGraph.starGraph_adj]
    refine ⟨huv.ne, ?_⟩
    obtain ⟨c, hc, ⟨-, rfl⟩ | ⟨-, rfl⟩⟩ := huv
    · exact .inr (hcentre c hc)
    · exact .inl (hcentre c hc)
  have hfree := satisfy_forest (p := star) (k := 3) rfl (by decide) (by decide) hforest
  have hcreate := create_of_objection_eq_none (p := star) (by decide +kernel)
  obtain ⟨sol, hsat, hdecisions, -⟩ := hfree.straight s Limit Limit.indefinite
    (.created (Prod.ext hcreate rfl)) Limit.neverStops_indefinite
  have hzero : s.work.decisions = 0 := by decide +kernel
  have hvertices : star.vertices.length = 5 := by decide +kernel
  rw [hzero, hvertices] at hdecisions
  exact ⟨⟨sol, hsat⟩, hdecisions⟩

/-- A problem with two colours whose constraints make a bipartite graph needs no going back.
Whenever a search looks at its top frame, the colour that it tries next holds, and leaves a single
colour to every vertex that is connected to the one on top. -/
theorem satisfy_bipartite (hk : p.colourCount = some 2) (hself : p.selfConstraint = none)
    (hG : p.constraintGraph.IsBipartite) :
    p.BacktrackFree ∧
      ∀ (s : Solver) (κ : Type) [TerminationCondition κ] (free limit : κ)
        (t : s.problem.StandardSearch), Reached p s → NeverStops free →
          Search.AtHead s.search free t limit →
            ∃ i c rest checkpoint below u,
              t.frames = ⟨.ofFin i, c :: rest, checkpoint⟩ :: below ∧
              t.attempt (.ofFin i) c = (.ok none, u) ∧
              ∀ j, p.constraintGraph.Reachable ((Graph.ofProblem s.problem).label i)
                ((Graph.ofProblem s.problem).label j) → ∃ d, (u.store.domain j).values = [d] := by
  have hp := objection_of_two_le hk le_rfl hself
  have htwo : p.usableColours ≤ 2 := by
    rw [Problem.usableColours_eq hk]
    lia
  have hbipartite := Graph.toSimple_isBipartite hG
  have hcompletes := Graph.completes_of_isBipartite hbipartite htwo
  refine ⟨backtrackFree_of_completes hp hcompletes, ?_⟩
  intro s κ _ free limit t hs hf ht
  obtain rfl := hs.problem_eq
  have hroot := hs.prepared.atRoot
  have hconsistent := hs.prepared.consistent (Problem.one_le_usableColours hp)
  have hdisciplined := hroot.disciplined FewestColours.lawful_standard (LeastConstraining.lawful _)
  obtain ⟨-, hpoised⟩ := (Search.unfailing_of_completes hcompletes).atHead
    ⟨hconsistent, hroot.bounded⟩ hroot.isIdle hdisciplined hf ht
  obtain ⟨i, c, rest, checkpoint, below, u, hframes, hu, hfixed⟩ := hpoised.fixes hbipartite htwo
  refine ⟨i, c, rest, checkpoint, below, u, hframes, hu, ?_⟩
  intro j hij
  exact hfixed j (Graph.reachable_of_label hij)

/-- Four vertices in a ring, and a vertex by itself. -/
def ringAndPoint : Problem := .ofStatements (some 2) [9] [(0, 1), (1, 2), (2, 3), (3, 0)]

/-- Odd vertices are only constrained to differ from even ones. The first decision settles all that
is connected to its vertex. -/
theorem satisfy_bipartite_ringAndPoint :
    let s : Solver := ⟨ringAndPoint, ringAndPoint.rootSearch⟩
    (∃ sol, (s.satisfy Limit.indefinite).1 = .ok (.satisfiable sol)) ∧
      (s.satisfy Limit.indefinite).2.1.work.decisions = 5 ∧
      ∃ t limit i c u, Search.AtHead s.search Limit.indefinite t limit ∧
        t.attempt (.ofFin i) c = (.ok none, u) ∧
        ∀ j, ringAndPoint.constraintGraph.Reachable ((Graph.ofProblem ringAndPoint).label i)
          ((Graph.ofProblem ringAndPoint).label j) → ∃ d, (u.store.domain j).values = [d] := by
  intro s
  let side (v : Vertex) : Fin 2 := if v % 2 = 0 then 0 else 1
  have hside : ∀ c ∈ ringAndPoint.constraints, side c.low ≠ side c.high := by decide +kernel
  have hbipartite : ringAndPoint.constraintGraph.IsBipartite := by
    refine ⟨.mk side ?_⟩
    intro u v huv
    obtain ⟨c, hc, ⟨rfl, rfl⟩ | ⟨rfl, rfl⟩⟩ := huv
    · exact hside c hc
    · exact (hside c hc).symm
  obtain ⟨hfree, hfixed⟩ := satisfy_bipartite (p := ringAndPoint) rfl (by decide) hbipartite
  have hcreate := create_of_objection_eq_none (p := ringAndPoint) (by decide +kernel)
  have hreached : Reached ringAndPoint s := .created (Prod.ext hcreate rfl)
  obtain ⟨sol, hsat, hdecisions, -⟩ :=
    hfree.straight s Limit Limit.indefinite hreached Limit.neverStops_indefinite
  have hzero : s.work.decisions = 0 := by decide +kernel
  have hvertices : ringAndPoint.vertices.length = 5 := by decide +kernel
  rw [hzero, hvertices] at hdecisions
  refine ⟨⟨sol, hsat⟩, hdecisions, ?_⟩
  have hprogress : (s.search.enter Limit.indefinite).progress = some (1, 0) := by decide +kernel
  rcases hturn : s.search.enter Limit.indefinite with ⟨t, limit⟩ | ⟨_, _, _⟩
  · have ht : Search.AtHead s.search Limit.indefinite t limit := by
      apply Search.AtHead.entered
      rw [hturn]
      exact .again
    obtain ⟨i, c, _, _, _, u, -, hu, hconnected⟩ :=
      hfixed s Limit Limit.indefinite limit t hreached Limit.neverStops_indefinite ht
    exact ⟨t, limit, i, c, u, ht, hu, hconnected⟩
  · rw [hturn] at hprogress
    cases hprogress

end Solver

end Chromatic
