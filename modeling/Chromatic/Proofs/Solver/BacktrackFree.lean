import Chromatic.Proofs.Search.BacktrackFree
import Chromatic.Proofs.Solver.Repetition
import Mathlib.Data.Fintype.Card
/-!
# Problems that need no going back

A problem with more colours than any vertex has neighbours is solved by one decision for each
vertex, also when only as many colours are tried as there are vertices.
-/

namespace Chromatic

/-- The vertices that need another colour than a vertex. -/
def Problem.neighbours (p : Problem) (v : Vertex) : List Vertex :=
  p.vertices.filter fun u =>
    ∃ c ∈ p.constraints, c.low = v ∧ c.high = u ∨ c.low = u ∧ c.high = v

theorem Problem.mem_neighbours {p : Problem} {u v : Vertex} : u ∈ p.neighbours v ↔
    ∃ c ∈ p.constraints, c.low = v ∧ c.high = u ∨ c.low = u ∧ c.high = v := by
  rw [neighbours, List.mem_filter, decide_eq_true_iff]
  apply and_iff_right_of_imp
  rintro ⟨c, hc, ⟨-, rfl⟩ | ⟨rfl, -⟩⟩
  · exact (p.endpoints_mem c hc).2
  · exact (p.endpoints_mem c hc).1

theorem Problem.nodup_neighbours (p : Problem) (v : Vertex) : (p.neighbours v).Nodup := by
  apply List.Nodup.filter
  exact p.nodup_vertices

namespace Graph

variable {p : Problem} {i j : Fin (ofProblem p).order}

private theorem degree_lt_order (G : Graph) (i : Fin G.order) :
    (G.neighbours i).length < G.order := by
  have hnodup : (i :: G.neighbours i).Nodup :=
    List.nodup_cons.mpr ⟨G.loopless i, G.nodup_neighbours i⟩
  have hle := hnodup.length_le_card
  rw [List.length_cons, Fintype.card_fin] at hle
  exact hle

theorem label_mem_neighbours :
    (ofProblem p).label j ∈ p.neighbours ((ofProblem p).label i) ↔
      j ∈ (ofProblem p).neighbours i := by
  rw [Problem.mem_neighbours, mem_neighbours_ofProblem, mem_placedPairs, mem_placedPairs]
  simp only [and_or_left, exists_or]

private theorem degree_le (i : Fin (ofProblem p).order) :
    ((ofProblem p).neighbours i).length ≤ (p.neighbours ((ofProblem p).label i)).length := by
  have hnodup := (nodup_neighbours _ i).map (ofProblem p).label_injective
  have hsub : (((ofProblem p).neighbours i).map (ofProblem p).label) ⊆
      p.neighbours ((ofProblem p).label i) := by
    intro u hu
    obtain ⟨j, hj, rfl⟩ := List.mem_map.mp hu
    exact label_mem_neighbours.mpr hj
  simpa using (hnodup.subperm hsub).length_le

private theorem sparse_ofProblem {k : Int} (hk : p.colourCount = some k)
    (hd : ∀ v ∈ p.vertices, ((p.neighbours v).length : Int) < k) :
    (ofProblem p).Sparse p.usableColours := by
  -- no more colours are tried than there are vertices
  intro i
  have hlt := hd _ (label_mem i)
  have hle := degree_le i
  have horder : ((ofProblem p).neighbours i).length < p.vertices.length := degree_lt_order _ i
  rw [Problem.usableColours_eq hk]
  omega

end Graph

/-- The problem gets a solver that has made no decisions. Whenever such a solver is asked and
nothing stops it, it finds a colouring by one decision for each vertex, without going back, and no
colour that it tries fails. -/
structure Problem.BacktrackFree (p : Problem) : Prop where
  created : ∃ s, (Solver.create p).1 = .ok s ∧ s.work.decisions = 0 ∧ s.work.backtracks = 0
  straight : ∀ (s : Solver) (κ : Type) [TerminationCondition κ] (free : κ), Solver.Reached p s →
    NeverStops free →
      ∃ sol, (s.satisfy free).1 = .ok (.satisfiable sol) ∧
        (s.satisfy free).2.1.work.decisions = s.work.decisions + p.vertices.length ∧
        (s.satisfy free).2.1.work.backtracks = s.work.backtracks ∧
        ∀ x c cause, .valueFailed x c cause ∈ (s.satisfy free).2.1.search.log →
          .valueFailed x c cause ∈ s.search.log

/-- What promises that the next colour holds need only be shown at the root. -/
theorem Problem.BacktrackFree.of_unfailing {p : Problem} {P : View (Graph.ofProblem p) → Prop}
    (hp : p.objection = none) (hP : Search.Unfailing FewestColours LeastConstraining P)
    (hroot : ∀ s : p.StandardSearch,
      s.Prepared p.usableColours FewestColours.standard {} → P s.view) : p.BacktrackFree := by
  constructor
  · refine ⟨_, Solver.create_of_objection_eq_none hp, ?_⟩
    have hcounters := (Search.propagateRoot_counters p.startSearch).1
    exact ⟨congrArg SearchCounters.decisions hcounters,
      congrArg SearchCounters.backtracks hcounters⟩
  intro s κ _ free hs hf
  obtain rfl := hs.problem_eq
  obtain ⟨sol, t, limit', hrun, hdecisions, hbacktracks, hlog⟩ :=
    hP.run (hroot _ hs.prepared) hs.prepared.atRoot FewestColours.lawful_standard
      (LeastConstraining.lawful _) hf
  refine ⟨sol, ?_, ?_, ?_, ?_⟩
  · rw [Solver.satisfy_eq, hrun]
    rfl
  · rw [Solver.satisfy_eq, hrun]
    exact hdecisions
  · rw [Solver.satisfy_eq, hrun]
    exact hbacktracks
  · intro x c cause hmem
    rw [Solver.satisfy_eq, hrun] at hmem
    -- the search reports that it ended, and the solver what it found
    have hevents : .valueFailed x c cause ∈ Event.found sol.numColoursUsed ::
        .finished t.counters.decisions t.counters.backtracks :: t.log := hmem
    simpa [hlog] using hevents

namespace Solver

variable {p : Problem} {k : Int}

private theorem objection_of_sparse (hk : p.colourCount = some k) (h1 : 1 ≤ k)
    (hself : p.selfConstraint = none)
    (hd : ∀ v ∈ p.vertices, ((p.neighbours v).length : Int) < k) : p.objection = none := by
  -- one colour is more than any vertex has neighbours only when nothing is constrained
  rw [Problem.objection_eq hk h1 hself]
  apply if_neg
  rintro ⟨rfl, hne⟩
  obtain ⟨c, hc⟩ := List.exists_mem_of_ne_nil _ hne
  have hmem : c.high ∈ p.neighbours c.low := Problem.mem_neighbours.mpr ⟨c, hc, .inl ⟨rfl, rfl⟩⟩
  have hlt := hd c.low (p.endpoints_mem c hc).1
  have hpos := List.length_pos_of_mem hmem
  omega

private theorem create_of_sparse (hk : p.colourCount = some k) (h1 : 1 ≤ k)
    (hself : p.selfConstraint = none)
    (hd : ∀ v ∈ p.vertices, ((p.neighbours v).length : Int) < k) :
    (create p).1 = .ok ⟨p, p.rootSearch⟩ :=
  create_of_objection_eq_none (objection_of_sparse hk h1 hself hd)

/-- A problem with more colours than any vertex has neighbours gets a solver that has made no
decisions. Whenever such a solver is asked and nothing stops it, it finds a colouring by one
decision for each vertex, without going back, and no colour that it tries fails. -/
theorem satisfy_straight (hk : p.colourCount = some k) (h1 : 1 ≤ k)
    (hself : p.selfConstraint = none)
    (hd : ∀ v ∈ p.vertices, ((p.neighbours v).length : Int) < k) :
    (∃ s, (create p).1 = .ok s ∧ s.work.decisions = 0 ∧ s.work.backtracks = 0) ∧
      ∀ (s : Solver) (κ : Type) [TerminationCondition κ] (free : κ), Reached p s →
        NeverStops free →
          ∃ sol, (s.satisfy free).1 = .ok (.satisfiable sol) ∧
            (s.satisfy free).2.1.work.decisions = s.work.decisions + p.vertices.length ∧
            (s.satisfy free).2.1.work.backtracks = s.work.backtracks ∧
            ∀ x c cause, .valueFailed x c cause ∈ (s.satisfy free).2.1.search.log →
              .valueFailed x c cause ∈ s.search.log := by
  have hobjection := objection_of_sparse hk h1 hself hd
  have hsparse := Graph.sparse_ofProblem hk hd
  have hone := Problem.one_le_usableColours hobjection
  have hfree : p.BacktrackFree := by
    apply Problem.BacktrackFree.of_unfailing hobjection (Search.unfailing_of_sparse hsparse)
    intro s hs
    exact ⟨hs.ample hsparse, hs.consistent hone⟩
  exact ⟨hfree.created, hfree.straight⟩

/-- Four vertices in a ring, with three colours. -/
def fourInARing : Problem := .ofStatements (some 3) [] [(0, 1), (1, 2), (2, 3), (3, 0)]

/-- A solver for the ring was stopped after two decisions, and makes four more when it is asked
again. -/
theorem satisfy_straight_fourInARing :
    let s : Solver := ⟨fourInARing, fourInARing.rootSearch⟩
    let stopped := (s.satisfy (Limit.budget 2)).2.1
    stopped.work.decisions = 2 ∧
      (∃ sol, (stopped.satisfy Limit.indefinite).1 = .ok (.satisfiable sol)) ∧
        (stopped.satisfy Limit.indefinite).2.1.work.decisions = 6 := by
  intro s stopped
  have hdegrees : ∀ v ∈ fourInARing.vertices,
      ((fourInARing.neighbours v).length : Int) < 3 := by decide +kernel
  have hcreate := create_of_sparse (p := fourInARing) (k := 3) rfl (by decide) (by decide) hdegrees
  have hreached : Reached fourInARing stopped :=
    .asked (.created (Prod.ext hcreate rfl)) (Limit.budget 2)
  have htwo : stopped.work.decisions = 2 := by
    simp only [stopped, satisfy_eq, Search.run_within 12]
    decide +kernel
  obtain ⟨-, hstraight⟩ :=
    satisfy_straight (p := fourInARing) (k := 3) rfl (by decide) (by decide) hdegrees
  obtain ⟨sol, hsat, hdecisions, -⟩ :=
    hstraight stopped Limit Limit.indefinite hreached Limit.neverStops_indefinite
  rw [htwo] at hdecisions
  exact ⟨htwo, ⟨sol, hsat⟩, hdecisions⟩

end Solver

end Chromatic
