import Chromatic.Proofs.Problem.Colourable
import Chromatic.Proofs.Problem.Violation
import Chromatic.Proofs.Propagation.Consistency
/-!
# Solving decides colourability

A problem with a positive number of colours and without a self constraint is either refused
because one colour cannot satisfy a constraint, or searched. Before the first decision every
domain has two colours or there are no arcs, so propagation at the root does nothing.
-/

namespace Chromatic

def Outcome.verdict : Outcome → Verdict
  | solved s => .satisfiable s
  | exhausted => .unsatisfiable .exhausted
  | interrupted => .unknown

namespace Solution

variable {p : Problem} {k : Int} {s : Solution} {K : Nat}

/-- A proper colouring of the graph with allowed colours passes the check of the problem. -/
theorem Colours.violation_eq_none (hs : s.Colours (Graph.ofProblem p) K)
    (hk : p.colourCount = some k) (hK : (K : Int) ≤ k) : p.violation s = none := by
  refine Problem.violation_eq_none.mpr ⟨fun v hv => ?_, fun c hc => ?_⟩
  · obtain ⟨c, hc, h1, hcK⟩ := hs.total (Graph.place p v hv)
    rw [Graph.label_place] at hc
    refine ⟨c, hc, ?_⟩
    rw [Problem.allows_iff hk]
    lia
  · obtain ⟨hlow, hhigh⟩ := p.endpoints_mem c hc
    have hpair : (Graph.place p c.low hlow, Graph.place p c.high hhigh) ∈ Graph.placedPairs p :=
      Graph.mem_placedPairs.mpr
        ⟨c, hc, (Graph.label_place hlow).symm, (Graph.label_place hhigh).symm⟩
    have hne := hs.proper _ _ (Graph.mem_neighbours_ofProblem.mpr (.inl hpair))
    rwa [Graph.label_place, Graph.label_place] at hne

theorem Colours.isSome_colourOf_iff (hs : s.Colours (Graph.ofProblem p) K) (v : Vertex) :
    (s.colourOf v).isSome ↔ v ∈ p.vertices := by
  constructor
  · intro h
    obtain ⟨c, hc⟩ := Option.isSome_iff_exists.mp h
    obtain ⟨i, rfl⟩ := hs.labels v c hc
    exact Graph.label_mem i
  · intro hv
    obtain ⟨c, hc, -⟩ := hs.total (Graph.place p v hv)
    rw [Graph.label_place] at hc
    rw [hc]
    rfl

end Solution

namespace Problem

variable {p : Problem} {k : Int}

theorem objection_eq (hk : p.colourCount = some k) (h1 : 1 ≤ k) (hself : p.selfConstraint = none) :
    p.objection =
      if k = 1 ∧ p.constraints ≠ [] then some (.singleColour p.constraints.length)
      else none := by
  have hlt : ¬k < 1 := by omega
  simp only [objection, hk, if_neg hlt, hself]

theorem not_colourable_of_singleColour (hk : p.colourCount = some 1)
    (hm : p.constraints ≠ []) : ¬p.Colourable := by
  rintro ⟨f, hallow, hf⟩
  obtain ⟨c, hc⟩ := List.exists_mem_of_ne_nil _ hm
  obtain ⟨hlow, hhigh⟩ := p.endpoints_mem c hc
  have hl := (allows_iff hk).mp (hallow _ hlow)
  have hh := (allows_iff hk).mp (hallow _ hhigh)
  refine hf c hc ?_
  lia

private theorem usableColours_ne_one (hk : p.colourCount = some k) (h1 : 1 ≤ k)
    (hm : ¬(k = 1 ∧ p.constraints ≠ [])) {a : Arc (Graph.ofProblem p).order}
    (ha : a ∈ (Graph.ofProblem p).arcs) : p.usableColours ≠ 1 := by
  have harc := Graph.isArc_of_mem_arcs ha
  have hconstraints : p.constraints ≠ [] := by
    rcases Graph.mem_neighbours_ofProblem.mp harc with h | h
    all_goals
      obtain ⟨c, hc, -⟩ := Graph.mem_placedPairs.mp h
      exact List.ne_nil_of_mem hc
  have hne : a.tail.val ≠ a.head.val :=
    fun h => Graph.ne_of_mem_neighbours harc (Fin.ext h)
  have htail : a.tail.val < p.vertices.length := a.tail.isLt
  have hhead : a.head.val < p.vertices.length := a.head.isLt
  have hk1 : k ≠ 1 := fun h => hm ⟨h, hconstraints⟩
  rw [usableColours_eq hk]
  omega

/-- Propagation at the root of a problem that was not refused revises every arc once and removes
nothing. -/
theorem propagateAll_startSearch (hk : p.colourCount = some k) (h1 : 1 ≤ k)
    (hm : ¬(k = 1 ∧ p.constraints ≠ [])) :
    (Graph.ofProblem p).propagateAll p.startSearch.store p.startSearch.propagation =
      ⟨p.startSearch.store, ⟨(Graph.ofProblem p).arcs.length, 0⟩, none⟩ := by
  have hcounted : p.startSearch.propagation.revisions + (Graph.ofProblem p).arcs.length =
      (Graph.ofProblem p).arcs.length := Nat.zero_add _
  rw [Graph.propagateAll, Graph.propagate_of_open, hcounted]
  · rfl
  · intro a ha
    rw [startSearch, Search.start, Store.domain_full, Domain.fixedValue]
    exact if_neg (usableColours_ne_one hk h1 hm ha)

private theorem consistent_startSearch (hk : p.colourCount = some k) (h1 : 1 ≤ k)
    (hm : ¬(k = 1 ∧ p.constraints ≠ [])) : p.startSearch.propagateRoot.1 = true := by
  rw [Search.propagateRoot_eq_true, propagateAll_startSearch hk h1 hm]

def rootSearch (p : Problem) : p.StandardSearch := p.startSearch.propagateRoot.2.takeLog.2

private theorem atRoot_rootSearch (p : Problem) :
    p.rootSearch.AtRoot p.usableColours FewestColours.standard {} :=
  .logTaken (.propagated .start)

theorem create_of_accepted (hk : p.colourCount = some k) (h1 : 1 ≤ k)
    (hself : p.selfConstraint = none) (hm : ¬(k = 1 ∧ p.constraints ≠ [])) :
    (Solver.create p).1 = .ok ⟨p, p.rootSearch⟩ := by
  have hc := consistent_startSearch hk h1 hm
  simp only [Solver.create, objection_eq hk h1 hself, if_neg hm, hc, if_true]
  rfl

private theorem create_of_singleColour (hk : p.colourCount = some k) (h1 : 1 ≤ k)
    (hself : p.selfConstraint = none) (hm : k = 1 ∧ p.constraints ≠ []) :
    (Solver.create p).1 = .error (.singleColour p.constraints.length) := by
  simp only [Solver.create, objection_eq hk h1 hself, if_pos hm]

end Problem

namespace Solver

variable {p : Problem} {reason : Infeasibility}

theorem create_of_objection_eq_none (h : p.objection = none) :
    (create p).1 = .ok ⟨p, p.rootSearch⟩ := by
  cases hk : p.colourCount with
  | none => simp [Problem.objection, hk] at h
  | some k =>
    by_cases h1 : k < 1
    · simp [Problem.objection, hk, h1] at h
    · cases hself : p.selfConstraint with
      | some v => simp [Problem.objection, hk, h1, hself] at h
      | none =>
        have hk1 : 1 ≤ k := by omega
        rw [Problem.objection_eq hk hk1 hself] at h
        apply Problem.create_of_accepted hk hk1 hself
        intro hm
        rw [if_pos hm] at h
        cases h

/-- Problems are refused before looking at their graphs, or not at all. -/
theorem create_eq_error : (create p).1 = .error reason ↔ p.objection = some reason := by
  cases h : p.objection with
  | none => simp [create_of_objection_eq_none h]
  | some r => simp [create, h]

end Solver

theorem solve_of_error {κ : Type} [TerminationCondition κ] {p : Problem} {r : Infeasibility}
    (h : (Solver.create p).1 = .error r) (limit : κ) :
    (solve p limit).1 = .ok (.unsatisfiable r) := by
  rcases hc : Solver.create p with ⟨_ | s, log⟩
  · rw [hc] at h
    cases h
    simp only [solve, hc]
  · rw [hc] at h
    cases h

theorem solve_of_ok {κ : Type} [TerminationCondition κ] {p : Problem} {s : Solver}
    (h : (Solver.create p).1 = .ok s) (limit : κ) :
    (solve p limit).1 = (s.search.run limit).1.map Outcome.verdict := by
  rcases hc : Solver.create p with ⟨_ | s', log⟩
  · rw [hc] at h
    cases h
  · rw [hc] at h
    cases h
    simp only [solve, hc, Solver.satisfy]
    rcases s.search.run limit with ⟨_ | _ | _ | _, t, limit'⟩
    all_goals rfl

section Verdicts

variable {p : Problem} {k : Int} {κ : Type} [TerminationCondition κ]

/-- Solving ends with a colouring, with a reason why there is none, or because it was stopped. -/
theorem solve_settles (hk : p.colourCount = some k) (h1 : 1 ≤ k)
    (hself : p.selfConstraint = none) (limit : κ) :
    (∃ s, (solve p limit).1 = .ok (.satisfiable s) ∧
        s.Colours (Graph.ofProblem p) p.usableColours) ∨
      (((solve p limit).1 = .ok (.unsatisfiable .exhausted) ∨
          ∃ m, (solve p limit).1 = .ok (.unsatisfiable (.singleColour m))) ∧ ¬p.Colourable) ∨
        (solve p limit).1 = .ok .unknown ∧ ¬NeverStops limit := by
  by_cases hm : k = 1 ∧ p.constraints ≠ []
  · have hsolve := solve_of_error (Problem.create_of_singleColour hk h1 hself hm) limit
    obtain ⟨rfl, hne⟩ := hm
    exact .inr (.inl ⟨.inr ⟨_, hsolve⟩, Problem.not_colourable_of_singleColour hk hne⟩)
  · have hsolve := solve_of_ok (Problem.create_of_accepted hk h1 hself hm) limit
    dsimp only at hsolve
    rw [hsolve, ← Problem.colourable_ofProblem hk h1]
    have hroot := p.atRoot_rootSearch
    rcases Search.run_settles hroot FewestColours.lawful_standard (LeastConstraining.lawful _)
      limit with ⟨s, hr, hs⟩ | ⟨hr, hno⟩ | hr
    · rw [hr]
      exact .inl ⟨s, rfl, hs⟩
    · rw [hr]
      exact .inr (.inl ⟨.inl rfl, hno⟩)
    · rw [hr]
      exact .inr (.inr ⟨rfl, fun hl => Search.run_ne_interrupted hroot hl hr⟩)

/-- With a limit that never stops the search, a problem is satisfiable exactly when it has a
colouring, and every other verdict is that it is unsatisfiable. Whatever the limit, a verdict is
right: a solution colours exactly the vertices and passes the check, and a problem that is found
unsatisfiable has no colouring. -/
theorem solve_decides (hk : p.colourCount = some k) (h1 : 1 ≤ k)
    (hself : p.selfConstraint = none) (limit : κ) :
    (NeverStops limit →
        ((∃ s, (solve p limit).1 = .ok (.satisfiable s)) ↔ p.Colourable) ∧
          (¬p.Colourable → (solve p limit).1 = .ok (.unsatisfiable .exhausted) ∨
            ∃ m, (solve p limit).1 = .ok (.unsatisfiable (.singleColour m)))) ∧
      (∀ s, (solve p limit).1 = .ok (.satisfiable s) →
        (∀ v, (s.colourOf v).isSome ↔ v ∈ p.vertices) ∧ p.violation s = none) ∧
      ∀ r, (solve p limit).1 = .ok (.unsatisfiable r) → ¬p.Colourable := by
  have hK : (p.usableColours : Int) ≤ k := by
    rw [Problem.usableColours_eq hk]
    omega
  rcases solve_settles hk h1 hself limit with ⟨s, hr, hs⟩ | ⟨hr, hno⟩ | ⟨hr, hstop⟩
  · have hcol := (Problem.colourable_ofProblem hk h1).mp hs.colourable
    rw [hr]
    refine ⟨fun _ => ⟨⟨fun _ => hcol, fun _ => ⟨s, rfl⟩⟩, fun h => absurd hcol h⟩,
      fun s' h => ?_, nofun⟩
    cases h
    exact ⟨hs.isSome_colourOf_iff, hs.violation_eq_none hk hK⟩
  · refine ⟨fun _ => ⟨⟨?_, fun h => absurd h hno⟩, fun _ => hr⟩, ?_, fun _ _ => hno⟩
    · rintro ⟨s, hsat⟩
      rcases hr with hr | ⟨m, hr⟩
      all_goals cases hr.symm.trans hsat
    · intro s hsat
      rcases hr with hr | ⟨m, hr⟩
      all_goals cases hr.symm.trans hsat
  · rw [hr]
    exact ⟨fun hl => absurd hl hstop, nofun, nofun⟩

end Verdicts

theorem solve_decides_path :
    ∃ s, (solve (.ofStatements (some 2) [] [(0, 1), (1, 2)]) Limit.indefinite).1 =
        .ok (.satisfiable s) ∧
      (Problem.ofStatements (some 2) [] [(0, 1), (1, 2)]).violation s = none := by
  have hcol : (Problem.ofStatements (some 2) [] [(0, 1), (1, 2)]).Colourable :=
    ⟨fun v => if v = 1 then 2 else 1, by decide +kernel, by decide +kernel⟩
  obtain ⟨hsat, hcheck, -⟩ := solve_decides (p := .ofStatements (some 2) [] [(0, 1), (1, 2)])
    (k := 2) rfl (by decide) (by decide +kernel) Limit.indefinite
  obtain ⟨s, hs⟩ := (hsat Limit.neverStops_indefinite).1.mpr hcol
  exact ⟨s, hs, (hcheck s hs).2⟩

end Chromatic
