import Chromatic.Proofs.Solver.Decision
/-!
# Refused problems and the check of solutions

A solution that the check accepts is a colouring. A problem that is refused for want of colours
has none unless it has no vertices; then there is nothing to colour, and the check accepts
whatever it is given. The check does not know which vertices are required to differ from
themselves.
-/

namespace Chromatic

namespace Problem

variable {p : Problem} {s : Solution}

private theorem colourable_of_accepts (h : p.accepts s = true) : p.Colourable := by
  obtain ⟨hvertices, hconstraints⟩ := violation_eq_none.mp (Option.isNone_iff_eq_none.mp h)
  refine ⟨fun v => (s.colourOf v).getD 0, fun v hv => ?_, fun c hc heq => ?_⟩
  · obtain ⟨c, hc, hallow⟩ := hvertices v hv
    simpa [hc] using hallow
  · obtain ⟨hlow, hhigh⟩ := p.endpoints_mem c hc
    obtain ⟨a, ha, -⟩ := hvertices c.low hlow
    obtain ⟨b, hb, -⟩ := hvertices c.high hhigh
    apply hconstraints c hc
    simpa [ha, hb] using heq

private theorem accepts_of_vertices_eq_nil (h : p.vertices = []) (s : Solution) :
    p.accepts s = true := by
  -- without vertices there are no constraints
  apply Option.isNone_iff_eq_none.mpr
  apply violation_eq_none.mpr
  constructor
  · intro v hv
    rw [h] at hv
    cases hv
  · intro c hc
    have hlow := (p.endpoints_mem c hc).1
    rw [h] at hlow
    cases hlow

/-- There are no colours, or there is a single one where some vertices need different ones. -/
def LacksColours (p : Problem) : Prop :=
  (∀ k, p.colourCount = some k → k < 1) ∨ p.colourCount = some 1 ∧ p.constraints ≠ []

private theorem LacksColours.not_colourable (h : p.LacksColours) (hv : p.vertices ≠ []) :
    ¬p.Colourable := by
  rcases h with hcount | ⟨hone, hconstraints⟩
  · rintro ⟨f, hallow, -⟩
    obtain ⟨v, hmem⟩ := List.exists_mem_of_ne_nil _ hv
    obtain ⟨k, hk, h1, hle⟩ := hallow v hmem
    have hlt := hcount k hk
    lia
  · exact not_colourable_of_singleColour hone hconstraints

private theorem LacksColours.of_objection {reason : Infeasibility} (h : p.objection = some reason)
    (hself : p.selfConstraint = none) : p.LacksColours := by
  cases hk : p.colourCount with
  | none => exact .inl fun k hk' => by simp [hk] at hk'
  | some k =>
    by_cases h1 : 1 ≤ k
    · rw [objection_eq hk h1 hself] at h
      split at h
      · next hm =>
        rw [hm.1] at hk
        exact .inr ⟨hk, hm.2⟩
      · cases h
    · apply Or.inl
      intro k' hk'
      obtain rfl := Option.some.inj (hk.symm.trans hk')
      omega

end Problem

namespace Solver

variable {p : Problem} {reason : Infeasibility}

/-- Of a problem that is refused, and not merely because a vertex is required to differ from
itself, the check accepts no solution, unless there is nothing to colour. -/
theorem refused_accepts_iff (h : (create p).1 = .error reason)
    (hself : p.selfConstraint = none ∨ p.LacksColours) (s : Solution) :
    p.accepts s = true ↔ p.vertices = [] := by
  have hlacks : p.LacksColours :=
    hself.elim (Problem.LacksColours.of_objection (create_eq_error.mp h)) id
  constructor
  · intro hs
    by_contra hv
    exact hlacks.not_colourable hv (Problem.colourable_of_accepts hs)
  · intro hv
    exact Problem.accepts_of_vertices_eq_nil hv s

/-- One colour for two vertices that differ, one of them also from itself. -/
theorem refused_accepts_iff_pair :
    let p := Problem.ofStatements (some 1) [] [(0, 0), (0, 1)]
    (create p).1 = .error (.selfConstraint 0) ∧ ∀ s, p.accepts s = false := by
  intro p
  have hp : (create p).1 = .error (.selfConstraint 0) := create_eq_error.mpr (by decide +kernel)
  have hlacks : p.LacksColours := .inr (by decide +kernel)
  refine ⟨hp, ?_⟩
  intro s
  have hvertices : p.vertices ≠ [] := by decide +kernel
  rw [← Bool.not_eq_true, refused_accepts_iff hp (.inr hlacks) s]
  exact hvertices

/-- The check accepts solutions of problems that were refused: any solution where there is neither
a number of colours nor a vertex, and a colour for a vertex required to differ from itself. -/
theorem exists_refused_accepts :
    ((create .empty).1 = .error .missingColourCount ∧
      Problem.empty.accepts (.ofList [(1, 1)]) = true) ∧
    (create (.ofStatements (some 1) [] [(1, 1)])).1 = .error (.selfConstraint 1) ∧
      (Problem.ofStatements (some 1) [] [(1, 1)]).accepts (.ofList [(1, 1)]) = true := by
  refine ⟨⟨create_eq_error.mpr rfl, ?_⟩, create_eq_error.mpr ?_, ?_⟩
  all_goals decide +kernel

end Solver

end Chromatic
