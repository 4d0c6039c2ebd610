import Chromatic.Proofs.Search.Completeness
import Chromatic.Solver
/-!
# Problems and their graphs

The colourings of a problem are the proper colourings of its graph. More colours than vertices
are of no use, because vertices that all have colours of their own are coloured properly.
-/

namespace Chromatic

/-- Some choice of allowed colours for the vertices satisfies every constraint. -/
def Problem.Colourable (p : Problem) : Prop :=
  ∃ f : Vertex → Colour, (∀ v ∈ p.vertices, p.Allows (f v)) ∧
    ∀ c ∈ p.constraints, f c.low ≠ f c.high

theorem Problem.allows_iff {p : Problem} {k : Int} (hk : p.colourCount = some k) {c : Colour} :
    p.Allows c ↔ 1 ≤ c ∧ (c : Int) ≤ k := by
  simp [Allows, hk]

namespace Graph

variable {p : Problem} {i j : Fin (ofProblem p).order} {v : Vertex}

theorem label_mem (i : Fin (ofProblem p).order) : (ofProblem p).label i ∈ p.vertices :=
  List.get_mem p.vertices i

theorem label_place (h : v ∈ p.vertices) : (ofProblem p).label (place p v h) = v :=
  List.getElem_idxOf (List.idxOf_lt_length_iff.mpr h)

private theorem place_label (h : (ofProblem p).label i ∈ p.vertices) : place p _ h = i :=
  (ofProblem p).label_injective (label_place h)

theorem mem_placedPairs : (i, j) ∈ placedPairs p ↔
    ∃ c ∈ p.constraints, c.low = (ofProblem p).label i ∧ c.high = (ofProblem p).label j := by
  constructor
  · intro h
    obtain ⟨⟨c, hc⟩, -, hij⟩ := List.mem_map.mp h
    obtain ⟨rfl, rfl⟩ := Prod.mk.inj hij
    exact ⟨c, hc, (label_place _).symm, (label_place _).symm⟩
  · rintro ⟨c, hc, hlow, hhigh⟩
    obtain ⟨hl, hh⟩ := p.endpoints_mem c hc
    refine List.mem_map.mpr ⟨⟨c, hc⟩, List.mem_attach _ _, Prod.ext ?_ ?_⟩
    · exact (ofProblem p).label_injective ((label_place hl).trans hlow)
    · exact (ofProblem p).label_injective ((label_place hh).trans hhigh)

theorem mem_neighbours_ofProblem : j ∈ (ofProblem p).neighbours i ↔
    (i, j) ∈ placedPairs p ∨ (j, i) ∈ placedPairs p := by
  have h : ∀ i j : Fin p.vertices.length,
      j ∈ ((placedPairs p).foldl join (.replicate _ [])).get i ↔
        (i, j) ∈ placedPairs p ∨ (j, i) ∈ placedPairs p := by
    intro i j
    rw [mem_foldl_join, Family.get_replicate]
    exact or_iff_right List.not_mem_nil
  exact h i j

private theorem isProper_ofProblem {f : Vertex → Colour} :
    (ofProblem p).IsProper (fun i => f ((ofProblem p).label i)) ↔
      ∀ c ∈ p.constraints, f c.low ≠ f c.high := by
  constructor
  · intro h c hc
    obtain ⟨hlow, hhigh⟩ := p.endpoints_mem c hc
    have hpair : (place p c.low hlow, place p c.high hhigh) ∈ placedPairs p :=
      mem_placedPairs.mpr ⟨c, hc, (label_place hlow).symm, (label_place hhigh).symm⟩
    have hne := h _ _ (mem_neighbours_ofProblem.mpr (.inl hpair))
    dsimp only at hne
    rwa [label_place, label_place] at hne
  · intro h i j hij
    dsimp only
    rcases mem_neighbours_ofProblem.mp hij with hpair | hpair
    · obtain ⟨c, hc, hlow, hhigh⟩ := mem_placedPairs.mp hpair
      rw [← hlow, ← hhigh]
      exact h c hc
    · obtain ⟨c, hc, hlow, hhigh⟩ := mem_placedPairs.mp hpair
      rw [← hlow, ← hhigh]
      exact (h c hc).symm

private theorem isProper_succ (G : Graph) : G.IsProper fun i => i.val + 1 := by
  intro i j hij heq
  exact ne_of_mem_neighbours hij (Fin.ext (Nat.succ.inj heq))

end Graph

namespace Problem

variable {p : Problem} {k : Int}

theorem usableColours_eq (hk : p.colourCount = some k) :
    p.usableColours = min k.toNat (max p.vertices.length 1) := by
  rw [usableColours, hk]

theorem colourable_ofProblem (hk : p.colourCount = some k) (h1 : 1 ≤ k) :
    (Graph.ofProblem p).Colourable p.usableColours ↔ p.Colourable := by
  rw [usableColours_eq hk]
  constructor
  · rintro ⟨g, hg, hbound⟩
    let f (v : Vertex) : Colour := if h : v ∈ p.vertices then g (Graph.place p v h) else 1
    have hf : ∀ i, f ((Graph.ofProblem p).label i) = g i := by
      intro i
      simp only [f, dif_pos (Graph.label_mem i), Graph.place_label]
    refine ⟨f, fun v hv => ?_, Graph.isProper_ofProblem.mp fun i j hij => ?_⟩
    · rw [allows_iff hk]
      have hb := hbound (Graph.place p v hv)
      simp only [f, dif_pos hv]
      lia
    · dsimp only
      rw [hf, hf]
      exact hg i j hij
  · rintro ⟨f, hallow, hf⟩
    by_cases hle : k.toNat ≤ max p.vertices.length 1
    · refine ⟨fun i => f ((Graph.ofProblem p).label i), Graph.isProper_ofProblem.mpr hf,
        fun i => ?_⟩
      have hc := (allows_iff hk).mp (hallow _ (Graph.label_mem i))
      lia
    · refine ⟨fun i => i.val + 1, Graph.isProper_succ _, fun i => ?_⟩
      have hi : i.val < p.vertices.length := i.isLt
      lia

end Problem

end Chromatic
