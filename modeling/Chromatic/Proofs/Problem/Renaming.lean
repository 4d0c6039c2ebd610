import Chromatic.Proofs.Problem.Additions
import Chromatic.Proofs.Problem.Colourable
import Chromatic.Proofs.Search.Relabelling
import Mathlib.Data.Int.ConditionallyCompleteOrder
import Mathlib.Data.Set.Monotone
import Mathlib.Order.ConditionallyCompleteLattice.Basic
/-!
# Problems under other names

A problem whose vertices are renamed in the same order is the one that the same additions build up
under the new names. Its graph is the graph of the problem with other labels.
-/

namespace Chromatic

namespace Graph

private theorem ext_of_order_eq {G H : Graph} (h : G.order = H.order)
    (hlabel : ∀ i, G.label i = H.label (i.cast h))
    (hmem : ∀ i j, j ∈ G.neighbours i ↔ j.cast h ∈ H.neighbours (i.cast h)) : G = H := by
  obtain ⟨n, labels, adjacency, _, hG, _, _⟩ := G
  obtain ⟨m, labels', adjacency', _, hH, _, _⟩ := H
  obtain rfl : n = m := h
  obtain rfl : labels = labels' := Family.ext_get hlabel
  obtain rfl : adjacency = adjacency' :=
    Family.ext_get fun i => (hG i).eq_of_mem_iff (hH i) (hmem i)
  rfl

end Graph

def Infeasibility.rename (f : Vertex → Vertex) : Infeasibility → Infeasibility
  | selfConstraint v => selfConstraint (f v)
  | reason => reason

def Addition.rename (f : Vertex → Vertex) : Addition → Addition
  | vertex v => vertex (f v)
  | constraint u v => constraint (f u) (f v)

namespace Addition

variable {f : Vertex → Vertex} {s : Addition}

private theorem names_rename {w : Vertex} : (s.rename f).Names w ↔ ∃ v, s.Names v ∧ f v = w := by
  cases s with
  | vertex u => simp [rename, Names, eq_comm]
  | constraint u v => simp [rename, Names, or_and_right, exists_or, eq_comm]

private theorem Requires.rename {c d : Constraint} (h : s.Requires d) (hlow : c.low = f d.low)
    (hhigh : c.high = f d.high) : (s.rename f).Requires c := by
  cases s with
  | vertex => cases h
  | constraint u v =>
    rcases h with ⟨rfl, rfl⟩ | ⟨rfl, rfl⟩
    · exact .inl ⟨hlow, hhigh⟩
    · exact .inr ⟨hlow, hhigh⟩

private theorem exists_of_requires_rename {c : Constraint} (hf : StrictMonoOn f {v | s.Names v})
    (h : (s.rename f).Requires c) :
    ∃ d, s.Requires d ∧ c.low = f d.low ∧ c.high = f d.high := by
  have hlt := c.low_lt_high
  cases s with
  | vertex => cases h
  | constraint u v =>
    have hu : (constraint u v).Names u := .inl rfl
    have hv : (constraint u v).Names v := .inr rfl
    rcases h with ⟨hlow, hhigh⟩ | ⟨hlow, hhigh⟩
    · rw [hlow, hhigh, hf.lt_iff_lt hu hv] at hlt
      exact ⟨⟨u, v, hlt⟩, .inl ⟨rfl, rfl⟩, hlow, hhigh⟩
    · rw [hlow, hhigh, hf.lt_iff_lt hv hu] at hlt
      exact ⟨⟨v, u, hlt⟩, .inr ⟨rfl, rfl⟩, hlow, hhigh⟩

private theorem self_rename (hf : StrictMonoOn f {v | s.Names v}) :
    (s.rename f).self = s.self.map f := by
  cases s with
  | vertex => rfl
  | constraint u v =>
    have hiff : f u = f v ↔ u = v := hf.injOn.eq_iff (.inl rfl) (.inr rfl)
    simp only [rename, self, hiff]
    split <;> rfl

private theorem findSome?_rename {l : List Addition}
    (hf : ∀ s ∈ l, StrictMonoOn f {v | s.Names v}) :
    (l.map (rename f)).findSome? self = (l.findSome? self).map f := by
  induction l with
  | nil => rfl
  | cons s rest ih =>
    obtain ⟨hs, hrest⟩ := List.forall_mem_cons.mp hf
    rw [List.map_cons, List.findSome?_cons, List.findSome?_cons, self_rename hs, ih hrest]
    cases s.self <;> rfl

end Addition

namespace Problem

variable {f : Vertex → Vertex}

/-- The problem with its vertices renamed in the same order. -/
def rename (p : Problem) (f : Vertex → Vertex) (hf : StrictMonoOn f {v | v ∈ p.vertices}) :
    Problem where
  colourCount := p.colourCount
  vertices := p.vertices.map f
  constraints := p.constraints.pmap
    (fun c (h : c.low ∈ p.vertices ∧ c.high ∈ p.vertices) =>
      ⟨f c.low, f c.high, hf h.1 h.2 c.low_lt_high⟩) p.endpoints_mem
  selfConstraint := p.selfConstraint.map f
  vertices_ascending := by
    rw [List.pairwise_map]
    apply p.vertices_ascending.imp_of_mem
    intro u v hu hv huv
    exact hf hu hv huv
  constraints_ascending := by
    rw [List.pairwise_pmap]
    apply p.constraints_ascending.imp_of_mem
    intro c d hc hd hcd h h'
    rw [Constraint.lt_iff] at hcd ⊢
    rcases hcd with hlow | ⟨hlow, hhigh⟩
    · exact .inl (hf h.1 h'.1 hlow)
    · exact .inr ⟨congrArg f hlow, hf h.2 h'.2 hhigh⟩
  endpoints_mem := by
    intro c hc
    obtain ⟨d, hd, rfl⟩ := List.mem_pmap.mp hc
    obtain ⟨hlow, hhigh⟩ := p.endpoints_mem d hd
    exact ⟨List.mem_map_of_mem hlow, List.mem_map_of_mem hhigh⟩
  selfConstraint_mem := by
    intro v hv
    obtain ⟨u, hu, rfl⟩ := Option.map_eq_some_iff.mp hv
    exact List.mem_map_of_mem (p.selfConstraint_mem u hu)

theorem orders_ofProblem {p : Problem} (hf : StrictMonoOn f {v | v ∈ p.vertices}) :
    (Graph.ofProblem p).Orders f := (p.rename f hf).vertices_ascending

variable {p : Problem} (hf : StrictMonoOn f {v | v ∈ p.vertices})

theorem usableColours_rename : (p.rename f hf).usableColours = p.usableColours := by
  simp only [usableColours, rename, List.length_map]

theorem objection_rename :
    (p.rename f hf).objection = p.objection.map (Infeasibility.rename f) := by
  simp only [objection, rename]
  cases p.colourCount with
  | none => rfl
  | some k =>
    by_cases h1 : k < 1
    · simp only [h1, if_true]
      rfl
    · cases p.selfConstraint with
      | some v =>
        simp only [h1, if_false]
        rfl
      | none =>
        simp only [h1, if_false, Option.map_none, List.length_pmap, ne_eq, List.pmap_eq_nil_iff]
        split <;> rfl

private theorem mem_constraints_rename {u v : Vertex} (hu : u ∈ p.vertices) (hv : v ∈ p.vertices) :
    (∃ c ∈ (p.rename f hf).constraints, c.low = f u ∧ c.high = f v) ↔
      ∃ c ∈ p.constraints, c.low = u ∧ c.high = v := by
  constructor
  · rintro ⟨c, hc, hlow, hhigh⟩
    obtain ⟨d, hd, rfl⟩ := List.mem_pmap.mp hc
    obtain ⟨hl, hh⟩ := p.endpoints_mem d hd
    exact ⟨d, hd, hf.injOn hl hu hlow, hf.injOn hh hv hhigh⟩
  · rintro ⟨d, hd, rfl, rfl⟩
    exact ⟨_, List.mem_pmap.mpr ⟨d, hd, rfl⟩, rfl, rfl⟩

/-- The graph has the new names as its labels, and the same edges. -/
theorem ofProblem_rename :
    Graph.ofProblem (p.rename f hf) = (Graph.ofProblem p).relabel f (orders_ofProblem hf) := by
  have horder : (Graph.ofProblem (p.rename f hf)).order =
      ((Graph.ofProblem p).relabel f (orders_ofProblem hf)).order := List.length_map f
  have hlabel : ∀ i, (Graph.ofProblem (p.rename f hf)).label i =
      f ((Graph.ofProblem p).label (i.cast horder)) := fun _ => List.getElem_map f
  apply Graph.ext_of_order_eq horder
  · intro i
    rw [hlabel, Graph.label_relabel]
  · intro i j
    rw [Graph.neighbours_relabel, Graph.mem_neighbours_ofProblem, Graph.mem_neighbours_ofProblem,
      Graph.mem_placedPairs, Graph.mem_placedPairs, Graph.mem_placedPairs, Graph.mem_placedPairs,
      hlabel, hlabel, mem_constraints_rename hf (Graph.label_mem _) (Graph.label_mem _),
      mem_constraints_rename hf (Graph.label_mem _) (Graph.label_mem _)]

private theorem mem_rename_constraints {c : Constraint} : c ∈ (p.rename f hf).constraints ↔
    ∃ d ∈ p.constraints, c.low = f d.low ∧ c.high = f d.high := by
  constructor
  · intro hc
    obtain ⟨d, hd, rfl⟩ := List.mem_pmap.mp hc
    exact ⟨d, hd, rfl, rfl⟩
  · rintro ⟨d, hd, hlow, hhigh⟩
    obtain ⟨low, high, hlt⟩ := c
    obtain rfl : low = f d.low := hlow
    obtain rfl : high = f d.high := hhigh
    exact List.mem_pmap.mpr ⟨d, hd, rfl⟩

/-- A problem under other names is built up by the same additions under these names. -/
theorem rename_build {k : Option Int} {l : List Addition}
    (hf : StrictMonoOn f {v | v ∈ (build k l).vertices}) :
    (build k l).rename f hf = build k (l.map (Addition.rename f)) := by
  have hnames : ∀ s ∈ l, StrictMonoOn f {v | s.Names v} := by
    intro s hs
    exact hf.mono fun v hv => mem_vertices_build.mpr ⟨s, hs, hv⟩
  apply ext_mem
  · rw [colourCount_build]
    exact colourCount_build
  · intro w
    have hmem : w ∈ ((build k l).rename f hf).vertices ↔ ∃ v ∈ (build k l).vertices, f v = w :=
      List.mem_map
    rw [hmem, mem_vertices_build]
    constructor
    · rintro ⟨v, hv, hvw⟩
      obtain ⟨s, hs, hsv⟩ := mem_vertices_build.mp hv
      exact ⟨_, List.mem_map_of_mem hs, Addition.names_rename.mpr ⟨v, hsv, hvw⟩⟩
    · rintro ⟨s', hs', hw⟩
      obtain ⟨s, hs, rfl⟩ := List.mem_map.mp hs'
      obtain ⟨v, hsv, hvw⟩ := Addition.names_rename.mp hw
      exact ⟨v, mem_vertices_build.mpr ⟨s, hs, hsv⟩, hvw⟩
  · intro c
    rw [mem_rename_constraints, mem_constraints_build]
    constructor
    · rintro ⟨d, hd, hlow, hhigh⟩
      obtain ⟨s, hs, hsd⟩ := mem_constraints_build.mp hd
      exact ⟨_, List.mem_map_of_mem hs, hsd.rename hlow hhigh⟩
    · rintro ⟨s', hs', hc⟩
      obtain ⟨s, hs, rfl⟩ := List.mem_map.mp hs'
      obtain ⟨d, hsd, hcd⟩ := Addition.exists_of_requires_rename (hnames s hs) hc
      exact ⟨d, mem_constraints_build.mpr ⟨s, hs, hsd⟩, hcd⟩
  · have hself := Addition.findSome?_rename hnames
    rw [selfConstraint_build, hself, ← selfConstraint_build]
    rfl

end Problem

end Chromatic
