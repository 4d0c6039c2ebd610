import Chromatic.Proofs.Problem.Calls
import Chromatic.Proofs.Problem.Tables
import Chromatic.Proofs.Propagation.ArcConsistency
/-!
# What the graph of a problem shows

The arcs of a graph are its edges in both directions, in lexicographic order. The edges of the graph
of a problem are its constraints, one by one, so a vertex that is required to differ from itself is
a vertex and nothing more.
-/

namespace Chromatic

namespace Arc

variable {n : Nat}

def reverse (a : Arc n) : Arc n := ⟨a.head, a.tail⟩

/-- Arcs are ordered by the tail, then by the head. -/
def Before (a b : Arc n) : Prop := a.tail < b.tail ∨ a.tail = b.tail ∧ a.head < b.head

private theorem reverse_injective : Function.Injective (reverse : Arc n → Arc n) := by
  intro a b h
  cases a
  cases b
  cases h
  rfl

private theorem Before.ne {a b : Arc n} (h : a.Before b) : a ≠ b := by
  rintro rfl
  rcases h with h | ⟨-, h⟩
  · exact lt_irrefl _ h
  · exact lt_irrefl _ h

end Arc

namespace Graph

variable {G : Graph} {a : Arc G.order}

private theorem pairwise_arcs (G : Graph) : G.arcs.Pairwise Arc.Before := by
  refine List.pairwise_flatMap.mpr ⟨fun i _ => ?_, ?_⟩
  · rw [List.pairwise_map]
    exact (G.adjacency_ascending i).imp fun h => .inr ⟨rfl, h⟩
  · refine (List.pairwise_lt_finRange _).imp fun hij a ha b hb => ?_
    obtain ⟨_, -, rfl⟩ := List.mem_map.mp ha
    obtain ⟨_, -, rfl⟩ := List.mem_map.mp hb
    exact .inl hij

private theorem nodup_arcs (G : Graph) : G.arcs.Nodup := G.pairwise_arcs.imp Arc.Before.ne

private theorem mem_arcs_iff : a ∈ G.arcs ↔ G.IsArc a := ⟨isArc_of_mem_arcs, mem_arcs⟩

private theorem mem_edges : a ∈ G.edges ↔ G.IsArc a ∧ a.tail < a.head := by
  rw [edges, List.mem_filter, mem_arcs_iff, decide_eq_true_iff]

private theorem IsArc.reverse (h : G.IsArc a) : G.IsArc a.reverse := G.adjacency_symm _ _ h

private theorem perm_reverse_edges (G : Graph) :
    (G.arcs.filter fun a => !decide (a.tail < a.head)).Perm (G.edges.map Arc.reverse) := by
  refine (List.perm_ext_iff_of_nodup (G.nodup_arcs.filter _)
    ((G.nodup_arcs.filter _).map Arc.reverse_injective)).mpr fun a => ?_
  rw [List.mem_filter, mem_arcs_iff, List.mem_map]
  constructor
  · rintro ⟨ha, hle⟩
    have hne : a.tail ≠ a.head := ne_of_mem_neighbours ha
    refine ⟨a.reverse, mem_edges.mpr ⟨ha.reverse, ?_⟩, rfl⟩
    simp only [Bool.not_eq_true', decide_eq_false_iff_not, not_lt] at hle
    exact lt_of_le_of_ne hle hne.symm
  · rintro ⟨b, hb, rfl⟩
    obtain ⟨hb, hlt⟩ := mem_edges.mp hb
    exact ⟨hb.reverse, by simp [Arc.reverse, not_lt.mpr hlt.le]⟩

theorem length_arcs (G : Graph) : G.arcs.length = 2 * G.numEdges := by
  have hbackward := G.perm_reverse_edges.length_eq
  rw [List.length_map] at hbackward
  rw [List.length_eq_length_filter_add fun a : Arc G.order => decide (a.tail < a.head), hbackward,
    numEdges, edges]
  omega

/-- The vertices of the graph are those of the problem in ascending order, two of them are
neighbours if the problem has a constraint between them, and the arcs are the edges in both
directions in lexicographic order. -/
structure Depicts (G : Graph) (p : Problem) : Prop where
  labels : G.labels.toList = p.vertices
  label_lt : ∀ i j, i < j → G.label i < G.label j
  neighbours_ascending : ∀ i, (G.neighbours i).Pairwise (· < ·)
  neighbours_symm : ∀ i j, j ∈ G.neighbours i → i ∈ G.neighbours j
  neighbours_irrefl : ∀ i, i ∉ G.neighbours i
  mem_neighbours : ∀ i j, j ∈ G.neighbours i ↔ ∃ c ∈ p.constraints,
    c.low = min (G.label i) (G.label j) ∧ c.high = max (G.label i) (G.label j)
  numEdges : G.numEdges = p.constraints.length
  mem_arcs : ∀ a, a ∈ G.arcs ↔ a.head ∈ G.neighbours a.tail
  arcs_ascending : G.arcs.Pairwise Arc.Before
  length_arcs : G.arcs.length = 2 * p.constraints.length

variable {p q : Problem}

theorem numEdges_ofProblem (p : Problem) : (ofProblem p).numEdges = p.constraints.length := by
  have hperm : ((ofProblem p).edges.map fun a => (a.tail, a.head)).Perm (placedPairs p) := by
    have hinj : Function.Injective fun a : Arc (ofProblem p).order => (a.tail, a.head) := by
      rintro ⟨i, j⟩ ⟨k, l⟩ h
      cases h
      rfl
    refine (List.perm_ext_iff_of_nodup (((ofProblem p).nodup_arcs.filter _).map hinj)
      (nodup_placedPairs p)).mpr fun e => ?_
    rw [List.mem_map]
    constructor
    · rintro ⟨a, ha, rfl⟩
      obtain ⟨harc, hlt⟩ := mem_edges.mp ha
      refine (mem_neighbours_ofProblem.mp harc).resolve_right fun h => ?_
      exact lt_asymm hlt (lt_of_mem_placedPairs h)
    · intro he
      exact ⟨⟨e.1, e.2⟩, mem_edges.mpr
        ⟨mem_neighbours_ofProblem.mpr (.inl he), lt_of_mem_placedPairs he⟩, rfl⟩
  have hlength := hperm.length_eq
  rw [List.length_map] at hlength
  rw [numEdges, hlength, placedPairs, List.length_map, List.length_attach]

private theorem mem_neighbours_iff {i j : Fin (ofProblem p).order} :
    j ∈ (ofProblem p).neighbours i ↔ ∃ c ∈ p.constraints,
      c.low = min ((ofProblem p).label i) ((ofProblem p).label j) ∧
        c.high = max ((ofProblem p).label i) ((ofProblem p).label j) := by
  rw [mem_neighbours_ofProblem, mem_placedPairs, mem_placedPairs]
  constructor
  · rintro (⟨c, hc, hlow, hhigh⟩ | ⟨c, hc, hlow, hhigh⟩)
    all_goals
      have hlt := c.low_lt_high
      refine ⟨c, hc, ?_⟩
      lia
  · rintro ⟨c, hc, hlow, hhigh⟩
    have hlt := c.low_lt_high
    rcases lt_or_ge ((ofProblem p).label i) ((ofProblem p).label j) with hij | hij
    · exact .inl ⟨c, hc, by lia⟩
    · exact .inr ⟨c, hc, by lia⟩

private theorem depicts_ofProblem (p : Problem) : (ofProblem p).Depicts p where
  labels := rfl
  label_lt _ _ := (ofProblem p).label_lt_label
  neighbours_ascending := (ofProblem p).adjacency_ascending
  neighbours_symm := (ofProblem p).adjacency_symm
  neighbours_irrefl := (ofProblem p).loopless
  mem_neighbours _ _ := mem_neighbours_iff
  numEdges := numEdges_ofProblem p
  mem_arcs _ := mem_arcs_iff
  arcs_ascending := (ofProblem p).pairwise_arcs
  length_arcs := by rw [length_arcs, numEdges_ofProblem]

private theorem ofProblem_congr (hv : p.vertices = q.vertices)
    (hc : p.constraints = q.constraints) : ofProblem p = ofProblem q := by
  cases p
  cases q
  cases hv
  cases hc
  rfl

end Graph

namespace Tables

variable {G : Graph} {t : Tables}

/-- Every variable with every variable in its row, row by row. -/
def arcs (t : Tables) : List (VariableId × VariableId) :=
  t.adjacency.entries.flatMap fun e => e.2.map fun y => (e.1, y)

private theorem getElem?_of_get {α : Type} {t : Table α} {x : VariableId} {a : α}
    (h : t.get x = .ok a) : t.values[x.index]? = some a := by
  unfold Table.get VariableId.locate at h
  split at h
  · next hx =>
    have hlt : x.index < t.values.length := hx
    rw [List.getElem?_eq_getElem hlt]
    exact congrArg some (Except.ok.inj h)
  · cases h

private theorem Represents.values (h : t.Represents G) :
    t.adjacency.values = (List.finRange G.order).map fun i => (G.neighbours i).map .ofFin := by
  have hsize : t.adjacency.values.length = G.order := h.size
  apply List.ext_getElem
  · rw [hsize, List.length_map, List.length_finRange]
  · intro i hi _
    have hrow := getElem?_of_get (h.row ⟨i, hsize ▸ hi⟩)
    rw [VariableId.ofFin, List.getElem?_eq_getElem hi] at hrow
    rw [List.getElem_map, List.getElem_finRange]
    exact Option.some.inj hrow

private theorem Represents.keys (h : t.Represents G) (hn : G.order < 4294967296) :
    t.adjacency.keys = (List.finRange G.order).map .ofFin := by
  rw [Table.keys, h.size, ← List.map_coe_finRange_eq_range, List.map_map]
  exact List.map_congr_left fun i _ => VariableId.ofIndex_eq_ofFin hn i

private theorem Represents.arcs (h : t.Represents G) (hn : G.order < 4294967296) :
    t.arcs = G.arcs.map fun a => (.ofFin a.tail, .ofFin a.head) := by
  have hentries : t.adjacency.entries =
      (List.finRange G.order).map fun i => (.ofFin i, (G.neighbours i).map .ofFin) := by
    rw [Table.entries, h.keys hn, h.values, List.zip_map']
  rw [Tables.arcs, hentries, Graph.arcs, List.flatMap_map, List.map_flatMap]
  apply List.flatMap_congr
  intro i _
  rw [List.map_map, List.map_map]
  rfl

end Tables

/-- The vertex alone where a vertex is required to differ from itself. -/
def Addition.withoutSelf : Addition → Addition
  | vertex v => vertex v
  | constraint u v => if u = v then vertex u else constraint u v

def Call.withoutSelf : Call → Call
  | colourCount k => colourCount k
  | addition s => addition s.withoutSelf

namespace Addition

variable {s : Addition} {v : Vertex} {c : Constraint}

private theorem names_withoutSelf : s.withoutSelf.Names v ↔ s.Names v := by
  cases s with
  | vertex => rfl
  | constraint u w =>
    rw [withoutSelf]
    split
    · next h => simp [Names, h]
    · rfl

private theorem requires_withoutSelf : s.withoutSelf.Requires c ↔ s.Requires c := by
  cases s with
  | vertex => rfl
  | constraint u w =>
    rw [withoutSelf]
    split
    · have hlt := c.low_lt_high
      simp only [Requires]
      lia
    · rfl

end Addition

namespace Calls

variable {calls : List Call}

private theorem exists_addition_withoutSelf {P : Addition → Prop} :
    (∃ s, .addition s ∈ calls.map Call.withoutSelf ∧ P s) ↔
      ∃ s, .addition s ∈ calls ∧ P s.withoutSelf := by
  constructor
  · rintro ⟨s, hs, hP⟩
    obtain ⟨c, hc, hcs⟩ := List.mem_map.mp hs
    cases c with
    | colourCount => cases hcs
    | addition r =>
      cases hcs
      exact ⟨r, hc, hP⟩
  · rintro ⟨s, hs, hP⟩
    exact ⟨s.withoutSelf, List.mem_map.mpr ⟨_, hs, rfl⟩, hP⟩

private theorem vertices_withoutSelf : vertices (calls.map Call.withoutSelf) = vertices calls := by
  ext v
  exact exists_addition_withoutSelf.trans (by simp only [Addition.names_withoutSelf]; rfl)

private theorem constraints_withoutSelf :
    constraints (calls.map Call.withoutSelf) = constraints calls := by
  ext c
  exact exists_addition_withoutSelf.trans (by simp only [Addition.requires_withoutSelf]; rfl)

end Calls

namespace Graph

open Problem

variable {calls : List Call}

private theorem ofProblem_withoutSelf :
    ofProblem (ofCalls (calls.map Call.withoutSelf)) = ofProblem (ofCalls calls) := by
  apply ofProblem_congr
  · apply (vertices_ascending _).eq_of_mem_iff (vertices_ascending _)
    intro v
    rw [mem_vertices_ofCalls, mem_vertices_ofCalls, Calls.vertices_withoutSelf]
  · apply (constraints_ascending _).eq_of_mem_iff (constraints_ascending _)
    intro c
    rw [mem_constraints_ofCalls, mem_constraints_ofCalls, Calls.constraints_withoutSelf]

/-- However a problem with fewer than 2³² vertices was built up, its tables can be built, and they
are those of a graph that shows the problem. The graph is the one without any vertex required to
differ from itself. -/
theorem depicts_ofCalls (hn : (ofCalls calls).vertices.length < 4294967296) :
    (∃ t, Tables.build (ofCalls calls) = some t ∧ t.Represents (ofProblem (ofCalls calls)) ∧
        t.arcs = (ofProblem (ofCalls calls)).arcs.map fun a => (.ofFin a.tail, .ofFin a.head)) ∧
      (ofProblem (ofCalls calls)).Depicts (ofCalls calls) ∧
      ofProblem (ofCalls (calls.map Call.withoutSelf)) = ofProblem (ofCalls calls) := by
  obtain ⟨t, ht, hrep⟩ := Tables.build_represents hn
  exact ⟨⟨t, ht, hrep, hrep.arcs hn⟩, depicts_ofProblem _, ofProblem_withoutSelf⟩

/-- Two pairs, one of them required twice, and a vertex required to differ from itself. -/
theorem depicts_ofCalls_selfPair :
    let calls : List Call := [.addition (.constraint 30 10), .colourCount 2,
      .addition (.constraint 4 4), .addition (.constraint 20 30), .addition (.constraint 30 20)]
    (ofProblem (ofCalls calls)).labels.toList = [4, 10, 20, 30] ∧
      (ofProblem (ofCalls calls)).numEdges = 2 ∧
      ∃ t, Tables.build (ofCalls calls) = some t ∧
        t.arcs = [(⟨1⟩, ⟨3⟩), (⟨2⟩, ⟨3⟩), (⟨3⟩, ⟨1⟩), (⟨3⟩, ⟨2⟩)] := by
  intro calls
  have hn : (ofCalls calls).vertices.length < 4294967296 := by decide +kernel
  obtain ⟨⟨t, ht, -, harcs⟩, hdepicts, -⟩ := depicts_ofCalls hn
  refine ⟨?_, ?_, t, ht, ?_⟩
  · rw [hdepicts.labels]
    decide +kernel
  · rw [hdepicts.numEdges]
    decide +kernel
  · rw [harcs]
    decide +kernel

end Graph

end Chromatic
