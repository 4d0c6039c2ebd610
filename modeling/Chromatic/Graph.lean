import Chromatic.Family
import Chromatic.Problem
/-!
# Constraint graphs

The vertices of a problem are numbered in ascending order, and each number knows its neighbours
in ascending order. The graph depends on the vertices and constraints of a problem alone, not on
the order in which they were stated.
-/

namespace Chromatic

/-- An ordered pair of neighbours: the domain of the tail answers to the domain of the head. -/
structure Arc (n : Nat) where
  tail : Fin n
  head : Fin n
deriving DecidableEq

/-- A finite simple graph whose vertices carry ascending labels. -/
structure Graph where
  order : Nat
  labels : Family order Vertex
  adjacency : Family order (List (Fin order))
  labels_ascending : labels.toList.Pairwise (· < ·)
  adjacency_ascending : ∀ i, (adjacency.get i).Pairwise (· < ·)
  adjacency_symm : ∀ i j, j ∈ adjacency.get i → i ∈ adjacency.get j
  loopless : ∀ i, i ∉ adjacency.get i

namespace Graph

/-- The neighbours of a vertex, in ascending order. -/
def neighbours (G : Graph) (i : Fin G.order) : List (Fin G.order) := G.adjacency.get i

def label (G : Graph) (i : Fin G.order) : Vertex := G.labels.get i

/-- Every ordered pair of neighbours once, in lexicographic order. -/
def arcs (G : Graph) : List (Arc G.order) :=
  (List.finRange G.order).flatMap fun i => (G.neighbours i).map fun j => ⟨i, j⟩

/-- Every pair of neighbours once, the smaller vertex at the tail. -/
def edges (G : Graph) : List (Arc G.order) := G.arcs.filter fun a => a.tail < a.head

def numEdges (G : Graph) : Nat := G.edges.length

/-- The arcs into a vertex, in the order of its neighbours. -/
def arcsInto (G : Graph) (i : Fin G.order) : List (Arc G.order) :=
  (G.neighbours i).map fun j => ⟨j, i⟩

def maxDegree (G : Graph) : Nat :=
  (List.finRange G.order).foldr (fun i m => max (G.neighbours i).length m) 0

theorem degree_le_maxDegree (G : Graph) (i : Fin G.order) :
    (G.neighbours i).length ≤ G.maxDegree := by
  suffices h : ∀ l : List (Fin G.order), i ∈ l →
      (G.neighbours i).length ≤ l.foldr (fun i m => max (G.neighbours i).length m) 0 from
    h _ (List.mem_finRange i)
  intro l hi
  induction l with
  | nil => cases hi
  | cons j rest ih =>
    rcases List.mem_cons.mp hi with rfl | hi
    · exact Nat.le_max_left _ _
    · exact Nat.le_trans (ih hi) (Nat.le_max_right _ _)

/-- Makes two vertices neighbours of each other. -/
def join {n : Nat} (rows : Family n (List (Fin n))) (e : Fin n × Fin n) :
    Family n (List (Fin n)) :=
  let rows := rows.set e.1 (insertAscending e.2 (rows.get e.1))
  rows.set e.2 (insertAscending e.1 (rows.get e.2))

theorem mem_join {n : Nat} {rows : Family n (List (Fin n))} {e : Fin n × Fin n} {i j : Fin n} :
    j ∈ (join rows e).get i ↔ j ∈ rows.get i ∨ e = (i, j) ∨ e = (j, i) := by
  obtain ⟨a, b⟩ := e
  simp only [join, Family.get_set, Prod.mk.injEq]
  grind [mem_insertAscending]

private theorem pairwise_join {n : Nat} {rows : Family n (List (Fin n))} {e : Fin n × Fin n}
    (h : ∀ i, (rows.get i).Pairwise (· < ·)) (i : Fin n) :
    ((join rows e).get i).Pairwise (· < ·) := by
  have hset : ∀ (rows : Family n (List (Fin n))) (a b : Fin n),
      (∀ i, (rows.get i).Pairwise (· < ·)) →
        ∀ i, ((rows.set a (insertAscending b (rows.get a))).get i).Pairwise (· < ·) := by
    intro rows a b h i
    rw [Family.get_set]
    split
    · exact pairwise_insertAscending (h a)
    · exact h i
  exact hset _ e.2 e.1 (hset rows e.1 e.2 h) i

theorem mem_foldl_join {n : Nat} {es : List (Fin n × Fin n)} {rows : Family n (List (Fin n))}
    {i j : Fin n} :
    j ∈ (es.foldl join rows).get i ↔ j ∈ rows.get i ∨ (i, j) ∈ es ∨ (j, i) ∈ es := by
  induction es generalizing rows with
  | nil => simp
  | cons e es ih =>
    rw [List.foldl_cons, ih, mem_join, List.mem_cons, List.mem_cons]
    grind

private theorem pairwise_foldl_join {n : Nat} {es : List (Fin n × Fin n)}
    {rows : Family n (List (Fin n))} (h : ∀ i, (rows.get i).Pairwise (· < ·)) (i : Fin n) :
    ((es.foldl join rows).get i).Pairwise (· < ·) := by
  induction es generalizing rows with
  | nil => exact h i
  | cons e es ih => exact ih fun i => pairwise_join h i

/-- The place of a vertex of a problem in ascending order. -/
def place (p : Problem) (v : Vertex) (h : v ∈ p.vertices) : Fin p.vertices.length :=
  ⟨p.vertices.idxOf v, List.idxOf_lt_length_iff.mpr h⟩

theorem place_inj {p : Problem} {u v : Vertex} {hu : u ∈ p.vertices} {hv : v ∈ p.vertices} :
    place p u hu = place p v hv ↔ u = v := by
  constructor
  · intro h
    have hi : p.vertices.idxOf u = p.vertices.idxOf v := congrArg Fin.val h
    rw [← List.getElem_idxOf (List.idxOf_lt_length_iff.mpr hu),
      ← List.getElem_idxOf (List.idxOf_lt_length_iff.mpr hv)]
    simp only [hi]
  · rintro rfl
    rfl

/-- The places of the two ends of every constraint. -/
def placedPairs (p : Problem) : List (Fin p.vertices.length × Fin p.vertices.length) :=
  p.constraints.attach.map fun c =>
    (place p c.1.low (p.endpoints_mem c.1 c.2).1, place p c.1.high (p.endpoints_mem c.1 c.2).2)

private theorem not_mem_placedPairs {p : Problem} {i : Fin p.vertices.length} :
    (i, i) ∉ placedPairs p := by
  intro h
  obtain ⟨c, -, hc⟩ := List.mem_map.mp h
  have hlt := c.1.low_lt_high
  have hlow := (Prod.mk.inj hc).1
  rw [← (Prod.mk.inj hc).2, place_inj] at hlow
  lia

/-- The graph of a problem: its vertices in ascending order, and its constraints as edges. A
vertex that should differ from itself is a vertex like any other. -/
def ofProblem (p : Problem) : Graph where
  order := p.vertices.length
  labels := .ofList p.vertices
  adjacency := (placedPairs p).foldl join (.replicate _ [])
  labels_ascending := p.vertices_ascending
  adjacency_ascending := pairwise_foldl_join fun i => by simp
  adjacency_symm i j h := by
    rw [mem_foldl_join] at h ⊢
    simpa [or_comm] using h
  loopless i h := by
    rw [mem_foldl_join] at h
    simp [not_mem_placedPairs] at h

end Graph

end Chromatic
