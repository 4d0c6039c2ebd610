import Chromatic.Proofs.Problem.Colourable
import Chromatic.Table
import Mathlib.Data.List.Sort
/-!
# The graph as tables

The graph of a problem can be kept in tables that know variables by their numbers only: a table of
labels, and a table with a row of neighbours for every variable. Building them looks up the number
of every vertex and the row of every number. As long as the numbers have 32 bits, no look-up fails
and the tables are those of the graph.
-/

namespace Chromatic

theorem VariableId.ofIndex_eq_ofFin {n : Nat} (hn : n < 4294967296) (i : Fin n) :
    ofIndex i = ofFin i := by
  have hi : i.val < 4294967296 := Nat.lt_trans i.isLt hn
  rw [ofIndex, ofFin, Nat.mod_eq_of_lt hi]

namespace Family

variable {n : Nat} {α : Type}

/-- The values of a family, to be read by the numbers of the variables. -/
def table (f : Family n α) : Table α := ⟨f.toList⟩

theorem size_table (f : Family n α) : f.table.size = n := by
  simp [table, Table.size, toList]

private theorem locate_table (f : Family n α) (i : Fin n) :
    (VariableId.ofFin i).locate f.table.size = .ok (i.cast f.size_table.symm) := by
  have hi : i.val < f.table.size := by
    rw [f.size_table]
    exact i.isLt
  exact dif_pos hi

theorem get_table (f : Family n α) (i : Fin n) : f.table.get (.ofFin i) = .ok (f.get i) := by
  rw [Table.get, locate_table]
  exact congrArg Except.ok (Vector.getElem_toList _)

private theorem set_table (f : Family n α) (i : Fin n) (a : α) :
    f.table.set (.ofFin i) a = .ok (f.set i a).table := by
  rw [Table.set, locate_table]
  exact congrArg (fun l => Except.ok (Table.mk l)) (Vector.toList_set i.isLt).symm

private theorem map_table {β : Type} (g : α → β) (f : Family n α) :
    f.table.map g = (⟨f.values.map g⟩ : Family n β).table :=
  congrArg Table.mk Vector.toList_map.symm

end Family

/-- The labels of a graph and the neighbours of each of its variables. -/
structure Tables where
  labels : Table Vertex
  adjacency : Table (List VariableId)

namespace Tables

/-- Numbers vertices in the order in which they come. -/
def number (vertices : List Vertex) : Table Vertex × List (Vertex × VariableId) :=
  vertices.foldl
    (fun (labels, ids) v =>
      let (x, labels) := labels.push v
      (labels, (v, x) :: ids))
    (.empty, [])

/-- Puts a variable at the end of the row of another one. -/
def extend (rows : Table (List VariableId)) (x y : VariableId) :
    Option (Table (List VariableId)) := do
  let row ← (rows.get x).toOption
  (rows.set x (row ++ [y])).toOption

/-- Puts each end of a constraint in the row of the other end. -/
def connect (ids : List (Vertex × VariableId)) (rows : Table (List VariableId))
    (c : Constraint) : Option (Table (List VariableId)) := do
  let x ← ids.lookup c.low
  let y ← ids.lookup c.high
  let rows ← extend rows x y
  extend rows y x

def sortRow (row : List VariableId) : List VariableId :=
  row.mergeSort fun x y => x.index ≤ y.index

/-- The tables of a problem; there are none when a look-up fails on the way. -/
def build (p : Problem) : Option Tables := do
  let (labels, ids) := number p.vertices
  let rows ← p.constraints.foldlM (connect ids) (.replicate labels.size [])
  return ⟨labels, rows.map sortRow⟩

/-- The tables of a graph. -/
structure Represents (t : Tables) (G : Graph) : Prop where
  labels : t.labels = G.labels.table
  size : t.adjacency.size = G.order
  row : ∀ i, t.adjacency.get (.ofFin i) = .ok ((G.neighbours i).map .ofFin)

section Numbers

private theorem number_append (vertices : List Vertex) (v : Vertex) :
    number (vertices ++ [v]) =
      (⟨(number vertices).1.values ++ [v]⟩,
        (v, .ofIndex (number vertices).1.size) :: (number vertices).2) := by
  simp [number, Table.push]

/-- Every vertex gets the number of its place. -/
theorem number_spec {vertices : List Vertex} (h : vertices.Nodup) :
    (number vertices).1 = ⟨vertices⟩ ∧
      ∀ v ∈ vertices, (number vertices).2.lookup v = some (.ofIndex (vertices.idxOf v)) := by
  induction vertices using List.reverseRecOn with
  | nil => exact ⟨rfl, nofun⟩
  | append_singleton vertices v ih =>
    obtain ⟨hvertices, -, hv⟩ := List.nodup_append.mp h
    have hnew : v ∉ vertices := fun hmem => hv v hmem v (List.mem_singleton_self v) rfl
    obtain ⟨hlabels, hids⟩ := ih hvertices
    rw [number_append, hlabels]
    refine ⟨rfl, fun w hw => ?_⟩
    by_cases hwv : w = v
    · subst hwv
      rw [List.lookup_cons_self, List.idxOf_append_of_notMem hnew]
      simp [Table.size]
    · have hmem : w ∈ vertices := by simpa [hwv] using hw
      rw [List.lookup_cons, beq_eq_false_iff_ne.mpr hwv, List.idxOf_append_of_mem hmem]
      exact hids w hmem

end Numbers

section Rows

variable {n : Nat} {rows : Family n (List (Fin n))} {f : Family n (List VariableId)}
  {a b : Fin n} {e : Fin n × Fin n}

private theorem extend_table (f : Family n (List VariableId)) (a b : Fin n) :
    extend f.table (.ofFin a) (.ofFin b) = some (f.set a (f.get a ++ [.ofFin b])).table := by
  simp [extend, Family.get_table, Family.set_table, Except.toOption]

/-- Each row has the given variables in some order. -/
def Lists (f : Family n (List VariableId)) (rows : Family n (List (Fin n))) : Prop :=
  ∀ i, (f.get i).Perm ((rows.get i).map .ofFin)

private theorem Lists.extend (h : Lists f rows) (hb : b ∉ rows.get a) :
    Lists (f.set a (f.get a ++ [.ofFin b])) (rows.set a (insertAscending b (rows.get a))) := by
  intro i
  rw [Family.get_set, Family.get_set]
  by_cases hi : a = i
  · subst hi
    rw [if_pos rfl, if_pos rfl]
    have hlast := List.perm_append_singleton (VariableId.ofFin b) (f.get a)
    have hrow := (perm_insertAscending hb).map VariableId.ofFin
    exact hlast.trans (((h a).cons _).trans hrow.symm)
  · rw [if_neg hi, if_neg hi]
    exact h i

/-- Neither end of a pair is in the row of the other. -/
def Fresh (rows : Family n (List (Fin n))) (e : Fin n × Fin n) : Prop :=
  e.2 ∉ rows.get e.1 ∧ e.1 ∉ rows.get e.2

private theorem Fresh.join {d : Fin n × Fin n} (h : Fresh rows e) (hd : d.1 < d.2) (he : e.1 < e.2)
    (hne : d ≠ e) : Fresh (Graph.join rows d) e := by
  obtain ⟨x, y⟩ := e
  have hswap : d ≠ (y, x) := by
    rintro rfl
    exact absurd hd (Fin.not_lt.mpr he.le)
  simp only [Fresh, Graph.mem_join] at h ⊢
  simp [h, hne, hswap]

/-- The numbers under which both ends of a constraint are looked up. -/
def Placed (ids : List (Vertex × VariableId)) (c : Constraint) (e : Fin n × Fin n) : Prop :=
  ids.lookup c.low = some (.ofFin e.1) ∧ ids.lookup c.high = some (.ofFin e.2)

variable {ids : List (Vertex × VariableId)} {c : Constraint}

private theorem connect_spec (hc : Placed ids c e) (h : Lists f rows) (he : e.1 < e.2)
    (hfresh : Fresh rows e) :
    ∃ g : Family n (List VariableId), connect ids f.table c = some g.table ∧
      Lists g (Graph.join rows e) := by
  let g := f.set e.1 (f.get e.1 ++ [.ofFin e.2])
  have hne : e.1 ≠ e.2 := Fin.ne_of_lt he
  have hg := h.extend hfresh.1
  have hsecond : e.1 ∉ (rows.set e.1 (insertAscending e.2 (rows.get e.1))).get e.2 := by
    rw [Family.get_set, if_neg hne]
    exact hfresh.2
  refine ⟨g.set e.2 (g.get e.2 ++ [.ofFin e.1]), ?_, hg.extend hsecond⟩
  simp only [connect, hc.1, hc.2, Option.bind_eq_bind, Option.bind_some, extend_table]
  rfl

private theorem foldlM_connect {constraints : List Constraint} {es : List (Fin n × Fin n)}
    (hplaced : List.Forall₂ (Placed ids) constraints es) (h : Lists f rows)
    (hlt : ∀ e ∈ es, e.1 < e.2) (hnodup : es.Nodup) (hfresh : ∀ e ∈ es, Fresh rows e) :
    ∃ g : Family n (List VariableId),
      constraints.foldlM (connect ids) f.table = some g.table ∧
        Lists g (es.foldl Graph.join rows) := by
  induction hplaced generalizing f rows with
  | nil => exact ⟨f, rfl, h⟩
  | @cons c e constraints es hc _ ih =>
    obtain ⟨he, hlt⟩ := List.forall_mem_cons.mp hlt
    obtain ⟨hnew, hnodup⟩ := List.nodup_cons.mp hnodup
    obtain ⟨hfirst, hfresh⟩ := List.forall_mem_cons.mp hfresh
    obtain ⟨g, hg, hlists⟩ := connect_spec hc h he hfirst
    rw [List.foldlM_cons, hg]
    refine ih hlists hlt hnodup fun d hd => ?_
    have hne : e ≠ d := by
      rintro rfl
      exact hnew hd
    exact (hfresh d hd).join he (hlt d hd) hne

private theorem sortRow_eq {row : List VariableId} {l : List (Fin n)}
    (h : row.Perm (l.map .ofFin)) (hl : l.Pairwise (· < ·)) : sortRow row = l.map .ofFin := by
  have hsorted : (l.map VariableId.ofFin).Pairwise fun x y => decide (x.index ≤ y.index) := by
    rw [List.pairwise_map]
    exact hl.imp fun hij => decide_eq_true (Nat.le_of_lt hij)
  have hrow : (sortRow row).Pairwise fun x y => decide (x.index ≤ y.index) := by
    apply List.pairwise_mergeSort
    · intro x y z hxy hyz
      simp only [decide_eq_true_eq] at hxy hyz ⊢
      omega
    · intro x y
      simp only [Bool.or_eq_true, decide_eq_true_eq]
      omega
  apply List.Perm.eq_of_pairwise _ hrow hsorted ((List.mergeSort_perm row _).trans h)
  intro x y _ _ hxy hyx
  exact congrArg VariableId.mk (Nat.le_antisymm (of_decide_eq_true hxy) (of_decide_eq_true hyx))

end Rows

end Tables

namespace Graph

variable {p : Problem}

theorem lt_of_mem_placedPairs {e : Fin p.vertices.length × Fin p.vertices.length}
    (h : e ∈ placedPairs p) : e.1 < e.2 := by
  obtain ⟨c, -, hlow, hhigh⟩ := mem_placedPairs.mp h
  have hc := c.low_lt_high
  rw [hlow, hhigh] at hc
  by_contra hle
  rcases Fin.lt_or_eq_of_le (Fin.not_lt.mp hle) with hlt | heq
  · exact absurd ((ofProblem p).label_lt_label hlt) (Int.not_lt.mpr hc.le)
  · rw [heq] at hc
    exact Int.lt_irrefl _ hc

theorem nodup_placedPairs (p : Problem) : (placedPairs p).Nodup := by
  refine p.nodup_constraints.attach.map fun c d h => ?_
  obtain ⟨hlow, hhigh⟩ := Prod.mk.inj h
  rw [place_inj] at hlow hhigh
  obtain ⟨⟨u, v, huv⟩, hc⟩ := c
  obtain ⟨⟨x, y, hxy⟩, hd⟩ := d
  obtain rfl : u = x := hlow
  obtain rfl : v = y := hhigh
  rfl

end Graph

namespace Tables

variable {p : Problem}

private theorem placed_number (hn : p.vertices.length < 4294967296) :
    List.Forall₂ (Placed (number p.vertices).2) p.constraints (Graph.placedPairs p) := by
  have hids := (number_spec p.nodup_vertices).2
  have hplace : ∀ v (hv : v ∈ p.vertices),
      (number p.vertices).2.lookup v = some (.ofFin (Graph.place p v hv)) := by
    intro v hv
    rw [hids v hv, ← VariableId.ofIndex_eq_ofFin hn]
    rfl
  have hforall : List.Forall₂ (fun c e => Placed (number p.vertices).2 c e)
      (p.constraints.attach.map Subtype.val) (Graph.placedPairs p) := by
    rw [Graph.placedPairs, List.forall₂_map_left_iff, List.forall₂_map_right_iff,
      List.forall₂_same]
    intro c _
    obtain ⟨hlow, hhigh⟩ := p.endpoints_mem c.1 c.2
    exact ⟨hplace _ hlow, hplace _ hhigh⟩
  rwa [List.attach_map_subtype_val] at hforall

/-- Building the tables of a problem with fewer than 2³² vertices succeeds, and they are those of
its graph. -/
theorem build_represents (hn : p.vertices.length < 4294967296) :
    ∃ t, build p = some t ∧ t.Represents (Graph.ofProblem p) := by
  let empty : Family p.vertices.length (List (Fin p.vertices.length)) := .replicate _ []
  let start : Family p.vertices.length (List VariableId) := .replicate _ []
  have hlabels := (number_spec p.nodup_vertices).1
  have hempty : ∀ i, empty.get i = [] := Family.get_replicate _
  have hlists : Lists start empty := by
    intro i
    rw [hempty, Family.get_replicate]
    exact .nil
  have hfresh : ∀ e ∈ Graph.placedPairs p, Fresh empty e := by
    intro e _
    simp [Fresh, hempty]
  obtain ⟨f, hf, hlists⟩ := foldlM_connect (placed_number hn) hlists
    (fun _ => Graph.lt_of_mem_placedPairs) (Graph.nodup_placedPairs p) hfresh
  have hstart : start.table = .replicate (number p.vertices).1.size [] := by
    rw [hlabels]
    simp [start, Family.table, Family.toList, Family.replicate, Table.replicate, Table.size]
  have hsorted : ∀ i, sortRow (f.get i) =
      ((Graph.ofProblem p).neighbours i).map VariableId.ofFin :=
    fun i => sortRow_eq (hlists i) ((Graph.ofProblem p).adjacency_ascending i)
  rw [hstart] at hf
  let sorted : Family p.vertices.length (List VariableId) := ⟨f.values.map sortRow⟩
  refine ⟨⟨(number p.vertices).1, sorted.table⟩, ?_, ?_, sorted.size_table, fun i => ?_⟩
  · simp only [build, hf, Option.bind_eq_bind, Option.bind_some, Family.map_table]
    rfl
  · rw [hlabels]
    rfl
  · have hrow : sorted.get i = sortRow (f.get i) := Vector.getElem_map ..
    rw [← hsorted i, ← hrow]
    exact sorted.get_table i

end Tables

end Chromatic
