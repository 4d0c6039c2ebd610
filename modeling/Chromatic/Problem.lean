import Chromatic.Order.Ascending
/-!
# Graph colouring problems

A problem is a number of colours and a set of vertices, some pairs of which need different
colours. It is built up statement by statement; whether it makes sense is asked later.
-/

namespace Chromatic

abbrev Vertex := Int

/-- Colours are counted from one; zero is no colour of a proper colouring. -/
abbrev Colour := Nat

/-- Two vertices that need different colours, the smaller one first. -/
structure Constraint where
  low : Vertex
  high : Vertex
  low_lt_high : low < high
deriving DecidableEq

namespace Constraint

/-- The constraint between two distinct vertices, named in either order. -/
def between (u v : Vertex) (h : u ≠ v) : Constraint :=
  if huv : u < v then ⟨u, v, huv⟩ else ⟨v, u, by lia⟩

/-- Constraints are ordered by the smaller vertex, then by the larger one. -/
instance : LT Constraint where
  lt c d := c.low < d.low ∨ c.low = d.low ∧ c.high < d.high

theorem lt_iff {c d : Constraint} :
    c < d ↔ c.low < d.low ∨ c.low = d.low ∧ c.high < d.high := Iff.rfl

instance : DecidableLT Constraint := fun c d =>
  inferInstanceAs (Decidable (c.low < d.low ∨ c.low = d.low ∧ c.high < d.high))

instance : Trans (α := Constraint) (· < ·) (· < ·) (· < ·) where
  trans {a b c} hab hbc := by
    rw [lt_iff] at hab hbc ⊢
    lia

instance : Std.Trichotomous (α := Constraint) (· < ·) where
  trichotomous := by
    rintro ⟨u, v, huv⟩ ⟨x, y, hxy⟩ h h'
    simp only [lt_iff] at h h'
    obtain ⟨rfl, rfl⟩ : u = x ∧ v = y := by lia
    rfl

private theorem between_endpoints {u v : Vertex} (h : u ≠ v) :
    (between u v h).low = min u v ∧ (between u v h).high = max u v := by
  rw [between]
  split <;> simp only <;> lia

end Constraint

/-- A colouring problem. Vertices and constraints are finite sets, and the endpoints of every
constraint are vertices. -/
structure Problem where
  /-- The number of colours, once stated. -/
  colourCount : Option Int
  vertices : List Vertex
  constraints : List Constraint
  /-- The first vertex that was required to differ from itself. -/
  selfConstraint : Option Vertex
  vertices_ascending : vertices.Pairwise (· < ·)
  constraints_ascending : constraints.Pairwise (· < ·)
  endpoints_mem : ∀ c ∈ constraints, c.low ∈ vertices ∧ c.high ∈ vertices
  selfConstraint_mem : ∀ v, selfConstraint = some v → v ∈ vertices
deriving DecidableEq

namespace Problem

theorem nodup_vertices (p : Problem) : p.vertices.Nodup := p.vertices_ascending.imp Int.ne_of_lt

theorem nodup_constraints (p : Problem) : p.constraints.Nodup := by
  refine p.constraints_ascending.imp fun hlt => ?_
  rintro rfl
  rw [Constraint.lt_iff] at hlt
  lia

def empty : Problem where
  colourCount := none
  vertices := []
  constraints := []
  selfConstraint := none
  vertices_ascending := .nil
  constraints_ascending := .nil
  endpoints_mem := nofun
  selfConstraint_mem := nofun

instance : Inhabited Problem := ⟨empty⟩

/-- States the number of colours; the last statement counts. -/
def setColourCount (p : Problem) (k : Int) : Problem :=
  { p with colourCount := some k }

/-- Adds a vertex, which need not take part in any constraint. -/
def addVertex (p : Problem) (v : Vertex) : Problem :=
  { p with
    vertices := insertAscending v p.vertices
    vertices_ascending := pairwise_insertAscending p.vertices_ascending
    endpoints_mem := fun c hc => by
      simp [(p.endpoints_mem c hc).1, (p.endpoints_mem c hc).2]
    selfConstraint_mem := fun w hw => by simp [p.selfConstraint_mem w hw] }

theorem mem_addVertex {p : Problem} {v x : Vertex} :
    x ∈ (p.addVertex v).vertices ↔ x = v ∨ x ∈ p.vertices := mem_insertAscending

/-- Requires two vertices to differ in colour and makes both vertices of the problem. A vertex
required to differ from itself is remembered, the first one only. -/
def addConstraint (p : Problem) (u v : Vertex) : Problem :=
  if h : u = v then
    let q := p.addVertex u
    { q with
      selfConstraint := p.selfConstraint <|> some u
      selfConstraint_mem := fun w hw => by
        cases hs : p.selfConstraint with
        | none => simp_all [q, mem_addVertex]
        | some x => exact q.selfConstraint_mem w (hs.trans (by simpa [hs] using hw)) }
  else
    let q := (p.addVertex u).addVertex v
    { q with
      constraints := insertAscending (Constraint.between u v h) p.constraints
      constraints_ascending := pairwise_insertAscending p.constraints_ascending
      endpoints_mem := fun c hc => by
        rcases mem_insertAscending.mp hc with rfl | hc
        · have hc := Constraint.between_endpoints h
          rw [hc.1, hc.2, mem_addVertex, mem_addVertex, mem_addVertex, mem_addVertex]
          lia
        · exact q.endpoints_mem c hc }

/-- The problem made by stating the number of colours, then vertices, then pairs. -/
def ofStatements (k : Option Int) (vertices : List Vertex) (pairs : List (Vertex × Vertex)) :
    Problem :=
  let p := k.elim empty empty.setColourCount
  let p := vertices.foldl addVertex p
  pairs.foldl (fun p e => p.addConstraint e.1 e.2) p

end Problem

end Chromatic
