import Chromatic.Problem
import Mathlib.Data.List.Sort
/-!
# The order of additions

A problem keeps which vertices were named and which pairs were required to differ, and of the
vertices required to differ from themselves the first one. So vertices and constraints may be added
in any order, with the ends of a constraint in any order, and more than once.
-/

namespace Chromatic

/-- What can be added to a problem. -/
inductive Addition
  | vertex (v : Vertex)
  | constraint (u v : Vertex)
deriving DecidableEq

namespace Addition

def Names : Addition → Vertex → Prop
  | vertex u, v => v = u
  | constraint u w, v => v = u ∨ v = w

/-- The constraint is the one between the two vertices. -/
def Requires : Addition → Constraint → Prop
  | vertex _, _ => False
  | constraint u v, c => c.low = u ∧ c.high = v ∨ c.low = v ∧ c.high = u

/-- The vertex that is required to differ from itself, if one is. -/
def self : Addition → Option Vertex
  | vertex _ => none
  | constraint u v => if u = v then some u else none

end Addition

instance : Std.Irrefl (α := Constraint) (· < ·) where
  irrefl c h := by
    rw [Constraint.lt_iff] at h
    lia

instance : Std.Antisymm (α := Constraint) (· < ·) where
  antisymm c d h h' := by
    rw [Constraint.lt_iff] at h h'
    lia

private theorem Constraint.eq_between {c : Constraint} {u v : Vertex} (h : u ≠ v) :
    c = between u v h ↔ c.low = u ∧ c.high = v ∨ c.low = v ∧ c.high = u := by
  obtain ⟨low, high, hlt⟩ := c
  rw [between]
  split
  · rw [mk.injEq]
    lia
  · rw [mk.injEq]
    lia

namespace Problem

variable {p q : Problem} {u v w : Vertex} {c : Constraint} {s : Addition}
  {l m : List Addition} {k : Option Int}

theorem ext_mem (hk : p.colourCount = q.colourCount)
    (hv : ∀ v, v ∈ p.vertices ↔ v ∈ q.vertices)
    (hc : ∀ c, c ∈ p.constraints ↔ c ∈ q.constraints)
    (hs : p.selfConstraint = q.selfConstraint) : p = q := by
  have hvertices := p.vertices_ascending.eq_of_mem_iff q.vertices_ascending hv
  have hconstraints := p.constraints_ascending.eq_of_mem_iff q.constraints_ascending hc
  cases p
  cases q
  simp_all

theorem mem_vertices_addConstraint :
    v ∈ (p.addConstraint u w).vertices ↔ (v = u ∨ v = w) ∨ v ∈ p.vertices := by
  unfold addConstraint
  split
  · next h =>
    subst h
    rw [mem_addVertex, or_self]
  · rw [mem_addVertex, mem_addVertex]
    lia

theorem mem_constraints_addConstraint :
    c ∈ (p.addConstraint u v).constraints ↔
      (c.low = u ∧ c.high = v ∨ c.low = v ∧ c.high = u) ∨ c ∈ p.constraints := by
  unfold addConstraint
  split
  · next h =>
    have hlt := c.low_lt_high
    apply (or_iff_right _).symm
    lia
  · next h => rw [mem_insertAscending, Constraint.eq_between]

theorem colourCount_addConstraint : (p.addConstraint u v).colourCount = p.colourCount := by
  unfold addConstraint
  split <;> rfl

theorem selfConstraint_addConstraint :
    (p.addConstraint u v).selfConstraint =
      p.selfConstraint.or (if u = v then some u else none) := by
  unfold addConstraint
  split
  · exact Option.orElse_eq_or
  · exact Option.or_none.symm

def add (p : Problem) : Addition → Problem
  | .vertex v => p.addVertex v
  | .constraint u v => p.addConstraint u v

/-- The problem that is built up by additions, with a number of colours or without. -/
def build (k : Option Int) (l : List Addition) : Problem :=
  l.foldl add (k.elim empty empty.setColourCount)

private theorem foldl_add_iff {P : Problem → Prop} {Q : Addition → Prop}
    (h : ∀ p s, P (p.add s) ↔ Q s ∨ P p) (p : Problem) (l : List Addition) :
    P (l.foldl add p) ↔ (∃ s ∈ l, Q s) ∨ P p := by
  induction l generalizing p with
  | nil => simp
  | cons s rest ih =>
    rw [List.foldl_cons, ih, h, List.exists_mem_cons_iff, or_left_comm, or_assoc]

theorem mem_vertices_build : v ∈ (build k l).vertices ↔ ∃ s ∈ l, s.Names v := by
  have hadd : ∀ (p : Problem) (s : Addition),
      v ∈ (p.add s).vertices ↔ s.Names v ∨ v ∈ p.vertices := by
    intro p s
    cases s with
    | vertex => exact mem_addVertex
    | constraint => exact mem_vertices_addConstraint
  rw [build, foldl_add_iff (P := fun p => v ∈ p.vertices) hadd]
  cases k <;> simp [empty, setColourCount]

theorem mem_constraints_build : c ∈ (build k l).constraints ↔ ∃ s ∈ l, s.Requires c := by
  have hadd : ∀ (p : Problem) (s : Addition),
      c ∈ (p.add s).constraints ↔ s.Requires c ∨ c ∈ p.constraints := by
    intro p s
    cases s with
    | vertex => exact (or_iff_right id).symm
    | constraint => exact mem_constraints_addConstraint
  rw [build, foldl_add_iff (P := fun p => c ∈ p.constraints) hadd]
  cases k <;> simp [empty, setColourCount]

theorem selfConstraint_build : (build k l).selfConstraint = l.findSome? Addition.self := by
  have hadd : ∀ (p : Problem) (s : Addition),
      (p.add s).selfConstraint = p.selfConstraint.or s.self := by
    intro p s
    cases s with
    | vertex => simp [add, addVertex, Addition.self]
    | constraint u v => exact selfConstraint_addConstraint
  have hfoldl : ∀ p : Problem,
      (l.foldl add p).selfConstraint = p.selfConstraint.or (l.findSome? Addition.self) := by
    induction l with
    | nil => simp
    | cons s rest ih =>
      intro p
      rw [List.foldl_cons, ih, hadd, Option.or_assoc, List.findSome?_cons]
      cases s.self <;> simp
  rw [build, hfoldl]
  cases k <;> rfl

theorem colourCount_build : (build k l).colourCount = k := by
  have hfoldl : ∀ p : Problem, (l.foldl add p).colourCount = p.colourCount := by
    induction l with
    | nil => simp
    | cons s rest ih =>
      intro p
      rw [List.foldl_cons, ih]
      cases s with
      | vertex => rfl
      | constraint => exact colourCount_addConstraint
  rw [build, hfoldl]
  cases k <;> rfl

end Problem

/-- Additions in another order, with the ends of constraints exchanged, repeated, or dropped where
they are repeated. -/
inductive Rephrased : List Addition → List Addition → Prop
  | permuted {l m : List Addition} (h : l.Perm m) : Rephrased l m
  | exchanged (u v : Vertex) (l : List Addition) :
    Rephrased (.constraint u v :: l) (.constraint v u :: l)
  | repeated {s : Addition} {l : List Addition} (h : s ∈ l) : Rephrased l (s :: l)
  | dropped {s : Addition} {l : List Addition} (h : s ∈ l) : Rephrased (s :: l) l
  | trans {l m n : List Addition} (h : Rephrased l m) (h' : Rephrased m n) : Rephrased l n

namespace Rephrased

variable {l m : List Addition}

private theorem exists_iff {P : Addition → Prop} (h : Rephrased l m)
    (hP : ∀ u v, P (.constraint u v) ↔ P (.constraint v u)) :
    (∃ s ∈ l, P s) ↔ ∃ s ∈ m, P s := by
  induction h with
  | permuted h => simp only [h.mem_iff]
  | exchanged u v l => rw [List.exists_mem_cons_iff, List.exists_mem_cons_iff, hP]
  | repeated h =>
    rw [List.exists_mem_cons_iff]
    exact (or_iff_right_of_imp fun hs => ⟨_, h, hs⟩).symm
  | dropped h =>
    rw [List.exists_mem_cons_iff]
    exact or_iff_right_of_imp fun hs => ⟨_, h, hs⟩
  | trans _ _ ih ih' => exact ih.trans ih'

variable {k : Option Int}

theorem vertices_eq (h : Rephrased l m) :
    (Problem.build k l).vertices = (Problem.build k m).vertices := by
  apply (Problem.build k l).vertices_ascending.eq_of_mem_iff (Problem.build k m).vertices_ascending
  intro v
  rw [Problem.mem_vertices_build, Problem.mem_vertices_build]
  exact h.exists_iff fun u w => or_comm

theorem constraints_eq (h : Rephrased l m) :
    (Problem.build k l).constraints = (Problem.build k m).constraints := by
  apply (Problem.build k l).constraints_ascending.eq_of_mem_iff
    (Problem.build k m).constraints_ascending
  intro c
  rw [Problem.mem_constraints_build, Problem.mem_constraints_build]
  exact h.exists_iff fun u v => or_comm

theorem selfConstraint_iff (h : Rephrased l m) :
    (Problem.build k l).selfConstraint = none ↔ (Problem.build k m).selfConstraint = none := by
  have hself := h.exists_iff (P := fun s => s.self.isSome) fun u v => by
    by_cases huv : u = v
    · rw [huv]
    · simp [Addition.self, huv, Ne.symm huv]
  rw [Problem.selfConstraint_build, Problem.selfConstraint_build,
    ← Option.not_isSome_iff_eq_none, ← Option.not_isSome_iff_eq_none, List.findSome?_isSome_iff,
    List.findSome?_isSome_iff]
  exact not_congr hself

/-- Rephrased additions build up the same problem, but for the vertex that is required to differ
from itself. -/
theorem build_eq (h : Rephrased l m) (hself : (Problem.build k l).selfConstraint = none) :
    Problem.build k l = Problem.build k m := by
  apply Problem.ext_mem
  · rw [Problem.colourCount_build, Problem.colourCount_build]
  · intro v
    rw [h.vertices_eq]
  · intro c
    rw [h.constraints_eq]
  · rw [hself, h.selfConstraint_iff.mp hself]

end Rephrased

end Chromatic
