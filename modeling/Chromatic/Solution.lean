import Chromatic.Problem
/-!
# Colourings and their check

A solution gives colours to finitely many vertices. The check reports the first way in which a
solution fails a problem: vertices come before constraints, each in ascending order.
-/

namespace Chromatic

/-- Finitely many vertices with their colours, one entry a vertex. -/
structure Solution where
  entries : List (Vertex × Colour)
  ascending : entries.Pairwise fun a b => a.1 < b.1
deriving DecidableEq

namespace Solution

def empty : Solution := ⟨[], .nil⟩

/-- Puts an entry in its place; an older entry of the same vertex gives way. -/
def insertEntry (v : Vertex) (c : Colour) : List (Vertex × Colour) → List (Vertex × Colour)
  | [] => [(v, c)]
  | e :: rest =>
    if v < e.1 then (v, c) :: e :: rest
    else if v = e.1 then (v, c) :: rest
    else e :: insertEntry v c rest

private theorem fst_of_mem_insertEntry {v : Vertex} {c : Colour} {e : Vertex × Colour}
    {l : List (Vertex × Colour)} (h : e ∈ insertEntry v c l) : e.1 = v ∨ e ∈ l := by
  induction l with
  | nil => simp_all [insertEntry]
  | cons a rest ih => grind [insertEntry]

private theorem pairwise_insertEntry {v : Vertex} {c : Colour} {l : List (Vertex × Colour)}
    (h : l.Pairwise fun a b => a.1 < b.1) :
    (insertEntry v c l).Pairwise fun a b => a.1 < b.1 := by
  induction l with
  | nil => simp [insertEntry]
  | cons a rest ih =>
    obtain ⟨ha, hrest⟩ := List.pairwise_cons.mp h
    rw [insertEntry]
    split
    · next hva =>
      refine List.pairwise_cons.mpr ⟨fun x hx => ?_, h⟩
      rcases List.mem_cons.mp hx with rfl | hx
      · exact hva
      · exact Int.lt_trans hva (ha x hx)
    · split
      · next hva => exact List.pairwise_cons.mpr ⟨fun x hx => hva ▸ ha x hx, hrest⟩
      · refine List.pairwise_cons.mpr ⟨fun x hx => ?_, ih hrest⟩
        rcases fst_of_mem_insertEntry hx with hx | hx
        · lia
        · exact ha x hx

private theorem lookup_cons_eq_ite {w : Vertex} {e : Vertex × Colour} {l : List (Vertex × Colour)} :
    (e :: l).lookup w = if w = e.1 then some e.2 else l.lookup w := by
  rw [List.lookup_cons]
  by_cases h : w = e.1
  · rw [if_pos h, beq_iff_eq.mpr h]
  · rw [if_neg h, beq_eq_false_iff_ne.mpr h]

private theorem lookup_insertEntry {v w : Vertex} {c : Colour} {l : List (Vertex × Colour)} :
    (insertEntry v c l).lookup w = if w = v then some c else l.lookup w := by
  induction l with
  | nil => rw [insertEntry, lookup_cons_eq_ite]
  | cons e rest ih =>
    rw [insertEntry]
    split
    · rw [lookup_cons_eq_ite]
    · split
      · next hve =>
        rw [lookup_cons_eq_ite, lookup_cons_eq_ite, ← hve]
        split <;> rfl
      · next hve =>
        rw [lookup_cons_eq_ite, lookup_cons_eq_ite, ih]
        split
        · next hwe => rw [if_neg fun hwv => hve (hwv.symm.trans hwe)]
        · rfl

/-- Gives a colour to a vertex, in place of the one it may have. -/
def set (s : Solution) (v : Vertex) (c : Colour) : Solution :=
  ⟨insertEntry v c s.entries, pairwise_insertEntry s.ascending⟩

/-- The solution made by colouring vertices one after the other. -/
def ofList (entries : List (Vertex × Colour)) : Solution :=
  entries.foldl (fun s e => s.set e.1 e.2) empty

/-- The colour of a vertex, if it has one. -/
def colourOf (s : Solution) (v : Vertex) : Option Colour := s.entries.lookup v

@[simp] theorem colourOf_empty (v : Vertex) : empty.colourOf v = none := rfl

@[simp] theorem colourOf_set (s : Solution) (v w : Vertex) (c : Colour) :
    (s.set v c).colourOf w = if w = v then some c else s.colourOf w := lookup_insertEntry

private theorem lookup_eq_some {v : Vertex} {c : Colour} {l : List (Vertex × Colour)}
    (hl : l.Pairwise fun a b => a.1 < b.1) : l.lookup v = some c ↔ (v, c) ∈ l := by
  induction l with
  | nil => simp
  | cons e rest ih =>
    obtain ⟨x, d⟩ := e
    obtain ⟨hx, hrest⟩ := List.pairwise_cons.mp hl
    rw [lookup_cons_eq_ite, List.mem_cons]
    by_cases hv : v = x
    · subst hv
      have hn : (v, c) ∉ rest := fun h => Int.lt_irrefl v (hx (v, c) h)
      simp [hn, eq_comm]
    · simp [hv, ih hrest]

theorem colourOf_eq_some {s : Solution} {v : Vertex} {c : Colour} :
    s.colourOf v = some c ↔ (v, c) ∈ s.entries := lookup_eq_some s.ascending

def size (s : Solution) : Nat := s.entries.length

/-- The colours in use, in ascending order. -/
def coloursUsed (s : Solution) : List Colour :=
  (s.entries.map (·.2)).foldr insertAscending []

def numColoursUsed (s : Solution) : Nat := s.coloursUsed.length

/-- The solution on one line, the vertices in ascending order. -/
def line (s : Solution) : String :=
  "SOLUTION: \x7b" ++
    ", ".intercalate (s.entries.map fun e => toString e.1 ++ ": " ++ toString e.2) ++ "\x7d"

end Solution

/-- A way in which a solution fails a problem. -/
inductive Violation
  | uncoloured (v : Vertex)
  /-- The colour is not among those that the problem allows. -/
  | outOfRange (v : Vertex) (c : Colour)
  | conflict (c : Constraint)
deriving DecidableEq

namespace Problem

/-- The colours are those from one up to the stated number; none before one is stated. -/
def Allows (p : Problem) (c : Colour) : Prop :=
  ∃ k ∈ p.colourCount, 1 ≤ c ∧ (c : Int) ≤ k

instance (p : Problem) (c : Colour) : Decidable (p.Allows c) :=
  match h : p.colourCount with
  | none => isFalse fun ⟨k, hk, _⟩ => by simp [h] at hk
  | some k =>
    decidable_of_iff (1 ≤ c ∧ (c : Int) ≤ k) <| by
      simp [Allows, h]

/-- What is wrong at a vertex. -/
def vertexViolation (p : Problem) (s : Solution) (v : Vertex) : Option Violation :=
  match s.colourOf v with
  | none => some (.uncoloured v)
  | some c => if p.Allows c then none else some (.outOfRange v c)

/-- What is wrong at a constraint. -/
def constraintViolation (s : Solution) (c : Constraint) : Option Violation :=
  if s.colourOf c.low = s.colourOf c.high then some (.conflict c) else none

/-- The first violation: of the vertices in ascending order, then of the constraints. -/
def violation (p : Problem) (s : Solution) : Option Violation :=
  p.vertices.findSome? (p.vertexViolation s) <|> p.constraints.findSome? (constraintViolation s)

/-- Whether the solution is a proper colouring of the problem. -/
def accepts (p : Problem) (s : Solution) : Bool := (p.violation s).isNone

end Problem

end Chromatic
