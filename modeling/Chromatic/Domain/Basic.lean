import Chromatic.Problem
/-!
# Domains

The domain of a variable is the finite set of colours that are still open to it. Its size is kept
beside it, because the choice of the next variable asks for the size of every domain.
-/

namespace Chromatic

/-- A finite set of colours in ascending order, with its size. -/
structure Domain where
  values : List Colour
  size : Nat
  ascending : values.Pairwise (· < ·)
  size_eq : size = values.length
deriving DecidableEq

namespace Domain

/-- The colours from one up to `k`. -/
def full (k : Nat) : Domain where
  values := List.range' 1 k
  size := k
  ascending := List.pairwise_lt_range'
  size_eq := List.length_range'.symm

instance : Membership Colour Domain := ⟨fun d c => c ∈ d.values⟩

theorem mem_def {d : Domain} {c : Colour} : c ∈ d ↔ c ∈ d.values := Iff.rfl

instance (d : Domain) (c : Colour) : Decidable (c ∈ d) :=
  inferInstanceAs (Decidable (c ∈ d.values))

@[simp] theorem mem_full {k : Nat} {c : Colour} : c ∈ full k ↔ 1 ≤ c ∧ c ≤ k := by
  simp only [mem_def, full, List.mem_range'_1]
  lia

/-- The last colour left, if there is exactly one. -/
def fixedValue (d : Domain) : Option Colour :=
  if d.size = 1 then d.values.head? else none

theorem fixedValue_eq_some {d : Domain} {c : Colour} :
    d.fixedValue = some c ↔ d.values = [c] := by
  rw [fixedValue, d.size_eq]
  rcases h : d.values with _ | ⟨a, _ | ⟨b, rest⟩⟩ <;> simp

/-- Takes a colour that is present out of a domain. -/
def erase (d : Domain) (c : Colour) (h : c ∈ d) : Domain where
  values := d.values.erase c
  size := d.size - 1
  ascending := d.ascending.sublist List.erase_sublist
  size_eq := by rw [List.length_erase_of_mem h, d.size_eq]

/-- Puts a colour that is missing back into a domain. -/
def insert (d : Domain) (c : Colour) (h : c ∉ d) : Domain where
  values := insertAscending c d.values
  size := d.size + 1
  ascending := pairwise_insertAscending d.ascending
  size_eq := by rw [length_insertAscending h, d.size_eq]

theorem ext_values {d e : Domain} (h : d.values = e.values) : d = e := by
  obtain ⟨dv, ds, _, hd⟩ := d
  obtain ⟨ev, es, _, he⟩ := e
  subst h hd he
  rfl

theorem size_erase {d : Domain} {c : Colour} (h : c ∈ d) : (d.erase c h).size + 1 = d.size := by
  have := List.length_pos_of_mem h
  simp only [erase, d.size_eq]
  omega

theorem not_mem_of_size_eq_zero {d : Domain} (h : d.size = 0) (x : Colour) : x ∉ d := by
  rw [d.size_eq, List.length_eq_zero_iff] at h
  rw [mem_def, h]
  exact List.not_mem_nil

theorem exists_mem_of_size_ne_zero {d : Domain} (h : d.size ≠ 0) : ∃ x, x ∈ d := by
  rw [d.size_eq, ne_eq, List.length_eq_zero_iff] at h
  exact List.exists_mem_of_ne_nil d.values h

theorem mem_erase {d : Domain} {c x : Colour} (h : c ∈ d) :
    x ∈ d.erase c h ↔ x ∈ d ∧ x ≠ c := by
  have hd : d.values.Nodup := d.ascending.imp Nat.ne_of_lt
  simp only [mem_def, erase, hd.mem_erase_iff, and_comm]

theorem insert_erase {d : Domain} {c : Colour} (h : c ∈ d) (hc : c ∉ d.erase c h) :
    (d.erase c h).insert c hc = d :=
  ext_values (insertAscending_erase d.ascending h)

theorem mem_insert {d : Domain} {c x : Colour} (h : c ∉ d) :
    x ∈ d.insert c h ↔ x = c ∨ x ∈ d := by
  simp only [mem_def, insert, mem_insertAscending]

end Domain

end Chromatic
