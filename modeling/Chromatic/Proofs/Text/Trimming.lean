import Chromatic.Text.Blank
import Mathlib.Data.List.DropRight
/-!
# Trimming

Trimming a text gives its middle part between blanks. The middle part has no blank at either end,
so blanks that are put around a text make no difference, and there is one result only.
-/

namespace Chromatic.Text

variable {c : Char} {cs l r : List Char}

/-- All characters are blank. -/
def Blank (cs : List Char) : Prop := ∀ c ∈ cs, isBlank c = true

instance (cs : List Char) : Decidable (Blank cs) :=
  decidable_of_iff (cs.all isBlank = true) List.all_eq_true

/-- There is no blank at either end. -/
structure Bare (cs : List Char) : Prop where
  head : ∀ c ∈ cs.head?, isBlank c = false
  last : ∀ c ∈ cs.getLast?, isBlank c = false

private theorem Blank.append (hl : Blank l) (hr : Blank r) : Blank (l ++ r) := by
  intro c hc
  rcases List.mem_append.mp hc with h | h
  · exact hl c h
  · exact hr c h

private theorem trim_eq_rdropWhile (cs : List Char) :
    trim cs = (cs.dropWhile isBlank).rdropWhile isBlank := rfl

theorem trim_append_left (hl : Blank l) (cs : List Char) : trim (l ++ cs) = trim cs := by
  rw [trim, List.dropWhile_append, List.dropWhile_eq_nil_iff.mpr hl]
  rfl

theorem trim_append_right (hr : Blank r) (cs : List Char) : trim (cs ++ r) = trim cs := by
  have hdrop : r.dropWhile isBlank = [] := List.dropWhile_eq_nil_iff.mpr hr
  rw [trim, trim, List.dropWhile_append, hdrop]
  split
  · next h => rw [List.isEmpty_iff.mp h]
  · rw [List.reverse_append, List.dropWhile_append,
      List.dropWhile_eq_nil_iff.mpr fun c hc => hr c (List.mem_reverse.mp hc)]
    rfl

theorem trim_of_bare (h : Bare cs) : trim cs = cs := by
  rcases hcs : cs with _ | ⟨c, rest⟩
  · rfl
  · have hhead : isBlank c = false := h.head c (by rw [hcs]; rfl)
    rw [trim_eq_rdropWhile, List.dropWhile_cons_of_neg (by simp [hhead]), ← hcs,
      List.rdropWhile_eq_self_iff]
    intro hne
    simp [h.last _ (List.getLast?_eq_some_getLast hne)]

theorem exists_blank_trim (cs : List Char) :
    ∃ l r, Blank l ∧ Blank r ∧ cs = l ++ trim cs ++ r := by
  refine ⟨cs.takeWhile isBlank, (cs.dropWhile isBlank).rtakeWhile isBlank, ?_, ?_, ?_⟩
  · intro c hc
    exact List.mem_takeWhile_imp hc
  · intro c hc
    exact List.mem_rtakeWhile_imp hc
  · rw [List.append_assoc, trim_eq_rdropWhile, List.rdropWhile_append_rtakeWhile,
      List.takeWhile_append_dropWhile]

theorem mem_of_mem_trim (h : c ∈ trim cs) : c ∈ cs := by
  obtain ⟨l, r, -, -, hcs⟩ := exists_blank_trim cs
  rw [hcs]
  exact List.mem_append_left _ (List.mem_append_right _ h)

theorem trim_padded (hl : Blank l) (hr : Blank r) (hcs : Bare cs) : trim (l ++ cs ++ r) = cs := by
  rw [trim_append_right hr, trim_append_left hl, trim_of_bare hcs]

theorem head?_trim (hc : isBlank c = false) (cs : List Char) : (trim (c :: cs)).head? = some c := by
  obtain ⟨l, r, hl, hr, hcs⟩ := exists_blank_trim (c :: cs)
  cases l with
  | cons d l =>
    obtain ⟨rfl, -⟩ := List.cons.inj hcs
    rw [hl c List.mem_cons_self] at hc
    cases hc
  | nil =>
    cases htrim : trim (c :: cs) with
    | cons d rest =>
      rw [htrim] at hcs
      exact congrArg some (List.cons.inj hcs).1.symm
    | nil =>
      rw [htrim] at hcs
      have hmem : c ∈ r := by
        have hr : c :: cs = r := hcs
        rw [← hr]
        exact List.mem_cons_self
      rw [hr c hmem] at hc
      cases hc

theorem trim_eq_nil_iff : trim cs = [] ↔ Blank cs := by
  constructor
  · intro h
    obtain ⟨l, r, hl, hr, hcs⟩ := exists_blank_trim cs
    rw [hcs, h, List.append_nil]
    exact hl.append hr
  · intro h
    rw [← List.append_nil cs, trim_append_left h]
    rfl

end Chromatic.Text
