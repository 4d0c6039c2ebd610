import Chromatic.Text.Pieces
/-!
# Pieces and lines

Cutting a sequence at its separators is the inverse of joining separator-free pieces. The lines of
a sequence are cut in the same way, so the lines of a sequence that closes its last line come
before those of whatever follows, and there is one of them for each separator.
-/

namespace Chromatic.Text

variable {α : Type} {a b : α} {l m r : List α}

/-- Every line is closed by a separator. -/
def Closed (a : α) (l : List α) : Prop := l = [] ∨ l.getLast? = some a

private theorem Closed.eq_append (h : Closed a l) : l = [] ∨ ∃ m, l = m ++ [a] := by
  apply h.imp_right
  intro hl
  exact List.getLast?_eq_some_iff.mp hl

theorem lengthenFirst_eq_modifyHead {ps : List (List α)} (h : ps ≠ []) :
    lengthenFirst a ps = ps.modifyHead (a :: ·) := by
  cases ps with
  | nil => exact absurd rfl h
  | cons piece others => rfl

theorem mem_intercalate {s : List α} {ps : List (List α)} (h : b ∈ s.intercalate ps) :
    b ∈ s ∨ ∃ p ∈ ps, b ∈ p := by
  induction ps with
  | nil => cases h
  | cons p others ih =>
    cases others with
    | nil =>
      rw [List.intercalate_singleton] at h
      exact .inr ⟨p, List.mem_cons_self, h⟩
    | cons q others =>
      rw [List.intercalate_cons_cons] at h
      rcases List.mem_append.mp h with h | h
      · rcases List.mem_append.mp h with h | h
        · exact .inr ⟨p, List.mem_cons_self, h⟩
        · exact .inl h
      · exact (ih h).imp_right fun ⟨p, hp, hb⟩ => ⟨p, List.mem_cons_of_mem _ hp, hb⟩

variable [DecidableEq α]

theorem pieces_eq_splitOn (a : α) (l : List α) : pieces a l = l.splitOn a := by
  induction l with
  | nil => rfl
  | cons b rest ih =>
    rw [pieces_cons, List.splitOn_cons_eq_if_modifyHead, ih,
      lengthenFirst_eq_modifyHead (List.splitOn_ne_nil a rest)]
    simp only [beq_iff_eq]

theorem pieces_of_not_mem (h : a ∉ l) : pieces a l = [l] := by
  rw [pieces_eq_splitOn, List.splitOn_eq_singleton h]

theorem pieces_intercalate {ps : List (List α)} (h : ∀ p ∈ ps, a ∉ p) (hne : ps ≠ []) :
    pieces a ([a].intercalate ps) = ps := by
  rw [pieces_eq_splitOn, List.splitOn_intercalate a h hne]

private theorem length_pieces (a : α) (l : List α) : (pieces a l).length = l.count a + 1 := by
  induction l with
  | nil => rfl
  | cons b rest ih =>
    rw [pieces_cons]
    split
    · next h => rw [List.length_cons, ih, h, List.count_cons_self]
    · next h =>
      rw [lengthenFirst_eq_modifyHead (pieces_ne_nil a rest), List.length_modifyHead, ih,
        List.count_cons_of_ne h]

theorem exists_pieces_eq_cons (a : α) (l : List α) :
    ∃ others, pieces a l = l.takeWhile (· ≠ a) :: others := by
  induction l with
  | nil => exact ⟨[], rfl⟩
  | cons b rest ih =>
    obtain ⟨others, hrest⟩ := ih
    rw [pieces_cons]
    split
    · next h => exact ⟨_, by rw [h, List.takeWhile_cons_of_neg (by simp)]⟩
    · next h => exact ⟨others, by rw [hrest, List.takeWhile_cons_of_pos (by simpa using h)]; rfl⟩

theorem takeWhile_of_not_mem (h : a ∉ l) : l.takeWhile (· ≠ a) = l := by
  obtain ⟨others, hl⟩ := exists_pieces_eq_cons a l
  rw [pieces_of_not_mem h] at hl
  exact (List.cons.inj hl).1.symm

theorem pieces_append_left (h : a ∉ r) (l : List α) :
    pieces a (r ++ l) = (pieces a l).modifyHead (r ++ ·) := by
  induction r with
  | nil => exact (congrFun List.modifyHead_id _).symm
  | cons b rest ih =>
    obtain ⟨hb, hrest⟩ := List.ne_and_not_mem_of_not_mem_cons h
    rw [List.cons_append, pieces_cons, if_neg hb.symm,
      lengthenFirst_eq_modifyHead (pieces_ne_nil a _), ih hrest, List.modifyHead_modifyHead]
    rfl

theorem pieces_append_right (h : a ∉ r) (l : List α) :
    ∃ init last, pieces a l = init ++ [last] ∧ pieces a (l ++ r) = init ++ [last ++ r] := by
  induction l with
  | nil => exact ⟨[], [], rfl, pieces_of_not_mem h⟩
  | cons b rest ih =>
    obtain ⟨init, last, hrest, happend⟩ := ih
    rw [List.cons_append, pieces_cons, pieces_cons, hrest, happend]
    split
    · exact ⟨[] :: init, last, rfl, rfl⟩
    · cases init with
      | nil => exact ⟨[], b :: last, rfl, rfl⟩
      | cons piece others => exact ⟨(b :: piece) :: others, last, rfl, rfl⟩

@[simp] theorem linesOf_nil (a : α) : linesOf a [] = [] := rfl

theorem linesOf_of_not_mem (h : a ∉ l) (hne : l ≠ []) : linesOf a l = [l] := by
  rw [linesOf, pieces_of_not_mem h]
  exact if_neg fun hl => hne (Option.some.inj hl)

theorem linesOf_append_separator (a : α) (l m : List α) :
    linesOf a (l ++ a :: m) = pieces a l ++ linesOf a m := by
  obtain ⟨init, last, hm, -⟩ := pieces_append_right (List.not_mem_nil (a := a)) m
  simp only [linesOf, pieces_append_separator, hm, ← List.append_assoc, List.getLast?_concat,
    List.dropLast_concat]
  split
  · rfl
  · exact List.append_assoc _ _ _

theorem linesOf_append (h : Closed a l) (m : List α) :
    linesOf a (l ++ m) = linesOf a l ++ linesOf a m := by
  rcases h.eq_append with rfl | ⟨init, rfl⟩
  · rfl
  · rw [List.append_assoc, List.singleton_append, linesOf_append_separator,
      linesOf_append_separator, linesOf_nil, List.append_nil]

theorem length_linesOf (h : Closed a l) : (linesOf a l).length = l.count a := by
  rcases h.eq_append with rfl | ⟨init, rfl⟩
  · rfl
  · rw [linesOf_append_separator, linesOf_nil, List.append_nil, length_pieces, List.count_append,
      List.count_singleton_self]

end Chromatic.Text
