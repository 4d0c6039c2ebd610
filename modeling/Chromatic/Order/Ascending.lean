/-!
# Strictly ascending lists

A finite set over a linear order is kept as its strictly ascending list. Insertion adds one
element, drops none and keeps the order.
-/

namespace Chromatic

/-- Puts an element in its place; an element that is already there stays once. -/
def insertAscending {α : Type} [LT α] [DecidableLT α] [DecidableEq α] (a : α) : List α → List α
  | [] => [a]
  | b :: rest =>
    if a < b then a :: b :: rest
    else if a = b then b :: rest
    else b :: insertAscending a rest

@[simp] theorem mem_insertAscending {α : Type} [LT α] [DecidableLT α] [DecidableEq α]
    {a x : α} {l : List α} : x ∈ insertAscending a l ↔ x = a ∨ x ∈ l := by
  induction l with
  | nil => simp [insertAscending]
  | cons b rest ih =>
    rw [insertAscending]
    split
    · simp
    · split
      · next h => subst h; simp
      · simp only [List.mem_cons, ih]
        constructor
        · rintro (h | h | h) <;> simp [h]
        · rintro (h | h | h) <;> simp [h]

theorem mem_foldr_insertAscending {α : Type} [LT α] [DecidableLT α] [DecidableEq α]
    {x : α} {l : List α} : x ∈ l.foldr insertAscending [] ↔ x ∈ l := by
  induction l with
  | nil => rfl
  | cons a rest ih => rw [List.foldr_cons, mem_insertAscending, ih, List.mem_cons]

theorem length_insertAscending {α : Type} [LT α] [DecidableLT α] [DecidableEq α]
    {a : α} {l : List α} (h : a ∉ l) : (insertAscending a l).length = l.length + 1 := by
  induction l with
  | nil => rfl
  | cons b rest ih =>
    rw [List.mem_cons, not_or] at h
    rw [insertAscending]
    split
    · rfl
    · rw [if_neg h.1, List.length_cons, ih h.2, List.length_cons]

theorem perm_insertAscending {α : Type} [LT α] [DecidableLT α] [DecidableEq α]
    {a : α} {l : List α} (h : a ∉ l) : (insertAscending a l).Perm (a :: l) := by
  induction l with
  | nil => rfl
  | cons b rest ih =>
    rw [List.mem_cons, not_or] at h
    rw [insertAscending]
    split
    · rfl
    · rw [if_neg h.1]
      exact ((ih h.2).cons b).trans (.swap a b rest)

theorem perm_foldr_insertAscending {α : Type} [LT α] [DecidableLT α] [DecidableEq α]
    {l : List α} (h : l.Nodup) : (l.foldr insertAscending []).Perm l := by
  induction l with
  | nil => rfl
  | cons a rest ih =>
    obtain ⟨ha, hrest⟩ := List.nodup_cons.mp h
    have hn : a ∉ rest.foldr insertAscending [] := fun hm => ha ((ih hrest).mem_iff.mp hm)
    exact (perm_insertAscending hn).trans ((ih hrest).cons a)

theorem insertAscending_erase {α : Type} [LT α] [DecidableLT α] [DecidableEq α]
    [Trans (α := α) (· < ·) (· < ·) (· < ·)] [Std.Irrefl (α := α) (· < ·)]
    {a : α} {l : List α} (h : l.Pairwise (· < ·)) (ha : a ∈ l) :
    insertAscending a (l.erase a) = l := by
  induction l with
  | nil => cases ha
  | cons b rest ih =>
    obtain ⟨hb, hrest⟩ := List.pairwise_cons.mp h
    by_cases hba : b = a
    · subst hba
      rw [List.erase_cons_head]
      cases rest with
      | nil => rfl
      | cons x rest => rw [insertAscending, if_pos (hb x List.mem_cons_self)]
    · have harest : a ∈ rest := (List.mem_cons.mp ha).resolve_left fun h => hba h.symm
      have hlt : ¬ a < b := fun hab => Std.Irrefl.irrefl b (Trans.trans (hb a harest) hab)
      rw [List.erase_cons_tail (by simpa using hba), insertAscending, if_neg hlt,
        if_neg fun h => hba h.symm, ih hrest harest]

theorem pairwise_insertAscending {α : Type} [LT α] [DecidableLT α] [DecidableEq α]
    [Trans (α := α) (· < ·) (· < ·) (· < ·)] [Std.Trichotomous (α := α) (· < ·)]
    {a : α} {l : List α} (h : l.Pairwise (· < ·)) : (insertAscending a l).Pairwise (· < ·) := by
  induction l with
  | nil => simp [insertAscending]
  | cons b rest ih =>
    obtain ⟨hb, hrest⟩ := List.pairwise_cons.mp h
    rw [insertAscending]
    split
    · next hab =>
      refine List.pairwise_cons.mpr ⟨fun x hx => ?_, h⟩
      rcases List.mem_cons.mp hx with rfl | hx
      · exact hab
      · exact Trans.trans hab (hb x hx)
    · split
      · exact h
      · next hab hne =>
        refine List.pairwise_cons.mpr ⟨fun x hx => ?_, ih hrest⟩
        rcases mem_insertAscending.mp hx with rfl | hx
        · exact Decidable.byContradiction fun hba =>
            hne (Std.Trichotomous.trichotomous x b hab hba)
        · exact hb x hx

theorem pairwise_foldr_insertAscending {α : Type} [LT α] [DecidableLT α] [DecidableEq α]
    [Trans (α := α) (· < ·) (· < ·) (· < ·)] [Std.Trichotomous (α := α) (· < ·)]
    (l : List α) : (l.foldr insertAscending []).Pairwise (· < ·) := by
  induction l with
  | nil => exact .nil
  | cons a rest ih => exact pairwise_insertAscending ih

end Chromatic
