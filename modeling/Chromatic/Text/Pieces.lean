/-!
# Pieces

A sequence cut at every separator. There is one piece more than there are separators, and pieces
may be empty.
-/

namespace Chromatic.Text

variable {α : Type} [DecidableEq α]

/-- Puts an element in front of the first piece. -/
def lengthenFirst (a : α) : List (List α) → List (List α)
  | [] => [[a]]
  | piece :: others => (a :: piece) :: others

/-- The pieces between the separators. -/
def pieces (separator : α) (l : List α) : List (List α) :=
  l.foldr (fun a ps => if a = separator then [] :: ps else lengthenFirst a ps) [[]]

@[simp] theorem pieces_nil (separator : α) : pieces separator [] = [[]] := rfl

theorem pieces_cons (separator a : α) (l : List α) :
    pieces separator (a :: l) =
      if a = separator then [] :: pieces separator l else lengthenFirst a (pieces separator l) :=
  rfl

theorem pieces_ne_nil (separator : α) (l : List α) : pieces separator l ≠ [] := by
  cases l with
  | nil => exact List.cons_ne_nil _ _
  | cons a rest =>
    rw [pieces_cons]
    split
    · exact List.cons_ne_nil _ _
    · cases pieces separator rest <;> exact List.cons_ne_nil _ _

theorem pieces_append_separator (separator : α) (l m : List α) :
    pieces separator (l ++ separator :: m) = pieces separator l ++ pieces separator m := by
  induction l with
  | nil => simp [pieces_cons]
  | cons a rest ih =>
    rw [List.cons_append, pieces_cons, pieces_cons, ih]
    split
    · rfl
    · cases h : pieces separator rest with
      | nil => exact absurd h (pieces_ne_nil separator rest)
      | cons piece others => rfl

/-- The lines of a sequence; a separator at the very end closes the last line. -/
def linesOf (separator : α) (l : List α) : List (List α) :=
  let ps := pieces separator l
  if ps.getLast? = some [] then ps.dropLast else ps

end Chromatic.Text
