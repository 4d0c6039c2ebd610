import Chromatic.Instance
import Chromatic.Proofs.Text.Integer
import Chromatic.Proofs.Text.Pieces
/-!
# What a line states

A trimmed line is idle, or it begins with the key for the number of colours, or it is split at its
commas. There is one equation for each of the three, and they leave no line out.
-/

namespace Chromatic.Instance

open Text

variable {n : Nat} {c d : Char} {line key rest u v l r : List Char}

/-- The line is blank or a comment. -/
def IsIdle (line : List Char) : Prop := line = [] ∨ line.head? = some '#'

/-- The line begins with the key for the number of colours, in any case, and the rest follows. -/
def StatesColours (line rest : List Char) : Prop :=
  ∃ key, key.map Char.toLower = colourKey ∧ line = key ++ rest

section Keys

private theorem eq_of_toLower_eq (h : c.toLower = d) (hd : d.toNat < 97) : c = d := by
  unfold Char.toLower at h
  split at h
  · next hupper =>
    have hlow : 65 ≤ c.val.toNat := hupper.1
    have hhigh : c.val.toNat ≤ 90 := hupper.2
    have hval : d.toNat = (c.val.toNat + 32) % 4294967296 := by
      rw [← h]
      exact UInt32.toNat_add c.val 32
    omega
  · exact h

private theorem exists_word_of_key (h : key.map Char.toLower = colourKey) :
    ∃ word, key = word ++ ['='] ∧ word.map Char.toLower = "colors".toList := by
  have hkey : colourKey = "colors".toList ++ ['='] := by decide
  obtain ⟨word, last, rfl, hword, hlast⟩ := List.map_eq_append_iff.mp (h.trans hkey)
  obtain ⟨c, rfl, hc⟩ := List.map_eq_singleton_iff.mp hlast
  exact ⟨word, by rw [eq_of_toLower_eq hc (by decide)], hword⟩

private theorem hasColourKey_iff : hasColourKey line = true ↔ ∃ rest, StatesColours line rest := by
  rw [hasColourKey, decide_eq_true_iff]
  constructor
  · intro h
    exact ⟨_, _, h, (List.take_append_drop _ _).symm⟩
  · rintro ⟨rest, key, hkey, rfl⟩
    have hlength : colourKey.length = key.length := by rw [← hkey, List.length_map]
    rw [hlength, List.take_left, hkey]

theorem StatesColours.rest_eq (h : StatesColours line rest) :
    rest = line.drop colourKey.length := by
  obtain ⟨key, hkey, rfl⟩ := h
  rw [← hkey, List.length_map, List.drop_left]

theorem StatesColours.head (h : StatesColours line rest) :
    ∃ c, line.head? = some c ∧ c.toLower = 'c' := by
  obtain ⟨key, hkey, rfl⟩ := h
  obtain ⟨c, others, rfl, hc, -⟩ := List.map_eq_cons_iff.mp hkey
  exact ⟨c, rfl, hc⟩

private theorem StatesColours.not_isIdle (h : StatesColours line rest) : ¬IsIdle line := by
  obtain ⟨c, hhead, hc⟩ := h.head
  rintro (rfl | hhash)
  · cases hhead
  · rw [hhead, Option.some.injEq] at hhash
    rw [hhash] at hc
    exact absurd hc (by decide)

private theorem StatesColours.colourValue_eq (h : StatesColours line rest) :
    colourValue line = trim (rest.takeWhile (· ≠ '=')) := by
  obtain ⟨key, hkey, rfl⟩ := h
  obtain ⟨word, rfl, hword⟩ := exists_word_of_key hkey
  have hmem : '=' ∉ word := by
    intro h
    have := List.mem_map_of_mem (f := Char.toLower) h
    rw [hword] at this
    exact absurd this (by decide)
  obtain ⟨others, hothers⟩ := exists_pieces_eq_cons '=' rest
  rw [colourValue, List.append_assoc, List.singleton_append, pieces_append_separator,
    pieces_of_not_mem hmem, hothers]
  rfl

end Keys

section Parts

private theorem comma_not_mem (h : Blank l) : ',' ∉ l := by
  intro hmem
  exact absurd (h ',' hmem) (by decide)

private theorem parts_append_left (hl : Blank l) (line : List Char) :
    parts (l ++ line) = parts line := by
  rw [parts, parts, pieces_append_left (comma_not_mem hl)]
  cases pieces ',' line with
  | nil => rfl
  | cons piece others =>
    rw [List.modifyHead_cons, List.map_cons, List.map_cons, trim_append_left hl]

private theorem parts_append_right (hr : Blank r) (line : List Char) :
    parts (line ++ r) = parts line := by
  obtain ⟨init, last, hline, happend⟩ := pieces_append_right (comma_not_mem hr) line
  rw [parts, parts, hline, happend, List.map_append, List.map_append, List.map_singleton,
    List.map_singleton, trim_append_right hr]

theorem parts_trim (line : List Char) : parts (trim line) = parts line := by
  obtain ⟨l, r, hl, hr, hline⟩ := exists_blank_trim line
  conv => rhs; rw [hline, parts_append_right hr, parts_append_left hl]

end Parts

section Statements

theorem statement_idle (h : IsIdle (trim line)) : statement n line = .ok .nothing := by
  unfold statement
  dsimp only
  rw [if_pos]
  rw [Bool.or_eq_true, List.isEmpty_iff, decide_eq_true_iff]
  exact h

private theorem statement_of_not_isIdle (h : ¬IsIdle (trim line)) : statement n line =
    if hasColourKey (trim line) then
      match signed? (colourValue (trim line)) with
      | none => .error (.invalidColourCount n (String.ofList (colourValue (trim line))))
      | some k => .ok (.colourCount k)
    else
      match parts line with
      | [u, v] => do
        let u ← vertex n u
        let v ← vertex n v
        return .constraint u v
      | _ => .ok .nothing := by
  rw [← parts_trim line]
  apply if_neg
  rw [Bool.or_eq_true, List.isEmpty_iff, decide_eq_true_iff]
  exact h

theorem statement_colours (h : StatesColours (trim line) rest) : statement n line =
    match signed? (trim (rest.takeWhile (· ≠ '='))) with
    | none =>
      .error (.invalidColourCount n (String.ofList (trim (rest.takeWhile (· ≠ '=')))))
    | some k => .ok (.colourCount k) := by
  rw [statement_of_not_isIdle h.not_isIdle, if_pos (hasColourKey_iff.mpr ⟨rest, h⟩),
    h.colourValue_eq]

theorem statement_pair (hidle : ¬IsIdle (trim line))
    (hkey : ∀ rest, ¬StatesColours (trim line) rest) (hparts : parts line = [u, v]) :
    statement n line = do
      let u ← vertex n u
      let v ← vertex n v
      return .constraint u v := by
  rw [statement_of_not_isIdle hidle, if_neg fun h => not_exists.mpr hkey (hasColourKey_iff.mp h),
    hparts]

theorem statement_ignored (hidle : ¬IsIdle (trim line))
    (hkey : ∀ rest, ¬StatesColours (trim line) rest) (hparts : (parts line).length ≠ 2) :
    statement n line = .ok .nothing := by
  rw [statement_of_not_isIdle hidle, if_neg fun h => not_exists.mpr hkey (hasColourKey_iff.mp h)]
  split
  · next h => exact absurd (congrArg List.length h) hparts
  · rfl

end Statements

end Chromatic.Instance
