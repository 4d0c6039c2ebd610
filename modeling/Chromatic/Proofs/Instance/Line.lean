import Chromatic.Proofs.Instance.Statement
/-!
# Written lines

The ways to write a line of an instance: a blank line, a comment, the number of colours, or a
constraint, with blanks around every numeral and empty parts between the commas. A written line
states what it was written for.
-/

namespace Chromatic.Instance

open Text

/-- Blanks, none of which ends the line. -/
structure Padding where
  chars : List Char
  blank : Blank chars
  oneLine : '\n' ∉ chars

def Padding.none : Padding := ⟨[], List.forall_mem_nil _, List.not_mem_nil⟩

/-- An integer of 64 bits with a way to write it. -/
structure Numeral where
  value : Int
  inRange : -9223372036854775808 ≤ value ∧ value < 9223372036854775808
  /-- Whether a plus sign is written, unless the number is negative. -/
  plus : Bool
  /-- The number of leading zeros. -/
  zeros : Nat

namespace Numeral

def plain (x : Int64) : Numeral := ⟨x.toInt, ⟨x.le_toInt, x.toInt_lt⟩, false, 0⟩

def digits (x : Numeral) : List Char :=
  List.replicate x.zeros '0' ++ Nat.toDigits 10 x.value.natAbs

def text (x : Numeral) : List Char :=
  if x.value < 0 then '-' :: x.digits
  else if x.plus then '+' :: x.digits
  else x.digits

private theorem digits_digits (x : Numeral) : Digits x.digits := by
  constructor
  · exact List.append_ne_nil_of_right_ne_nil _ Nat.toDigits_ne_nil
  · intro c hc
    rcases List.mem_append.mp hc with h | h
    · rw [(List.mem_replicate.mp h).2]
      rfl
    · exact Nat.isDigit_of_mem_toDigits (by decide) (by decide) h

private theorem ofDigitChars_digits (x : Numeral) :
    Nat.ofDigitChars 10 x.digits 0 = x.value.natAbs := by
  rw [digits, Nat.ofDigitChars_append, Nat.ofDigitChars_replicate_zero, Nat.mul_zero,
    Nat.ofDigitChars_ten_toDigits]

private theorem spells_text (x : Numeral) : Spells x.text x.value := by
  have hdigits := x.digits_digits
  unfold text
  split
  · next h =>
    have hvalue : x.value = -Nat.ofDigitChars 10 x.digits 0 := by
      rw [x.ofDigitChars_digits]
      omega
    conv => rhs; rw [hvalue]
    exact .minus hdigits
  · have hvalue : x.value = Nat.ofDigitChars 10 x.digits 0 := by
      rw [x.ofDigitChars_digits]
      omega
    split
    · conv => rhs; rw [hvalue]
      exact .plus hdigits
    · conv => rhs; rw [hvalue]
      exact .digits hdigits

private theorem signed?_text (x : Numeral) : signed? x.text = some x.value :=
  signed?_eq_some_iff.mpr ⟨x.spells_text, x.inRange⟩

end Numeral

/-- A numeral with blanks around it. -/
structure Token where
  left : Padding
  numeral : Numeral
  right : Padding

namespace Token

def plain (x : Int64) : Token := ⟨.none, .plain x, .none⟩

@[simp] theorem value_plain (x : Int64) : (plain x).numeral.value = x.toInt := rfl

def text (t : Token) : List Char := t.left.chars ++ t.numeral.text ++ t.right.chars

private theorem trim_text (t : Token) : trim t.text = t.numeral.text :=
  trim_padded t.left.blank t.right.blank t.numeral.spells_text.bare

end Token

/-- A line with its layout. -/
inductive Line
  | blank (p : Padding)
  | comment (indent : Padding) (text : List Char) (oneLine : '\n' ∉ text)
  /-- The key in any case, and the number of colours. -/
  | colours (indent : Padding) (key : List Char) (hkey : key.map Char.toLower = colourKey)
    (count : Token)
  /-- Two vertices, with empty parts before, between and after them. -/
  | constraint (before : List Padding) (u : Token) (between : List Padding) (v : Token)
    (after : List Padding)

namespace Line

/-- The parts of a constraint between the commas, the empty ones included. -/
def cells (before : List Padding) (u : Token) (between : List Padding) (v : Token)
    (after : List Padding) : List (List Char) :=
  before.map (·.chars) ++ u.text :: (between.map (·.chars) ++ v.text :: after.map (·.chars))

def text : Line → List Char
  | blank p => p.chars
  | comment indent text _ => indent.chars ++ '#' :: text
  | colours indent key _ count => indent.chars ++ key ++ count.text
  | constraint before u between v after => [','].intercalate (cells before u between v after)

def statement : Line → Statement
  | blank _ | comment _ _ _ => .nothing
  | colours _ _ _ count => .colourCount count.numeral.value
  | constraint _ u _ v _ => .constraint u.numeral.value v.numeral.value

end Line

/-- The characters of paddings and numerals. -/
def IsPlain (c : Char) : Prop := isBlank c = true ∨ isLiteralChar c = true

section Plain

variable {c : Char}

private theorem IsPlain.toLower_eq (h : IsPlain c) : c.toLower = c := by
  unfold Char.toLower
  split
  · next hupper =>
    have hlow : 65 ≤ c.toNat := hupper.1
    have hhigh : c.toNat ≤ 90 := hupper.2
    rcases h with h | h
    · simp [isBlank, blankRanges] at h
      omega
    · simp only [isLiteralChar, Bool.or_eq_true, decide_eq_true_eq] at h
      rcases h with (rfl | rfl) | h
      · exact absurd hlow (by decide)
      · exact absurd hlow (by decide)
      · have hdigit : c.toNat ≤ 57 := (Char.isDigit_iff_toNat.mp h).2
        omega
  · rfl

private theorem not_isPlain_of_toLower_eq (h : c.toLower = 'c') : ¬IsPlain c := by
  intro hplain
  have hc : c = 'c' := hplain.toLower_eq.symm.trans h
  rw [hc] at hplain
  exact hplain.elim (by decide) (by decide)

private theorem Padding.isPlain (p : Padding) (hc : c ∈ p.chars) : IsPlain c := .inl (p.blank c hc)

private theorem Token.isPlain (t : Token) (hc : c ∈ t.text) : IsPlain c := by
  rcases List.mem_append.mp hc with h | h
  · rcases List.mem_append.mp h with h | h
    · exact t.left.isPlain h
    · exact .inr (t.numeral.spells_text.chars c h)
  · exact t.right.isPlain h

private theorem Token.oneLine (t : Token) : '\n' ∉ t.text := by
  intro h
  rcases List.mem_append.mp h with h | h
  · rcases List.mem_append.mp h with h | h
    · exact t.left.oneLine h
    · exact absurd (t.numeral.spells_text.chars _ h) (by decide)
  · exact t.right.oneLine h

end Plain

namespace Line

variable {n : Nat} {c : Char} {before between after : List Padding} {u v : Token}
  {cell : List Char}

private theorem mem_cells (h : cell ∈ cells before u between v after) :
    (∃ p : Padding, cell = p.chars) ∨ ∃ t : Token, cell = t.text := by
  simp only [cells, List.mem_append, List.mem_cons, List.mem_map] at h
  rcases h with ⟨p, -, rfl⟩ | rfl | ⟨p, -, rfl⟩ | rfl | ⟨p, -, rfl⟩
  · exact .inl ⟨p, rfl⟩
  · exact .inr ⟨u, rfl⟩
  · exact .inl ⟨p, rfl⟩
  · exact .inr ⟨v, rfl⟩
  · exact .inl ⟨p, rfl⟩

private theorem isPlain_of_mem_cells (h : cell ∈ cells before u between v after) (hc : c ∈ cell) :
    IsPlain c := by
  rcases mem_cells h with ⟨p, rfl⟩ | ⟨t, rfl⟩
  · exact p.isPlain hc
  · exact t.isPlain hc

private theorem oneLine_of_mem_cells (h : cell ∈ cells before u between v after) : '\n' ∉ cell := by
  rcases mem_cells h with ⟨p, rfl⟩ | ⟨t, rfl⟩
  · exact p.oneLine
  · exact t.oneLine

theorem lineFeed_not_mem_text (l : Line) : '\n' ∉ l.text := by
  cases l with
  | blank p => exact p.oneLine
  | comment indent text oneLine =>
    intro h
    rcases List.mem_append.mp h with h | h
    · exact indent.oneLine h
    · rcases List.mem_cons.mp h with h | h
      · exact absurd h (by decide)
      · exact oneLine h
  | colours indent key hkey count =>
    intro h
    rcases List.mem_append.mp h with h | h
    · rcases List.mem_append.mp h with h | h
      · exact indent.oneLine h
      · have hmem := List.mem_map_of_mem (f := Char.toLower) h
        rw [hkey] at hmem
        exact absurd hmem (by decide)
    · exact count.oneLine h
  | constraint before u between v after =>
    intro h
    rcases mem_intercalate h with h | ⟨cell, hcell, h⟩
    · exact absurd h (by decide)
    · exact oneLine_of_mem_cells hcell h

private theorem statement_comment (indent : Padding) (text : List Char) :
    Instance.statement n (indent.chars ++ '#' :: text) = .ok .nothing := by
  apply statement_idle
  rw [trim_append_left indent.blank]
  exact .inr (head?_trim (by decide) text)

private theorem statement_colours (indent : Padding) {key : List Char}
    (hkey : key.map Char.toLower = colourKey) (count : Token) :
    Instance.statement n (indent.chars ++ key ++ count.text) =
      .ok (.colourCount count.numeral.value) := by
  have hliteral := count.numeral.spells_text
  -- The line begins with the letter of the key and ends with a digit, whatever is around them.
  have hbare : Bare (key ++ (count.left.chars ++ count.numeral.text)) := by
    constructor
    · intro c hc
      obtain ⟨d, hd, hlower⟩ := StatesColours.head ⟨key, hkey, rfl⟩
      have hcd : d = c := Option.some.inj (hd.symm.trans hc)
      rw [hcd] at hlower
      exact Bool.eq_false_iff.mpr fun h => not_isPlain_of_toLower_eq hlower (.inl h)
    · rw [← List.append_assoc, List.getLast?_append_of_ne_nil _ hliteral.ne_nil]
      exact hliteral.bare.last
  have htrim : trim (indent.chars ++ key ++ count.text) =
      key ++ (count.left.chars ++ count.numeral.text) := by
    rw [← trim_padded indent.blank count.right.blank hbare]
    simp only [Token.text, List.append_assoc]
  have hequals : '=' ∉ count.left.chars ++ count.numeral.text := by
    intro h
    exact (count.isPlain (List.mem_append_left _ h)).elim (by decide) (by decide)
  have hvalue : trim ((count.left.chars ++ count.numeral.text).takeWhile (· ≠ '=')) =
      count.numeral.text := by
    rw [takeWhile_of_not_mem hequals, trim_append_left count.left.blank, trim_of_bare hliteral.bare]
  rw [Instance.statement_colours ⟨key, hkey, htrim⟩, hvalue, count.numeral.signed?_text]

private theorem trim_padding (p : Padding) : trim p.chars = [] := trim_eq_nil_iff.mpr p.blank

private theorem parts_constraint (before : List Padding) (u : Token) (between : List Padding)
    (v : Token) (after : List Padding) :
    parts ([','].intercalate (cells before u between v after)) =
      [u.numeral.text, v.numeral.text] := by
  have hcomma : ∀ cell ∈ cells before u between v after, ',' ∉ cell := by
    intro cell hcell hmem
    exact (isPlain_of_mem_cells hcell hmem).elim (by decide) (by decide)
  have hne : cells before u between v after ≠ [] :=
    List.append_ne_nil_of_right_ne_nil _ (List.cons_ne_nil _ _)
  rw [parts, pieces_intercalate hcomma hne]
  simp [cells, Function.comp_def, trim_padding, Token.trim_text, u.numeral.spells_text.ne_nil,
    v.numeral.spells_text.ne_nil]

private theorem comma_or_isPlain
    (h : c ∈ trim ([','].intercalate (cells before u between v after))) : c = ',' ∨ IsPlain c := by
  rcases mem_intercalate (mem_of_mem_trim h) with hc | ⟨cell, hcell, hc⟩
  · exact .inl (List.mem_singleton.mp hc)
  · exact .inr (isPlain_of_mem_cells hcell hc)

private theorem statement_constraint (before : List Padding) (u : Token) (between : List Padding)
    (v : Token) (after : List Padding) :
    Instance.statement n ([','].intercalate (cells before u between v after)) =
      .ok (.constraint u.numeral.value v.numeral.value) := by
  have hparts := parts_constraint before u between v after
  have hidle : ¬IsIdle (trim ([','].intercalate (cells before u between v after))) := by
    intro h
    rcases h with hempty | hhash
    · rw [← parts_trim, hempty] at hparts
      cases hparts
    · rcases comma_or_isPlain (List.mem_of_mem_head? hhash) with h | h
      · exact absurd h (by decide)
      · exact h.elim (by decide) (by decide)
  -- No key begins with a comma, a blank or a character of a numeral.
  have hkey : ∀ rest,
      ¬StatesColours (trim ([','].intercalate (cells before u between v after))) rest := by
    intro rest h
    obtain ⟨c, hhead, hc⟩ := h.head
    rcases comma_or_isPlain (List.mem_of_mem_head? hhead) with rfl | h
    · exact absurd hc (by decide)
    · exact not_isPlain_of_toLower_eq hc h
  rw [statement_pair hidle hkey hparts, vertex, vertex, u.numeral.signed?_text,
    v.numeral.signed?_text]
  rfl

/-- A line states what it was written for, whatever its layout. -/
theorem statement_text (l : Line) (n : Nat) : Instance.statement n l.text = .ok l.statement := by
  cases l with
  | blank p => exact statement_idle (.inl (trim_eq_nil_iff.mpr p.blank))
  | comment indent text _ => exact statement_comment indent text
  | colours indent key hkey count => exact statement_colours indent hkey count
  | constraint before u between v after => exact statement_constraint before u between v after

end Line

end Chromatic.Instance
