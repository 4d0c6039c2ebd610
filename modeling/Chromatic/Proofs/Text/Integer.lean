import Chromatic.Text.Integer
import Chromatic.Proofs.Text.Trimming
/-!
# Literals

The grammar of integer literals, and that reading a literal follows it. Digits and signs are not
blank, so a literal with blanks around it is what trimming leaves.
-/

namespace Chromatic.Text

variable {c : Char} {cs ds : List Char} {k : Int} {n : Nat}

/-- The characters are one or more decimal digits. -/
def Digits (ds : List Char) : Prop := ds ≠ [] ∧ ∀ c ∈ ds, c.isDigit = true

/-- The characters are digits of an integer with a sign or without. -/
inductive Spells : List Char → Int → Prop
  | digits {ds : List Char} (h : Digits ds) : Spells ds (Nat.ofDigitChars 10 ds 0)
  | plus {ds : List Char} (h : Digits ds) : Spells ('+' :: ds) (Nat.ofDigitChars 10 ds 0)
  | minus {ds : List Char} (h : Digits ds) : Spells ('-' :: ds) (-Nat.ofDigitChars 10 ds 0)

/-- The characters spell an integer of 64 bits. -/
def IsLiteral (cs : List Char) : Prop :=
  ∃ k, Spells cs k ∧ -9223372036854775808 ≤ k ∧ k < 9223372036854775808

theorem natural?_of_digits (h : Digits ds) : natural? ds = some (Nat.ofDigitChars 10 ds 0) := by
  rw [natural?, if_pos ⟨h.1, List.all_eq_true.mpr h.2⟩]

theorem natural?_eq_some (h : natural? ds = some n) :
    Digits ds ∧ n = Nat.ofDigitChars 10 ds 0 := by
  rw [natural?] at h
  split at h
  · next hds =>
    exact ⟨⟨hds.1, List.all_eq_true.mp hds.2⟩, (Option.some.inj h).symm⟩
  · cases h

theorem Digits.head (h : Digits (c :: ds)) : c.isDigit = true := h.2 c List.mem_cons_self

private theorem integer?_eq_some_iff : integer? cs = some k ↔ Spells cs k := by
  constructor
  · intro h
    unfold integer? at h
    split at h
    all_goals
      obtain ⟨n, hn, rfl⟩ := Option.map_eq_some_iff.mp h
      obtain ⟨hds, rfl⟩ := natural?_eq_some hn
    · exact .plus hds
    · exact .minus hds
    · exact .digits hds
  · intro h
    cases h with
    | plus h => rw [integer?, natural?_of_digits h]; rfl
    | minus h => rw [integer?, natural?_of_digits h]; rfl
    | digits h =>
      unfold integer?
      split
      · exact absurd h.head (by decide)
      · exact absurd h.head (by decide)
      · rw [natural?_of_digits h]; rfl

theorem signed?_eq_some_iff : signed? cs = some k ↔
    Spells cs k ∧ -9223372036854775808 ≤ k ∧ k < 9223372036854775808 := by
  rw [signed?, Option.filter_eq_some_iff, integer?_eq_some_iff, inSignedRange, Bool.and_eq_true,
    decide_eq_true_iff, decide_eq_true_iff]

theorem isLiteral_iff : IsLiteral cs ↔ ∃ k, signed? cs = some k :=
  exists_congr fun _ => signed?_eq_some_iff.symm

theorem not_isLiteral_iff : ¬IsLiteral cs ↔ signed? cs = none := by
  rw [isLiteral_iff, not_exists, Option.eq_none_iff_forall_ne_some]

/-- The characters of literals. -/
def isLiteralChar (c : Char) : Bool := c = '+' || c = '-' || c.isDigit

theorem Spells.chars (h : Spells cs k) : ∀ c ∈ cs, isLiteralChar c = true := by
  intro c hc
  cases h with
  | digits h => simp [isLiteralChar, h.2 c hc]
  | plus h =>
    rcases List.mem_cons.mp hc with rfl | hc
    · rfl
    · simp [isLiteralChar, h.2 c hc]
  | minus h =>
    rcases List.mem_cons.mp hc with rfl | hc
    · rfl
    · simp [isLiteralChar, h.2 c hc]

theorem Spells.ne_nil (h : Spells cs k) : cs ≠ [] := by
  cases h with
  | digits h => exact h.1
  | plus | minus => exact List.cons_ne_nil _ _

private theorem isBlank_of_isLiteralChar (h : isLiteralChar c = true) : isBlank c = false := by
  simp only [isLiteralChar, Bool.or_eq_true, decide_eq_true_eq] at h
  rcases h with (rfl | rfl) | h
  · decide
  · decide
  · have hlow : 48 ≤ c.toNat := (Char.isDigit_iff_toNat.mp h).1
    have hhigh : c.toNat ≤ 57 := (Char.isDigit_iff_toNat.mp h).2
    simp [isBlank, blankRanges]
    omega

theorem Spells.bare (h : Spells cs k) : Bare cs := by
  constructor
  · intro c hc
    exact isBlank_of_isLiteralChar (h.chars c (List.mem_of_mem_head? hc))
  · intro c hc
    exact isBlank_of_isLiteralChar (h.chars c (List.mem_of_mem_getLast? hc))

end Chromatic.Text
