import Chromatic.Proofs.Text.Integer
import Chromatic.Verdict
import Mathlib.Data.List.Forall2
/-!
# Printed solutions

The line of a solution can be read in one way only. A number ends where the digits end, so an entry
is taken off the front of a text whatever comes behind it, and what stands between two entries is
none.
-/

namespace Chromatic

namespace Text

variable {c : Char} {ds rest : List Char}

/-- The number that a text begins with, and what comes behind it. -/
def leadingNatural? (cs : List Char) : Option (Nat × List Char) :=
  (natural? (cs.takeWhile Char.isDigit)).map fun n => (n, cs.dropWhile Char.isDigit)

/-- The integer that a text begins with, which may have a minus sign. -/
def leadingInteger? : List Char → Option (Int × List Char)
  | '-' :: cs => (leadingNatural? cs).map fun r => (-Int.ofNat r.1, r.2)
  | cs => (leadingNatural? cs).map fun r => (Int.ofNat r.1, r.2)

/-- The text does not begin with a digit, so a number in front of it ends there. -/
def EndsNumber (rest : List Char) : Prop := ∀ c ∈ rest.head?, c.isDigit = false

private theorem endsNumber_nil : EndsNumber [] := nofun

private theorem endsNumber_cons (hc : c.isDigit = false) (rest : List Char) :
    EndsNumber (c :: rest) := by
  rintro _ ⟨⟩
  exact hc

private theorem leadingNatural?_append (h : Digits ds) (hr : EndsNumber rest) :
    leadingNatural? (ds ++ rest) = some (Nat.ofDigitChars 10 ds 0, rest) := by
  have htake : rest.takeWhile Char.isDigit = [] := by
    cases rest with
    | nil => rfl
    | cons c rest => rw [List.takeWhile_cons, hr c rfl, if_neg Bool.false_ne_true]
  have hdrop : rest.dropWhile Char.isDigit = rest := by
    cases rest with
    | nil => rfl
    | cons c rest => rw [List.dropWhile_cons, hr c rfl, if_neg Bool.false_ne_true]
  rw [leadingNatural?, List.takeWhile_append_of_pos h.2, List.dropWhile_append_of_pos h.2, htake,
    hdrop, List.append_nil, natural?_of_digits h]
  rfl

private theorem leadingInteger?_append (h : Digits ds) (hr : EndsNumber rest) :
    leadingInteger? (ds ++ rest) = some ((Nat.ofDigitChars 10 ds 0 : Int), rest) := by
  have hnatural := leadingNatural?_append h hr
  unfold leadingInteger?
  split
  · next cs hcs =>
    -- A digit is not a sign.
    cases ds with
    | nil => exact absurd rfl h.1
    | cons d ds =>
      obtain ⟨rfl, -⟩ := List.cons.inj hcs
      exact absurd h.head (by decide)
  · rw [hnatural]
    rfl

private theorem leadingInteger?_minus (h : Digits ds) (hr : EndsNumber rest) :
    leadingInteger? ('-' :: (ds ++ rest)) = some (-(Nat.ofDigitChars 10 ds 0 : Int), rest) := by
  rw [leadingInteger?, leadingNatural?_append h hr]
  rfl

private theorem leadingInteger?_eq_none (hc : c.isDigit = false) (hsign : c ≠ '-')
    (rest : List Char) : leadingInteger? (c :: rest) = none := by
  unfold leadingInteger?
  split
  · next h => exact absurd (List.cons.inj h).1 hsign
  · rw [leadingNatural?, List.takeWhile_cons, hc, if_neg Bool.false_ne_true]
    rfl

theorem digits_repr (n : Nat) : Digits n.repr.toList := by
  rw [Nat.toList_repr]
  exact ⟨Nat.toDigits_ne_nil, fun c hc => Nat.isDigit_of_mem_toDigits (by decide) (by decide) hc⟩

private theorem ofDigitChars_repr (n : Nat) : Nat.ofDigitChars 10 n.repr.toList 0 = n := by
  rw [Nat.toList_repr, Nat.ofDigitChars_ten_toDigits]

private theorem length_leadingNatural? {cs : List Char} {r : Nat × List Char}
    (h : leadingNatural? cs = some r) : r.2.length < cs.length := by
  obtain ⟨n, hn, rfl⟩ := Option.map_eq_some_iff.mp h
  have hpos := List.length_pos_iff.mpr (natural?_eq_some hn).1.1
  have hsplit : (cs.takeWhile Char.isDigit ++ cs.dropWhile Char.isDigit).length = cs.length := by
    rw [List.takeWhile_append_dropWhile]
  rw [List.length_append] at hsplit
  simp only
  omega

private theorem length_leadingInteger? {cs : List Char} {r : Int × List Char}
    (h : leadingInteger? cs = some r) : r.2.length < cs.length := by
  unfold leadingInteger? at h
  split at h
  all_goals
    obtain ⟨s, hs, rfl⟩ := Option.map_eq_some_iff.mp h
    have hlength := length_leadingNatural? hs
  · exact hlength.trans (Nat.lt_succ_self _)
  · exact hlength

end Text

namespace Solution

open Text

variable {cs rest : List Char} {e : Vertex × Colour} {es : List (Vertex × Colour)}

/-- The entry that a text begins with, and what comes behind it. -/
def leadingPair? (cs : List Char) : Option ((Vertex × Colour) × List Char) :=
  match leadingInteger? cs with
  | some (v, ':' :: ' ' :: rest) => (leadingNatural? rest).map fun r => ((v, r.1), r.2)
  | _ => none

private theorem length_leadingPair? {r : (Vertex × Colour) × List Char}
    (h : leadingPair? cs = some r) : r.2.length < cs.length := by
  unfold leadingPair? at h
  split at h
  · next v rest hv =>
    obtain ⟨s, hs, rfl⟩ := Option.map_eq_some_iff.mp h
    have hinteger : rest.length + 2 < cs.length := length_leadingInteger? hv
    have hnatural := length_leadingNatural? hs
    simp only
    omega
  · cases h

/-- The entries in a text from left to right; what is none is passed over. -/
def entriesIn : List Char → List (Vertex × Colour)
  | [] => []
  | c :: cs =>
    match _h : leadingPair? (c :: cs) with
    | some r => r.1 :: entriesIn r.2
    | none => entriesIn cs
termination_by cs => cs.length
decreasing_by
  · exact length_leadingPair? _h
  · exact Nat.lt_succ_self _

/-- The entries on the line of a solution, whatever stands between them. -/
def ofLine? (line : List Char) : Option (List (Vertex × Colour)) :=
  ((line.dropPrefix? "SOLUTION: \x7b".toList).bind (·.dropSuffix? "\x7d".toList)).map entriesIn

/-- The characters are an entry: a vertex with a minus sign or without, and a colour. -/
inductive SpellsEntry : List Char → Vertex × Colour → Prop
  | plain {vs cs : List Char} (hv : Digits vs) (hc : Digits cs) :
    SpellsEntry (vs ++ ": ".toList ++ cs) (Nat.ofDigitChars 10 vs 0, Nat.ofDigitChars 10 cs 0)
  | minus {vs cs : List Char} (hv : Digits vs) (hc : Digits cs) :
    SpellsEntry ('-' :: vs ++ ": ".toList ++ cs)
      (-Nat.ofDigitChars 10 vs 0, Nat.ofDigitChars 10 cs 0)

/-- The line lists the entries, between braces and with commas between them. -/
def IsLineOf (line : List Char) (es : List (Vertex × Colour)) : Prop :=
  ∃ cells, List.Forall₂ SpellsEntry cells es ∧
    line = "SOLUTION: \x7b".toList ++ ", ".toList.intercalate cells ++ "\x7d".toList

private theorem leadingPair?_append (h : SpellsEntry cs e) (hr : EndsNumber rest) :
    leadingPair? (cs ++ rest) = some (e, rest) := by
  have hcolon := endsNumber_cons (c := ':') rfl
  cases h with
  | @plain vs cs hv hc =>
    have htext : vs ++ ": ".toList ++ cs ++ rest = vs ++ (':' :: ' ' :: (cs ++ rest)) := by simp
    rw [htext, leadingPair?, leadingInteger?_append hv (hcolon _)]
    simp only [leadingNatural?_append hc hr, Option.map_some]
  | @minus vs cs hv hc =>
    have htext : '-' :: vs ++ ": ".toList ++ cs ++ rest =
        '-' :: (vs ++ (':' :: ' ' :: (cs ++ rest))) := by simp
    rw [htext, leadingPair?, leadingInteger?_minus hv (hcolon _)]
    simp only [leadingNatural?_append hc hr, Option.map_some]

private theorem entriesIn_append (h : SpellsEntry cs e) (hr : EndsNumber rest) :
    entriesIn (cs ++ rest) = e :: entriesIn rest := by
  have hlead := leadingPair?_append h hr
  generalize cs ++ rest = text at hlead
  cases text with
  | nil => cases length_leadingPair? hlead
  | cons c text =>
    rw [entriesIn]
    split
    · next r hr =>
      obtain rfl := Option.some.inj (hlead.symm.trans hr)
      rfl
    · next hnone => rw [hlead] at hnone; cases hnone

private theorem entriesIn_cons {c : Char} (hc : c.isDigit = false) (hsign : c ≠ '-')
    (cs : List Char) : entriesIn (c :: cs) = entriesIn cs := by
  have hlead : leadingPair? (c :: cs) = none := by
    rw [leadingPair?, leadingInteger?_eq_none hc hsign]
  rw [entriesIn]
  split
  · next h => rw [hlead] at h; cases h
  · rfl

private theorem entriesIn_intercalate {cells : List (List Char)}
    (h : List.Forall₂ SpellsEntry cells es) : entriesIn (", ".toList.intercalate cells) = es := by
  induction h with
  | nil => rw [List.intercalate_nil, entriesIn]
  | @cons cell e cells es hcell hcells ih =>
    cases hcells with
    | nil =>
      rw [List.intercalate_singleton, ← List.append_nil cell,
        entriesIn_append hcell endsNumber_nil, entriesIn]
    | @cons second e' others es' hsecond hothers =>
      have htext : ", ".toList.intercalate (cell :: second :: others) =
          cell ++ (',' :: ' ' :: ", ".toList.intercalate (second :: others)) := by
        rw [List.intercalate_cons_cons, List.append_assoc]
        rfl
      rw [htext, entriesIn_append hcell (endsNumber_cons rfl _), entriesIn_cons rfl (by decide),
        entriesIn_cons rfl (by decide), ih]

private theorem ofLine?_of_isLineOf {line : List Char} (h : IsLineOf line es) :
    ofLine? line = some es := by
  obtain ⟨cells, hcells, rfl⟩ := h
  rw [ofLine?, List.append_assoc, List.dropPrefix?_append_of_beq _ (beq_self_eq_true _),
    Option.bind_some, List.dropSuffix?_eq_some_iff.mpr ⟨_, rfl, beq_self_eq_true _⟩,
    Option.map_some, entriesIn_intercalate hcells]

theorem toList_line (s : Solution) : s.line.toList =
    "SOLUTION: \x7b".toList ++ ", ".toList.intercalate
      (s.entries.map fun e => e.1.repr.toList ++ ": ".toList ++ e.2.repr.toList) ++
        "\x7d".toList := by
  simp only [line, String.toList_append, String.toList_intercalate, List.map_map,
    Function.comp_def, Int.toString_eq_repr, Nat.toString_eq_repr]

private theorem spellsEntry_repr (e : Vertex × Colour) :
    SpellsEntry (e.1.repr.toList ++ ": ".toList ++ e.2.repr.toList) e := by
  obtain ⟨v, c⟩ := e
  cases v with
  | ofNat n =>
    have h := SpellsEntry.plain (digits_repr n) (digits_repr c)
    rwa [ofDigitChars_repr, ofDigitChars_repr] at h
  | negSucc n =>
    have h := SpellsEntry.minus (digits_repr (n + 1)) (digits_repr c)
    rw [ofDigitChars_repr, ofDigitChars_repr] at h
    have hrepr : (Int.negSucc n).repr.toList = '-' :: (n + 1).repr.toList := by
      show ("-" ++ (n + 1).repr).toList = _
      rw [String.toList_append]
      rfl
    rw [hrepr]
    exact h

private theorem isLineOf_line (s : Solution) : IsLineOf s.line.toList s.entries := by
  refine ⟨_, ?_, s.toList_line⟩
  rw [List.forall₂_map_left_iff]
  exact List.forall₂_same.mpr fun e _ => spellsEntry_repr e

private theorem ofLine?_line (s : Solution) : ofLine? s.line.toList = some s.entries :=
  ofLine?_of_isLineOf s.isLineOf_line

theorem line_ne {text : String} (s : Solution) (h : text.toList.head? ≠ some 'S') :
    s.line ≠ text := by
  rintro rfl
  rw [toList_line] at h
  exact h rfl

/-- Two solutions with the same line are the same. Read back, the line gives the vertices in
ascending order with their colours, and nothing else is a way to read it. It is neither of the lines
that stand for having no solution. -/
theorem line_determines (s : Solution) :
    (∀ t : Solution, s.line = t.line ↔ s = t) ∧
      ofLine? s.line.toList = some s.entries ∧
      (∀ es, IsLineOf s.line.toList es ↔ es = s.entries) ∧
      (s.entries.Pairwise fun a b => a.1 < b.1) ∧
      (∀ v c, (v, c) ∈ s.entries ↔ s.colourOf v = some c) ∧
      (Verdict.satisfiable s).line ≠ "failure" ∧ (Verdict.satisfiable s).line ≠ "unknown" := by
  refine ⟨?_, s.ofLine?_line, ?_, s.ascending, fun _ _ => colourOf_eq_some.symm,
    s.line_ne (by decide), s.line_ne (by decide)⟩
  · intro t
    refine ⟨fun h => ?_, congrArg line⟩
    have hread := s.ofLine?_line
    rw [h, t.ofLine?_line] at hread
    obtain ⟨entries, hascending⟩ := s
    obtain rfl := Option.some.inj hread
    rfl
  · intro es
    constructor
    · intro h
      exact Option.some.inj ((ofLine?_of_isLineOf h).symm.trans s.ofLine?_line)
    · rintro rfl
      exact s.isLineOf_line

end Solution

end Chromatic
