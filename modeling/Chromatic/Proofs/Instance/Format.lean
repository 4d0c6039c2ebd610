import Chromatic.Proofs.Instance.Encoding
import Chromatic.Proofs.Instance.Statement
/-!
# The format of instances

Which texts are instances, line by line, and what the error is otherwise. The format says where the
value of a colour line ends: at the end of the line, or at the next equals sign. Reading goes up to
the next equals sign, so the two readings of the format differ on lines with a second one only.
-/

namespace Chromatic.Instance

open Text

variable {n : Nat} {bytes line : List UInt8} {lines : List (List UInt8)} {text rest : List Char}
  {e : InstanceError}

/-- What stands between the commas of a line, without the blanks around it, unless it is empty. -/
def commaParts (line : List Char) : List (List Char) :=
  ((line.splitOn ',').map trim).filter fun part => part ≠ []

/-- The value that a colour line states if it ends at the next equals sign. -/
def valueToEquals (rest : List Char) : List Char := trim (rest.takeWhile (· ≠ '='))

section Format

-- The value of a colour line, given the rest of the line behind the key.
variable (value : List Char → List Char)

/-- A trimmed line of the format. -/
inductive WellFormed (line : List Char) : Prop
  | idle (hidle : IsIdle line)
  | colours {rest : List Char} (hkey : StatesColours line rest) (hvalue : IsLiteral (value rest))
  | ignored (hidle : ¬IsIdle line) (hkey : ∀ rest, ¬StatesColours line rest)
    (hparts : (commaParts line).length ≠ 2)
  | constraint {u v : List Char} (hidle : ¬IsIdle line) (hkey : ∀ rest, ¬StatesColours line rest)
    (hparts : commaParts line = [u, v]) (hu : IsLiteral u) (hv : IsLiteral v)

/-- The error of a trimmed line that is not of the format. -/
inductive Malformed (n : Nat) (line : List Char) : InstanceError → Prop
  | colours {rest : List Char} (hkey : StatesColours line rest) (hvalue : ¬IsLiteral (value rest)) :
    Malformed n line (.invalidColourCount n (String.ofList (value rest)))
  | first {u v : List Char} (hidle : ¬IsIdle line) (hkey : ∀ rest, ¬StatesColours line rest)
    (hparts : commaParts line = [u, v]) (hu : ¬IsLiteral u) :
    Malformed n line (.invalidVertex n (String.ofList u))
  | second {u v : List Char} (hidle : ¬IsIdle line) (hkey : ∀ rest, ¬StatesColours line rest)
    (hparts : commaParts line = [u, v]) (hu : IsLiteral u) (hv : ¬IsLiteral v) :
    Malformed n line (.invalidVertex n (String.ofList v))

/-- The bytes are a line of the format. -/
def Acceptable (line : List UInt8) : Prop :=
  ∃ text, line = encode text ∧ WellFormed value (trim text)

/-- The error of bytes that are no line of the format. -/
inductive Offends (n : Nat) (line : List UInt8) : InstanceError → Prop
  | notText (h : ∀ text, line ≠ encode text) : Offends n line .notText
  | malformed {text : List Char} {e : InstanceError} (h : line = encode text)
    (he : Malformed value n (trim text) e) : Offends n line e

/-- The error of the first line that is not of the format, if the first line has that number. -/
inductive FirstOffence : Nat → List (List UInt8) → InstanceError → Prop
  | here {n : Nat} {line : List UInt8} {e : InstanceError} (h : Offends value n line e)
    (rest : List (List UInt8)) : FirstOffence n (line :: rest) e
  | later {n : Nat} {line : List UInt8} {rest : List (List UInt8)} {e : InstanceError}
    (h : Acceptable value line) (hrest : FirstOffence (n + 1) rest e) :
    FirstOffence n (line :: rest) e

/-- Reading follows the format: it accepts the texts all of whose lines are of the format, and
otherwise gives the error of the first line that is not. -/
structure Describes (bytes : List UInt8) : Prop where
  accepted : (∃ p, read bytes = .ok p) ↔ ∀ line ∈ linesOf lineFeed bytes, Acceptable value line
  refused : ∀ e, read bytes = .error e ↔ FirstOffence value 1 (linesOf lineFeed bytes) e

/-- Colour lines have the value that goes up to the next equals sign. -/
def Agrees (lines : List (List UInt8)) : Prop :=
  ∀ line ∈ lines, ∀ text rest, line = encode text → StatesColours (trim text) rest →
    value rest = valueToEquals rest

private theorem wellFormed_or_malformed (n : Nat) (line : List Char) :
    WellFormed value line ∨ ∃ e, Malformed value n line e := by
  by_cases hidle : IsIdle line
  · exact .inl (.idle hidle)
  by_cases hkey : ∃ rest, StatesColours line rest
  · obtain ⟨rest, hkey⟩ := hkey
    by_cases hvalue : IsLiteral (value rest)
    · exact .inl (.colours hkey hvalue)
    · exact .inr ⟨_, .colours hkey hvalue⟩
  have hkey := not_exists.mp hkey
  by_cases hparts : (commaParts line).length = 2
  · obtain ⟨u, v, hparts⟩ := List.length_eq_two.mp hparts
    by_cases hu : IsLiteral u
    · by_cases hv : IsLiteral v
      · exact .inl (.constraint hidle hkey hparts hu hv)
      · exact .inr ⟨_, .second hidle hkey hparts hu hv⟩
    · exact .inr ⟨_, .first hidle hkey hparts hu⟩
  · exact .inl (.ignored hidle hkey hparts)

private theorem acceptable_or_offends (n : Nat) (line : List UInt8) :
    Acceptable value line ∨ ∃ e, Offends value n line e := by
  by_cases h : ∃ text, line = encode text
  · obtain ⟨text, htext⟩ := h
    rcases wellFormed_or_malformed value n (trim text) with h | ⟨e, he⟩
    · exact .inl ⟨text, htext, h⟩
    · exact .inr ⟨e, .malformed htext he⟩
  · exact .inr ⟨_, .notText (not_exists.mp h)⟩

private theorem acceptable_or_firstOffence (n : Nat) (lines : List (List UInt8)) :
    (∀ line ∈ lines, Acceptable value line) ∨ ∃ e, FirstOffence value n lines e := by
  induction lines generalizing n with
  | nil => exact .inl nofun
  | cons line rest ih =>
    rcases acceptable_or_offends value n line with h | ⟨e, he⟩
    · rcases ih (n + 1) with hrest | ⟨e, he⟩
      · exact .inl (List.forall_mem_cons.mpr ⟨h, hrest⟩)
      · exact .inr ⟨e, .later h he⟩
    · exact .inr ⟨e, .here he rest⟩

end Format

section Reading

variable {value : List Char → List Char}

private theorem parts_eq_commaParts (line : List Char) : parts line = commaParts (trim line) := by
  rw [← parts_trim, parts, commaParts, pieces_eq_splitOn]
  congr 1
  funext part
  cases part <;> rfl

private theorem vertex_of_isLiteral {part : List Char} (h : IsLiteral part) (n : Nat) :
    ∃ v, vertex n part = .ok v := by
  obtain ⟨v, hv⟩ := isLiteral_iff.mp h
  exact ⟨v, by rw [vertex, hv]⟩

private theorem vertex_of_not_isLiteral {part : List Char} (h : ¬IsLiteral part) (n : Nat) :
    vertex n part = .error (.invalidVertex n (String.ofList part)) := by
  rw [vertex, not_isLiteral_iff.mp h]

private theorem statement_of_wellFormed
    (hvalue : ∀ rest, StatesColours (trim text) rest → value rest = valueToEquals rest)
    (h : WellFormed value (trim text)) (n : Nat) : ∃ s, statement n text = .ok s := by
  cases h with
  | idle hidle => exact ⟨_, statement_idle hidle⟩
  | @colours rest hkey h =>
    rw [hvalue rest hkey] at h
    obtain ⟨k, hk⟩ := isLiteral_iff.mp h
    rw [statement_colours hkey]
    exact ⟨_, by rw [← valueToEquals, hk]⟩
  | ignored hidle hkey hparts =>
    rw [← parts_eq_commaParts] at hparts
    exact ⟨_, statement_ignored hidle hkey hparts⟩
  | constraint hidle hkey hparts hu hv =>
    rw [← parts_eq_commaParts] at hparts
    obtain ⟨u, hu⟩ := vertex_of_isLiteral hu n
    obtain ⟨v, hv⟩ := vertex_of_isLiteral hv n
    rw [statement_pair hidle hkey hparts, hu, hv]
    exact ⟨_, rfl⟩

private theorem statement_of_malformed
    (hvalue : ∀ rest, StatesColours (trim text) rest → value rest = valueToEquals rest)
    (h : Malformed value n (trim text) e) : statement n text = .error e := by
  cases h with
  | @colours rest hkey h =>
    rw [hvalue rest hkey] at h ⊢
    rw [statement_colours hkey, ← valueToEquals, not_isLiteral_iff.mp h]
  | first hidle hkey hparts hu =>
    rw [← parts_eq_commaParts] at hparts
    rw [statement_pair hidle hkey hparts, vertex_of_not_isLiteral hu]
    rfl
  | second hidle hkey hparts hu hv =>
    rw [← parts_eq_commaParts] at hparts
    obtain ⟨u, hu⟩ := vertex_of_isLiteral hu n
    rw [statement_pair hidle hkey hparts, hu, vertex_of_not_isLiteral hv]
    rfl

private theorem readLine_of_acceptable
    (hvalue : ∀ text rest, line = encode text → StatesColours (trim text) rest →
      value rest = valueToEquals rest)
    (h : Acceptable value line) (n : Nat) : ∃ s, readLine n line = .ok s := by
  obtain ⟨text, rfl, h⟩ := h
  rw [readLine_encode]
  exact statement_of_wellFormed (fun rest => hvalue text rest rfl) h n

private theorem readLine_of_offends
    (hvalue : ∀ text rest, line = encode text → StatesColours (trim text) rest →
      value rest = valueToEquals rest)
    (h : Offends value n line e) : readLine n line = .error e := by
  cases h with
  | notText h =>
    have hnone : decode line = none :=
      Option.eq_none_iff_forall_ne_some.mpr fun text ht => h text (decode_eq_some_iff.mp ht)
    rw [readLine, hnone]
  | @malformed text _ htext he =>
    subst htext
    rw [readLine_encode]
    exact statement_of_malformed (fun rest => hvalue text rest rfl) he

private theorem readLines_of_acceptable (hvalue : Agrees value lines)
    (h : ∀ line ∈ lines, Acceptable value line) (p : Problem) (n : Nat) :
    ∃ q, readLines p n lines = .ok q := by
  induction lines generalizing p n with
  | nil => exact ⟨p, rfl⟩
  | cons line rest ih =>
    obtain ⟨hline, hrest⟩ := List.forall_mem_cons.mp h
    obtain ⟨hvline, hvrest⟩ := List.forall_mem_cons.mp hvalue
    obtain ⟨s, hs⟩ := readLine_of_acceptable hvline hline n
    rw [readLines, hs]
    exact ih hvrest hrest _ _

private theorem readLines_of_firstOffence (hvalue : Agrees value lines)
    (h : FirstOffence value n lines e) (p : Problem) : readLines p n lines = .error e := by
  induction h generalizing p with
  | here h rest =>
    rw [readLines, readLine_of_offends (hvalue _ List.mem_cons_self) h]
  | @later n line rest e h _ ih =>
    obtain ⟨hvline, hvrest⟩ := List.forall_mem_cons.mp hvalue
    obtain ⟨s, hs⟩ := readLine_of_acceptable hvline h n
    rw [readLines, hs]
    exact ih hvrest _

private theorem describes_of_agrees (h : Agrees value (linesOf lineFeed bytes)) :
    Describes value bytes := by
  have hok : (∀ line ∈ linesOf lineFeed bytes, Acceptable value line) →
      ∃ p, read bytes = .ok p := fun hall => readLines_of_acceptable h hall _ _
  have herror : ∀ {e}, FirstOffence value 1 (linesOf lineFeed bytes) e → read bytes = .error e :=
    fun he => readLines_of_firstOffence h he _
  have htotal := acceptable_or_firstOffence value 1 (linesOf lineFeed bytes)
  constructor
  · refine ⟨fun ⟨p, hp⟩ => ?_, hok⟩
    rcases htotal with hall | ⟨e, he⟩
    · exact hall
    · cases hp.symm.trans (herror he)
  · intro e
    refine ⟨fun he => ?_, herror⟩
    rcases htotal with hall | ⟨e', he'⟩
    · obtain ⟨p, hp⟩ := hok hall
      cases hp.symm.trans he
    · obtain rfl := Except.error.inj ((herror he').symm.trans he)
      exact he'

end Reading

/-- The value of a colour line ends at the next equals sign, if there is one. -/
theorem describes_valueToEquals (bytes : List UInt8) : Describes valueToEquals bytes :=
  describes_of_agrees fun _ _ _ _ _ _ => rfl

/-- If no colour line has a second equals sign, reading follows the format in which the value of a
colour line is all that stands behind the key. -/
theorem describes_whole_values
    (h : ∀ line ∈ linesOf lineFeed bytes, ∀ text rest, line = encode text →
      StatesColours (trim text) rest → '=' ∉ rest) : Describes trim bytes := by
  apply describes_of_agrees
  intro line hline text rest htext hkey
  rw [valueToEquals, takeWhile_of_not_mem (h line hline text rest htext hkey)]

theorem describes_whole_values_vertexAtFault :
    FirstOffence trim 1
      (linesOf lineFeed (encode ("# four lines\nCOLORS= +3\n1, 2\n1, x, ").toList))
      (.invalidVertex 4 "x") := by
  refine ((describes_whole_values ?_).refused _).mp (by decide +kernel)
  intro line hline text rest htext hkey
  rw [linesOf_encode] at hline
  obtain ⟨t, ht, rfl⟩ := List.mem_map.mp hline
  obtain rfl := encode_injective htext
  have hrests : ∀ t ∈ linesOf '\n' ("# four lines\nCOLORS= +3\n1, 2\n1, x, ").toList,
      '=' ∉ (trim t).drop colourKey.length := by decide +kernel
  rw [hkey.rest_eq]
  exact hrests t ht

/-- What follows the second equals sign of a colour line is not read, even where it makes the value
none of the format. -/
theorem not_describes_secondEquals : ¬Describes trim (encode "colors=3=x".toList) := by
  intro h
  have hoffence : FirstOffence trim 1 (linesOf lineFeed (encode "colors=3=x".toList))
      (.invalidColourCount 1 "3=x") := by
    have hlines : linesOf '\n' "colors=3=x".toList = ["colors=3=x".toList] := by decide
    have hvalue : ¬IsLiteral (trim "3=x".toList) := not_isLiteral_iff.mpr (by decide)
    have htext : String.ofList (trim "3=x".toList) = "3=x" := by decide
    rw [linesOf_encode, hlines, ← htext]
    exact .here (.malformed rfl (.colours ⟨"colors=".toList, by decide, by decide⟩ hvalue)) []
  have hread : read (encode "colors=3=x".toList) = .ok (Problem.empty.setColourCount 3) := by
    decide +kernel
  cases hread.symm.trans ((h.refused _).mpr hoffence)

end Chromatic.Instance
