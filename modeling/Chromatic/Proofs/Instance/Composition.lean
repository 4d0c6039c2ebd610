import Chromatic.Proofs.Instance.Encoding
import Chromatic.Proofs.Problem.Merging
/-!
# Reading an instance in parts

An instance can be cut behind any line. The first part decides if it cannot be read; otherwise the
second part decides, with its lines counted on, and what both parts state is merged.
-/

namespace Chromatic

/-- The error when so many lines come before. -/
def InstanceError.later (m : Nat) : InstanceError → InstanceError
  | unreadable cause => unreadable cause
  | invalidColourCount line value => invalidColourCount (line + m) value
  | invalidVertex line value => invalidVertex (line + m) value

namespace Instance

open InstanceError

variable {a b : List UInt8} {m n : Nat} {p : Problem}

private theorem vertex_later (part : List Char) :
    vertex (n + m) part = (vertex n part).mapError (later m) := by
  unfold vertex
  cases Text.signed? part <;> rfl

private theorem statement_later (line : List Char) :
    statement (n + m) line = (statement n line).mapError (later m) := by
  unfold statement
  dsimp only
  split
  · rfl
  · split
    · split <;> rfl
    · split
      · next u v _ =>
        rw [vertex_later, vertex_later]
        cases vertex n u with
        | error => rfl
        | ok => cases vertex n v <;> rfl
      · rfl

private theorem readLine_later (line : List UInt8) :
    readLine (n + m) line = (readLine n line).mapError (later m) := by
  unfold readLine
  split
  · rfl
  · exact statement_later _

private theorem readLines_later (lines : List (List UInt8)) :
    readLines p (n + m) lines = (readLines p n lines).mapError (later m) := by
  induction lines generalizing p n with
  | nil => rfl
  | cons line rest ih =>
    rw [readLines, readLines, readLine_later]
    cases readLine n line with
    | error => rfl
    | ok s =>
      show readLines (state p s) (n + m + 1) rest = _
      rw [Nat.add_right_comm, ih]

private theorem readLines_append (l₁ l₂ : List (List UInt8)) :
    readLines p n (l₁ ++ l₂) = (readLines p n l₁).bind fun q => readLines q (n + l₁.length) l₂ := by
  induction l₁ generalizing p n with
  | nil => rfl
  | cons line rest ih =>
    rw [List.cons_append, readLines, readLines]
    cases readLine n line with
    | error => rfl
    | ok s =>
      show readLines (state p s) (n + 1) (rest ++ l₂) = _
      rw [ih, List.length_cons, Nat.add_right_comm, Nat.add_assoc]

private theorem merge_state (p q : Problem) (s : Statement) :
    p.merge (state q s) = state (p.merge q) s := by
  cases s with
  | nothing => rfl
  | colourCount k => exact p.merge_setColourCount q k
  | constraint u v => exact p.merge_addConstraint q u v

/-- What was stated before is merged with what the lines state. -/
theorem readLines_merge (p q : Problem) (lines : List (List UInt8)) :
    readLines (p.merge q) n lines = (readLines q n lines).map p.merge := by
  induction lines generalizing q n with
  | nil => rfl
  | cons line rest ih =>
    rw [readLines, readLines]
    cases readLine n line with
    | error => rfl
    | ok s =>
      show readLines (state (p.merge q) s) (n + 1) rest = _
      rw [← merge_state, ih]

/-- If the first of two parts ends with a line, it decides unless it can be read. Then the second
part decides, and its lines count on from those of the first. -/
theorem read_append (h : Text.Closed lineFeed a) (b : List UInt8) :
    read (a ++ b) = do
      let p ← read a
      let q ← (read b).mapError (later (a.count lineFeed))
      return p.merge q := by
  show readLines .empty 1 (Text.linesOf lineFeed (a ++ b)) =
    (read a).bind fun p => ((read b).mapError _).bind fun q => .ok (p.merge q)
  rw [Text.linesOf_append h, readLines_append, Text.length_linesOf h]
  apply congrArg (Except.bind (read a))
  funext p
  rw [← p.merge_empty, readLines_merge, readLines_later, p.merge_empty]
  show ((read b).mapError _).map p.merge = _
  cases (read b).mapError (later (a.count lineFeed)) <;> rfl

/-- A second part that fails, with its second line the fourth one, and one that can be read. -/
theorem read_append_twoLines :
    Text.Closed lineFeed (encode "colors=2\n1,2\n".toList) ∧
    read (encode "colors=2\n1,2\n".toList ++ encode "2,3\nx,4".toList) =
      .error (.invalidVertex 4 "x") ∧
    read (encode "colors=2\n1,2\n".toList ++ encode "3,3\n2,1\nCOLORS=5".toList) =
      .ok (.ofStatements (some 5) [] [(1, 2), (3, 3)]) := by
  have h : Text.Closed lineFeed (encode "colors=2\n1,2\n".toList) := .inr (by decide +kernel)
  rw [read_append h, read_append h]
  exact ⟨h, by decide +kernel, by decide +kernel⟩

end Instance
end Chromatic
