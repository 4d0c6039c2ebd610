import Chromatic.Proofs.Instance.Encoding
import Chromatic.Proofs.Instance.Line
import Chromatic.Proofs.Problem.Additions
/-!
# Written instances

Reading an instance gives what was written down, in whatever layout. Each line is read by itself,
and stating the number of colours commutes with adding a constraint, so the number of colours may
be stated on any line.
-/

namespace Chromatic

namespace Statement

def colourCount? : Statement → Option Int
  | colourCount k => some k
  | nothing | constraint _ _ => none

def pair? : Statement → Option (Vertex × Vertex)
  | constraint u v => some (u, v)
  | nothing | colourCount _ => none

end Statement

namespace Problem

private theorem setColourCount_addConstraint (p : Problem) (k : Int) (u v : Vertex) :
    (p.addConstraint u v).setColourCount k = (p.setColourCount k).addConstraint u v := by
  unfold addConstraint
  split <;> rfl

private theorem foldl_setColourCount_addConstraint (p : Problem) (counts : List Int)
    (u v : Vertex) :
    counts.foldl setColourCount (p.addConstraint u v) =
      (counts.foldl setColourCount p).addConstraint u v := by
  induction counts generalizing p with
  | nil => rfl
  | cons k rest ih => rw [List.foldl_cons, List.foldl_cons, setColourCount_addConstraint, ih]

end Problem

namespace Instance

open Text

variable {n : Nat} {r : List Char}

private theorem foldl_state (p : Problem) (statements : List Statement) :
    statements.foldl state p =
      (statements.filterMap Statement.pair?).foldl (fun p e => p.addConstraint e.1 e.2)
        ((statements.filterMap Statement.colourCount?).foldl Problem.setColourCount p) := by
  induction statements generalizing p with
  | nil => rfl
  | cons s rest ih =>
    rw [List.foldl_cons, ih]
    cases s with
    | nothing | colourCount => rfl
    | constraint u v =>
      rw [state, Problem.foldl_setColourCount_addConstraint]
      rfl

/-- How a line is ended. -/
inductive Ending
  | lineFeed
  | carriageReturn
deriving DecidableEq

namespace Ending

/-- The characters before the line feed, which the line keeps. -/
def carriage : Ending → List Char
  | lineFeed => []
  | carriageReturn => ['\r']

private theorem blank_carriage (e : Ending) : Blank e.carriage := by
  cases e <;> decide

private theorem lineFeed_not_mem_carriage (e : Ending) : '\n' ∉ e.carriage := by
  cases e <;> decide

end Ending

/-- The text of lines that are all ended. -/
def endedText (lines : List (Line × Ending)) : List Char :=
  lines.flatMap fun l => l.1.text ++ l.2.carriage ++ ['\n']

/-- What the lines state, the last of which is not ended. -/
def statements (ended : List (Line × Ending)) (last : Line) : List Statement :=
  ended.map (·.1.statement) ++ [last.statement]

/-- The way in which the number of colours, if there is one, and pairs of vertices are written down:
one line for each of them, the pairs in order, and other lines in between. -/
structure Rendering (k : Option Int) (pairs : List (Vertex × Vertex)) where
  ended : List (Line × Ending)
  /-- The last line is not ended; if it has no characters, it is none. -/
  last : Line
  colourCounts_eq : (statements ended last).filterMap Statement.colourCount? = k.toList
  pairs_eq : (statements ended last).filterMap Statement.pair? = pairs

namespace Rendering

variable {k : Option Int} {pairs : List (Vertex × Vertex)}

def text (r : Rendering k pairs) : List Char := endedText r.ended ++ r.last.text

/-- Every number of colours and all pairs of 64 bits can be written down. -/
def plain (k : Option Int64) (pairs : List (Int64 × Int64)) :
    Rendering (k.map Int64.toInt) (pairs.map fun e => (e.1.toInt, e.2.toInt)) where
  ended := k.toList.map (fun x => (.colours .none colourKey rfl (.plain x), .lineFeed)) ++
    pairs.map fun e => (.constraint [] (.plain e.1) [] (.plain e.2) [], .lineFeed)
  last := .blank .none
  colourCounts_eq := by
    cases k <;> simp [statements, Line.statement, Statement.colourCount?, Function.comp_def,
      List.filterMap_cons]
  pairs_eq := by
    cases k <;> simp [statements, Line.statement, Statement.pair?, Function.comp_def,
      List.filterMap_cons]

end Rendering

private theorem statement_append_blank (hr : Blank r) (line : List Char) :
    statement n (line ++ r) = statement n line := by
  unfold statement
  rw [trim_append_right hr]

private theorem readLines_last (p : Problem) (n : Nat) (l : Line) :
    readLines p n (linesOf lineFeed (encode l.text)) = .ok (state p l.statement) := by
  have hline := l.statement_text n
  -- Without characters the last line is none, and then it states nothing.
  rcases htext : l.text with _ | ⟨c, rest⟩
  · rw [htext, statement_idle (.inl rfl)] at hline
    rw [← Except.ok.inj hline]
    rfl
  · rw [← htext, linesOf_encode, linesOf_of_not_mem l.lineFeed_not_mem_text (by simp [htext])]
    rw [List.map_singleton, readLines, readLine_encode, hline]
    rfl

private theorem readLines_endedText (p : Problem) (n : Nat) (ended : List (Line × Ending))
    (last : Line) :
    readLines p n (linesOf lineFeed (encode (endedText ended ++ last.text))) =
      .ok ((statements ended last).foldl state p) := by
  induction ended generalizing p n with
  | nil => exact readLines_last p n last
  | cons l rest ih =>
    obtain ⟨line, ending⟩ := l
    have hmem : '\n' ∉ line.text ++ ending.carriage := by
      rw [List.mem_append]
      exact not_or.mpr ⟨line.lineFeed_not_mem_text, ending.lineFeed_not_mem_carriage⟩
    have htext : endedText ((line, ending) :: rest) ++ last.text =
        (line.text ++ ending.carriage) ++ '\n' :: (endedText rest ++ last.text) := by
      simp [endedText]
    have hline : readLine n (encode (line.text ++ ending.carriage)) = .ok line.statement := by
      rw [readLine_encode, statement_append_blank ending.blank_carriage, line.statement_text]
    rw [htext, linesOf_encode, linesOf_append_separator, pieces_of_not_mem hmem, List.map_append,
      ← linesOf_encode, List.map_singleton, List.singleton_append, readLines, hline]
    exact ih (state p line.statement) (n + 1)

/-- Reading undoes writing, whatever the layout. -/
theorem read_text {k : Option Int} {pairs : List (Vertex × Vertex)} (r : Rendering k pairs) :
    read (encode r.text) = .ok (.ofStatements k [] pairs) := by
  rw [read, Rendering.text, readLines_endedText, foldl_state, r.colourCounts_eq, r.pairs_eq]
  cases k <;> rfl

/-- A layout with much in it. -/
def Rendering.varied : Rendering (some 3) [(-7, 20)] where
  ended :=
    [(.comment ⟨[' '], by decide, by decide⟩ " two vertices".toList (by decide), .carriageReturn),
      (.constraint [.none] ⟨.none, ⟨-7, by decide, false, 1⟩, .none⟩
        [⟨['\t'], by decide, by decide⟩]
        ⟨⟨['\u00a0'], by decide, by decide⟩, ⟨20, by decide, true, 2⟩, .none⟩ [], .lineFeed),
      (.blank .none, .lineFeed)]
  last := .colours .none "ColorS=".toList (by decide)
    ⟨⟨[' '], by decide, by decide⟩, .plain 3, .none⟩
  colourCounts_eq := rfl
  pairs_eq := rfl

example : Rendering.varied.text =
    " # two vertices\r\n,-07,\t,\u00a0+0020\n\nColorS= 3".toList := by decide

end Instance
end Chromatic
