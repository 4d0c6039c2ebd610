import Chromatic.Problem
import Chromatic.Text.Blank
import Chromatic.Text.Integer
import Chromatic.Text.Pieces
/-!
# Instance files

An instance is a text, one statement a line. A line `colors=3` states the number of colours, the
key in any case, and a line `1,2` a constraint. Blank lines and lines that begin with `#` say
nothing, and neither do lines that are not made of exactly two parts. Blanks around parts do not
matter. The first line that cannot be read decides the error.
-/

namespace Chromatic

/-- What a line of an instance says. -/
inductive Statement
  | nothing
  | colourCount (k : Int)
  | constraint (u v : Vertex)
deriving DecidableEq

/-- Why an instance could not be read. Lines are counted from one. -/
inductive InstanceError
  /-- The bytes could not be had or are no text. -/
  | unreadable (cause : String)
  | invalidColourCount (line : Nat) (value : String)
  | invalidVertex (line : Nat) (value : String)
deriving DecidableEq

namespace InstanceError

def notText : InstanceError := unreadable "stream did not contain valid UTF-8"

def message : InstanceError → String
  | unreadable cause => s!"failed to read the instance: {cause}"
  | invalidColourCount line value => s!"line {line}: '{value}' is not a valid number of colours"
  | invalidVertex line value => s!"line {line}: '{value}' is not a valid vertex"

end InstanceError

namespace Instance

/-- The key of a line that states the number of colours. -/
def colourKey : List Char := "colors=".toList

/-- Whether a line begins with the key, in any case. -/
def hasColourKey (line : List Char) : Bool :=
  (line.take colourKey.length).map Char.toLower = colourKey

/-- The value after the first `=`, up to the next one if there is one. -/
def colourValue (line : List Char) : List Char :=
  Text.trim ((Text.pieces '=' line).getD 1 [])

/-- The parts between commas that are not blank. -/
def parts (line : List Char) : List (List Char) :=
  ((Text.pieces ',' line).map Text.trim).filter fun part => !part.isEmpty

/-- The vertex that a part names. -/
def vertex (n : Nat) (part : List Char) : Except InstanceError Vertex :=
  match Text.signed? part with
  | none => .error (.invalidVertex n (String.ofList part))
  | some v => .ok v

def statement (n : Nat) (line : List Char) : Except InstanceError Statement :=
  let line := Text.trim line
  if line.isEmpty || line.head? = some '#' then .ok .nothing
  else if hasColourKey line then
    match Text.signed? (colourValue line) with
    | none => .error (.invalidColourCount n (String.ofList (colourValue line)))
    | some k => .ok (.colourCount k)
  else
    match parts line with
    | [u, v] => do
      let u ← vertex n u
      let v ← vertex n v
      return .constraint u v
    | _ => .ok .nothing

/-- The text that is written in UTF-8, if the bytes are one. -/
def decode (bytes : List UInt8) : Option (List Char) :=
  (ByteArray.utf8Decode? ⟨bytes.toArray⟩).map Array.toList

/-- What the bytes of the `n`th line say. -/
def readLine (n : Nat) (bytes : List UInt8) : Except InstanceError Statement :=
  match decode bytes with
  | none => .error .notText
  | some line => statement n line

def state (p : Problem) : Statement → Problem
  | .nothing => p
  | .colourCount k => p.setColourCount k
  | .constraint u v => p.addConstraint u v

/-- Adds what the lines say to a problem; the first of them is the `n`th one. -/
def readLines (p : Problem) (n : Nat) : List (List UInt8) → Except InstanceError Problem
  | [] => .ok p
  | line :: rest =>
    match readLine n line with
    | .error e => .error e
    | .ok s => readLines (state p s) (n + 1) rest

def lineFeed : UInt8 := 10

/-- The problem that an instance states. -/
def read (bytes : List UInt8) : Except InstanceError Problem :=
  readLines .empty 1 (Text.linesOf lineFeed bytes)

end Instance

end Chromatic
