/-!
# Casings

The name of a statistic can be respelled before it is written: it is cut into words, each word is
respelled, and the words are joined again. Letters and digits are those of ASCII.
-/

namespace Chromatic

/-- How the words of a name are respelled. -/
inductive Spelling
  | lower
  | upper
  /-- The first character capital, the others small. -/
  | capital
  /-- The first character small, the others capital. -/
  | toggled
  /-- As `capital`, but the first word is small. -/
  | humped
  /-- Small and capital letters by turns through all words. -/
  | alternating
deriving DecidableEq

/-- A spelling of words and what is written between them. -/
structure Casing where
  spelling : Spelling
  joint : String
deriving DecidableEq

namespace Casing

/-- Whether a word ends between the first character and the second one, where the third one, if
there is one, helps to decide. A capital that begins a small word belongs to that word. -/
def endsWord (a b : Char) (c : Option Char) : Bool :=
  a.isLower && b.isUpper || a.isUpper && b.isDigit || a.isDigit && b.isUpper ||
    a.isDigit && b.isLower || a.isLower && b.isDigit ||
    a.isUpper && b.isUpper && c.any Char.isLower

def isSeparator (a : Char) : Bool := a = '_' || a = '-' || a = ' '

/-- Cuts a text into pieces at separators and word ends; pieces may be empty. -/
def pieces : List Char → List (List Char)
  | [] => [[]]
  | a :: rest =>
    if isSeparator a then [] :: pieces rest
    else
      let cut := match rest with
        | [] => false
        | b :: rest' => endsWord a b rest'.head?
      match pieces rest with
      | [] => [[a]]
      | word :: words => if cut then [a] :: word :: words else (a :: word) :: words

def words (name : String) : List (List Char) :=
  (pieces name.toList).filter fun word => !word.isEmpty

/-- Respells the first character of a word in one way and the others in another. -/
def respell (first others : Char → Char) : List Char → List Char
  | [] => []
  | a :: rest => first a :: rest.map others

/-- Makes letters small and capital by turns, the first one small if `small` is set. Returns
whether the next letter is a small one. -/
def alternate (small : Bool) : List Char → List Char × Bool
  | [] => ([], small)
  | a :: rest =>
    if a.isAlpha then
      let (rest, small') := alternate (!small) rest
      ((if small then a.toLower else a.toUpper) :: rest, small')
    else
      let (rest, small') := alternate small rest
      (a :: rest, small')

/-- Makes the letters of all words small and capital by turns. -/
def alternateAll (small : Bool) : List (List Char) → List (List Char)
  | [] => []
  | word :: words =>
    let (word, small') := alternate small word
    word :: alternateAll small' words

def spell : Spelling → List (List Char) → List (List Char)
  | .lower, words => words.map (·.map Char.toLower)
  | .upper, words => words.map (·.map Char.toUpper)
  | .capital, words => words.map (respell Char.toUpper Char.toLower)
  | .toggled, words => words.map (respell Char.toLower Char.toUpper)
  | .humped, [] => []
  | .humped, word :: words =>
    word.map Char.toLower :: words.map (respell Char.toUpper Char.toLower)
  | .alternating, words => alternateAll true words

def apply (k : Casing) (name : String) : String :=
  k.joint.intercalate ((spell k.spelling (words name)).map String.ofList)

def named : List (String × Casing) :=
  [("Upper", ⟨.upper, " "⟩), ("Lower", ⟨.lower, " "⟩), ("Title", ⟨.capital, " "⟩),
    ("Toggle", ⟨.toggled, " "⟩), ("Alternating", ⟨.alternating, " "⟩),
    ("Snake", ⟨.lower, "_"⟩), ("UpperSnake", ⟨.upper, "_"⟩), ("ScreamingSnake", ⟨.upper, "_"⟩),
    ("Kebab", ⟨.lower, "-"⟩), ("UpperKebab", ⟨.upper, "-"⟩), ("Cobol", ⟨.upper, "-"⟩),
    ("Train", ⟨.capital, "-"⟩), ("Flat", ⟨.lower, ""⟩), ("UpperFlat", ⟨.upper, ""⟩),
    ("Camel", ⟨.humped, ""⟩), ("Pascal", ⟨.capital, ""⟩), ("UpperCamel", ⟨.capital, ""⟩)]

def ofName? (name : String) : Option Casing := named.lookup name

end Casing

end Chromatic
