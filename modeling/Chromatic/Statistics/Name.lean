/-!
# Names of statistics

A statistic is named by words joined with underscores, the name of its source first.
-/

namespace Chromatic

/-- The name of a statistic, possibly still empty. -/
structure StatisticName where
  text : String
deriving DecidableEq

namespace StatisticName

def empty : StatisticName := ⟨""⟩

def ofParts (parts : List String) : StatisticName := ⟨"_".intercalate parts⟩

/-- Adds a word to a name; an empty name becomes the word itself. -/
def attach (n : StatisticName) (part : String) : StatisticName :=
  if n.text.isEmpty then ⟨part⟩ else ⟨n.text ++ "_" ++ part⟩

end StatisticName

structure Statistic where
  name : StatisticName
  value : String
deriving DecidableEq

def Statistic.ofCounter (name : StatisticName) (value : Nat) : Statistic :=
  ⟨name, toString value⟩

end Chromatic
