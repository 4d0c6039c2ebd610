/-!
# Variables

A variable stands for a vertex while a problem is being solved. Variables are numbered from zero.
-/

namespace Chromatic

/-- The number of a variable. -/
structure VariableId where
  index : Nat
deriving DecidableEq

namespace VariableId

/-- The variable with an index; indices have 32 bits. -/
def ofIndex (i : Nat) : VariableId := ⟨i % 4294967296⟩

def ofFin {n : Nat} (i : Fin n) : VariableId := ⟨i.val⟩

/-- Variables are ordered by index. -/
instance : Ord VariableId := ⟨fun x y => compare x.index y.index⟩

/-- A variable is written as `x` and its index. -/
instance : ToString VariableId := ⟨fun x => "x" ++ toString x.index⟩

/-- The long form of a variable. -/
def longForm (x : VariableId) : String := "VariableId \x7b id: " ++ toString x.index ++ " \x7d"

end VariableId

end Chromatic
