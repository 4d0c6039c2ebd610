import Chromatic.Fault
/-!
# Tables

A table holds one value for each variable, in the order of the variables, and can grow at its
end.
-/

namespace Chromatic

/-- One value for each of the first `size` variables. -/
structure Table (α : Type) where
  values : List α
deriving DecidableEq

namespace Table

variable {α : Type}

def empty : Table α := ⟨[]⟩

def replicate (n : Nat) (a : α) : Table α := ⟨List.replicate n a⟩

/-- The table with a value computed for each of `n` variables. -/
def ofFn (n : Nat) (f : VariableId → α) : Table α :=
  ⟨(List.range n).map fun i => f (.ofIndex i)⟩

def size (t : Table α) : Nat := t.values.length

/-- Adds a value for the next variable, which is returned. -/
def push (t : Table α) (a : α) : VariableId × Table α :=
  (.ofIndex t.size, ⟨t.values ++ [a]⟩)

def get (t : Table α) (x : VariableId) : Except Fault α :=
  (x.locate t.size).map fun i => t.values.get i

def set (t : Table α) (x : VariableId) (a : α) : Except Fault (Table α) :=
  (x.locate t.size).map fun i => ⟨t.values.set i.val a⟩

def map {β : Type} (f : α → β) (t : Table α) : Table β := ⟨t.values.map f⟩

def keys (t : Table α) : List VariableId := (List.range t.size).map .ofIndex

def entries (t : Table α) : List (VariableId × α) := t.keys.zip t.values

end Table

end Chromatic
