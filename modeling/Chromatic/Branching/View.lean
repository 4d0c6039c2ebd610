import Chromatic.Assignment
import Chromatic.Graph
import Chromatic.Domain.Store
/-!
# What a choice can look at

A search asks one selector which variable comes next and another in which order its colours are
tried. Both see the graph, the domains and the assignment, and may carry a state of their own.
-/

namespace Chromatic

/-- The present state of a search on a graph. -/
structure View (G : Graph) where
  store : Store G.order
  assignment : Assignment G.order

namespace View

variable {G : Graph}

/-- The variables without a colour, in ascending order. -/
def free (v : View G) : List (Fin G.order) :=
  (List.finRange G.order).filter fun i => !v.assignment.isAssigned i

def domainSize (v : View G) (i : Fin G.order) : Nat := (v.store.domain i).size

def allows (v : View G) (i : Fin G.order) (c : Colour) : Bool := c ∈ v.store.domain i

end View

class VariableSelector (σ : Type) where
  /-- The next variable, none when the search should take the assignment as it is. -/
  select : {G : Graph} → View G → σ → Option VariableId × σ

class ValueSelector (τ : Type) where
  /-- The colours to try for a variable, the first one first. -/
  order : {G : Graph} → View G → VariableId → τ → Except Fault (List Colour × τ)

end Chromatic
