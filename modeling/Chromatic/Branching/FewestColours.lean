import Chromatic.Branching.TieBreaker
import Chromatic.Branching.View
/-!
# The most constrained variable first

The variable with the fewest colours left is most likely to fail, so it is chosen first. Of
several such variables it is the one with the smallest number.
-/

namespace Chromatic

/-- Chooses the unassigned variable with the fewest colours left. -/
structure FewestColours where
  breaker : TieBreaker VariableId Nat
deriving DecidableEq

namespace FewestColours

/-- The choice with a tie breaker of one's own, which has to look for the minimum. -/
def ofTieBreaker (t : TieBreaker VariableId Nat) : Except Fault FewestColours :=
  match t.direction with
  | .minimum => .ok ⟨t⟩
  | .maximum => .error .maximumDirection

/-- The choice that prefers the smallest variable. -/
def standard : FewestColours := ⟨.ofDirection .minimum⟩

/-- Offers every free variable and takes out the best. -/
def choose {G : Graph} (v : View G) (f : FewestColours) : Option VariableId × FewestColours :=
  let (choice, breaker) := (v.free.foldl
    (fun t i => t.consider (VariableId.ofFin i) (v.domainSize i)) f.breaker).select
  (choice, ⟨breaker⟩)

instance : VariableSelector FewestColours := ⟨choose⟩

end FewestColours

end Chromatic
