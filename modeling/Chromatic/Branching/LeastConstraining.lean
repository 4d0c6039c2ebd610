import Chromatic.Branching.View
/-!
# The least constraining colour first

A colour costs one for every unassigned neighbour whose domain has it. Cheap colours leave most
choices open, so they are tried first; colours of one cost are tried in ascending order.
-/

namespace Chromatic

structure PricedColour where
  cost : Nat
  colour : Colour
deriving DecidableEq

namespace PricedColour

/-- Cheap colours come first, and of one cost the smaller colour. -/
instance : LT PricedColour where
  lt a b := a.cost < b.cost ∨ a.cost = b.cost ∧ a.colour < b.colour

theorem lt_iff {a b : PricedColour} :
    a < b ↔ a.cost < b.cost ∨ a.cost = b.cost ∧ a.colour < b.colour := Iff.rfl

instance : DecidableLT PricedColour := fun a b =>
  inferInstanceAs (Decidable (a.cost < b.cost ∨ a.cost = b.cost ∧ a.colour < b.colour))

instance : Trans (α := PricedColour) (· < ·) (· < ·) (· < ·) where
  trans {a b c} hab hbc := by
    rw [lt_iff] at hab hbc ⊢
    lia

instance : Std.Trichotomous (α := PricedColour) (· < ·) where
  trichotomous := by
    rintro ⟨p, c⟩ ⟨q, d⟩ h h'
    simp only [lt_iff] at h h'
    obtain ⟨rfl, rfl⟩ : p = q ∧ c = d := by lia
    rfl

end PricedColour

/-- Tries the colours that rule out the fewest choices of the neighbours first. -/
structure LeastConstraining where
deriving DecidableEq

namespace LeastConstraining

/-- The number of unassigned neighbours for which the colour is still open. -/
def cost {G : Graph} (v : View G) (i : Fin G.order) (c : Colour) : Nat :=
  (G.neighbours i).countP fun j => !v.assignment.isAssigned j && v.allows j c

/-- The colours of a domain with their costs, in the order of `PricedColour`. -/
def priced {G : Graph} (v : View G) (i : Fin G.order) : List PricedColour :=
  ((v.store.domain i).values.map fun c => ⟨cost v i c, c⟩).foldr insertAscending []

instance : ValueSelector LeastConstraining where
  order {G} v x τ :=
    (x.locate G.order).map fun i => ((priced v i).map (·.colour), τ)

end LeastConstraining

end Chromatic
