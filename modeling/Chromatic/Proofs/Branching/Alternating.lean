import Chromatic.Proofs.Branching.FewestColours
/-!
# Alternating choices

The simplest selectors that keep their contracts and yet remember something: whatever comes first
at one question comes last at the next one.
-/

namespace Chromatic

/-- Lists the candidates in ascending and in descending order by turns. -/
structure Alternating where
  descending : Bool
deriving DecidableEq

namespace Alternating

def arrange {α : Type} (s : Alternating) (candidates : List α) : List α :=
  if s.descending then candidates.reverse else candidates

def turn (s : Alternating) : Alternating := ⟨!s.descending⟩

/-- The first or the last free variable. -/
instance : VariableSelector Alternating where
  select v s := ((s.arrange v.free).head?.map VariableId.ofFin, s.turn)

/-- The smallest or the largest colour first. -/
instance : ValueSelector Alternating where
  order {G} v x s :=
    (x.locate G.order).map fun i => (s.arrange (v.store.domain i).values, s.turn)

variable {G : Graph}

private theorem arrange_perm {α : Type} (s : Alternating) (candidates : List α) :
    (s.arrange candidates).Perm candidates := by
  unfold arrange
  split
  · exact candidates.reverse_perm
  · exact .refl _

theorem lawful_select (s : Alternating) : VariableSelector.Lawful G s where
  free := by
    intro w v x _ hx
    obtain ⟨i, hi, rfl⟩ := Option.map_eq_some_iff.mp hx
    have hmem : i ∈ w.arrange v.free := List.mem_of_head? hi
    exact ⟨i, rfl, View.mem_free.mp ((w.arrange_perm _).mem_iff.mp hmem)⟩
  complete := by
    intro w v _ hx i hi
    have hnil : w.arrange v.free = [] := List.head?_eq_none_iff.mp (Option.map_eq_none_iff.mp hx)
    have hmem : i ∈ w.arrange v.free := (w.arrange_perm _).mem_iff.mpr (View.mem_free.mpr hi)
    rw [hnil] at hmem
    cases hmem

theorem lawful_order (s : Alternating) : ValueSelector.Lawful G s where
  lists := by
    intro w v i _ _
    refine ⟨w.arrange (v.store.domain i).values, w.turn, ?_, w.arrange_perm _⟩
    simp only [ValueSelector.order, VariableId.locate_ofFin]
    rfl

end Alternating

end Chromatic
