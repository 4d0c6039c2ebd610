import Chromatic.Branching.LeastConstraining
import Chromatic.Proofs.Branching.Contract
import Chromatic.Proofs.Propagation.Soundness
import Mathlib.Data.Fintype.Card
/-!
# The least constraining colour comes first

Pricing the colours of a domain and inserting them one after the other sorts them by cost and
colour, and loses none of them. The cost of a colour is the number of unassigned neighbours that it
is open to, so colours that are open to none of them come first.
-/

namespace Chromatic

/-- The order in which the colours of a variable are to be tried: of two colours the cheaper one
comes first, and of one cost the smaller one. -/
def View.leastConstraining {G : Graph} (v : View G) (i : Fin G.order) : List Colour :=
  (v.store.domain i).values.mergeSort fun c d =>
    LeastConstraining.cost v i c < LeastConstraining.cost v i d ||
      LeastConstraining.cost v i c = LeastConstraining.cost v i d && c ≤ d

theorem View.perm_leastConstraining {G : Graph} (v : View G) (i : Fin G.order) :
    (v.leastConstraining i).Perm (v.store.domain i).values := List.mergeSort_perm _ _

/-- A colour comes no later than another one: it is cheaper, or of the same cost and no larger. -/
def View.Prefers {G : Graph} (v : View G) (i : Fin G.order) (c d : Colour) : Prop :=
  LeastConstraining.cost v i c < LeastConstraining.cost v i d ∨
    LeastConstraining.cost v i c = LeastConstraining.cost v i d ∧ c ≤ d

theorem View.pairwise_leastConstraining {G : Graph} (v : View G) (i : Fin G.order) :
    (v.leastConstraining i).Pairwise (v.Prefers i) := by
  refine (List.pairwise_mergeSort ?_ ?_ _).imp fun hab => by simpa [Prefers] using hab
  · intro a b c hab hbc
    simp only [Bool.or_eq_true, Bool.and_eq_true, decide_eq_true_eq] at hab hbc ⊢
    lia
  · intro a b
    simp only [Bool.or_eq_true, Bool.and_eq_true, decide_eq_true_eq]
    lia

theorem View.Prefers.antisymm {G : Graph} {v : View G} {i : Fin G.order} {c d : Colour}
    (h : v.Prefers i c d) (h' : v.Prefers i d c) : c = d := by
  simp only [Prefers] at h h'
  lia

namespace LeastConstraining

variable {G : Graph} (v : View G) (i : Fin G.order)

private theorem perm_priced :
    (priced v i).Perm ((v.store.domain i).values.map fun c => ⟨cost v i c, c⟩) := by
  refine perm_foldr_insertAscending ?_
  have hn : (v.store.domain i).values.Nodup := (v.store.domain i).ascending.imp Nat.ne_of_lt
  refine List.Pairwise.map _ (fun c d hcd h => ?_) hn
  exact hcd (congrArg PricedColour.colour h)

private theorem perm_map_priced : ((priced v i).map (·.colour)).Perm (v.store.domain i).values := by
  have h := (perm_priced v i).map (·.colour)
  rwa [List.map_map, List.map_id''] at h
  exact fun _ => rfl

private theorem cost_of_mem_priced {a : PricedColour} (h : a ∈ priced v i) :
    a.cost = cost v i a.colour := by
  obtain ⟨c, -, rfl⟩ := List.mem_map.mp ((perm_priced v i).mem_iff.mp h)
  rfl

private theorem map_priced : (priced v i).map (·.colour) = v.leastConstraining i := by
  have hleft : ((priced v i).map (·.colour)).Pairwise (v.Prefers i) := by
    rw [List.pairwise_map]
    refine (pairwise_foldr_insertAscending _).imp_of_mem fun {a b} ha hb hab => ?_
    have hac := cost_of_mem_priced v i ha
    have hbc := cost_of_mem_priced v i hb
    rw [PricedColour.lt_iff, hac, hbc] at hab
    simp only [View.Prefers]
    lia
  exact List.Perm.eq_of_pairwise (fun _ _ _ _ hab hba => hab.antisymm hba) hleft
    (v.pairwise_leastConstraining i)
    ((perm_map_priced v i).trans (v.perm_leastConstraining i).symm)

theorem order_ofFin (w : LeastConstraining) :
    ValueSelector.order v (.ofFin i) w = .ok (v.leastConstraining i, w) := by
  simp only [ValueSelector.order, VariableId.locate_ofFin, Except.map, map_priced]

theorem lawful (w : LeastConstraining) : ValueSelector.Lawful G w where
  lists {w' view i} _ _ := ⟨_, _, order_ofFin view i w', view.perm_leastConstraining i⟩

end LeastConstraining

namespace View

variable {G : Graph} {v : View G} {i : Fin G.order} {c d : Colour}

/-- The neighbours without a colour to which a colour is open. -/
def openNeighbours (v : View G) (i : Fin G.order) (c : Colour) : Finset (Fin G.order) :=
  {j | j ∈ G.neighbours i ∧ v.assignment.value j = none ∧ c ∈ v.store.domain j}

private theorem card_openNeighbours (v : View G) (i : Fin G.order) (c : Colour) :
    (v.openNeighbours i c).card = LeastConstraining.cost v i c := by
  have hset : v.openNeighbours i c = ((G.neighbours i).filter fun j =>
      !v.assignment.isAssigned j && v.allows j c).toFinset := by
    ext j
    simp [openNeighbours, Assignment.isAssigned, allows]
  rw [hset, List.toFinset_card_of_nodup ((G.nodup_neighbours i).filter _),
    LeastConstraining.cost, List.countP_eq_length_filter]

/-- A colour comes before another one: it is open to fewer neighbours without a colour, or to as
many and it is smaller. -/
def Precedes (v : View G) (i : Fin G.order) (c d : Colour) : Prop :=
  (v.openNeighbours i c).card < (v.openNeighbours i d).card ∨
    (v.openNeighbours i c).card = (v.openNeighbours i d).card ∧ c < d

private theorem Prefers.precedes (h : v.Prefers i c d) (hne : c ≠ d) : v.Precedes i c d := by
  rw [Precedes, card_openNeighbours, card_openNeighbours]
  exact h.imp_right fun ⟨hcost, hle⟩ => ⟨hcost, Nat.lt_of_le_of_ne hle hne⟩

private theorem Precedes.asymm (h : v.Precedes i c d) : ¬v.Precedes i d c := by
  rw [Precedes] at h ⊢
  lia

private theorem mem_leastConstraining : c ∈ v.leastConstraining i ↔ c ∈ v.store.domain i :=
  (v.perm_leastConstraining i).mem_iff

private theorem nodup_leastConstraining (v : View G) (i : Fin G.order) :
    (v.leastConstraining i).Nodup :=
  (v.perm_leastConstraining i).nodup_iff.mpr ((v.store.domain i).ascending.imp Nat.ne_of_lt)

private theorem strict_leastConstraining (v : View G) (i : Fin G.order) :
    (v.leastConstraining i).Pairwise (v.Precedes i) :=
  ((v.pairwise_leastConstraining i).and (v.nodup_leastConstraining i)).imp fun h =>
    h.1.precedes h.2

private theorem Precedes.sublist (h : v.Precedes i c d) (hc : c ∈ v.store.domain i)
    (hd : d ∈ v.store.domain i) : [c, d].Sublist (v.leastConstraining i) := by
  obtain ⟨before, after, hcolours⟩ := List.append_of_mem (mem_leastConstraining.mpr hd)
  have hmem := mem_leastConstraining.mpr hc
  have hstrict := v.strict_leastConstraining i
  rw [hcolours] at hmem hstrict ⊢
  have hbefore : c ∈ before := by
    refine (List.mem_append.mp hmem).resolve_right fun hmem => ?_
    rcases List.mem_cons.mp hmem with rfl | hmem
    · exact h.asymm h
    · have hafter := (List.pairwise_cons.mp (List.pairwise_append.mp hstrict).2.1).1
      exact h.asymm (hafter c hmem)
  exact (List.singleton_sublist.mpr hbefore).append
    (List.singleton_sublist.mpr List.mem_cons_self)

end View

namespace LeastConstraining

variable {G : Graph}

/-- The colours to try for a variable are those of its domain, each of them once, in strictly
ascending order of the number of unassigned neighbours that they are open to and of the colour
itself. So a colour that is open to none of them is tried before every colour that is open to
some. -/
theorem order_ascending (v : View G) (i : Fin G.order) (w : LeastConstraining) :
    ∃ colours, ValueSelector.order v (.ofFin i) w = .ok (colours, w) ∧ colours.Nodup ∧
      (∀ c, c ∈ colours ↔ c ∈ v.store.domain i) ∧ colours.Pairwise (v.Precedes i) ∧
        ∀ c ∈ v.store.domain i, ∀ d ∈ v.store.domain i, v.openNeighbours i c = ∅ →
          (v.openNeighbours i d).Nonempty → [c, d].Sublist colours := by
  refine ⟨v.leastConstraining i, order_ofFin v i w, v.nodup_leastConstraining i,
    fun c => View.mem_leastConstraining, v.strict_leastConstraining i, ?_⟩
  intro c hc d hd hnone hsome
  have hlt : (v.openNeighbours i c).card < (v.openNeighbours i d).card := by
    rw [hnone, Finset.card_empty]
    exact hsome.card_pos
  exact View.Precedes.sublist (.inl hlt) hc hd

end LeastConstraining

end Chromatic
