import Chromatic.Graph
import Chromatic.Domain.Store
/-!
# Arc consistency

A colour of the tail of an arc loses its support when it is the only colour left at the head.
Propagation revises arcs in the order in which they were queued. Every removal queues the other
arcs into the variable that lost a colour. It ends when no arc is left or a domain is empty.
-/

namespace Chromatic

structure PropagationCounters where
  revisions : Nat
  /-- The number of removals that left the domain with a colour. -/
  removals : Nat
deriving DecidableEq

structure Propagated (n : Nat) where
  store : Store n
  counters : PropagationCounters
  /-- The arc whose revision emptied the domain of its tail, if one did. -/
  emptiedBy : Option (Arc n)

/-- Removes the colour of the tail that the head of the arc no longer supports. -/
def Store.revise {n : Nat} (s : Store n) (a : Arc n) : RemovalOutcome × Store n :=
  match (s.domain a.head).fixedValue with
  | none => (.absent, s)
  | some c => s.remove a.tail c

theorem Store.weight_revise {n : Nat} {s : Store n} {a : Arc n}
    (h : (s.revise a).1 ≠ .absent) : (s.revise a).2.weight + 1 = s.weight := by
  unfold revise at h ⊢
  split at h
  · exact absurd rfl h
  · exact weight_remove (mem_of_remove_ne_absent h)

namespace Graph

/-- The arcs to queue once the tail of an arc lost a colour: those into the tail, less the one
from the head. -/
def arcsAfter (G : Graph) (a : Arc G.order) : List (Arc G.order) :=
  ((G.neighbours a.tail).filter (· ≠ a.head)).map fun k => ⟨k, a.tail⟩

theorem length_arcsAfter_le (G : Graph) (a : Arc G.order) :
    (G.arcsAfter a).length ≤ G.maxDegree := by
  rw [arcsAfter, List.length_map]
  exact Nat.le_trans (List.length_filter_le _ _) (G.degree_le_maxDegree a.tail)

/-- Revises the queued arcs, the oldest first, and those that the removals queue. -/
def propagate (G : Graph) (store : Store G.order) (counters : PropagationCounters)
    (queue : List (Arc G.order)) : Propagated G.order :=
  match queue with
  | [] => { store, counters, emptiedBy := none }
  | a :: rest =>
    let counters := { counters with revisions := counters.revisions + 1 }
    match _h : store.revise a with
    | (.absent, _) => G.propagate store counters rest
    | (.removed, store') =>
      G.propagate store' { counters with removals := counters.removals + 1 }
        (rest ++ G.arcsAfter a)
    | (.emptied, store') => { store := store', counters, emptiedBy := some a }
termination_by store.weight * (G.maxDegree + 1) + queue.length
decreasing_by
  · simp only [List.length_cons]
    omega
  · have hw := Store.weight_revise (s := store) (a := a) (by simp [_h])
    have hl := G.length_arcsAfter_le a
    rw [_h] at hw
    simp only [List.length_cons, List.length_append, ← hw, Nat.add_mul]
    omega

theorem propagate_nil (G : Graph) (store : Store G.order) (counters : PropagationCounters) :
    G.propagate store counters [] = ⟨store, counters, none⟩ := by
  rw [propagate]

theorem propagate_cons (G : Graph) (store : Store G.order) (counters : PropagationCounters)
    (a : Arc G.order) (rest : List (Arc G.order)) :
    G.propagate store counters (a :: rest) =
      match store.revise a with
      | (.absent, _) => G.propagate store ⟨counters.revisions + 1, counters.removals⟩ rest
      | (.removed, store) =>
        G.propagate store ⟨counters.revisions + 1, counters.removals + 1⟩
          (rest ++ G.arcsAfter a)
      | (.emptied, store) => ⟨store, ⟨counters.revisions + 1, counters.removals⟩, some a⟩ := by
  rw [propagate]
  split <;> simp_all

/-- Revises every arc of the graph. -/
def propagateAll (G : Graph) (store : Store G.order) (counters : PropagationCounters) :
    Propagated G.order :=
  G.propagate store counters G.arcs

/-- Revises the arcs into a variable that was given a colour, and what follows from that. -/
def propagateFrom (G : Graph) (store : Store G.order) (counters : PropagationCounters)
    (i : Fin G.order) : Propagated G.order :=
  G.propagate store counters (G.arcsInto i)

end Graph

end Chromatic
