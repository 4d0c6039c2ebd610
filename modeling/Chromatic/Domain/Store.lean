import Chromatic.Domain.Basic
import Chromatic.Family
import Chromatic.Trail
/-!
# The domain store

The domains of all variables and the trail of what was removed from them. A removal is the only
way to shrink a domain and undoing to a checkpoint the only way to grow one, so undoing brings
back the domains of the moment at which the checkpoint was taken.
-/

namespace Chromatic

/-- A colour that was taken out of the domain of a variable. -/
structure Removal (n : Nat) where
  target : Fin n
  value : Colour
deriving DecidableEq

inductive RemovalOutcome
  /-- The colour was not in the domain. -/
  | absent
  /-- The colour went and others stay. -/
  | removed
  /-- The colour went and was the last one. -/
  | emptied
deriving DecidableEq

/-- The domains of `n` variables and the removals on record. -/
structure Store (n : Nat) where
  domains : Family n Domain
  trail : Trail (Removal n)
deriving DecidableEq

namespace Store

variable {n : Nat}

def full (n k : Nat) : Store n := ⟨.replicate n (.full k), .empty⟩

def domain (s : Store n) (i : Fin n) : Domain := s.domains.get i

/-- Removes a colour from the domain of a variable. A removal that took place is on record, also
one that left the domain empty. -/
def remove (s : Store n) (i : Fin n) (c : Colour) : RemovalOutcome × Store n :=
  if h : c ∈ s.domain i then
    let d := (s.domain i).erase c h
    (if d.size = 0 then .emptied else .removed,
      { domains := s.domains.set i d, trail := s.trail.record ⟨i, c⟩ })
  else
    (.absent, s)

/-- Removes the listed colours in turn, until the domain is empty; tells whether it is not. -/
def removeAll (s : Store n) (i : Fin n) : List Colour → Bool × Store n
  | [] => (true, s)
  | c :: rest =>
    match s.remove i c with
    | (.emptied, s) => (false, s)
    | (_, s) => s.removeAll i rest

/-- Removes every other colour from the domain of a variable; tells whether it is not empty. -/
def keepOnly (s : Store n) (i : Fin n) (c : Colour) : Bool × Store n :=
  s.removeAll i ((s.domain i).values.filter (· ≠ c))

/-- The moment to which the store can be brought back later. -/
def checkpoint (s : Store n) : Nat := s.trail.length

/-- Puts a removed colour back. -/
def restore (domains : Family n Domain) (r : Removal n) : Except Fault (Family n Domain) :=
  if h : r.value ∈ domains.get r.target then
    .error (.stillPresent r.value (.ofFin r.target))
  else
    .ok (domains.set r.target ((domains.get r.target).insert r.value h))

/-- Puts back every colour removed since a checkpoint, the newest removal first. -/
def undoTo (s : Store n) (checkpoint : Nat) : Except Fault (Store n) := do
  let (removals, trail) ← s.trail.undoTo checkpoint
  let domains ← removals.foldlM restore s.domains
  return { domains, trail }

@[simp] theorem domain_full (n k : Nat) (i : Fin n) : (full n k).domain i = .full k := by
  simp [full, domain]

theorem store_remove {s : Store n} {i : Fin n} {c : Colour} (h : c ∈ s.domain i) :
    (s.remove i c).2 =
      ⟨s.domains.set i ((s.domain i).erase c h), s.trail.record ⟨i, c⟩⟩ := by
  simp only [remove, h, ↓reduceDIte]

theorem remove_of_not_mem {s : Store n} {i : Fin n} {c : Colour} (h : c ∉ s.domain i) :
    s.remove i c = (.absent, s) := by
  simp only [remove, h, ↓reduceDIte]

theorem mem_domain_remove {s : Store n} {i j : Fin n} {c x : Colour} :
    x ∈ (s.remove i c).2.domain j ↔ x ∈ s.domain j ∧ ¬(i = j ∧ x = c) := by
  by_cases h : c ∈ s.domain i
  · rw [store_remove h]
    simp only [domain, Family.get_set]
    split
    · next hij =>
      subst hij
      rw [Domain.mem_erase]
      simp
    · next hij => simp [hij]
  · rw [remove_of_not_mem h]
    refine ⟨fun hx => ⟨hx, ?_⟩, And.left⟩
    rintro ⟨rfl, rfl⟩
    exact h hx

theorem undoTo_checkpoint (s : Store n) : s.undoTo s.checkpoint = .ok s := by
  rw [undoTo, checkpoint, Trail.undoTo_length]
  rfl

private theorem restore_remove {s : Store n} {i : Fin n} {c : Colour} (h : c ∈ s.domain i) :
    restore (s.domains.set i ((s.domain i).erase c h)) ⟨i, c⟩ = .ok s.domains := by
  have hc : c ∉ (s.domain i).erase c h := fun hx => ((Domain.mem_erase h).mp hx).2 rfl
  have hd : (s.domains.set i ((s.domain i).erase c h)).set i (s.domain i) = s.domains :=
    Family.ext_get fun j => by
      simp only [Family.get_set]
      split
      · next hij => rw [← hij, domain]
      · rfl
  simp only [restore, Family.get_set, ↓reduceIte, hc, ↓reduceDIte, Domain.insert_erase, hd]

theorem undoTo_remove {s : Store n} {checkpoint : Nat} (h : checkpoint ≤ s.checkpoint)
    (i : Fin n) (c : Colour) : (s.remove i c).2.undoTo checkpoint = s.undoTo checkpoint := by
  by_cases hc : c ∈ s.domain i
  · rw [store_remove hc, undoTo, undoTo, Trail.undoTo_record h]
    cases s.trail.undoTo checkpoint with
    | error => rfl
    | ok r =>
      simp only [Except.map, bind, Except.bind, List.foldlM_cons, restore_remove hc]
  · rw [remove_of_not_mem hc]

/-- The number of open choices: the sizes of all domains together. -/
def weight (s : Store n) : Nat := s.domains.total (·.size)

theorem weight_remove {s : Store n} {i : Fin n} {c : Colour} (h : c ∈ s.domain i) :
    (s.remove i c).2.weight + 1 = s.weight := by
  have ht := s.domains.total_set (·.size) i ((s.domain i).erase c h)
  have he := Domain.size_erase h
  rw [store_remove h, weight, weight]
  simp only [domain] at ht he ⊢
  omega

theorem mem_of_remove_ne_absent {s : Store n} {i : Fin n} {c : Colour}
    (h : (s.remove i c).1 ≠ .absent) : c ∈ s.domain i :=
  Decidable.byContradiction fun hc => h (congrArg Prod.fst (remove_of_not_mem hc))

end Store

end Chromatic
