import Chromatic.Proofs.Propagation.Consistency
/-!
# Propagation on copies

The same propagation without a trail: the domains are handed on by value, and when a domain would
run empty there is nothing to hand on.
-/

namespace Chromatic

/-- The domains of `n` variables, with no record of what was removed from them. -/
abbrev Domains (n : Nat) := Family n Domain

def Domain.single (c : Colour) : Domain := ⟨[c], 1, List.pairwise_singleton _ c, rfl⟩

theorem Domain.ext_mem {d e : Domain} (h : ∀ x, x ∈ d ↔ x ∈ e) : d = e := by
  have hd : d.values.Nodup := d.ascending.imp Nat.ne_of_lt
  have he : e.values.Nodup := e.ascending.imp Nat.ne_of_lt
  have hperm : d.values.Perm e.values := (List.perm_ext_iff_of_nodup hd he).mpr h
  refine ext_values (hperm.eq_of_pairwise (fun a b _ _ hab hba => ?_) d.ascending e.ascending)
  exact absurd hab (Nat.lt_asymm hba)

def Domains.fix {n : Nat} (d : Domains n) (i : Fin n) (c : Colour) : Domains n :=
  d.set i (.single c)

private theorem Domains.total_set_erase {n : Nat} (d : Domains n) {i : Fin n} {c : Colour}
    (h : c ∈ d.get i) : (d.set i ((d.get i).erase c h)).total (·.size) + 1 = d.total (·.size) := by
  have ht := d.total_set (·.size) i ((d.get i).erase c h)
  have he := Domain.size_erase h
  omega

namespace Graph

/-- Revises the queued arcs on copies of the domains; there is no result when a domain runs
empty. -/
def propagateCopy (G : Graph) (d : Domains G.order) (queue : List (Arc G.order)) :
    Option (Domains G.order) :=
  match queue with
  | [] => some d
  | a :: rest =>
    match (d.get a.head).fixedValue with
    | none => G.propagateCopy d rest
    | some c =>
      if h : c ∈ d.get a.tail then
        if ((d.get a.tail).erase c h).size = 0 then none
        else G.propagateCopy (d.set a.tail ((d.get a.tail).erase c h)) (rest ++ G.arcsAfter a)
      else G.propagateCopy d rest
termination_by d.total (·.size) * (G.maxDegree + 1) + queue.length
decreasing_by
  · simp only [List.length_cons]
    omega
  · have hw := d.total_set_erase h
    have hl := G.length_arcsAfter_le a
    simp only [List.length_cons, List.length_append, ← hw, Nat.add_mul]
    omega
  · simp only [List.length_cons]
    omega

variable {G : Graph}

private theorem propagateCopy_cons (s : Store G.order) (a : Arc G.order)
    (rest : List (Arc G.order)) :
    G.propagateCopy s.domains (a :: rest) =
      match s.revise a with
      | (.absent, _) => G.propagateCopy s.domains rest
      | (.removed, t) => G.propagateCopy t.domains (rest ++ G.arcsAfter a)
      | (.emptied, _) => none := by
  rw [propagateCopy, Store.revise]
  have hhead : s.domain a.head = s.domains.get a.head := rfl
  rw [hhead]
  cases (s.domains.get a.head).fixedValue with
  | none => rfl
  | some c =>
    dsimp only
    by_cases hc : c ∈ s.domain a.tail
    · have hc' : c ∈ s.domains.get a.tail := hc
      rw [dif_pos hc', Store.remove, dif_pos hc]
      dsimp only
      by_cases hz : ((s.domain a.tail).erase c hc).size = 0
      · have hz' : ((s.domains.get a.tail).erase c hc').size = 0 := hz
        rw [if_pos hz, if_pos hz']
      · have hz' : ((s.domains.get a.tail).erase c hc').size ≠ 0 := hz
        rw [if_neg hz, if_neg hz']
        rfl
    · have hc' : c ∉ s.domains.get a.tail := hc
      rw [dif_neg hc', Store.remove_of_not_mem hc]

/-- Propagation on a store comes to the domains that propagation on copies comes to. -/
theorem propagateCopy_eq (s : Store G.order) (counters : PropagationCounters)
    (queue : List (Arc G.order)) :
    G.propagateCopy s.domains queue =
      if (G.propagate s counters queue).emptiedBy = none then
        some (G.propagate s counters queue).store.domains
      else none := by
  fun_induction propagate G s counters queue with
  | case1 => rw [propagateCopy, if_pos rfl]
  | case2 s _ a rest _ s' hr ih =>
    rw [propagateCopy_cons, hr]
    exact ih
  | case3 s _ a rest _ s' hr ih =>
    rw [propagateCopy_cons, hr]
    exact ih
  | case4 s _ a rest _ s' hr =>
    rw [propagateCopy_cons, hr, if_neg (Option.some_ne_none a)]

end Graph

end Chromatic
