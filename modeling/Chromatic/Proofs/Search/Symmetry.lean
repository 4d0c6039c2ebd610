import Chromatic.Proofs.Search.Prepared
import Mathlib.Logic.Equiv.Basic
/-!
# Unused colours are interchangeable

As long as there are two colours that no variable was given, every free variable is open to all
such colours. A revision cannot take one away: it takes the only colour of some variable, and a
variable that is open to one of them is open to another. So two unused colours can be swapped in
every colouring that a state of the search permits.
-/

namespace Chromatic

namespace Assignment

variable {n k : Nat} {a b : Assignment n} {i j : Fin n} {c x : Colour}

/-- One of the colours from one up to `k`, given to no variable. -/
structure Unused (a : Assignment n) (k : Nat) (c : Colour) : Prop where
  pos : 1 ≤ c
  le : c ≤ k
  ne_value : ∀ i, a.value i ≠ some c

private theorem value_eq_none_of_assign (h : a.assign i c = .ok b) : a.value i = none := by
  unfold assign at h
  split at h
  · cases h
  · next hi => simpa [isAssigned] using hi

theorem value_of_assign_of_eq_some (h : a.assign i c = .ok b) (hj : a.value j = some x) :
    b.value j = some x := by
  rw [value_of_assign h, if_neg, hj]
  rintro rfl
  rw [value_eq_none_of_assign h] at hj
  cases hj

private theorem Unused.of_assign (hx : b.Unused k x) (h : a.assign i c = .ok b) : a.Unused k x :=
  ⟨hx.pos, hx.le, fun j hj => hx.ne_value j (value_of_assign_of_eq_some h hj)⟩

end Assignment

/-- A variable with a colour is open to no other one, and a free variable to every unused colour
unless there is only one. -/
structure View.Symmetric {G : Graph} (k : Nat) (v : View G) : Prop where
  fixed : ∀ i c, v.assignment.value i = some c → ∀ x ∈ v.store.domain i, x = c
  mem : ∀ c d, c ≠ d → v.assignment.Unused k c → v.assignment.Unused k d →
    ∀ i, v.assignment.value i = none → c ∈ v.store.domain i

namespace View.Symmetric

variable {G : Graph} {k : Nat} {v : View G} {s t : Store G.order} {a b : Assignment G.order}
  {i : Fin G.order} {c d : Colour} {f : Fin G.order → Colour}

private theorem not_unused_of_fixed (h : v.Symmetric k) (hc : (v.store.domain i).values = [c])
    (hd : v.assignment.Unused k d) (hcd : c ≠ d) : ¬v.assignment.Unused k c := by
  intro hu
  cases hi : v.assignment.value i with
  | none =>
    have hmem : d ∈ v.store.domain i := h.mem d c hcd.symm hd hu i hi
    exact hcd ((Domain.mem_of_values_eq hc).mp hmem).symm
  | some x =>
    have hmem : c ∈ v.store.domain i := (Domain.mem_of_values_eq hc).mpr rfl
    rw [← h.fixed i x hi c hmem] at hi
    exact hu.ne_value i hi

private theorem revise {arc : Arc G.order} {o : RemovalOutcome} (h : Symmetric k ⟨s, a⟩)
    (hr : s.revise arc = (o, t)) : Symmetric k ⟨t, a⟩ := by
  refine ⟨fun i c hi x hx => ?_, fun c d hcd hc hd i hi => ?_⟩
  · exact h.fixed i c hi x ((Store.reduction_of_revise hr).mem_domain hx)
  · have hmem : c ∈ s.domain i := h.mem c d hcd hc hd i hi
    rw [Store.revise] at hr
    split at hr
    · cases hr
      exact hmem
    · next x hx =>
      obtain rfl : (s.remove arc.tail x).2 = t := congrArg Prod.snd hr
      refine Store.mem_domain_remove.mpr ⟨hmem, fun ⟨_, hcx⟩ => ?_⟩
      subst hcx
      exact h.not_unused_of_fixed (Domain.fixedValue_eq_some.mp hx) hd hcd hc

private theorem propagate {counters : PropagationCounters} {queue : List (Arc G.order)}
    (h : Symmetric k ⟨s, a⟩) : Symmetric k ⟨(G.propagate s counters queue).store, a⟩ := by
  fun_induction Graph.propagate G s counters queue with
  | case1 => exact h
  | case2 _ _ _ _ _ _ _ ih => exact ih h
  | case3 _ _ _ _ _ _ hr ih => exact ih (h.revise hr)
  | case4 _ _ _ _ _ _ hr => exact h.revise hr

private theorem keepOnly (h : Symmetric k ⟨s, a⟩) (ha : a.assign i c = .ok b)
    (hk : (s.keepOnly i c).1 = true) : Symmetric k ⟨(s.keepOnly i c).2, b⟩ := by
  refine ⟨fun j d hj x hx => ?_, fun x y hxy hx hy j hj => ?_⟩
  · obtain ⟨hmem, hij⟩ := (Store.mem_keepOnly hk).mp hx
    rw [Assignment.value_of_assign ha] at hj
    split at hj
    · next hi =>
      cases hj
      exact hij hi
    · exact h.fixed j d hj x hmem
  · rw [Assignment.value_of_assign ha] at hj
    split at hj
    · cases hj
    · next hij =>
      have hmem : x ∈ s.domain j := h.mem x y hxy (hx.of_assign ha) (hy.of_assign ha) j hj
      exact (Store.mem_keepOnly hk).mpr ⟨hmem, fun hi => absurd hi hij⟩

/-- Two unused colours change places in a permitted colouring. -/
theorem permits_swap (h : v.Symmetric k) (hc : v.assignment.Unused k c)
    (hd : v.assignment.Unused k d) (hcd : c ≠ d) (hf : v.Permits f) :
    v.Permits fun i => Equiv.swap c d (f i) := by
  have hfix : ∀ i x, v.assignment.value i = some x → Equiv.swap c d (f i) = f i := by
    intro i x hi
    rw [← hf.agrees i x hi] at hi
    refine Equiv.swap_apply_of_ne_of_ne (fun hfc => ?_) (fun hfd => ?_)
    · rw [hfc] at hi
      exact hc.ne_value i hi
    · rw [hfd] at hi
      exact hd.ne_value i hi
  refine ⟨fun i j hij heq => ?_, fun i => ?_, fun i x hi => ?_⟩
  · exact hf.proper i j hij ((Equiv.swap c d).injective heq)
  · cases hi : v.assignment.value i with
    | none =>
      rw [Equiv.swap_apply_def]
      split
      · exact h.mem d c hcd.symm hd hc i hi
      · split
        · exact h.mem c d hcd hc hd i hi
        · exact hf.admits i
    | some x =>
      rw [hfix i x hi]
      exact hf.admits i
  · rw [hfix i x hi]
    exact hf.agrees i x hi

end View.Symmetric

namespace Search

variable {G : Graph} {σ τ : Type} {k : Nat} {s t : Search G σ τ} {x : VariableId} {c : Colour}

theorem attempt_symmetric (h : s.attempt x c = (.ok none, t)) (hs : s.view.Symmetric k) :
    t.view.Symmetric k := by
  obtain ⟨i, rfl, ha, hk, -, ht, -⟩ := attempt_held h
  rw [view, ht]
  exact (View.Symmetric.keepOnly hs ha hk).propagate

theorem AtRoot.symmetric [VariableSelector σ] [ValueSelector τ] {v : σ} {w : τ}
    (h : AtRoot k v w s) : s.view.Symmetric k := by
  induction h with
  | start =>
    refine ⟨fun i c hi => ?_, fun c d _ hc _ i _ => ?_⟩
    · rw [view, Search.start, Assignment.value_empty] at hi
      cases hi
    · rw [view, Search.start, Store.domain_full, Domain.mem_full]
      exact ⟨hc.pos, hc.le⟩
  | @propagated s h ih =>
    have hassignment : s.propagateRoot.2.assignment = s.assignment :=
      h.propagated.isIdle.assignment.trans h.isIdle.assignment.symm
    rw [view, propagateRoot_store, hassignment]
    exact ih.propagate
  | @searched s _ _ _ _ h ho ih =>
    have hassignment := (h.searched ho).isIdle.assignment.trans h.isIdle.assignment.symm
    rw [view, h.store_run ho, hassignment]
    exact ih
  | noted _ _ ih | logTaken _ ih | charged _ _ ih => exact ih

end Search

end Chromatic
