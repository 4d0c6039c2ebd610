import Chromatic.Proofs.Propagation.ArcConsistency
import Chromatic.Proofs.Search.Completeness
import Chromatic.Proofs.Search.Copying
/-!
# Searches with consistent arcs

Once propagation at the root has emptied no domain, every arc is consistent. Propagation after a
choice starts from the chosen variable alone, and still every arc is consistent again when it ends.
-/

namespace Chromatic

theorem Store.domain_keepOnly_of_ne {n : Nat} {s : Store n} {i j : Fin n} {c : Colour}
    (hk : (s.keepOnly i c).1 = true) (h : i ≠ j) :
    (s.keepOnly i c).2.domain j = s.domain j := by
  refine Domain.ext_mem fun x => ?_
  rw [mem_keepOnly hk]
  exact and_iff_left fun hij => absurd hij h

/-- No domain is empty, that of a variable with a colour has no other colour, and every arc is
consistent. -/
structure View.Consistent {G : Graph} (v : View G) : Prop extends v.Settled where
  arcs : G.ArcConsistent v.store

namespace View.Consistent

variable {G : Graph} {v : View G} {i j : Fin G.order} {c : Colour}

theorem not_mem (hv : v.Consistent) (hj : j ∈ G.neighbours i) (hc : v.assignment.value j = some c) :
    c ∉ v.store.domain i := hv.arcs ⟨i, j⟩ hj c (hv.fixed j c hc)

theorem mem (hv : v.Consistent) (hc : v.assignment.value i = some c) : c ∈ v.store.domain i :=
  (Domain.mem_of_values_eq (hv.fixed i c hc)).mpr rfl

theorem isProper (hv : v.Consistent) : v.assignment.IsProper :=
  fun _ _ hij _ hi hj => hv.not_mem hij hj (hv.mem hi)

end View.Consistent

namespace Search

variable {G : Graph} {σ τ : Type} {s t : Search G σ τ} {x : VariableId} {c : Colour}

theorem attempt_consistent (h : s.attempt x c = (.ok none, t)) (hs : s.view.Consistent) :
    t.view.Consistent := by
  refine ⟨attempt_settled h hs.toSettled, ?_⟩
  obtain ⟨i, rfl, -, hk, he, ht, -⟩ := attempt_held h
  rw [view, ht]
  exact Graph.arcConsistent_propagateFrom hs.arcs (s.store.keepOnly_reduction i c)
    (fun _ => Store.domain_keepOnly_of_ne hk) he

variable [VariableSelector σ] [ValueSelector τ]

/-- What a search with `k` colours and the given selectors can be between two runs, once
propagation at the root has emptied no domain. -/
inductive Prepared (k : Nat) (v : σ) (w : τ) : Search G σ τ → Prop
  | propagated {s : Search G σ τ} (h : AtRoot k v w s) (hs : s.store = .full G.order k)
    (hp : s.propagateRoot.1 = true) : Prepared k v w s.propagateRoot.2
  | searched {s : Search G σ τ} {κ : Type} [TerminationCondition κ] {limit : κ}
    {outcome : Outcome} (h : Prepared k v w s) (ho : (s.run limit).1 = .ok outcome) :
    Prepared k v w (s.run limit).2.1
  | noted {s : Search G σ τ} (h : Prepared k v w s) (e : Event) : Prepared k v w (s.note e)
  | logTaken {s : Search G σ τ} (h : Prepared k v w s) : Prepared k v w s.takeLog.2
  | charged {s : Search G σ τ} (h : Prepared k v w s) (milliseconds : Nat) :
    Prepared k v w (s.charge milliseconds)

namespace Prepared

variable {k : Nat} {v : σ} {w : τ}

theorem atRoot (h : Prepared k v w s) : AtRoot k v w s := by
  induction h with
  | propagated h => exact h.propagated
  | searched _ ho ih => exact ih.searched ho
  | noted _ e ih => exact ih.noted e
  | logTaken _ ih => exact ih.logTaken
  | charged _ m ih => exact ih.charged m

theorem store_consistent (hk : 1 ≤ k) (h : Prepared k v w s) :
    s.store.Live ∧ G.ArcConsistent s.store := by
  induction h with
  | propagated _ hs hp =>
    have he := propagateRoot_eq_true.mp hp
    have hlive : (Store.full G.order k).Live := fun i => ⟨1, by simp [hk]⟩
    rw [propagateRoot_store]
    rw [hs] at he ⊢
    exact ⟨Graph.propagate_live hlive he, Graph.arcConsistent_propagateAll he⟩
  | searched h ho ih =>
    rw [h.atRoot.store_run ho]
    exact ih
  | noted _ _ ih | logTaken _ ih | charged _ _ ih => exact ih

theorem consistent (hk : 1 ≤ k) (h : Prepared k v w s) : s.view.Consistent := by
  obtain ⟨hlive, harcs⟩ := h.store_consistent hk
  refine ⟨⟨hlive, fun i c hi => ?_⟩, harcs⟩
  rw [view, h.atRoot.isIdle.assignment, Assignment.value_empty] at hi
  cases hi

end Prepared

end Search

end Chromatic
