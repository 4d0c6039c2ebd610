import Chromatic.Proofs.Propagation.Soundness
import Chromatic.Proofs.Search.Refinement
/-!
# Searches at the root

A search is at the root when it was just made, and again after every propagation at the root and
every search that came to an end. Its domains then differ from the full ones by removals that no
proper colouring can tell.
-/

namespace Chromatic
namespace Search

variable {G : Graph} {σ τ : Type}

theorem propagateRoot_eq_true {s : Search G σ τ} :
    s.propagateRoot.1 = true ↔ (G.propagateAll s.store s.propagation).emptiedBy = none := by
  unfold propagateRoot absorb
  cases (G.propagateAll s.store s.propagation).emptiedBy with
  | none => exact iff_of_true rfl rfl
  | some a => exact iff_of_false Bool.false_ne_true (Option.some_ne_none a)

theorem propagateRoot_store (s : Search G σ τ) :
    s.propagateRoot.2.store = (G.propagateAll s.store s.propagation).store :=
  absorb_store s _

theorem propagateRoot_counters (s : Search G σ τ) :
    s.propagateRoot.2.counters = s.counters ∧
      s.propagateRoot.2.propagation = (G.propagateAll s.store s.propagation).counters := by
  simp only [propagateRoot, absorb]
  split <;> exact ⟨rfl, rfl⟩

private theorem absorb_selectors (s : Search G σ τ) (r : Propagated G.order) :
    (s.absorb r).2.variableSelector = s.variableSelector ∧
      (s.absorb r).2.valueSelector = s.valueSelector := by
  unfold absorb
  split <;> exact ⟨rfl, rfl⟩

private theorem propagateRoot_selectors (s : Search G σ τ) :
    s.propagateRoot.2.variableSelector = s.variableSelector ∧
      s.propagateRoot.2.valueSelector = s.valueSelector :=
  s.absorb_selectors _

variable [VariableSelector σ] [ValueSelector τ]

/-- What a search with `k` colours and the given selectors can be between two runs. -/
inductive AtRoot (k : Nat) (v : σ) (w : τ) : Search G σ τ → Prop
  | start : AtRoot k v w (start G k v w)
  /-- Every arc was made consistent, or this failed. -/
  | propagated {s : Search G σ τ} (h : AtRoot k v w s) : AtRoot k v w s.propagateRoot.2
  /-- A search came to its end, whichever it was. -/
  | searched {s : Search G σ τ} {κ : Type} [TerminationCondition κ] {limit : κ}
    {outcome : Outcome} (h : AtRoot k v w s) (ho : (s.run limit).1 = .ok outcome) :
    AtRoot k v w (s.run limit).2.1
  | noted {s : Search G σ τ} (h : AtRoot k v w s) (e : Event) : AtRoot k v w (s.note e)
  | logTaken {s : Search G σ τ} (h : AtRoot k v w s) : AtRoot k v w s.takeLog.2
  | charged {s : Search G σ τ} (h : AtRoot k v w s) (milliseconds : Nat) :
    AtRoot k v w (s.charge milliseconds)

namespace AtRoot

variable {k : Nat} {v : σ} {w : τ} {s : Search G σ τ}

theorem isIdle (h : AtRoot k v w s) : s.IsIdle := by
  induction h with
  | start => exact ⟨rfl, rfl⟩
  | @propagated s _ ih =>
    have hf := absorb_frame s (G.propagateAll s.store s.propagation)
    exact ⟨hf.1.trans ih.frames, hf.2.trans ih.assignment⟩
  | searched _ ho ih =>
    obtain ⟨t, -, ht⟩ := run_ok ih ho
    rw [ht]
    exact ⟨rfl, ih.assignment⟩
  | noted _ _ ih | logTaken _ ih | charged _ _ ih => exact ⟨ih.frames, ih.assignment⟩

theorem store_run (h : AtRoot k v w s) {κ : Type} [TerminationCondition κ] {limit : κ}
    {outcome : Outcome} (ho : (s.run limit).1 = .ok outcome) :
    (s.run limit).2.1.store = s.store := by
  obtain ⟨t, -, ht⟩ := run_ok h.isIdle ho
  rw [ht]
  rfl

theorem reduction (h : AtRoot k v w s) : Store.Reduction (.full G.order k) s.store := by
  induction h with
  | start => exact .refl
  | propagated _ ih =>
    rw [propagateRoot_store]
    exact ih.trans (G.propagate_reduction _ _ _)
  | searched h ho ih =>
    rw [h.store_run ho]
    exact ih
  | noted _ _ ih | logTaken _ ih | charged _ _ ih => exact ih

theorem admits (h : AtRoot k v w s) {f : Fin G.order → Colour} (hf : G.IsProper f)
    (hk : ∀ i, 1 ≤ f i ∧ f i ≤ k) : s.store.Admits f := by
  induction h with
  | start => exact Store.admits_full.mpr hk
  | propagated _ ih =>
    rw [propagateRoot_store]
    exact (Graph.admits_propagate (fun _ => Graph.isArc_of_mem_arcs) hf).mpr ih
  | searched h ho ih =>
    rw [h.store_run ho]
    exact ih
  | noted _ _ ih | logTaken _ ih | charged _ _ ih => exact ih

theorem bounds (h : AtRoot k v w s) {i : Fin G.order} {c : Colour} (hc : c ∈ s.store.domain i) :
    1 ≤ c ∧ c ≤ k := by
  simpa using h.reduction.mem_domain hc

theorem selectors {P : σ → τ → Prop}
    (hP : ∀ {s t : Search G σ τ} {choice : Except Fault (Option (VariableId × List Colour))},
      s.choose = (choice, t) → P s.variableSelector s.valueSelector →
        P t.variableSelector t.valueSelector)
    (h : AtRoot k v w s) (hs : P v w) : P s.variableSelector s.valueSelector := by
  induction h with
  | start => exact hs
  | @propagated s _ ih =>
    rw [s.propagateRoot_selectors.1, s.propagateRoot_selectors.2]
    exact ih
  | searched h ho ih =>
    obtain ⟨t, he, ht⟩ := run_ok h.isIdle ho
    rw [ht]
    exact he.selectors hP ih
  | noted _ _ ih | logTaken _ ih | charged _ _ ih => exact ih

end AtRoot

end Search
end Chromatic
