import Chromatic.Proofs.Search.Allowance
import Chromatic.Proofs.Search.Carrying
import Chromatic.Proofs.Search.Prepared
/-!
# Searches do not look at their past

A search counts its work and writes its log, and reads neither. So a search that starts with other
counters and another log goes through the same states, and comes to the same end with the same
work added.
-/

namespace Chromatic

instance : Add PropagationCounters :=
  ⟨fun a b => ⟨a.revisions + b.revisions, a.removals + b.removals⟩⟩

instance : Add SearchCounters :=
  ⟨fun a b => ⟨a.decisions + b.decisions, a.backtracks + b.backtracks,
    a.neighbourConflicts + b.neighbourConflicts, a.milliseconds + b.milliseconds⟩⟩

/-- The work that a search counts, but for the time it takes. -/
structure Work where
  decisions : Nat
  backtracks : Nat
  neighbourConflicts : Nat
  revisions : Nat
  removals : Nat
deriving DecidableEq

instance : Add Work :=
  ⟨fun a b => ⟨a.decisions + b.decisions, a.backtracks + b.backtracks,
    a.neighbourConflicts + b.neighbourConflicts, a.revisions + b.revisions,
    a.removals + b.removals⟩⟩

private theorem Graph.propagate_add (G : Graph) (store : Store G.order)
    (b counters : PropagationCounters) (queue : List (Arc G.order)) :
    G.propagate store (b + counters) queue =
      { G.propagate store counters queue with
        counters := b + (G.propagate store counters queue).counters } := by
  fun_induction propagate G store counters queue with
  | case1 => rw [propagate_nil]
  | case2 store counters a rest _ store' hr ih =>
    rw [propagate_cons, hr]
    exact ih
  | case3 store counters a rest _ store' hr ih =>
    rw [propagate_cons, hr]
    exact ih
  | case4 store counters a rest _ store' hr =>
    rw [propagate_cons, hr]
    rfl

namespace Search

variable {G : Graph} {σ τ κ : Type}

def work (s : Search G σ τ) : Work where
  decisions := s.counters.decisions
  backtracks := s.counters.backtracks
  neighbourConflicts := s.counters.neighbourConflicts
  revisions := s.propagation.revisions
  removals := s.propagation.removals

/-- The search with the work and the log of another one before its own. -/
def after (t b : Search G σ τ) : Search G σ τ :=
  { t with
    counters := b.counters + t.counters
    propagation := b.propagation + t.propagation
    log := t.log ++ b.log }

/-- The search with no work counted and nothing logged. -/
def blank (s : Search G σ τ) : Search G σ τ :=
  { s with counters := ⟨0, 0, 0, 0⟩, propagation := ⟨0, 0⟩, log := [] }

theorem blank_after (s : Search G σ τ) : s.blank.after s = s := rfl

section Operations

variable (s b : Search G σ τ)

private theorem narrow_after (i : Fin G.order) (c : Colour) :
    (s.after b).narrow i c = ((s.narrow i c).1, (s.narrow i c).2.after b) := by
  simp only [narrow, absorb, after, Graph.propagateFrom]
  rcases s.store.keepOnly i c with ⟨_ | _, store⟩
  · rfl
  · simp only [Graph.propagate_add]
    cases (G.propagate store s.propagation (G.arcsInto i)).emptiedBy with
    | some => rfl
    | none =>
      dsimp only
      cases (G.neighbours i).find? fun j => decide (s.assignment.value j = some c) with
      | none => rfl
      | some => rfl

private theorem attempt_after (x : VariableId) (c : Colour) :
    (s.after b).attempt x c = ((s.attempt x c).1, (s.attempt x c).2.after b) :=
  attempt_commutes (φ := fun s => s.after b) (fun _ => rfl) (fun _ _ => rfl)
    (fun s i c => narrow_after s b i c) (fun _ _ => rfl) s x c

variable [VariableSelector σ] [ValueSelector τ]

private theorem choose_after : (s.after b).choose = (s.choose.1, s.choose.2.after b) := by
  simp only [choose, after, view]
  rcases VariableSelector.select ⟨s.store, s.assignment⟩ s.variableSelector with ⟨_ | x, st⟩
  · rfl
  · simp only
    cases ValueSelector.order ⟨s.store, s.assignment⟩ x s.valueSelector with
    | error => rfl
    | ok => rfl

end Operations

section Run

variable {s t : Search G σ τ} {limit limit' : κ} [VariableSelector σ] [ValueSelector τ]
  [TerminationCondition κ]

private theorem carries_after (b : Search G σ τ) : Carries (fun s => s.after b) id where
  attempt s x c := attempt_after s b x c
  choose s := choose_after s b
  rewindTo _ _ := rfl
  abandon _ _ := rfl
  interrupt _ := rfl
  solution _ := rfl

theorem Explored.after {result : Except Fault Outcome} (h : Explored s limit result t limit')
    (b : Search G σ τ) : Explored (s.after b) limit result (t.after b) limit' := by
  have hafter := (carries_after b).explored h
  rwa [Outcome.map_id, Except.map_id] at hafter

theorem run_of_explored_error (hs : s.IsIdle) {fault : Fault}
    (h : Explored s limit (.error fault) t limit') : (s.run limit).1 = .error fault := by
  obtain ⟨frames, he⟩ := finish_enter hs h
  rw [run_eq, he]
  rfl

end Run

section Standard

variable {k : Nat} {s s' : Search G FewestColours LeastConstraining}

private theorem Prepared.store_eq (h : Prepared k .standard {} s) :
    s.store = (G.propagateAll (.full G.order k) ⟨0, 0⟩).store := by
  induction h with
  | @propagated s _ hs _ =>
    rw [propagateRoot_store, hs]
    change (G.propagate _ (s.propagation + ⟨0, 0⟩) G.arcs).store = _
    rw [Graph.propagate_add]
    rfl
  | searched h ho ih =>
    rw [h.atRoot.store_run ho]
    exact ih
  | noted _ _ ih | logTaken _ ih | charged _ _ ih => exact ih

/-- Between two runs, searches with the same colours differ in their work and their log only. -/
theorem Prepared.blank_eq (h : Prepared k .standard {} s) (h' : Prepared k .standard {} s') :
    s.blank = s'.blank := by
  have hidle := h.atRoot.isIdle
  have hidle' := h'.atRoot.isIdle
  simp only [blank, mk.injEq, and_true, true_and]
  refine ⟨?_, ?_, ?_, ?_⟩
  · rw [h.store_eq, h'.store_eq]
  · rw [hidle.assignment, hidle'.assignment]
  · rw [h.atRoot.standard, h'.atRoot.standard]
  · rw [hidle.frames, hidle'.frames]

end Standard

end Search

end Chromatic
