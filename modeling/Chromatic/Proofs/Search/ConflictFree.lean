import Chromatic.Proofs.Search.Stack
/-!
# No neighbour has the colour

Propagation takes the colour just given out of the domains of the neighbours. A neighbour that has
this colour has no other one left, so its domain would have run empty first. This needs no more
than that no domain is empty and that a variable with a colour has no other one left, and going
back brings such a view back, whatever the selectors answer.
-/

namespace Chromatic

variable {G : Graph} {σ τ κ : Type}

/-- The frames lead from the root to the view: the variable of each of them was given a colour in
the view in which the frame was pushed. -/
inductive View.Above : View G → List Frame → Prop
  | root {v : View G} (hv : v.Settled) : Above v []
  | given {u v : View G} {f : Frame} {below : List Frame} {i : Fin G.order} {c : Colour}
    (h : Above u below) (hf : f.target = .ofFin i) (hc : f.checkpoint = u.store.checkpoint)
    (hr : Store.Reduction u.store v.store) (ha : u.assignment.assign i c = .ok v.assignment)
    (hv : v.Settled) : Above v (f :: below)

private theorem View.Above.settled {v : View G} {frames : List Frame} (h : v.Above frames) :
    v.Settled := by
  cases h with
  | root hv | given _ _ _ _ _ hv => exact hv

/-- No domain is empty, no variable with a colour has another one left, and no tried colour was
found at a neighbour. -/
structure Search.Unchallenged (s : Search G σ τ) : Prop where
  settled : s.view.Settled
  conflicts : s.counters.neighbourConflicts = 0

/-- The frames below the top lead to the present view, in which the top frame was pushed, and no
tried colour was found at a neighbour. -/
structure Search.Grounded (s : Search G σ τ) : Prop where
  top : ∀ f ∈ s.frames.head?, f.checkpoint = s.store.checkpoint
  above : s.view.Above s.frames.tail
  conflicts : s.counters.neighbourConflicts = 0

/-- A search goes on from a state that is grounded, or has ended unchallenged. -/
def Turn.Unchallenged : Turn G σ τ κ → Prop
  | again s _ => s.Grounded
  | done result s _ => s.Unchallenged ∧ (result = .ok .exhausted → s.frames = [])

theorem Search.Grounded.unchallenged {s : Search G σ τ} (h : s.Grounded) : s.Unchallenged :=
  ⟨h.above.settled, h.conflicts⟩

private theorem Turn.Unchallenged.comesTo {turn : Turn G σ τ κ} {s : Search G σ τ} {limit : κ}
    (h : turn.Unchallenged) (hs : turn.ComesTo s limit) : s.Grounded := by
  cases hs with
  | again => exact h
  | drained =>
    obtain ⟨hs, hframes⟩ := h
    have hnil := hframes rfl
    exact ⟨by simp [hnil], by simpa [hnil] using .root hs.settled, hs.conflicts⟩

namespace Search

section Attempts

variable {s t : Search G σ τ} {i : Fin G.order} {x : VariableId} {c : Colour} {fault : Fault}

/-- In a view in which no variable with a colour has another one left, no attempt finds its colour
at a neighbour. -/
theorem attempt_unchallenged {r : Except Fault (Option Failure)} (hs : s.view.Settled)
    (h : s.attempt x c = (r, t)) :
    t.counters.neighbourConflicts = s.counters.neighbourConflicts ∧
      ∀ y, r ≠ .ok (some (.assignedNeighbour y)) := by
  cases r with
  | error =>
    rw [attempt_faulted h]
    exact ⟨rfl, by simp⟩
  | ok r =>
    obtain ⟨i, a, u, rfl, ha, hn, rfl⟩ := attempt_cases h
    cases narrows_of_narrow hn with
    | absent _ _ hc | emptied _ _ _ hc | held _ _ _ _ hc =>
      have hconflicts := congrArg SearchCounters.neighbourConflicts hc
      exact ⟨hconflicts, by simp⟩
    | conflict hk he _ hj hv =>
      rw [committed, Assignment.value_of_assign ha, if_neg (Graph.ne_of_mem_neighbours hj)] at hv
      exact absurd hv (narrowed_conflict_free hs hk he hj)

private theorem attempt_above {rest : List Colour} {below : List Frame} (hs : s.view.Above below)
    (h : s.attempt x c = (.ok none, t)) :
    t.view.Above (⟨x, rest, s.store.checkpoint⟩ :: below) := by
  obtain ⟨i, hx, ha⟩ := attempt_ok h
  exact .given hs hx rfl (attempt_reduction h) ha (attempt_settled h hs.settled)

private theorem retract_above {f : Frame} {below : List Frame} (h : s.view.Above (f :: below))
    (frames : List Frame) :
    ∃ t : Search G σ τ,
      (s.withFrames frames).retract f.target f.checkpoint = .ok (t.withFrames frames) ∧
        t.view.Above below ∧ f.checkpoint = t.store.checkpoint ∧ t.counters = s.counters := by
  cases h with
  | @given u _ _ _ i c h hf hc hr ha =>
    have hstore : s.store.undoTo f.checkpoint = .ok u.store := by
      rw [hc]
      exact hr.undoTo
    exact ⟨{ s with store := u.store, assignment := u.assignment },
      retract_ok hstore hf (Assignment.unassign_of_assign ha), h, hc, rfl⟩

private theorem leave_counters (s : Search G σ τ) (root : Nat) (result : Except Fault Outcome) :
    (s.leave root result).2.counters = s.counters := by
  unfold leave
  split
  · rfl
  · split <;> rfl

private theorem leave_faulted {root : Nat} {result : Except Fault Outcome}
    (h : (s.leave root result).1 = .error fault) : (s.leave root result).2 = s := by
  unfold leave at h ⊢
  split
  · rfl
  · split
    · rfl
    · next hundo =>
      simp only [hundo] at h
      cases h

private theorem Unchallenged.propagateRoot (hs : s.Unchallenged) (hp : s.propagateRoot.1 = true) :
    s.propagateRoot.2.Unchallenged := by
  have he := propagateRoot_eq_true.mp hp
  have hlive := Graph.propagate_live hs.settled.live he
  have hred := G.propagate_reduction s.store s.propagation G.arcs
  have hassignment : s.propagateRoot.2.assignment = s.assignment := (absorb_frame s _).2
  refine ⟨⟨?_, fun i c hi => ?_⟩, ?_⟩
  · rw [view, propagateRoot_store]
    exact hlive
  · rw [view, hassignment] at hi
    rw [view, propagateRoot_store]
    exact hred.values_eq_singleton hlive (hs.settled.fixed i c hi)
  · rw [(propagateRoot_counters s).1]
    exact hs.conflicts

end Attempts

variable [VariableSelector σ] [ValueSelector τ]

section Turns

variable {s t : Search G σ τ} {x : VariableId} {limit : κ}

private theorem descend_unchallenged {frames : List Frame} (ht : t.view.Above frames)
    (hc : t.counters.neighbourConflicts = 0) :
    ((t.withFrames frames).descend limit).Unchallenged := by
  rcases hnext : t.choose with ⟨_ | _ | ⟨y, colours⟩, u⟩
  all_goals
    have hu : u.view.Above frames := by
      rw [choose_view hnext]
      exact ht
    have hcu : u.counters.neighbourConflicts = 0 := by
      rw [choose_counters hnext]
      exact hc
  · rw [descend_faulted hnext]
    exact ⟨⟨hu.settled, hcu⟩, by simp⟩
  · rw [descend_solved hnext]
    exact ⟨⟨hu.settled, hcu⟩, by simp⟩
  · rw [descend_pushed hnext]
    exact ⟨by simp [withFrames], hu, hcu⟩

private theorem tryColour_unchallenged {c : Colour} {rest : List Colour} {below : List Frame}
    (hs : s.view.Above below) (hc : s.counters.neighbourConflicts = 0) :
    ((s.withFrames (⟨x, rest, s.store.checkpoint⟩ :: below)).tryColour
      ⟨x, rest, s.store.checkpoint⟩ c limit).Unchallenged := by
  rcases ha : s.attempt x c with ⟨_ | _ | cause, t⟩
  all_goals
    have hconflicts : t.counters.neighbourConflicts = 0 :=
      (attempt_unchallenged hs.settled ha).1.trans hc
  · rw [tryColour_refused ha]
    obtain rfl := attempt_faulted ha
    exact ⟨⟨hs.settled, hconflicts⟩, by simp⟩
  · rw [tryColour_held ha]
    exact descend_unchallenged (attempt_above hs ha) hconflicts
  · rw [tryColour_failed ha]
    exact ⟨by simp [withFrames, rewindTo], hs, hconflicts⟩

private theorem Unchallenged.enter (hs : s.Unchallenged) (limit : κ) :
    (s.enter limit).Unchallenged := by
  unfold Search.enter
  split
  · next hroot =>
    have hnil : s.frames = [] := List.isEmpty_iff.mp hroot.1
    have hself : s.withFrames [] = s := by
      rw [← hnil]
      rfl
    rw [← hself]
    exact descend_unchallenged (.root hs.settled) hs.conflicts
  · exact ⟨hs, by simp⟩

end Turns

section Runs

variable [TerminationCondition κ] {r s t : Search G σ τ} {limit limit' : κ}

/-- Whatever the selectors answer, a step from a grounded state is not challenged. -/
theorem Grounded.step (h : s.Grounded) (limit : κ) : (s.step limit).Unchallenged := by
  have habove := h.above
  rcases hf : s.frames with _ | ⟨⟨x, untried, checkpoint⟩, below⟩
  · simp only [Search.step, hf]
    exact ⟨h.unchallenged, fun _ => hf⟩
  rw [hf] at habove
  obtain rfl : checkpoint = s.store.checkpoint := h.top ⟨x, untried, checkpoint⟩ (by simp [hf])
  rcases untried with _ | ⟨c, rest⟩
  · cases below with
    | nil =>
      simp only [Search.step, hf, backtrack, unwind, abandon, note]
      exact ⟨⟨habove.settled, h.conflicts⟩, fun _ => rfl⟩
    | cons g below =>
      obtain ⟨u, hu, hbelow, hg, hcounters⟩ := retract_above (s := s.abandon x) habove (g :: below)
      rw [step_of_spent hf]
      simp only [afterRetract, hu]
      refine ⟨by simpa [withFrames] using hg, hbelow, ?_⟩
      exact (congrArg SearchCounters.neighbourConflicts hcounters).trans h.conflicts
  · rcases hl : TerminationCondition.shouldStop limit with ⟨_ | _, limit₁⟩
    · rw [step_of_untried hf hl]
      exact tryColour_unchallenged habove h.conflicts
    · simp only [Search.step, hf, hl]
      exact ⟨⟨habove.settled, h.conflicts⟩, by simp⟩

private theorem Grounded.explore (h : s.Grounded) (limit : κ) :
    (s.explore limit).2.1.Unchallenged := by
  fun_induction Search.explore s limit with
  | case1 s limit result t limit' hs =>
    have hstep := h.step limit
    rw [hs] at hstep
    exact hstep.1
  | case2 s limit t limit' hs ih =>
    have hstep := h.step limit
    rw [hs] at hstep
    exact ih hstep

theorem AtHead.grounded (h : AtHead r limit s limit') (hr : r.Unchallenged) : s.Grounded := by
  induction h with
  | entered hs => exact (hr.enter limit).comesTo hs
  | stepped _ hs ih => exact (ih.step _).comesTo hs

private theorem finish_unchallenged {turn : Turn G σ τ κ} (h : turn.Unchallenged) :
    turn.finish.2.1.Unchallenged := by
  cases turn with
  | again t limit => exact Grounded.explore h limit
  | done => exact h.1

theorem isIdle_of_run {outcome : Outcome} (ho : (s.run limit).1 = .ok outcome) : s.IsIdle := by
  by_cases hroot : s.frames.isEmpty ∧ s.assignment.numAssigned = 0
  · exact ⟨List.isEmpty_iff.mp hroot.1, Assignment.numAssigned_eq_zero.mp hroot.2⟩
  · rw [run_eq, Search.enter, if_neg hroot] at ho
    cases ho

/-- However a search ends, it was not challenged. -/
theorem Unchallenged.run (hs : s.Unchallenged) (limit : κ) : (s.run limit).2.1.Unchallenged := by
  have hend := finish_unchallenged (hs.enter limit)
  rcases hresult : (s.run limit).1 with fault | outcome
  · rw [run_eq] at hresult ⊢
    rw [leave_faulted hresult]
    exact hend
  · refine ⟨?_, ?_⟩
    · obtain ⟨t, -, ht⟩ := run_ok (isIdle_of_run hresult) hresult
      rw [ht]
      exact hs.settled
    · rw [run_eq, leave_counters]
      exact hend.conflicts

end Runs

/-- What a search with `k` colours and the given selectors can come to: it was made, no
propagation at the root emptied a domain, and any searches followed, even ones that broke a
rule. -/
inductive InUse (k : Nat) (v : σ) (w : τ) : Search G σ τ → Prop
  | start : InUse k v w (start G k v w)
  | propagated {s : Search G σ τ} (h : InUse k v w s) (hp : s.propagateRoot.1 = true) :
    InUse k v w s.propagateRoot.2
  | searched {s : Search G σ τ} {κ : Type} [TerminationCondition κ] (h : InUse k v w s)
    (limit : κ) : InUse k v w (s.run limit).2.1
  | noted {s : Search G σ τ} (h : InUse k v w s) (e : Event) : InUse k v w (s.note e)
  | logTaken {s : Search G σ τ} (h : InUse k v w s) : InUse k v w s.takeLog.2
  | charged {s : Search G σ τ} (h : InUse k v w s) (milliseconds : Nat) :
    InUse k v w (s.charge milliseconds)

theorem InUse.unchallenged {k : Nat} {v : σ} {w : τ} {s : Search G σ τ} (hk : 1 ≤ k)
    (h : InUse k v w s) : s.Unchallenged := by
  induction h with
  | start =>
    refine ⟨⟨fun i => ⟨1, by simp [view, Search.start, hk]⟩, fun i c hi => ?_⟩, rfl⟩
    rw [view, Search.start, Assignment.value_empty] at hi
    cases hi
  | propagated _ hp ih => exact ih.propagateRoot hp
  | searched _ limit ih => exact ih.run limit
  | noted _ _ ih | logTaken _ ih | charged _ _ ih => exact ⟨ih.settled, ih.conflicts⟩

end Search

end Chromatic
