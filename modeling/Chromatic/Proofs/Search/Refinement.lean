import Chromatic.Proofs.Search.Recursion
/-!
# The stack carries out the recursion

A search with a stack of frames, one trail and one assignment for all levels ends exactly as the
recursion does. Each frame remembers the checkpoint of the store at which it was pushed, so what
the recursion takes up again from before a colour is what undoing and unassigning bring back.
-/

namespace Chromatic

variable {G : Graph} {σ τ κ : Type}

def Turn.finish [VariableSelector σ] [ValueSelector τ] [TerminationCondition κ] :
    Turn G σ τ κ → Except Fault Outcome × Search G σ τ × κ
  | again s limit => s.explore limit
  | done result s limit => (result, s, limit)

/-- Takes at most the given number of the remaining steps. -/
def Turn.advance [VariableSelector σ] [ValueSelector τ] [TerminationCondition κ] :
    Nat → Turn G σ τ κ → Turn G σ τ κ
  | 0, turn => turn
  | _ + 1, done result s limit => done result s limit
  | n + 1, again s limit => (s.step limit).advance n

namespace Search

def withFrames (s : Search G σ τ) (frames : List Frame) : Search G σ τ := { s with frames }

section Operations

variable (s : Search G σ τ) (frames : List Frame)

private theorem narrow_withFrames (i : Fin G.order) (c : Colour) :
    (s.withFrames frames).narrow i c =
      ((s.narrow i c).1, (s.narrow i c).2.withFrames frames) := by
  simp only [narrow, absorb, withFrames]
  rcases s.store.keepOnly i c with ⟨_ | _, store⟩
  · rfl
  · dsimp only
    cases (G.propagateFrom store s.propagation i).emptiedBy with
    | some => rfl
    | none =>
      dsimp only
      cases (G.neighbours i).find? fun j => decide (s.assignment.value j = some c) with
      | none => rfl
      | some => rfl

theorem attempt_withFrames (x : VariableId) (c : Colour) :
    (s.withFrames frames).attempt x c =
      ((s.attempt x c).1, (s.attempt x c).2.withFrames frames) :=
  attempt_commutes (φ := fun s => s.withFrames frames) (fun _ => rfl) (fun _ _ => rfl)
    (fun s i c => narrow_withFrames s frames i c) (fun _ _ => rfl) s x c

private theorem choose_withFrames [VariableSelector σ] [ValueSelector τ] :
    (s.withFrames frames).choose = (s.choose.1, s.choose.2.withFrames frames) := by
  simp only [choose, withFrames, view]
  rcases VariableSelector.select ⟨s.store, s.assignment⟩ s.variableSelector with ⟨_ | x, st⟩
  · rfl
  · simp only
    cases ValueSelector.order ⟨s.store, s.assignment⟩ x s.valueSelector with
    | error => rfl
    | ok => rfl

@[simp] theorem withFrames_self : s.withFrames s.frames = s := rfl

end Operations

private theorem retract_branch {s t u : Search G σ τ} {x : VariableId} {c : Colour}
    {r : Option Failure} (ha : s.attempt x c = (.ok r, t))
    (hu : Store.Reduction s.store u.store) (hua : u.assignment = t.assignment)
    (frames : List Frame) :
    (u.withFrames frames).retract x s.store.checkpoint =
      .ok ((u.rewindTo s).withFrames frames) := by
  obtain ⟨i, rfl, hi⟩ := attempt_ok ha
  simp only [retract, withFrames, hu.undoTo, hua, VariableId.locate_ofFin,
    Assignment.unassign_of_assign hi, bind, Except.bind, pure, Except.pure]
  rfl

/-- No variable is chosen and none has a colour. -/
structure IsIdle (s : Search G σ τ) : Prop where
  frames : s.frames = []
  assignment : s.assignment = .empty G.order

/-- What a search leaves behind: its domains and its assignment are those it began with. -/
def concluded (t s : Search G σ τ) : Search G σ τ :=
  ((t.rewindTo s).withFrames []).note
    (.finished t.counters.decisions t.counters.backtracks)

private theorem leave_ok {s t : Search G σ τ} (hs : s.IsIdle) (hr : Store.Reduction s.store t.store)
    (frames : List Frame) (outcome : Outcome) :
    (t.withFrames frames).leave s.store.checkpoint (.ok outcome) =
      (.ok outcome, t.concluded s) := by
  simp only [leave, withFrames, hr.undoTo, concluded, rewindTo, hs.assignment]

theorem enter_of_isIdle [VariableSelector σ] [ValueSelector τ]
    {s : Search G σ τ} (hs : s.IsIdle) (limit : κ) :
    s.enter limit = (s.withFrames []).descend limit := by
  have hn := Assignment.numAssigned_eq_zero.mpr hs.assignment
  rw [enter, if_pos ⟨by simp [hs.frames], hn⟩, ← hs.frames, withFrames_self]

section Turns

variable [VariableSelector σ] [ValueSelector τ] {s t u : Search G σ τ} {x : VariableId}
  {c : Colour} {rest : List Colour} {checkpoint : Nat} {frames : List Frame} {limit : κ}

theorem tryColour_refused {fault : Fault} (ha : s.attempt x c = (.error fault, t)) :
    (s.withFrames frames).tryColour ⟨x, rest, checkpoint⟩ c limit =
      .done (.error fault) (t.withFrames frames) limit := by
  simp only [tryColour, attempt_withFrames, ha]

theorem tryColour_failed {cause : Failure} (ha : s.attempt x c = (.ok (some cause), t)) :
    (s.withFrames frames).tryColour ⟨x, rest, s.store.checkpoint⟩ c limit =
      .again ((t.rewindTo s).withFrames frames) limit := by
  have hu := retract_branch ha (attempt_reduction ha) rfl frames
  simp only [tryColour, attempt_withFrames, ha, afterRetract, hu]

theorem tryColour_held (ha : s.attempt x c = (.ok none, t)) :
    (s.withFrames frames).tryColour ⟨x, rest, checkpoint⟩ c limit =
      (t.withFrames frames).descend limit := by
  simp only [tryColour, attempt_withFrames, ha]

theorem descend_faulted {fault : Fault} (hc : t.choose = (.error fault, u)) :
    (t.withFrames frames).descend limit =
      .done (.error fault) (u.withFrames frames) limit := by
  simp only [descend, choose_withFrames, hc]

theorem descend_solved (hc : t.choose = (.ok none, u)) :
    (t.withFrames frames).descend limit =
      .done (.ok (.solved u.solution)) (u.withFrames frames) limit := by
  simp only [descend, choose_withFrames, hc]
  rfl

theorem descend_pushed {y : VariableId} {colours : List Colour}
    (hc : t.choose = (.ok (some (y, colours)), u)) :
    (t.withFrames frames).descend limit =
      .again (u.withFrames (⟨y, colours, u.store.checkpoint⟩ :: frames)) limit := by
  simp only [descend, choose_withFrames, hc]
  rfl

end Turns

section Simulation

variable [VariableSelector σ] [ValueSelector τ] [TerminationCondition κ]

private theorem explore_eq_finish (s : Search G σ τ) (limit : κ) :
    s.explore limit = (s.step limit).finish := by
  rw [explore_eq]
  cases s.step limit <;> rfl

theorem finish_advance (n : Nat) (turn : Turn G σ τ κ) :
    (turn.advance n).finish = turn.finish := by
  induction n generalizing turn with
  | zero => rfl
  | succ n ih =>
    cases turn with
    | done => rfl
    | again s limit =>
      rw [Turn.advance, ih, Turn.finish, explore_eq_finish]

private theorem explore_cons {s : Search G σ τ} {x : VariableId} {c : Colour} {rest : List Colour}
    {checkpoint : Nat} {below : List Frame} {limit limit₁ : κ}
    (hl : TerminationCondition.shouldStop limit = (false, limit₁)) :
    (s.withFrames (⟨x, c :: rest, checkpoint⟩ :: below)).explore limit =
      ((s.withFrames (⟨x, rest, checkpoint⟩ :: below)).tryColour ⟨x, rest, checkpoint⟩ c
        (TerminationCondition.decisionMade limit₁)).finish := by
  rw [explore_eq_finish]
  simp only [step, withFrames, hl]

/-- What the recursion comes to, and what the machine comes to from the frames below. -/
def Arrives (result : Option (Except Fault Outcome)) (t : Search G σ τ) (limit : κ)
    (below : List Frame) (actual : Except Fault Outcome × Search G σ τ × κ) : Prop :=
  match result with
  | some result => ∃ frames, actual = (result, t.withFrames frames, limit)
  | none => actual = ((t.withFrames below).unwind limit).finish

/-- The machine with a frame on top arrives where the recursion over the colours of the frame
does. The stack below is any, as the recursion goes down under every frame. -/
theorem Swept.arrives {s t : Search G σ τ} {x : VariableId} {untried : List Colour}
    {limit limit' : κ} {result : Option (Except Fault Outcome)}
    (h : Swept s x untried limit result t limit') (below : List Frame) :
    Arrives result t limit' below
      ((s.withFrames (⟨x, untried, s.store.checkpoint⟩ :: below)).explore limit) := by
  induction h generalizing below with
  | abandoned =>
    rw [explore_eq_finish]
    rfl
  | @stopped s x c rest limit limit₁ hl =>
    refine ⟨⟨x, rest, s.store.checkpoint⟩ :: below, ?_⟩
    rw [explore_eq_finish]
    simp only [step, withFrames, hl]
    rfl
  | faulted hl ha =>
    rw [explore_cons hl, tryColour_refused ha]
    exact ⟨_, rfl⟩
  | refuted hl ha hr ih =>
    rw [explore_cons hl, tryColour_failed ha]
    exact ih below
  | misordered hl ha hc =>
    rw [explore_cons hl, tryColour_held ha, descend_faulted hc]
    exact ⟨_, rfl⟩
  | solved hl ha hc =>
    rw [explore_cons hl, tryColour_held ha, descend_solved hc]
    exact ⟨_, rfl⟩
  | settled hl ha hc hb ih =>
    rw [explore_cons hl, tryColour_held ha, descend_pushed hc]
    exact ih _
  | @defeated s t u v w x y c rest colours limit limit₁ limit₂ limit₃ result hl ha hc hb hr
      ihb ihr =>
    have hu := (branch_reduction ha hc).trans hb.reduction
    have hua := hb.of_none.2.trans (choose_kept hc).2
    rw [explore_cons hl, tryColour_held ha, descend_pushed hc, Turn.finish,
      ihb (⟨x, rest, s.store.checkpoint⟩ :: below), unwind]
    simp only [withFrames, afterRetract]
    have hb' := retract_branch ha hu hua (⟨x, rest, s.store.checkpoint⟩ :: below)
    simp only [withFrames] at hb'
    rw [hb']
    exact ihr below

theorem run_eq (s : Search G σ τ) (limit : κ) :
    s.run limit =
      (((s.enter limit).finish.2.1.leave s.store.checkpoint (s.enter limit).finish.1).1,
        ((s.enter limit).finish.2.1.leave s.store.checkpoint (s.enter limit).finish.1).2,
        (s.enter limit).finish.2.2) := by
  unfold run
  cases s.enter limit <;> rfl

theorem run_within (n : Nat) (s : Search G σ τ) (limit : κ) :
    s.run limit =
      let (result, t, limit) := ((s.enter limit).advance n).finish
      ((t.leave s.store.checkpoint result).1, (t.leave s.store.checkpoint result).2, limit) := by
  rw [finish_advance, run_eq]

theorem finish_enter {s t : Search G σ τ} (hs : s.IsIdle) {limit limit' : κ}
    {result : Except Fault Outcome} (h : Explored s limit result t limit') :
    ∃ frames, (s.enter limit).finish = (result, t.withFrames frames, limit') := by
  rw [enter_of_isIdle hs]
  cases h with
  | misordered hc =>
    rw [descend_faulted hc]
    exact ⟨_, rfl⟩
  | solved hc =>
    rw [descend_solved hc]
    exact ⟨_, rfl⟩
  | settled hc hb =>
    rw [descend_pushed hc]
    exact hb.arrives []
  | defeated hc hb =>
    rw [descend_pushed hc]
    exact ⟨[], hb.arrives []⟩

theorem run_of_explored {s t : Search G σ τ} (hs : s.IsIdle) {limit limit' : κ}
    {outcome : Outcome} (h : Explored s limit (.ok outcome) t limit') :
    s.run limit = (.ok outcome, t.concluded s, limit') := by
  obtain ⟨frames, he⟩ := finish_enter hs h
  rw [run_eq, he, leave_ok hs h.reduction]

/-- A search from an idle state ends as the recursion does, and unless a rule was broken it
brings back the state in which it began. -/
theorem run_explored {s : Search G σ τ} (hs : s.IsIdle) (limit : κ) :
    ∃ result t limit', Explored s limit result t limit' ∧ (s.run limit).1 = result ∧
      (s.run limit).2.2 = limit' ∧ (result.isOk → (s.run limit).2.1 = t.concluded s) := by
  obtain ⟨result, t, limit', h⟩ := exists_explored s limit
  refine ⟨result, t, limit', h, ?_⟩
  cases result with
  | error =>
    obtain ⟨frames, he⟩ := finish_enter hs h
    rw [run_eq, he]
    exact ⟨rfl, rfl, nofun⟩
  | ok outcome =>
    rw [run_of_explored hs h]
    exact ⟨rfl, rfl, fun _ => rfl⟩

theorem run_ok {s : Search G σ τ} (hs : s.IsIdle) {limit : κ} {outcome : Outcome}
    (ho : (s.run limit).1 = .ok outcome) :
    ∃ t, Explored s limit (.ok outcome) t (s.run limit).2.2 ∧
      (s.run limit).2.1 = t.concluded s := by
  obtain ⟨result, t, limit', he, hr, hl, ht⟩ := run_explored hs limit
  rw [ho] at hr
  subst hr hl
  exact ⟨t, he, ht rfl⟩

end Simulation

end Search

end Chromatic
