import Chromatic.Proofs.Search.Stack
/-!
# Searches in which every colour holds

Some properties of views promise that the next colour holds, whichever free variable and whichever
colour of its domain is chosen, and are kept by giving it. From such a view a search goes straight
down to a solution.
-/

namespace Chromatic

namespace Search

variable {G : Graph} {σ τ κ : Type} {k : Nat} {s t u : Search G σ τ} {i : Fin G.order}
  {c : Colour} {P : View G → Prop}

theorem attempt_log {x : VariableId} (h : s.attempt x c = (.ok none, t)) : t.log = s.log := by
  obtain ⟨i, rfl, ha, hk, he, -, hn⟩ := attempt_held h
  rw [attempt_of_holds ha hk he hn] at h
  exact (congrArg log (Prod.mk.inj h).2).symm

/-- No domain is empty, and every colour of the domain of a free variable can be given to it, which
keeps the property. -/
structure Unfailing (σ τ : Type) (P : View G → Prop) : Prop where
  live : ∀ v, P v → v.store.Live
  holds : ∀ (s : Search G σ τ) (i : Fin G.order) (c : Colour), P s.view →
    s.assignment.value i = none → c ∈ s.store.domain i →
      ∃ t, s.attempt (.ofFin i) c = (.ok none, t) ∧ P t.view

section Choice

variable [VariableSelector σ] [ValueSelector τ]
  {choice : Except Fault (Option (VariableId × List Colour))}

theorem choose_log (hc : s.choose = (choice, t)) : t.log = s.log := by
  have h : s.choose.2.log = s.log := by
    unfold choose
    dsimp only
    split
    · rfl
    · split <;> rfl
  rwa [hc] at h

private theorem Disciplined.numFree_eq_zero (hs : Disciplined k s) (hc : s.choose = (.ok none, t)) :
    s.assignment.numFree = 0 := by
  apply Assignment.numFree_eq_zero.mpr
  rw [← (choose_kept hc).2]
  exact hs.complete hc

private theorem Unfailing.next {x : VariableId} {colours : List Colour} (hP : Unfailing σ τ P)
    (h : P s.view) (hs : Disciplined k s) (hc : s.choose = (.ok (some (x, colours)), t)) :
    ∃ i d below, x = .ofFin i ∧ colours = d :: below ∧ t.assignment.value i = none ∧
      d ∈ t.store.domain i := by
  obtain ⟨i, rfl, hi, hcolours⟩ := hs.next hc
  rw [← choose_view hc] at h
  obtain ⟨y, hy⟩ := hP.live _ h i
  cases colours with
  | nil => exact absurd ((hcolours y).mpr hy) List.not_mem_nil
  | cons d below => exact ⟨i, d, below, rfl, rfl, hi, (hcolours d).mp List.mem_cons_self⟩

end Choice

/-- A search that came to a solution by one decision for each variable that was free. It gave up
none of them and reported nothing, so no colour failed. -/
structure Straight (s t : Search G σ τ) : Prop where
  decisions : t.counters.decisions = s.counters.decisions + s.assignment.numFree
  backtracks : t.counters.backtracks = s.counters.backtracks
  log : t.log = s.log

private theorem Straight.after_attempt {x : VariableId} (ha : s.attempt x c = (.ok none, t))
    (h : Straight t u) : Straight s u := by
  obtain ⟨hdecisions, hbacktracks⟩ := attempt_counters ha
  have hfree := (attempt_frame ha).2
  constructor
  · rw [h.decisions, hdecisions]
    omega
  · rw [h.backtracks, hbacktracks]
  · rw [h.log, attempt_log ha]

section Runs

variable [VariableSelector σ] [ValueSelector τ]

private theorem Straight.after_choose {r : Except Fault (Option (VariableId × List Colour))}
    (hc : s.choose = (r, t)) (h : Straight t u) : Straight s u := by
  constructor
  · rw [h.decisions, choose_counters hc, (choose_kept hc).2]
  · rw [h.backtracks, choose_counters hc]
  · rw [h.log, choose_log hc]

private theorem Straight.of_complete {r : Except Fault (Option (VariableId × List Colour))}
    (hfree : s.assignment.numFree = 0) (hc : s.choose = (r, t)) : Straight s t := by
  constructor
  · rw [choose_counters hc, hfree]
    rfl
  · rw [choose_counters hc]
  · exact choose_log hc

/-- The search is about to try a colour of a free variable, in a view with the property. -/
structure Poised (P : View G → Prop) (k : Nat) (s : Search G σ τ) : Prop where
  view : P s.view
  disciplined : Disciplined k s
  top : ∃ i c rest checkpoint below, s.frames = ⟨.ofFin i, c :: rest, checkpoint⟩ :: below ∧
    s.assignment.value i = none ∧ c ∈ s.store.domain i

namespace Unfailing

private theorem descend {frames : List Frame} {limit limit' : κ} (hP : Unfailing σ τ P)
    (h : P s.view) (hs : Disciplined k s)
    (ht : ((s.withFrames frames).descend limit).ComesTo t limit') :
    limit' = limit ∧ Poised P k t := by
  rcases hnext : s.choose with ⟨fault | _ | ⟨x, colours⟩, u⟩
  · exact absurd hnext hs.choose_ne_error
  · rw [descend_solved hnext] at ht
    cases ht
  · obtain ⟨i, c, below, rfl, rfl, hi, hc⟩ := hP.next h hs hnext
    obtain ⟨hchooses, horders, hbounded⟩ := hs.choose hnext
    rw [← choose_view hnext] at h
    rw [descend_pushed hnext] at ht
    cases ht
    exact ⟨rfl, h, ⟨hchooses, horders, hbounded⟩, i, c, below, _, _, rfl, hi, hc⟩

variable [TerminationCondition κ]

/-- The first colour of a variable holds, and the search below it goes straight to a solution. The
recursion is on the number of free variables. -/
theorem swept {s : Search G σ τ} {i : Fin G.order} {c : Colour} {limit : κ}
    (hP : Unfailing σ τ P) (h : P s.view) (hs : Disciplined k s)
    (hi : s.assignment.value i = none) (hc : c ∈ s.store.domain i) (hl : NeverStops limit)
    (rest : List Colour) :
    ∃ sol t limit', Swept s (.ofFin i) (c :: rest) limit (some (.ok (.solved sol))) t limit' ∧
      Straight s t := by
  rcases hstop : TerminationCondition.shouldStop limit with ⟨_ | _, limit₁⟩
  · obtain ⟨t, ha, ht⟩ := hP.holds s i c h hi hc
    have htd := hs.attempt ha hc
    rcases hnext : t.choose with ⟨fault | _ | ⟨x, colours⟩, u⟩
    · exact absurd hnext htd.choose_ne_error
    · have hend : Straight t u := .of_complete (htd.numFree_eq_zero hnext) hnext
      exact ⟨_, u, _, .solved hstop ha hnext, hend.after_attempt ha⟩
    · obtain ⟨j, d, below, rfl, rfl, hj, hd⟩ := hP.next ht htd hnext
      rw [← choose_view hnext] at ht
      obtain ⟨sol, v, limit', hb, hv⟩ :=
        hP.swept ht (htd.choose hnext) hj hd (hl.pass hstop) below
      have hbranch : Straight t v := hv.after_choose hnext
      exact ⟨sol, v, limit', .settled hstop ha hnext hb, hbranch.after_attempt ha⟩
  · exact absurd hstop hl.not_stopped
termination_by s.assignment.numFree
decreasing_by exact numFree_lt ha hnext

private theorem explored {limit : κ} (hP : Unfailing σ τ P) (h : P s.view) (hs : Disciplined k s)
    (hl : NeverStops limit) :
    ∃ sol t limit', Explored s limit (.ok (.solved sol)) t limit' ∧ Straight s t := by
  rcases hnext : s.choose with ⟨fault | _ | ⟨x, colours⟩, u⟩
  · exact absurd hnext hs.choose_ne_error
  · exact ⟨_, u, _, .solved hnext, .of_complete (hs.numFree_eq_zero hnext) hnext⟩
  · obtain ⟨i, c, below, rfl, rfl, hi, hc⟩ := hP.next h hs hnext
    rw [← choose_view hnext] at h
    obtain ⟨sol, t, limit', hb, ht⟩ := hP.swept h (hs.choose hnext) hi hc hl below
    exact ⟨sol, t, limit', .settled hnext hb, ht.after_choose hnext⟩

variable {v : σ} {w : τ} {limit limit' : κ}

/-- A search that nothing stops goes straight to a solution. -/
theorem run (hP : Unfailing σ τ P) (h : P s.view) (hs : AtRoot k v w s)
    (hv : VariableSelector.Lawful G v) (hw : ValueSelector.Lawful G w) (hl : NeverStops limit) :
    ∃ (sol : Solution) (t : Search G σ τ) (limit' : κ),
      s.run limit = (.ok (.solved sol), t.concluded s, limit') ∧
      t.counters.decisions = s.counters.decisions + G.order ∧
        t.counters.backtracks = s.counters.backtracks ∧ t.log = s.log := by
  obtain ⟨sol, t, limit', he, ht⟩ := hP.explored h (hs.disciplined hv hw) hl
  refine ⟨sol, t, limit', run_of_explored hs.isIdle he, ?_, ht.backtracks, ht.log⟩
  rw [ht.decisions, hs.isIdle.assignment, Assignment.numFree_empty]

private theorem step (hP : Unfailing σ τ P) (h : Poised P k s) (hl : NeverStops limit)
    (ht : (s.step limit).ComesTo t limit') : NeverStops limit' ∧ Poised P k t := by
  obtain ⟨i, c, rest, checkpoint, below, hf, hi, hc⟩ := h.top
  obtain ⟨u, ha, hu⟩ := hP.holds s i c h.view hi hc
  rcases hstop : TerminationCondition.shouldStop limit with ⟨_ | _, limit₁⟩
  · rw [step_of_untried hf hstop, tryColour_held ha] at ht
    obtain ⟨rfl, hpoised⟩ := hP.descend hu (h.disciplined.attempt ha hc) ht
    exact ⟨hl.pass hstop, hpoised⟩
  · exact absurd hstop hl.not_stopped

/-- Whenever a search that nothing stops looks at its top frame, it is about to try a colour. The
search never goes back, so its property is that of the view from which it came. -/
theorem atHead (hP : Unfailing σ τ P) (h : P s.view) (hidle : s.IsIdle) (hs : Disciplined k s)
    (hl : NeverStops limit) (ht : AtHead s limit t limit') :
    NeverStops limit' ∧ Poised P k t := by
  induction ht with
  | entered ht =>
    rw [enter_of_isIdle hidle] at ht
    obtain ⟨rfl, hpoised⟩ := hP.descend h hs ht
    exact ⟨hl, hpoised⟩
  | stepped _ hstep ih => exact hP.step ih.2 ih.1 hstep

end Unfailing

end Runs

end Search

end Chromatic
