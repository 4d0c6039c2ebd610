import Chromatic.Proofs.Search.Prepared
/-!
# The invariant of the stack

Every frame on the stack was pushed in a view of its own, and the next view came from this one by
giving a colour to the variable of the frame. Going back to a frame brings back its view, so what
holds of the view of every frame holds again after every retraction.
-/

namespace Chromatic

variable {G : Graph} {σ τ κ : Type}

/-- The frame of a choice made in a view: it is for a free variable, and its colours are colours
of the domain without repetition. -/
structure Frame.Fits (f : Frame) (v : View G) (i : Fin G.order) : Prop where
  target : f.target = .ofFin i
  free : v.assignment.value i = none
  nodup : f.untried.Nodup
  untried : ∀ c ∈ f.untried, c ∈ v.store.domain i
  checkpoint : f.checkpoint = v.store.checkpoint

namespace View

/-- The frames lead from the root to the view, in which the variable of the top frame was
chosen. -/
inductive Stacked : View G → List Frame → Prop
  /-- The bottom frame was dropped. -/
  | drained {v : View G} (ha : v.assignment = .empty G.order) (hv : v.Consistent) : Stacked v []
  | bottom {v : View G} {f : Frame} {i : Fin G.order} (ha : v.assignment = .empty G.order)
    (hv : v.Consistent) (hf : f.Fits v i) : Stacked v [f]
  /-- The variable of the frame below the top has a colour. -/
  | above {u v : View G} {f g : Frame} {below : List Frame} {i j : Fin G.order} {c : Colour}
    (h : Stacked u (g :: below)) (hg : g.Fits u j) (hr : Store.Reduction u.store v.store)
    (ha : u.assignment.assign j c = .ok v.assignment) (hv : v.Consistent) (hf : f.Fits v i) :
    Stacked v (f :: g :: below)

namespace Stacked

variable {v : View G} {f : Frame} {frames below : List Frame}

private theorem consistent (h : Stacked v frames) : v.Consistent := by
  cases h with
  | drained _ hv | bottom _ hv | above _ _ _ _ hv => exact hv

private theorem fits (h : Stacked v (f :: below)) : ∃ i, f.Fits v i := by
  cases h with
  | bottom _ _ hf | above _ _ _ _ _ hf => exact ⟨_, hf⟩

private theorem retry {x : VariableId} {c : Colour} {rest : List Colour} {checkpoint : Nat}
    (h : Stacked v (⟨x, c :: rest, checkpoint⟩ :: below)) :
    Stacked v (⟨x, rest, checkpoint⟩ :: below) := by
  have hfits {i : Fin G.order} (hf : Frame.Fits ⟨x, c :: rest, checkpoint⟩ v i) :
      Frame.Fits ⟨x, rest, checkpoint⟩ v i :=
    ⟨hf.target, hf.free, hf.nodup.of_cons, (List.forall_mem_cons.mp hf.untried).2, hf.checkpoint⟩
  cases h with
  | bottom ha hv hf => exact .bottom ha hv (hfits hf)
  | above h hg hr ha hv hf => exact .above h hg hr ha hv (hfits hf)

private theorem mem_targets_tail (h : Stacked v frames) (x : VariableId) :
    x ∈ frames.tail.map (·.target) ↔ ∃ i, x = .ofFin i ∧ v.assignment.value i ≠ none := by
  induction h with
  | drained ha | bottom ha => simp [ha]
  | @above u v f g below i j c h hg _ ha _ _ ih =>
    have hstep : (∃ i, x = .ofFin i ∧ v.assignment.value i ≠ none) ↔
        x = .ofFin j ∨ ∃ i, x = .ofFin i ∧ u.assignment.value i ≠ none := by
      constructor
      · rintro ⟨p, rfl, hp⟩
        rw [Assignment.value_of_assign ha] at hp
        split at hp
        · next hjp => exact .inl (congrArg VariableId.ofFin hjp.symm)
        · exact .inr ⟨p, rfl, hp⟩
      · rintro (rfl | ⟨p, rfl, hp⟩)
        · exact ⟨j, rfl, by simp [Assignment.value_of_assign ha]⟩
        · refine ⟨p, rfl, ?_⟩
          rw [Assignment.value_of_assign ha]
          split
          · exact nofun
          · exact hp
    rw [hstep, ← ih, List.tail_cons, List.map_cons, List.mem_cons, hg.target, List.tail_cons]

private theorem nodup_targets (h : Stacked v frames) : (frames.map (·.target)).Nodup := by
  induction h with
  | drained => exact List.nodup_nil
  | bottom => exact List.nodup_singleton _
  | @above u v f g below i j c h hg hr ha hv hf ih =>
    refine List.nodup_cons.mpr ⟨fun hmem => ?_, ih⟩
    have htail := mem_targets_tail (.above h hg hr ha hv hf) f.target
    obtain ⟨p, hp, hvalue⟩ := htail.mp hmem
    rw [hf.target] at hp
    obtain rfl := VariableId.ofFin_injective hp
    exact hvalue hf.free

private theorem checkpoint_le (h : Stacked v frames) :
    ∀ f ∈ frames, f.checkpoint ≤ v.store.checkpoint := by
  induction h with
  | drained => exact nofun
  | bottom _ _ hf =>
    intro g hg
    rw [List.mem_singleton.mp hg]
    exact hf.checkpoint.le
  | above _ _ hr _ _ hf ih =>
    refine List.forall_mem_cons.mpr ⟨hf.checkpoint.le, fun g hg => ?_⟩
    exact (ih g hg).trans hr.checkpoint_le

private theorem descending (h : Stacked v frames) :
    frames.Pairwise fun f g => g.checkpoint ≤ f.checkpoint := by
  induction h with
  | drained => exact .nil
  | bottom => exact List.pairwise_singleton _ _
  | above h _ hr _ _ hf ih =>
    refine List.pairwise_cons.mpr ⟨fun g hg => ?_, ih⟩
    rw [hf.checkpoint]
    exact (h.checkpoint_le g hg).trans hr.checkpoint_le

end Stacked

end View

/-- The loop of a search comes round with a state: a step goes on with it, or dropped the bottom
frame, so that the loop comes round once more and finds the stack empty. -/
inductive Turn.ComesTo : Turn G σ τ κ → Search G σ τ → κ → Prop
  | again {s : Search G σ τ} {limit : κ} : ComesTo (.again s limit) s limit
  | drained {s : Search G σ τ} {limit : κ} : ComesTo (.done (.ok .exhausted) s limit) s limit

/-- The number of frames with which a search goes on, and the backtracks so far. -/
def Turn.progress : Turn G σ τ κ → Option (Nat × Nat)
  | again s _ => some (s.frames.length, s.counters.backtracks)
  | done .. => none

namespace Search

section Retraction

variable {s t : Search G σ τ} {x : VariableId} {checkpoint : Nat} {limit limit' : κ}

theorem retract_ok {i : Fin G.order} {store : Store G.order} {a : Assignment G.order}
    (hs : s.store.undoTo checkpoint = .ok store) (hx : x = .ofFin i)
    (ha : s.assignment.unassign i = .ok a) :
    s.retract x checkpoint = .ok { s with store, assignment := a } := by
  simp only [retract, hs, hx, VariableId.locate_ofFin, ha, bind, Except.bind, pure, Except.pure]

private theorem retract_stacked {f g : Frame} {below : List Frame}
    (h : s.view.Stacked (f :: g :: below)) (frames : List Frame) :
    ∃ t : Search G σ τ,
      (s.withFrames frames).retract g.target g.checkpoint = .ok (t.withFrames frames) ∧
        t.view.Stacked (g :: below) ∧ t.variableSelector = s.variableSelector ∧
          t.valueSelector = s.valueSelector := by
  cases h with
  | @above u _ _ _ _ _ j _ h hg hr ha =>
    have hstore : s.store.undoTo g.checkpoint = .ok u.store := by
      rw [hg.checkpoint]
      exact hr.undoTo
    have ha' : s.assignment.unassign j = .ok u.assignment := Assignment.unassign_of_assign ha
    exact ⟨{ s with store := u.store, assignment := u.assignment },
      retract_ok hstore hg.target ha', h, rfl, rfl⟩

private theorem afterRetract_ne_exhausted :
    s.afterRetract x checkpoint limit ≠ .done (.ok .exhausted) t limit' := by
  unfold afterRetract
  split <;> exact nofun

end Retraction

variable [VariableSelector σ] [ValueSelector τ]

/-- The selectors keep their contracts, and the frames lead from the root to the present view. -/
structure WellStacked (s : Search G σ τ) : Prop where
  chooses : VariableSelector.Lawful G s.variableSelector
  orders : ValueSelector.Lawful G s.valueSelector
  stacked : s.view.Stacked s.frames

section Choice

variable {s t u : Search G σ τ} {x y : VariableId} {c : Colour} {rest colours : List Colour}
  {below : List Frame} {checkpoint : Nat} {limit limit' : κ}

private theorem descend_ne_exhausted : s.descend limit ≠ .done (.ok .exhausted) t limit' := by
  unfold descend
  split <;> exact nofun

private theorem choose_fits (hv : VariableSelector.Lawful G s.variableSelector)
    (hw : ValueSelector.Lawful G s.valueSelector)
    (hc : s.choose = (.ok (some (x, colours)), t)) :
    ∃ i, Frame.Fits ⟨x, colours, t.store.checkpoint⟩ t.view i := by
  obtain ⟨-, -, hend | ⟨i, _, hnext, hi, hperm⟩⟩ := choose_lawful hv hw hc
  · cases hend.1
  · cases hnext
    have hn : (t.store.domain i).values.Nodup := (t.store.domain i).ascending.imp Nat.ne_of_lt
    exact ⟨i, rfl, hi, hperm.nodup_iff.mpr hn, fun _ => hperm.mem_iff.mp, rfl⟩

namespace WellStacked

private theorem push (h : s.WellStacked)
    (hf : s.frames = ⟨x, c :: rest, checkpoint⟩ :: below) (ha : s.attempt x c = (.ok none, t))
    (hc : t.choose = (.ok (some (y, colours)), u)) :
    (u.withFrames (⟨y, colours, u.store.checkpoint⟩ ::
      ⟨x, rest, checkpoint⟩ :: below)).WellStacked := by
  have hv : VariableSelector.Lawful G t.variableSelector := by
    rw [(attempt_selectors ha).1]
    exact h.chooses
  have hw : ValueSelector.Lawful G t.valueSelector := by
    rw [(attempt_selectors ha).2]
    exact h.orders
  obtain ⟨hv', hw', -⟩ := choose_lawful hv hw hc
  have hstack := h.stacked
  rw [hf] at hstack
  have hbelow := hstack.retry
  obtain ⟨i, hfits⟩ := hbelow.fits
  obtain ⟨i', hi', hassign⟩ := attempt_ok ha
  have hx : VariableId.ofFin i = .ofFin i' := hfits.target.symm.trans hi'
  obtain rfl := VariableId.ofFin_injective hx
  obtain ⟨j, hnext⟩ := choose_fits hv hw hc
  have hview : u.view = t.view := choose_view hc
  have hred : Store.Reduction s.store u.store := branch_reduction ha hc
  have hu : s.view.assignment.assign i c = .ok u.view.assignment := by
    rw [hview]
    exact hassign
  have hconsistent : u.view.Consistent := by
    rw [hview]
    exact attempt_consistent ha hstack.consistent
  exact ⟨hv', hw', .above hbelow hfits hred hu hconsistent hnext⟩

private theorem enter (hs : s.IsIdle) (hconsistent : s.view.Consistent)
    (hv : VariableSelector.Lawful G s.variableSelector)
    (hw : ValueSelector.Lawful G s.valueSelector) (ht : (s.enter limit).ComesTo t limit') :
    t.WellStacked := by
  rw [enter_of_isIdle hs] at ht
  rcases hc : s.choose with ⟨_ | _ | ⟨y, colours⟩, u⟩
  · rw [descend_faulted hc] at ht
    cases ht
  · rw [descend_solved hc] at ht
    cases ht
  · rw [descend_pushed hc] at ht
    cases ht
    obtain ⟨hv', hw', -⟩ := choose_lawful hv hw hc
    obtain ⟨j, hfits⟩ := choose_fits hv hw hc
    have hassignment : u.view.assignment = .empty G.order := (choose_kept hc).2.trans hs.assignment
    have hview : u.view.Consistent := by
      rw [choose_view hc]
      exact hconsistent
    exact ⟨hv', hw', .bottom hassignment hview hfits⟩

end WellStacked

end Choice

variable [TerminationCondition κ]

/-- The states of a search at the head of its loop. The frame on top is what it looks at next; the
loop ends where there is none, which is the last of these states when every branch failed. -/
inductive AtHead (r : Search G σ τ) (limit : κ) : Search G σ τ → κ → Prop
  | entered {s : Search G σ τ} {limit' : κ} (h : (r.enter limit).ComesTo s limit') :
    AtHead r limit s limit'
  | stepped {s t : Search G σ τ} {limit₁ limit₂ : κ} (h : AtHead r limit s limit₁)
    (hs : (s.step limit₁).ComesTo t limit₂) : AtHead r limit t limit₂

theorem atHead_advance {r : Search G σ τ} {limit : κ} (n : Nat) {turn : Turn G σ τ κ}
    (hturn : ∀ s limit', turn.ComesTo s limit' → AtHead r limit s limit') {t : Search G σ τ}
    {limit' : κ} (h : turn.advance n = .again t limit') : AtHead r limit t limit' := by
  induction n generalizing turn with
  | zero =>
    rw [Turn.advance] at h
    rw [h] at hturn
    exact hturn t limit' .again
  | succ n ih =>
    cases turn with
    | done => cases h
    | again s limit₁ => exact ih (fun _ _ hs => .stepped (hturn s limit₁ .again) hs) h

section Step

variable {s t u : Search G σ τ} {x : VariableId} {c : Colour} {rest : List Colour}
  {below : List Frame} {checkpoint : Nat} {limit limit' : κ}

theorem step_of_untried (hf : s.frames = ⟨x, c :: rest, checkpoint⟩ :: below) {limit₁ : κ}
    (hl : TerminationCondition.shouldStop limit = (false, limit₁)) :
    s.step limit = (s.withFrames (⟨x, rest, checkpoint⟩ :: below)).tryColour
      ⟨x, rest, checkpoint⟩ c (TerminationCondition.decisionMade limit₁) := by
  simp only [step, hf, hl]
  rfl

theorem step_of_spent {g : Frame} (hf : s.frames = ⟨x, [], checkpoint⟩ :: g :: below) :
    s.step limit =
      ((s.abandon x).withFrames (g :: below)).afterRetract g.target g.checkpoint limit := by
  simp only [step, hf]
  rfl

private theorem frames_of_exhausted (h : s.step limit = .done (.ok .exhausted) t limit') :
    t.frames = [] := by
  unfold step at h
  split at h
  · next hf =>
    cases h
    exact hf
  · split at h
    · unfold backtrack unwind at h
      split at h
      · next hf =>
        cases h
        exact hf
      · exact absurd h afterRetract_ne_exhausted
    · dsimp only at h
      split at h
      · cases h
      · unfold tryColour at h
        split at h
        · cases h
        · exact absurd h afterRetract_ne_exhausted
        · exact absurd h descend_ne_exhausted

/-- A search that ends because every branch failed is then at the head of its loop, and no frame is
left. -/
theorem AtHead.exhausted {r : Search G σ τ} {limit₁ : κ} (hs : AtHead r limit s limit₁)
    (h : s.explore limit₁ = (.ok .exhausted, t, limit')) :
    AtHead r limit t limit' ∧ t.frames = [] := by
  fun_induction Search.explore s limit₁ with
  | case1 s limit₁ result u limit₂ hstep =>
    cases h
    have hcomes : (s.step limit₁).ComesTo t limit' := by
      rw [hstep]
      exact .drained
    exact ⟨.stepped hs hcomes, frames_of_exhausted hstep⟩
  | case2 s limit₁ u limit₂ hstep ih =>
    have hcomes : (s.step limit₁).ComesTo u limit₂ := by
      rw [hstep]
      exact .again
    exact ih (.stepped hs hcomes) h

private theorem exists_atHead_exhausted {r : Search G σ τ} (hr : r.IsIdle)
    (h : (r.run limit).1 = .ok .exhausted) :
    ∃ t limit', AtHead r limit t limit' ∧ t.frames = [] := by
  obtain ⟨u, he, -⟩ := run_ok hr h
  obtain ⟨frames, hfinish⟩ := finish_enter hr he
  cases henter : r.enter limit with
  | done =>
    rw [henter, Turn.finish] at hfinish
    cases hfinish
    rw [enter_of_isIdle hr] at henter
    exact absurd henter descend_ne_exhausted
  | again s limit₁ =>
    rw [henter, Turn.finish] at hfinish
    have hs : (r.enter limit).ComesTo s limit₁ := by
      rw [henter]
      exact .again
    exact ⟨_, _, (AtHead.entered hs).exhausted hfinish⟩

namespace WellStacked

private theorem pop {g : Frame} (h : s.WellStacked)
    (hf : s.frames = ⟨x, [], checkpoint⟩ :: g :: below)
    (ht : (s.step limit).ComesTo t limit') : t.WellStacked := by
  have hstack := h.stacked
  rw [hf] at hstack
  obtain ⟨u, hu, hstacked, hv, hw⟩ :=
    retract_stacked (s := s.abandon x) hstack (g :: below)
  rw [step_of_spent hf] at ht
  simp only [afterRetract, hu] at ht
  cases ht
  refine ⟨?_, ?_, hstacked⟩
  · rw [withFrames, hv]
    exact h.chooses
  · rw [withFrames, hw]
    exact h.orders

private theorem refute {cause : Failure} (h : s.WellStacked)
    (hf : s.frames = ⟨x, c :: rest, s.store.checkpoint⟩ :: below)
    (ha : s.attempt x c = (.ok (some cause), t)) :
    ((t.rewindTo s).withFrames (⟨x, rest, s.store.checkpoint⟩ :: below)).WellStacked := by
  have hstack := h.stacked
  rw [hf] at hstack
  refine ⟨?_, ?_, hstack.retry⟩
  · rw [withFrames, rewindTo, (attempt_selectors ha).1]
    exact h.chooses
  · rw [withFrames, rewindTo, (attempt_selectors ha).2]
    exact h.orders

/-- The invariant is kept each time the loop comes round. -/
theorem step (h : s.WellStacked) (ht : (s.step limit).ComesTo t limit') : t.WellStacked := by
  have hstack := h.stacked
  rcases hf : s.frames with _ | ⟨⟨x, untried, checkpoint⟩, below⟩
  · simp only [Search.step, hf] at ht
    cases ht
    exact h
  rw [hf] at hstack
  obtain ⟨i, hfits⟩ := hstack.fits
  obtain rfl : checkpoint = s.store.checkpoint := hfits.checkpoint
  rcases untried with _ | ⟨c, rest⟩
  · cases below with
    | nil =>
      simp only [Search.step, hf, backtrack, unwind, abandon, note] at ht
      cases ht
      refine ⟨h.chooses, h.orders, ?_⟩
      cases hstack with
      | bottom ha hv => exact .drained ha hv
    | cons g below => exact h.pop hf ht
  · rcases hl : TerminationCondition.shouldStop limit with ⟨_ | _, limit₁⟩
    · rw [step_of_untried hf hl] at ht
      rcases ha : s.attempt x c with ⟨_ | _ | cause, u⟩
      · rw [tryColour_refused ha] at ht
        cases ht
      · rw [tryColour_held ha] at ht
        rcases hc : u.choose with ⟨_ | _ | ⟨y, colours⟩, v⟩
        · rw [descend_faulted hc] at ht
          cases ht
        · rw [descend_solved hc] at ht
          cases ht
        · rw [descend_pushed hc] at ht
          cases ht
          exact h.push hf ha hc
      · rw [tryColour_failed ha] at ht
        cases ht
        exact h.refute hf ha
    · simp only [Search.step, hf, hl] at ht
      cases ht

private theorem of_atHead (hs : s.IsIdle) (hconsistent : s.view.Consistent)
    (hv : VariableSelector.Lawful G s.variableSelector)
    (hw : ValueSelector.Lawful G s.valueSelector) (h : AtHead s limit t limit') :
    t.WellStacked := by
  induction h with
  | entered h => exact enter hs hconsistent hv hw h
  | stepped _ hs ih => exact ih.step hs

end WellStacked

end Step

/-- What can be said of the frames, the domains and the assignment of a search at the head of its
loop. The top frame is the first one in the list. -/
structure Orderly (s : Search G σ τ) : Prop where
  distinct : (s.frames.map (·.target)).Nodup
  /-- The variables with a colour are those of all frames but the top one. -/
  assigned : ∀ x, x ∈ s.frames.tail.map (·.target) ↔
    ∃ i, x = .ofFin i ∧ s.assignment.value i ≠ none
  descending : s.frames.Pairwise fun f g => g.checkpoint ≤ f.checkpoint
  within : ∀ f ∈ s.frames, f.checkpoint ≤ s.store.trail.length
  live : ∀ i, ∃ c, c ∈ s.store.domain i
  fixed : ∀ i c, s.assignment.value i = some c → (s.store.domain i).values = [c]
  /-- No vertex has the colour that is the only one left for a neighbour. -/
  arcs : ∀ i, ∀ j ∈ G.neighbours i, ∀ c, (s.store.domain j).values = [c] →
    c ∉ s.store.domain i
  /-- The colours not tried yet are distinct colours of the domain of the top variable. -/
  untried : ∀ f ∈ s.frames.head?, f.untried.Nodup ∧
    ∃ i, f.target = .ofFin i ∧ ∀ c ∈ f.untried, c ∈ s.store.domain i

private theorem WellStacked.orderly {s : Search G σ τ} (h : s.WellStacked) : s.Orderly where
  distinct := h.stacked.nodup_targets
  assigned := h.stacked.mem_targets_tail
  descending := h.stacked.descending
  within := h.stacked.checkpoint_le
  live := h.stacked.consistent.live
  fixed := h.stacked.consistent.fixed
  arcs i j hij := h.stacked.consistent.arcs ⟨i, j⟩ hij
  untried f hf := by
    have hstack := h.stacked
    rcases hframes : s.frames with _ | ⟨g, below⟩
    · rw [hframes] at hf
      cases hf
    · rw [hframes] at hf hstack
      obtain rfl : g = f := Option.some.inj hf
      obtain ⟨i, hfits⟩ := hstack.fits
      exact ⟨hfits.nodup, i, hfits.target, hfits.untried⟩

private theorem Prepared.wellStacked {k : Nat} {r s : Search G FewestColours LeastConstraining}
    (hr : Prepared k FewestColours.standard {} r) (hk : 1 ≤ k) {limit limit' : κ}
    (h : AtHead r limit s limit') : s.WellStacked := by
  obtain ⟨hv, hw, -⟩ := hr.atRoot.disciplined FewestColours.lawful_standard
    (LeastConstraining.lawful _)
  exact .of_atHead hr.atRoot.isIdle (hr.consistent hk) hv hw h

/-- Whenever a search with at least one colour is at the head of its loop, after a propagation at
the root that emptied no domain and after any searches, the frames, the domains and the assignment
are in order. -/
theorem orderly_atHead {k : Nat} (hk : 1 ≤ k) {r s : Search G FewestColours LeastConstraining}
    (hr : Prepared k FewestColours.standard {} r) {limit limit' : κ}
    (h : AtHead r limit s limit') : s.Orderly := by
  have hstacked : s.WellStacked := hr.wellStacked hk h
  exact hstacked.orderly

def onFourMutual : Search (Graph.ofProblem (.ofStatements none []
    [(0, 1), (0, 2), (0, 3), (1, 2), (1, 3), (2, 3)])) FewestColours LeastConstraining :=
  .start _ 3 .standard {}

/-- Five steps into the search for three colours of four mutual neighbours, the first colour of
the first vertex was given up. -/
theorem orderly_atHead_onFourMutual :
    ∃ s limit, AtHead onFourMutual.propagateRoot.2 Limit.indefinite s limit ∧
      s.frames.length = 2 ∧ s.counters.backtracks = 1 ∧ s.Orderly := by
  let turn := (onFourMutual.propagateRoot.2.enter Limit.indefinite).advance 5
  have hp : onFourMutual.propagateRoot.1 = true := by decide +kernel
  have hroot : Prepared 3 FewestColours.standard {} onFourMutual.propagateRoot.2 :=
    .propagated .start rfl hp
  have hprogress : turn.progress = some (2, 1) := by decide +kernel
  rcases hturn : turn with ⟨s, limit⟩ | ⟨_, _, _⟩
  · have hs := atHead_advance 5 (fun _ _ h => .entered h) hturn
    rw [hturn] at hprogress
    obtain ⟨hframes, hbacktracks⟩ := Prod.mk.inj (Option.some.inj hprogress)
    exact ⟨s, limit, hs, hframes, hbacktracks, orderly_atHead (by decide) hroot hs⟩
  · rw [hturn] at hprogress
    cases hprogress

/-- When every branch fails, the head of the loop where such a search ends has an empty stack, and
there the domains and the assignment are in order as well. -/
theorem exhausted_orderly {k : Nat} (hk : 1 ≤ k)
    {r : Search G FewestColours LeastConstraining} (hr : Prepared k FewestColours.standard {} r)
    {limit : κ} (h : (r.run limit).1 = .ok .exhausted) :
    ∃ t limit', AtHead r limit t limit' ∧ t.frames = [] ∧
      t.step limit' = .done (.ok .exhausted) t limit' ∧ t.Orderly := by
  obtain ⟨t, limit', ht, hframes⟩ := exists_atHead_exhausted hr.atRoot.isIdle h
  exact ⟨t, limit', ht, hframes, by simp only [step, hframes], (hr.wellStacked hk ht).orderly⟩

end Search

end Chromatic
