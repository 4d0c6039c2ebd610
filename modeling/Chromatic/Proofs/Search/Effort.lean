import Chromatic.Proofs.Search.Stack
import Mathlib.Algebra.BigOperators.Ring.Finset
/-!
# The most work that a search can do

A search goes through a tree with a level for each variable and a branch for each colour. It makes
at most one decision for a branch, and gives up a variable at most once for a node. Every step
after which it goes on does one or the other, so there are no more steps than that.
-/

namespace Chromatic

/-- The number of nodes on the first levels of a tree with `k` branches at every node. -/
def numNodes (k levels : Nat) : Nat := ∑ i ∈ Finset.range levels, k ^ i

private theorem numNodes_succ (k levels : Nat) :
    numNodes k (levels + 1) = 1 + k * numNodes k levels := by
  rw [numNodes, Finset.sum_range_succ', Nat.add_comm, pow_zero, numNodes, Finset.mul_sum]
  simp only [pow_succ']

private theorem mul_numNodes (k levels : Nat) :
    k * numNodes k levels = ∑ i ∈ Finset.range levels, k ^ (i + 1) := by
  rw [numNodes, Finset.mul_sum]
  simp only [pow_succ']

private theorem View.Bounded.length_le {G : Graph} {k : Nat} {v : View G} (h : v.Bounded k)
    (i : Fin G.order) : (v.store.domain i).values.length ≤ k := by
  have hsub : (v.store.domain i).values ⊆ (Domain.full k).values := by
    intro c hc
    have hfull := h.reduction.mem_domain hc
    rwa [Store.domain_full] at hfull
  have hnodup : (v.store.domain i).values.Nodup :=
    (v.store.domain i).ascending.imp fun hlt => ne_of_lt hlt
  simpa [Domain.full] using (hnodup.subperm hsub).length_le

namespace Search

variable {G : Graph} {σ τ κ : Type} {k m d b d' b' : Nat} {s t u : Search G σ τ}
  {i : Fin G.order} {x : VariableId} {c : Colour}

/-- At most so many decisions were made between two states, and so many variables given up. -/
structure Spends (d b : Nat) (s t : Search G σ τ) : Prop where
  decisions : t.counters.decisions ≤ s.counters.decisions + d
  backtracks : t.counters.backtracks ≤ s.counters.backtracks + b

namespace Spends

private theorem trans (h : Spends d b s t) (h' : Spends d' b' t u) :
    Spends (d + d') (b + b') s u where
  decisions := by
    have hs := h.decisions
    have ht := h'.decisions
    omega
  backtracks := by
    have hs := h.backtracks
    have ht := h'.backtracks
    omega

private theorem mono (h : Spends d b s t) (hd : d ≤ d') (hb : b ≤ b') : Spends d' b' s t where
  decisions := Nat.le_trans h.decisions (Nat.add_le_add_left hd _)
  backtracks := Nat.le_trans h.backtracks (Nat.add_le_add_left hb _)

private theorem attempt {r : Option Failure} (h : s.attempt x c = (.ok r, t)) : Spends 1 0 s t where
  decisions := Nat.le_of_eq (attempt_counters h).1
  backtracks := Nat.le_of_eq (attempt_counters h).2

private theorem choose [VariableSelector σ] [ValueSelector τ]
    {choice : Except Fault (Option (VariableId × List Colour))} (h : s.choose = (choice, t)) :
    Spends 0 0 s t := by
  have hcounters := choose_counters h
  exact ⟨by simp [hcounters], by simp [hcounters]⟩

private theorem rewindTo (h : Spends d b s t) (r : Search G σ τ) : Spends d b s (t.rewindTo r) :=
  ⟨h.decisions, h.backtracks⟩

private theorem tree {colours : Nat}
    (h : Spends (colours * (1 + k * numNodes k m)) (1 + colours * numNodes k m) s t)
    (hk : colours ≤ k) : Spends (k * numNodes k (m + 1)) (numNodes k (m + 1)) s t := by
  rw [numNodes_succ]
  apply h.mono
  · exact Nat.mul_le_mul_right _ hk
  · exact Nat.add_le_add_left (Nat.mul_le_mul_right _ hk) 1

private theorem cons {colours : Nat} (h : Spends (1 + k * numNodes k m) (numNodes k m) s t)
    (h' : Spends (colours * (1 + k * numNodes k m)) (1 + colours * numNodes k m) t u) :
    Spends ((colours + 1) * (1 + k * numNodes k m)) (1 + (colours + 1) * numNodes k m) s u := by
  apply (h.trans h').mono
  · rw [Nat.succ_mul]
    omega
  · rw [Nat.succ_mul]
    omega

private theorem cons_end {colours : Nat} (h : Spends (1 + k * numNodes k m) (numNodes k m) s t) :
    Spends ((colours + 1) * (1 + k * numNodes k m)) (1 + (colours + 1) * numNodes k m) s t := by
  apply h.mono
  · rw [Nat.succ_mul]
    omega
  · rw [Nat.succ_mul]
    omega

end Spends

variable [VariableSelector σ] [ValueSelector τ]

private theorem numFree_of_choose {choice : Except Fault (Option (VariableId × List Colour))}
    (h : s.choose = (choice, t)) : t.assignment.numFree = s.assignment.numFree :=
  congrArg Assignment.numFree (choose_kept h).2

/-- The variable selector chooses free variables, the value selector keeps its contract, and all
colours are from one up to `k`. Variables may be left without a colour. -/
structure Guided (k : Nat) (s : Search G σ τ) : Prop where
  chooses : VariableSelector.ChoosesFree G s.variableSelector
  orders : ValueSelector.Lawful G s.valueSelector
  bounded : s.view.Bounded k

namespace Guided

private theorem attempt {r : Option Failure} (hs : Guided k s)
    (ha : s.attempt (.ofFin i) c = (.ok r, t)) (hc : c ∈ s.store.domain i) : Guided k t where
  chooses := by
    rw [(attempt_selectors ha).1]
    exact hs.chooses
  orders := by
    rw [(attempt_selectors ha).2]
    exact hs.orders
  bounded := attempt_bounded ha hc hs.bounded

private theorem rewindTo (ht : Guided k t) (hs : s.view.Bounded k) : Guided k (t.rewindTo s) :=
  ⟨ht.chooses, ht.orders, hs⟩

private theorem choose {choice : Except Fault (Option (VariableId × List Colour))} (hs : Guided k s)
    (hc : s.choose = (choice, t)) : Guided k t := by
  obtain ⟨hsel, hw, -⟩ := choose_asked hs.chooses hs.orders hc
  refine ⟨?_, hw, ?_⟩
  · rw [hsel]
    exact hs.chooses.ask s.view
  · rw [choose_view hc]
    exact hs.bounded

private theorem choose_ne_error {fault : Fault} (hs : Guided k s) :
    s.choose ≠ (.error fault, t) := by
  intro hc
  obtain ⟨-, -, ⟨hend, -⟩ | ⟨_, _, hnext, -⟩⟩ := choose_asked hs.chooses hs.orders hc
  · cases hend
  · cases hnext

private theorem next {colours : List Colour} (hs : Guided k s)
    (hc : s.choose = (.ok (some (x, colours)), t)) :
    ∃ i m, x = .ofFin i ∧ t.assignment.value i = none ∧ s.assignment.numFree = m + 1 ∧
      (∀ c ∈ colours, c ∈ t.store.domain i) ∧ colours.length ≤ k := by
  obtain ⟨-, -, ⟨hend, -⟩ | ⟨i, _, hnext, hi, hperm⟩⟩ := choose_asked hs.chooses hs.orders hc
  · cases hend
  · cases hnext
    have hfree : s.assignment.numFree ≠ 0 := by
      rw [← (choose_kept hc).2]
      exact fun h => Assignment.numFree_eq_zero.mp h i hi
    obtain ⟨m, hm⟩ := Nat.exists_eq_succ_of_ne_zero hfree
    have hlength := (hs.choose hc).bounded.length_le i
    exact ⟨i, m, rfl, hi, hm, fun _ => hperm.mem_iff.mp, hperm.length_eq.trans_le hlength⟩

end Guided

private theorem Spends.branch {r : Option Failure}
    {choice : Except Fault (Option (VariableId × List Colour))} {colours l : Nat}
    {v : Search G σ τ} (ha : s.attempt x c = (.ok r, t))
    (hc : t.choose = (choice, u)) (hs : s.assignment.numFree = m + 1)
    (ht : t.assignment.numFree = l + 1)
    (hb : Spends (colours * (1 + k * numNodes k l)) (1 + colours * numNodes k l) u v)
    (hk : colours ≤ k) : Spends (1 + k * numNodes k m) (numNodes k m) s v := by
  obtain rfl : m = l + 1 := by
    have hfree := (attempt_frame ha).2
    omega
  apply (((attempt ha).trans (choose hc)).trans (hb.tree hk)).mono
  · omega
  · omega

variable [TerminationCondition κ]

/-- Trying the listed colours of a variable above `m` free ones breaks no rule. Each of them costs
one decision and at most a tree of `m` levels, and the variable may be given up in the end. -/
theorem Swept.spends {untried : List Colour} {limit limit' : κ}
    {result : Option (Except Fault Outcome)} (h : Swept s x untried limit result t limit')
    (hx : x = .ofFin i) (hi : s.assignment.value i = none)
    (hu : ∀ c ∈ untried, c ∈ s.store.domain i) (hs : Guided k s)
    (hm : s.assignment.numFree = m + 1) :
    (∀ fault, result ≠ some (.error fault)) ∧ (result = none → Guided k t) ∧
      Spends (untried.length * (1 + k * numNodes k m)) (1 + untried.length * numNodes k m) s t := by
  induction h generalizing i m with
  | abandoned =>
    refine ⟨nofun, fun _ => ⟨hs.chooses, hs.orders, hs.bounded⟩, ?_, ?_⟩
    · exact Nat.le_add_right _ _
    · exact Nat.add_le_add_left (Nat.le_add_right 1 _) _
  | stopped => exact ⟨by simp, by simp, Nat.le_add_right _ _, Nat.le_add_right _ _⟩
  | @faulted s _ _ c _ _ _ _ _ ha =>
    subst hx
    obtain ⟨_, _, hfree⟩ := attempt_free hi c
    rw [hfree] at ha
    cases ha
  | @refuted s _ _ _ _ _ _ _ _ _ _ _ ha _ ih =>
    subst hx
    obtain ⟨hc, hrest⟩ := List.forall_mem_cons.mp hu
    obtain ⟨hok, hend, hspent⟩ := ih rfl hi hrest ((hs.attempt ha hc).rewindTo hs.bounded) hm
    have hone := ((Spends.attempt ha).rewindTo s).mono (Nat.le_add_right 1 (k * numNodes k m))
      (Nat.zero_le (numNodes k m))
    exact ⟨hok, hend, hone.cons hspent⟩
  | misordered _ ha hc =>
    subst hx
    exact absurd hc (hs.attempt ha (hu _ List.mem_cons_self)).choose_ne_error
  | solved _ ha hc =>
    have hone := ((Spends.attempt ha).trans (Spends.choose hc)).mono
      (Nat.le_add_right 1 (k * numNodes k m)) (Nat.zero_le (numNodes k m))
    exact ⟨by simp, by simp, hone.cons_end⟩
  | settled _ ha hc _ ih =>
    subst hx
    have ht := hs.attempt ha (hu _ List.mem_cons_self)
    obtain ⟨j, l, rfl, hj, hl, hcolours, hlength⟩ := ht.next hc
    obtain ⟨hok, -, hspent⟩ := ih rfl hj hcolours (ht.choose hc) ((numFree_of_choose hc).trans hl)
    exact ⟨hok, by simp, (Spends.branch ha hc hm hl hspent hlength).cons_end⟩
  | @defeated s _ _ _ _ _ _ _ _ _ _ _ _ _ _ _ ha hc _ _ ihb ihr =>
    subst hx
    obtain ⟨hcd, hrest⟩ := List.forall_mem_cons.mp hu
    have ht := hs.attempt ha hcd
    obtain ⟨j, l, rfl, hj, hl, hcolours, hlength⟩ := ht.next hc
    obtain ⟨-, hv, hbelow⟩ := ihb rfl hj hcolours (ht.choose hc) ((numFree_of_choose hc).trans hl)
    obtain ⟨hok, hend, hspent⟩ := ihr rfl hi hrest ((hv rfl).rewindTo hs.bounded) hm
    have hbranch := (Spends.branch ha hc hm hl hbelow hlength).rewindTo s
    exact ⟨hok, hend, hbranch.cons hspent⟩

private theorem Guided.spends {colours : List Colour} {limit limit' : κ}
    {result : Option (Except Fault Outcome)} (hs : Guided k s)
    (hc : s.choose = (.ok (some (x, colours)), t)) (hb : Swept t x colours limit result u limit') :
    (∀ fault, result ≠ some (.error fault)) ∧
      Spends (k * numNodes k s.assignment.numFree) (numNodes k s.assignment.numFree) s u := by
  obtain ⟨j, l, rfl, hj, hl, hcolours, hlength⟩ := hs.next hc
  obtain ⟨hok, -, hspent⟩ :=
    hb.spends rfl hj hcolours (hs.choose hc) ((numFree_of_choose hc).trans hl)
  refine ⟨hok, ?_⟩
  rw [hl]
  apply ((Spends.choose hc).trans (hspent.tree hlength)).mono
  · omega
  · omega

private theorem Explored.spends {limit limit' : κ} {result : Except Fault Outcome}
    (h : Explored s limit result t limit') (hs : Guided k s) :
    (∀ fault, result ≠ .error fault) ∧
      Spends (k * numNodes k s.assignment.numFree) (numNodes k s.assignment.numFree) s t := by
  cases h with
  | misordered hc => exact absurd hc hs.choose_ne_error
  | solved hc => exact ⟨by simp, (Spends.choose hc).mono (Nat.zero_le _) (Nat.zero_le _)⟩
  | settled hc hb =>
    obtain ⟨hok, hspent⟩ := hs.spends hc hb
    exact ⟨by simpa using hok, hspent⟩
  | defeated hc hb => exact ⟨by simp, (hs.spends hc hb).2⟩

/-- The decisions and the variables given up so far. -/
def numMoves (s : Search G σ τ) : Nat := s.counters.decisions + s.counters.backtracks

end Search

/-- A search goes on with at least `n` moves, or has ended with at most one less. -/
def Turn.HasMoves {G : Graph} {σ τ κ : Type} (n : Nat) : Turn G σ τ κ → Prop
  | again s _ => n ≤ s.numMoves
  | done _ s _ => n ≤ s.numMoves + 1

namespace Search

section Steps

variable {G : Graph} {σ τ κ : Type} {n : Nat} {s t : Search G σ τ} {limit limit' : κ}

private theorem afterRetract_moves (h : n ≤ s.numMoves) (x : VariableId) (checkpoint : Nat)
    (limit : κ) : (s.afterRetract x checkpoint limit).HasMoves n := by
  unfold afterRetract
  split
  · next hr =>
    obtain ⟨_, _, _, -, -, -, rfl⟩ := retract_eq_ok hr
    exact h
  · exact Nat.le_succ_of_le h

private theorem backtrack_moves (s : Search G σ τ) (top : Frame) (below : List Frame) (limit : κ) :
    (s.backtrack top below limit).HasMoves (s.numMoves + 1) := by
  have hmore : s.numMoves + 1 ≤ (abandon { s with frames := below } top.target).numMoves :=
    Nat.le_refl _
  unfold backtrack unwind
  split
  · exact Nat.le_succ_of_le hmore
  · exact afterRetract_moves hmore _ _ _

variable [VariableSelector σ] [ValueSelector τ]

private theorem descend_moves (h : n ≤ s.numMoves) (limit : κ) : (s.descend limit).HasMoves n := by
  rcases hc : s.choose with ⟨_ | _ | ⟨x, colours⟩, t⟩
  all_goals
    have ht : n ≤ t.numMoves := by
      rw [numMoves, choose_counters hc]
      exact h
    simp only [descend, hc]
  · exact Nat.le_succ_of_le ht
  · exact Nat.le_succ_of_le ht
  · exact ht

private theorem tryColour_moves (s : Search G σ τ) (top : Frame) (c : Colour) (limit : κ) :
    (s.tryColour top c limit).HasMoves (s.numMoves + 1) := by
  rcases ha : s.attempt top.target c with ⟨fault | r, t⟩
  · obtain rfl := attempt_faulted ha
    have hmore : s.numMoves ≤ (s.committed s.assignment).numMoves := by
      simp only [numMoves, committed]
      omega
    simp only [tryColour, ha]
    exact Nat.succ_le_succ hmore
  · obtain ⟨hdecisions, hbacktracks⟩ := attempt_counters ha
    have hmore : s.numMoves + 1 ≤ t.numMoves := by
      simp only [numMoves]
      omega
    cases r with
    | none =>
      simp only [tryColour, ha]
      exact descend_moves hmore limit
    | some cause =>
      simp only [tryColour, ha]
      exact afterRetract_moves hmore _ _ _

private theorem enter_moves (s : Search G σ τ) (limit : κ) :
    (s.enter limit).HasMoves s.numMoves := by
  unfold enter
  split
  · exact descend_moves (Nat.le_refl _) limit
  · exact Nat.le_succ _

variable [TerminationCondition κ]

private theorem step_moves (s : Search G σ τ) (limit : κ) :
    (s.step limit).HasMoves (s.numMoves + 1) := by
  unfold step
  split
  · exact Nat.le_refl _
  · split
    · exact backtrack_moves s _ _ limit
    · dsimp only
      split
      · exact Nat.le_refl _
      · exact tryColour_moves _ _ _ _

private theorem explore_moves (s : Search G σ τ) (limit : κ) :
    s.numMoves ≤ (s.explore limit).2.1.numMoves := by
  fun_induction explore s limit with
  | case1 s limit result t limit' hs =>
    have hstep := step_moves s limit
    rw [hs] at hstep
    exact Nat.le_of_succ_le_succ hstep
  | case2 s limit t limit' hs ih =>
    have hstep := step_moves s limit
    rw [hs] at hstep
    exact Nat.le_trans (Nat.le_of_succ_le hstep) ih

private theorem advance_moves {m : Nat} {turn : Turn G σ τ κ} (hturn : turn.HasMoves m)
    (h : turn.advance n = .again t limit') : m + n ≤ t.numMoves := by
  induction n generalizing m turn with
  | zero =>
    obtain rfl : turn = .again t limit' := h
    exact hturn
  | succ n ih =>
    cases turn with
    | done => cases h
    | again s limit =>
      have hle := ih (step_moves s limit) h
      have hs : m ≤ s.numMoves := hturn
      omega

private theorem advance_done {m : Nat} {turn : Turn G σ τ κ} (hturn : turn.HasMoves m)
    (h : turn.finish.2.1.numMoves < m + n) :
    ∃ result t limit', turn.advance n = .done result t limit' := by
  cases hadvance : turn.advance n with
  | done result t limit' => exact ⟨result, t, limit', rfl⟩
  | again t limit' =>
    have hmoves := advance_moves hturn hadvance
    have hrest := explore_moves t limit'
    rw [← finish_advance n, hadvance, Turn.finish] at h
    omega

end Steps

section Runs

variable {G : Graph} {σ τ κ : Type} [VariableSelector σ] [ValueSelector τ]
  [TerminationCondition κ] {k : Nat} {v : σ} {w : τ} {s : Search G σ τ}

private theorem AtRoot.guided (hs : AtRoot k v w s) (hv : VariableSelector.ChoosesFree G v)
    (hw : ValueSelector.Lawful G w) : Guided k s := by
  obtain ⟨hv', hw'⟩ := hs.selectors
    (P := fun v w => VariableSelector.ChoosesFree G v ∧ ValueSelector.Lawful G w)
    (fun {s t _} hc h => by
      obtain ⟨hsel, hw', -⟩ := choose_asked h.1 h.2 hc
      rw [hsel]
      exact ⟨h.1.ask s.view, hw'⟩) ⟨hv, hw⟩
  exact ⟨hv', hw', hs.bounded⟩

/-- Whatever the limit, a search with `k` colours comes to an end after finitely many steps, by at
most as many decisions as a tree has branches, with a level for each variable and `k` branches at
every node, and by giving up a variable at most once for a node. -/
theorem run_bounded (hs : AtRoot k v w s) (hv : VariableSelector.ChoosesFree G v)
    (hw : ValueSelector.Lawful G w) (limit : κ) :
    (∃ outcome, (s.run limit).1 = .ok outcome) ∧
      (∃ n ≤ ∑ i ∈ Finset.range G.order, k ^ (i + 1) + ∑ i ∈ Finset.range G.order, k ^ i + 1,
        ∃ result t limit', (s.enter limit).advance n = .done result t limit') ∧
      (s.run limit).2.1.counters.decisions ≤
        s.counters.decisions + ∑ i ∈ Finset.range G.order, k ^ (i + 1) ∧
      (s.run limit).2.1.counters.backtracks ≤
        s.counters.backtracks + ∑ i ∈ Finset.range G.order, k ^ i := by
  obtain ⟨result, t, limit', he⟩ := exists_explored s limit
  obtain ⟨hok, hspent⟩ := he.spends (hs.guided hv hw)
  rw [hs.isIdle.assignment, Assignment.numFree_empty, mul_numNodes, numNodes] at hspent
  obtain ⟨outcome, rfl⟩ : ∃ outcome, result = .ok outcome := by
    cases result with
    | ok outcome => exact ⟨outcome, rfl⟩
    | error fault => exact absurd rfl (hok fault)
  have hrun := run_of_explored hs.isIdle he
  refine ⟨⟨outcome, congrArg Prod.fst hrun⟩, ⟨_, Nat.le_refl _, ?_⟩, ?_, ?_⟩
  · apply advance_done (enter_moves s limit)
    obtain ⟨frames, hfinish⟩ := finish_enter hs.isIdle he
    have hdecisions := hspent.decisions
    have hbacktracks := hspent.backtracks
    rw [hfinish]
    simp only [numMoves, withFrames]
    omega
  · rw [hrun]
    exact hspent.decisions
  · rw [hrun]
    exact hspent.backtracks

/-- Three colours for four mutual neighbours, where every branch fails. -/
theorem run_bounded_onFourMutual :
    let s := onFourMutual.propagateRoot.2.run Limit.indefinite
    s.1 = .ok .exhausted ∧ s.2.1.counters.decisions ≤ 120 ∧ s.2.1.counters.backtracks ≤ 40 := by
  intro s
  have hroot : AtRoot 3 FewestColours.standard {} onFourMutual.propagateRoot.2 :=
    .propagated .start
  obtain ⟨-, -, hdecisions, hbacktracks⟩ :=
    run_bounded hroot FewestColours.lawful_standard.choosesFree (LeastConstraining.lawful _)
      Limit.indefinite
  refine ⟨?_, hdecisions.trans (by decide +kernel), hbacktracks.trans (by decide +kernel)⟩
  simp only [s, run_within 40]
  decide +kernel

end Runs

end Search

end Chromatic
