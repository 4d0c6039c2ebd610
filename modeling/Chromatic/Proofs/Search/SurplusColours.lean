import Chromatic.Proofs.Search.SpareColours
/-!
# Surplus colours change nothing

Once there is a colour for every vertex, more colours change neither what a search finds nor the
work it takes. Two searches that differ in such a number of colours choose the same variables and
try the same colours first. Every colour they try holds, so they never try another one.
-/

namespace Chromatic

namespace Search

variable {G : Graph} {κ : Type} {k l : Nat}
  {s s' t : Search G FewestColours LeastConstraining} {i : Fin G.order} {c : Colour}

/-- The same counters, and the standard selectors. -/
structure SameWork (s t : Search G FewestColours LeastConstraining) : Prop where
  standard : s.variableSelector = .standard
  standard' : t.variableSelector = .standard
  counters : t.counters = s.counters
  propagation : t.propagation = s.propagation

/-- Two searches in the same place, one with `k` and one with `l` colours. -/
structure Twins (k l : Nat) (s t : Search G FewestColours LeastConstraining) : Prop
    extends SameWork s t where
  views : View.Twins k l s.view t.view
  consistent : s.view.Consistent
  consistent' : t.view.Consistent

namespace Twins

private theorem assignment_eq (h : Twins k l s t) :
    t.assignment = s.assignment := h.views.assignment

private theorem solution_eq (h : Twins k l s t) : t.solution = s.solution := by
  rw [solution, solution, h.assignment_eq]

private theorem attempt (h : Twins k l s t) (hk : G.order ≤ k) (hl : G.order ≤ l)
    (hi : s.assignment.value i = none) (hs : c ∈ s.store.domain i) (ht : c ∈ t.store.domain i) :
    ∃ s' t', s.attempt (.ofFin i) c = (.ok none, s') ∧
      t.attempt (.ofFin i) c = (.ok none, t') ∧ Twins k l s' t' := by
  have ha := Assignment.assign_eq_give (c := c) hi
  have ha' : t.assignment.assign i c = .ok (s.assignment.give i c) := by
    rw [h.assignment_eq, ha]
  have hn : ∀ j ∈ G.neighbours i, (s.assignment.give i c).value j ≠ some c := by
    intro j hj hc
    rw [Assignment.value_of_assign ha, if_neg (Graph.ne_of_mem_neighbours hj)] at hc
    exact h.consistent.not_mem hj hc hs
  obtain ⟨he, he', hcounters, hviews⟩ := (h.views.keepOnly ha hs ht hn).propagate s.propagation
    hk hl (fun _ => Graph.isArc_of_mem_arcsInto (i := i))
  have hnarrowed : (t.narrowed i c) =
      G.propagateFrom (t.store.keepOnly i c).2 s.propagation i := by
    rw [narrowed, h.propagation]
  have hattempt := attempt_of_holds ha (Store.keepOnly_of_mem hs) he hn
  have hattempt' := attempt_of_holds ha' (Store.keepOnly_of_mem ht)
    (hnarrowed ▸ he') hn
  refine ⟨_, _, hattempt, hattempt', ⟨⟨h.standard, h.standard', ?_, ?_⟩, ?_,
    attempt_consistent hattempt h.consistent, attempt_consistent hattempt' h.consistent'⟩⟩
  · simp only [committed, h.counters]
  · simp only [hnarrowed]
    exact hcounters
  · simp only [view, hnarrowed]
    exact hviews

private theorem choose (h : Twins k l s t) (hk : G.order ≤ k) (hl : G.order ≤ l) :
    s.choose = (.ok none, s) ∧ t.choose = (.ok none, t) ∨
      ∃ i c rest rest', s.choose = (.ok (some (.ofFin i, c :: rest)), s) ∧
        t.choose = (.ok (some (.ofFin i, c :: rest')), t) ∧ s.assignment.value i = none ∧
        c ∈ s.store.domain i ∧ c ∈ t.store.domain i := by
  rw [choose_standard h.standard, choose_standard h.standard', h.views.mostConstrained]
  cases hm : s.view.mostConstrained with
  | none => exact .inl ⟨rfl, rfl⟩
  | some i =>
    have hi := View.value_of_mostConstrained hm
    obtain ⟨c, rest, rest', hs, ht, hcs, hct⟩ := h.views.leastConstraining hk hl hi
    refine .inr ⟨i, c, rest, rest', ?_, ?_, hi, hcs, hct⟩
    · rw [Option.map_some, hs]
    · rw [Option.map_some, ht]

end Twins

variable [TerminationCondition κ]

/-- The first colour of a variable holds, so whatever other colours there are, the search goes on
below it and ends there. The recursion is on the number of free variables. -/
theorem Twins.swept {s t : Search G FewestColours LeastConstraining} {i : Fin G.order}
    {c : Colour} (h : Twins k l s t) (hk : G.order ≤ k) (hl : G.order ≤ l)
    (hi : s.assignment.value i = none) (hs : c ∈ s.store.domain i) (ht : c ∈ t.store.domain i)
    (rest rest' : List Colour) (limit : κ) :
    ∃ outcome s' t' limit',
      Swept s (.ofFin i) (c :: rest) limit (some (.ok outcome)) s' limit' ∧
        Swept t (.ofFin i) (c :: rest') limit (some (.ok outcome)) t' limit' ∧
          SameWork s' t' := by
  rcases hstop : TerminationCondition.shouldStop limit with ⟨_ | _, limit₁⟩
  · obtain ⟨u, u', ha, ha', h'⟩ := h.attempt hk hl hi hs ht
    rcases h'.choose hk hl with ⟨hc, hc'⟩ | ⟨j, d, below, below', hc, hc', hj, hds, hdt⟩
    · refine ⟨_, _, _, _, .solved hstop ha hc, ?_, h'.toSameWork⟩
      rw [← h'.solution_eq]
      exact .solved hstop ha' hc'
    · obtain ⟨outcome, v, v', limit', hb, hb', hwork⟩ :=
        h'.swept hk hl hj hds hdt below below' (TerminationCondition.decisionMade limit₁)
      exact ⟨outcome, v, v', limit', .settled hstop ha hc hb, .settled hstop ha' hc' hb', hwork⟩
  · exact ⟨_, _, _, _, .stopped hstop, .stopped hstop, h.standard, h.standard', h.counters,
      h.propagation⟩
termination_by s.assignment.numFree
decreasing_by exact numFree_lt ha hc

private theorem Twins.explored (h : Twins k l s t) (hk : G.order ≤ k) (hl : G.order ≤ l)
    (limit : κ) :
    ∃ outcome s' t' limit', Explored s limit (.ok outcome) s' limit' ∧
      Explored t limit (.ok outcome) t' limit' ∧ SameWork s' t' := by
  rcases h.choose hk hl with ⟨hc, hc'⟩ | ⟨i, c, rest, rest', hc, hc', hi, hs, ht⟩
  · refine ⟨_, _, _, _, .solved hc, ?_, h.toSameWork⟩
    rw [← h.solution_eq]
    exact .solved hc'
  · obtain ⟨outcome, s', t', limit', hb, hb', hwork⟩ := h.swept hk hl hi hs ht rest rest' limit
    exact ⟨outcome, s', t', limit', .settled hc hb, .settled hc' hb', hwork⟩

private theorem Twins.run (h : Twins k l s t) (hk : G.order ≤ k) (hl : G.order ≤ l) (hs : s.IsIdle)
    (ht : t.IsIdle) (limit : κ) :
    ∃ outcome s' t' limit', s.run limit = (.ok outcome, s', limit') ∧
      t.run limit = (.ok outcome, t', limit') ∧ Twins k l s' t' ∧ s'.IsIdle ∧ t'.IsIdle := by
  obtain ⟨outcome, u, u', limit', he, he', hwork⟩ := h.explored hk hl limit
  refine ⟨outcome, _, _, limit', run_of_explored hs he, run_of_explored ht he', ?_,
    ⟨rfl, hs.assignment⟩, ⟨rfl, ht.assignment⟩⟩
  exact ⟨⟨hwork.standard, hwork.standard', hwork.counters, hwork.propagation⟩, h.views,
    h.consistent, h.consistent'⟩

/-- What searches with the given limits come to one after the other, with the counters of the
search and of propagation after each. -/
def runs {σ τ : Type} [VariableSelector σ] [ValueSelector τ] (s : Search G σ τ) :
    List κ → List (Except Fault Outcome × SearchCounters × PropagationCounters)
  | [] => []
  | limit :: rest =>
    let (result, t, _) := s.run limit
    (result, t.counters, t.propagation) :: t.runs rest

private theorem Twins.runs (h : Twins k l s t) (hk : G.order ≤ k) (hl : G.order ≤ l) (hs : s.IsIdle)
    (ht : t.IsIdle) (limits : List κ) :
    s.runs limits = t.runs limits ∧ ∀ r ∈ s.runs limits, r.1.isOk := by
  induction limits generalizing s t with
  | nil => exact ⟨rfl, nofun⟩
  | cons limit rest ih =>
    obtain ⟨outcome, s', t', limit', hrun, hrun', h', hs', ht'⟩ := h.run hk hl hs ht limit
    obtain ⟨hrest, hok⟩ := ih h' hs' ht'
    simp only [Search.runs, hrun, hrun']
    refine ⟨?_, List.forall_mem_cons.mpr ⟨rfl, hok⟩⟩
    rw [h'.counters, h'.propagation, hrest]

/-- The search with `k` colours after propagation at the root. -/
def readied (G : Graph) (k : Nat) : Search G FewestColours LeastConstraining :=
  (start G k .standard {}).propagateRoot.2

theorem atRoot_readied (G : Graph) (k : Nat) :
    AtRoot k FewestColours.standard ({} : LeastConstraining) (readied G k) := .propagated .start

private theorem consistent_readied (hk : 1 ≤ k)
    (he : (G.propagateAll (.full G.order k) ⟨0, 0⟩).emptiedBy = none) :
    (readied G k).view.Consistent :=
  Prepared.consistent hk (.propagated .start rfl (propagateRoot_eq_true.mpr he))

private theorem twins_readied (hk : max G.order 1 ≤ k) (hl : max G.order 1 ≤ l) :
    Twins k l (readied G k) (readied G l) := by
  have hroot := atRoot_readied G k
  have hroot' := atRoot_readied G l
  obtain ⟨he, he', hcounters, hviews⟩ := (View.Twins.full G k l).propagate ⟨0, 0⟩
    (by omega) (by omega) (fun _ => Graph.isArc_of_mem_arcs)
  refine ⟨⟨hroot.standard, hroot'.standard, ?_, ?_⟩, ?_, consistent_readied (by omega) he,
    consistent_readied (by omega) he'⟩
  · rw [readied, readied, (propagateRoot_counters _).1, (propagateRoot_counters _).1]
    rfl
  · rw [readied, readied, (propagateRoot_counters _).2, (propagateRoot_counters _).2]
    exact hcounters
  · rw [view, view, hroot.isIdle.assignment, hroot'.isIdle.assignment, readied, readied,
      propagateRoot_store, propagateRoot_store]
    exact hviews

/-- With a colour for every vertex, the number of colours shows neither in what any searches come
to one after the other, whatever their limits, nor in the counters after each; and every one of
them comes to an end. -/
theorem runs_surplus (hk : max G.order 1 ≤ k) (limits : List κ) :
    (readied G k).runs limits = (readied G (max G.order 1)).runs limits ∧
      ∀ r ∈ (readied G k).runs limits, r.1.isOk := by
  apply (twins_readied hk (Nat.le_refl _)).runs
  · omega
  · omega
  · exact (atRoot_readied G k).isIdle
  · exact (atRoot_readied G _).isIdle

/-- On a path of three vertices, one search that may make two decisions and one that may go on. -/
theorem runs_surplus_path :
    (readied (.ofProblem (.ofStatements none [] [(0, 1), (1, 2)])) 7).runs
        [Limit.budget 2, Limit.indefinite] =
      [(.ok .interrupted, ⟨2, 0, 0, 0⟩, ⟨8, 2⟩),
        (.ok (.solved (.ofList [(0, 1), (1, 2), (2, 1)])), ⟨5, 0, 0, 0⟩, ⟨13, 4⟩)] := by
  have hruns := (runs_surplus (G := .ofProblem (.ofStatements none [] [(0, 1), (1, 2)])) (k := 7)
    (by decide +kernel) [Limit.budget 2, Limit.indefinite]).1
  rw [hruns]
  simp only [runs, run_within 12]
  decide +kernel

end Search

end Chromatic
