import Chromatic.Proofs.Branching.Alternating
import Chromatic.Proofs.Branching.LeastConstraining
import Chromatic.Proofs.Limit
import Chromatic.Proofs.Search.Proper
/-!
# The search decides colourability

When the selectors keep their contracts and no limit stops the search, it ends with a proper
colouring of every vertex, or there is none. A branch is given up only when no proper colouring
within the domains agrees with the assignment.
-/

namespace Chromatic

/-- A proper colouring within the domains that agrees with the assignment. -/
structure View.Permits {G : Graph} (v : View G) (f : Fin G.order → Colour) : Prop where
  proper : G.IsProper f
  admits : v.store.Admits f
  agrees : ∀ i c, v.assignment.value i = some c → f i = c

/-- The vertices and nothing else have a colour, it is from one up to `k`, and neighbours have
different ones. -/
structure Solution.Colours (s : Solution) (G : Graph) (k : Nat) : Prop where
  labels : ∀ x c, s.colourOf x = some c → ∃ i, G.label i = x
  total : ∀ i, ∃ c, s.colourOf (G.label i) = some c ∧ 1 ≤ c ∧ c ≤ k
  proper : ∀ i, ∀ j ∈ G.neighbours i, s.colourOf (G.label i) ≠ s.colourOf (G.label j)

theorem Solution.Colours.colourable {s : Solution} {G : Graph} {k : Nat}
    (h : s.Colours G k) : G.Colourable k := by
  choose f hf hk using h.total
  refine ⟨f, fun i j hij heq => h.proper i j hij ?_, hk⟩
  rw [hf i, hf j, heq]

namespace Search

variable {G : Graph} {σ τ κ : Type} {k : Nat} {s t : Search G σ τ} {i : Fin G.order}
  {c : Colour} {f : Fin G.order → Colour}

/-- An attempt with the colour that a permitted colouring has holds, and the colouring is still
permitted. -/
theorem attempt_permits {r : Option Failure} (h : s.attempt (.ofFin i) (f i) = (.ok r, t))
    (hf : s.view.Permits f) : r = none ∧ t.view.Permits f := by
  obtain ⟨hk, hkeep⟩ := hf.admits.keepOnly i
  have harcs : ∀ a ∈ G.arcsInto i, G.IsArc a := fun _ => Graph.isArc_of_mem_arcsInto
  cases r with
  | none =>
    refine ⟨rfl, hf.proper, ?_, fun j c hj => ?_⟩
    · obtain ⟨i', hi, -, -, -, ht, -⟩ := attempt_held h
      obtain rfl := VariableId.ofFin_injective hi
      rw [view, ht]
      exact (Graph.admits_propagate harcs hf.proper).mpr hkeep
    · obtain ⟨i', hi, ha⟩ := attempt_ok h
      obtain rfl := VariableId.ofFin_injective hi
      rw [view, Assignment.value_of_assign ha] at hj
      split at hj
      · next hij =>
        cases hj
        rw [hij]
      · exact hf.agrees j c hj
  | some cause =>
    exfalso
    obtain ⟨i', a, hi, ha, hfail⟩ := attempt_failed h
    obtain rfl := VariableId.ofFin_injective hi
    rcases hfail with hno | ⟨-, arc, he⟩ | ⟨-, -, j, hj, hv⟩
    · exact absurd (hk.symm.trans hno) (by decide)
    · exact Graph.not_admits_of_emptied harcs he hf.proper hkeep
    · rw [Assignment.value_of_assign ha, if_neg (Graph.ne_of_mem_neighbours hj)] at hv
      exact hf.proper i j hj (hf.agrees j _ hv).symm

private theorem colours_of_total {sol : Solution} (ht : ∀ i, t.assignment.value i ≠ none)
    (hb : t.view.Bounded k) (hp : t.assignment.IsProper) (hsol : sol = t.solution) :
    sol.Colours G k := by
  subst hsol
  have hvalue : ∀ i, ∃ c, t.assignment.value i = some c := fun i =>
    Option.ne_none_iff_exists'.mp (ht i)
  refine ⟨fun x c hx => ?_, fun i => ?_, fun i j hij heq => ?_⟩
  · obtain ⟨i, hi, -⟩ := t.colourOf_solution.mp hx
    exact ⟨i, hi⟩
  · obtain ⟨c, hc⟩ := hvalue i
    exact ⟨c, t.colourOf_solution_label.mpr hc, hb.values i c hc⟩
  · obtain ⟨c, hc⟩ := hvalue i
    rw [t.colourOf_solution_label.mpr hc] at heq
    exact hp i j hij c hc (t.colourOf_solution_label.mp heq.symm)

variable [VariableSelector σ] [ValueSelector τ] [TerminationCondition κ]

theorem choose_asked {choice : Except Fault (Option (VariableId × List Colour))}
    (hv : VariableSelector.ChoosesFree G s.variableSelector)
    (hw : ValueSelector.Lawful G s.valueSelector) (hc : s.choose = (choice, t)) :
    t.variableSelector = (VariableSelector.select s.view s.variableSelector).2 ∧
      ValueSelector.Lawful G t.valueSelector ∧
      (choice = .ok none ∧ (VariableSelector.select s.view s.variableSelector).1 = none ∨
        ∃ i colours, choice = .ok (some (.ofFin i, colours)) ∧ t.assignment.value i = none ∧
          colours.Perm (t.store.domain i).values) := by
  unfold choose at hc
  rcases hsel : VariableSelector.select s.view s.variableSelector with ⟨_ | x, v⟩
  · simp only [hsel, Prod.mk.injEq] at hc
    obtain ⟨rfl, rfl⟩ := hc
    exact ⟨rfl, hw, .inl ⟨rfl, rfl⟩⟩
  · obtain ⟨i, rfl, hi⟩ := hv.free .refl (congrArg Prod.fst hsel)
    obtain ⟨colours, w, ho, hperm⟩ := hw.lists .refl hi
    have hview : view { s with variableSelector := v } = s.view := rfl
    simp only [hsel, hview, ho, Prod.mk.injEq] at hc
    obtain ⟨rfl, rfl⟩ := hc
    exact ⟨rfl, hw.ask hi ho, .inr ⟨i, colours, rfl, hi, hperm⟩⟩

theorem choose_lawful {choice : Except Fault (Option (VariableId × List Colour))}
    (hv : VariableSelector.Lawful G s.variableSelector)
    (hw : ValueSelector.Lawful G s.valueSelector) (hc : s.choose = (choice, t)) :
    VariableSelector.Lawful G t.variableSelector ∧ ValueSelector.Lawful G t.valueSelector ∧
      (choice = .ok none ∧ (∀ i, t.assignment.value i ≠ none) ∨
        ∃ i colours, choice = .ok (some (.ofFin i, colours)) ∧ t.assignment.value i = none ∧
          colours.Perm (t.store.domain i).values) := by
  obtain ⟨hsel, hw', hnext⟩ := choose_asked hv.choosesFree hw hc
  refine ⟨?_, hw', hnext.imp_left fun ⟨hchoice, hnone⟩ => ⟨hchoice, ?_⟩⟩
  · rw [hsel]
    exact hv.ask s.view
  · rw [(choose_kept hc).2]
    exact hv.complete .refl hnone

/-- The selectors keep their contracts, and all colours are from one up to `k`. -/
structure Disciplined (k : Nat) (s : Search G σ τ) : Prop where
  chooses : VariableSelector.Lawful G s.variableSelector
  orders : ValueSelector.Lawful G s.valueSelector
  bounded : s.view.Bounded k

namespace Disciplined

theorem attempt {r : Option Failure} (hs : Disciplined k s)
    (ha : s.attempt (.ofFin i) c = (.ok r, t)) (hc : c ∈ s.store.domain i) :
    Disciplined k t where
  chooses := by
    rw [(attempt_selectors ha).1]
    exact hs.chooses
  orders := by
    rw [(attempt_selectors ha).2]
    exact hs.orders
  bounded := attempt_bounded ha hc hs.bounded

private theorem rewindTo (ht : Disciplined k t) (hs : s.view.Bounded k) :
    Disciplined k (t.rewindTo s) := ⟨ht.chooses, ht.orders, hs⟩

theorem choose {choice : Except Fault (Option (VariableId × List Colour))}
    (hs : Disciplined k s) (hc : s.choose = (choice, t)) : Disciplined k t := by
  obtain ⟨hv, hw, -⟩ := choose_lawful hs.chooses hs.orders hc
  refine ⟨hv, hw, ?_⟩
  rw [choose_view hc]
  exact hs.bounded

theorem choose_ne_error {fault : Fault} (hs : Disciplined k s) : s.choose ≠ (.error fault, t) := by
  intro hc
  obtain ⟨-, -, hend | ⟨_, _, hnext, -⟩⟩ := choose_lawful hs.chooses hs.orders hc
  · cases hend.1
  · cases hnext

theorem complete (hs : Disciplined k s) (hc : s.choose = (.ok none, t)) (i : Fin G.order) :
    t.assignment.value i ≠ none := by
  obtain ⟨-, -, hend | ⟨_, _, hnext, -⟩⟩ := choose_lawful hs.chooses hs.orders hc
  · exact hend.2 i
  · cases hnext

theorem next {x : VariableId} {colours : List Colour} (hs : Disciplined k s)
    (hc : s.choose = (.ok (some (x, colours)), t)) :
    ∃ i, x = .ofFin i ∧ t.assignment.value i = none ∧
      ∀ c, c ∈ colours ↔ c ∈ t.store.domain i := by
  obtain ⟨-, -, hend | ⟨i, _, hnext, hi, hperm⟩⟩ := choose_lawful hs.chooses hs.orders hc
  · cases hend.1
  · cases hnext
    exact ⟨i, rfl, hi, fun _ => hperm.mem_iff⟩

end Disciplined

/-- Unless it is interrupted, trying colours of a free variable ends with a colour for every
variable, or else no colouring that the state permits uses one of the colours. -/
theorem Swept.settles {x : VariableId} {untried : List Colour} {limit limit' : κ}
    {result : Option (Except Fault Outcome)} (h : Swept s x untried limit result t limit')
    (hx : x = .ofFin i) (hi : s.assignment.value i = none)
    (hu : ∀ c ∈ untried, c ∈ s.store.domain i) (hs : Disciplined k s) :
    (result = none ∧ Disciplined k t ∧ ∀ f, s.view.Permits f → f i ∉ untried) ∨
      (∃ sol, result = some (.ok (.solved sol)) ∧ t.view.Bounded k ∧
        ∀ j, t.assignment.value j ≠ none) ∨ result = some (.ok .interrupted) := by
  induction h generalizing i with
  | abandoned =>
    exact .inl ⟨rfl, ⟨hs.chooses, hs.orders, hs.bounded⟩, fun _ _ => by simp⟩
  | stopped => exact .inr (.inr rfl)
  | @faulted s _ _ c _ _ _ _ hl ha =>
    subst hx
    obtain ⟨_, _, hfree⟩ := attempt_free hi c
    rw [hfree] at ha
    cases ha
  | @refuted s _ _ _ c _ _ _ _ _ _ hl ha _ ih =>
    subst hx
    obtain ⟨hc, hrest⟩ := List.forall_mem_cons.mp hu
    rcases ih rfl hi hrest ((hs.attempt ha hc).rewindTo hs.bounded) with
      ⟨hnone, ht, hno⟩ | hend
    · refine .inl ⟨hnone, ht, fun f hf => ?_⟩
      rw [List.mem_cons, not_or]
      refine ⟨fun hfc => ?_, hno f hf⟩
      subst hfc
      cases (attempt_permits ha hf).1
    · exact .inr hend
  | misordered hl ha hc =>
    subst hx
    exact absurd hc (hs.attempt ha (hu _ List.mem_cons_self)).choose_ne_error
  | solved hl ha hc =>
    subst hx
    have ht := hs.attempt ha (hu _ List.mem_cons_self)
    exact .inr (.inl ⟨_, rfl, (ht.choose hc).bounded, ht.complete hc⟩)
  | settled hl ha hc _ ih =>
    subst hx
    have ht := hs.attempt ha (hu _ List.mem_cons_self)
    obtain ⟨j, rfl, hj, hcolours⟩ := ht.next hc
    rcases ih rfl hj (fun c => (hcolours c).mp) (ht.choose hc) with ⟨hnone, -⟩ | hend
    · cases hnone
    · exact .inr hend
  | @defeated s t u v _ _ y c _ _ _ _ _ _ _ hl ha hc _ _ ihb ihr =>
    subst hx
    obtain ⟨hcd, hrest⟩ := List.forall_mem_cons.mp hu
    have ht := hs.attempt ha hcd
    obtain ⟨j, rfl, hj, hcolours⟩ := ht.next hc
    rcases ihb rfl hj (fun c => (hcolours c).mp) (ht.choose hc) with
      ⟨-, hv, hbelow⟩ | ⟨_, hsol, -⟩ | hstop
    · rcases ihr rfl hi hrest (hv.rewindTo hs.bounded) with ⟨hnone, hw, hno⟩ | hend
      · refine .inl ⟨hnone, hw, fun f hf => ?_⟩
        rw [List.mem_cons, not_or]
        refine ⟨fun hfc => ?_, hno f hf⟩
        -- a permitted colouring with this colour would be permitted in the search below
        subst hfc
        have hpermits : u.view.Permits f := by
          rw [choose_view hc]
          exact (attempt_permits ha hf).2
        exact hbelow f hpermits ((hcolours _).mpr (hpermits.admits j))
      · exact .inr hend
    · cases hsol
    · cases hstop

theorem Disciplined.not_permits {u : Search G σ τ} {x : VariableId} {colours : List Colour}
    {limit limit' : κ} (hs : Disciplined k s) (hc : s.choose = (.ok (some (x, colours)), t))
    (hb : Swept t x colours limit none u limit') (f : Fin G.order → Colour) :
    ¬s.view.Permits f := by
  intro hf
  rw [← choose_view hc] at hf
  obtain ⟨j, rfl, hj, hcolours⟩ := hs.next hc
  rcases hb.settles rfl hj (fun c => (hcolours c).mp) (hs.choose hc) with
    ⟨-, -, hno⟩ | ⟨_, hsol, -⟩ | hstop
  · exact hno f hf ((hcolours _).mpr (hf.admits j))
  · cases hsol
  · cases hstop

private theorem Explored.settles {limit limit' : κ} {result : Except Fault Outcome}
    (h : Explored s limit result t limit') (hs : Disciplined k s) :
    (result = .ok .exhausted ∧ ∀ f, ¬s.view.Permits f) ∨
      (∃ sol, result = .ok (.solved sol) ∧ t.view.Bounded k ∧
        ∀ j, t.assignment.value j ≠ none) ∨ result = .ok .interrupted := by
  cases h with
  | misordered hc => exact absurd hc hs.choose_ne_error
  | solved hc => exact .inr (.inl ⟨_, rfl, (hs.choose hc).bounded, hs.complete hc⟩)
  | settled hc hb =>
    obtain ⟨j, rfl, hj, hcolours⟩ := hs.next hc
    rcases hb.settles rfl hj (fun c => (hcolours c).mp) (hs.choose hc) with
      ⟨hnone, -⟩ | ⟨sol, hsol, ht⟩ | hstop
    · cases hnone
    · exact .inr (.inl ⟨sol, Option.some.inj hsol, ht⟩)
    · exact .inr (.inr (Option.some.inj hstop))
  | defeated hc hb => exact .inl ⟨rfl, hs.not_permits hc hb⟩

variable {v : σ} {w : τ} {limit : κ}

theorem AtRoot.disciplined (hs : AtRoot k v w s) (hv : VariableSelector.Lawful G v)
    (hw : ValueSelector.Lawful G w) : Disciplined k s := by
  obtain ⟨hv', hw'⟩ := hs.selectors
    (P := fun v w => VariableSelector.Lawful G v ∧ ValueSelector.Lawful G w)
    (fun hc h => ⟨(choose_lawful h.1 h.2 hc).1, (choose_lawful h.1 h.2 hc).2.1⟩) ⟨hv, hw⟩
  exact ⟨hv', hw', hs.bounded⟩

private theorem AtRoot.permits (hs : AtRoot k v w s) (hf : G.IsProper f)
    (hk : ∀ i, 1 ≤ f i ∧ f i ≤ k) : s.view.Permits f := by
  refine ⟨hf, hs.admits hf hk, fun i c hi => ?_⟩
  rw [view, hs.isIdle.assignment, Assignment.value_empty] at hi
  cases hi

/-- With selectors that keep their contracts the search ends with a colouring, or there is none,
or it is interrupted. -/
theorem run_settles (hs : AtRoot k v w s) (hv : VariableSelector.Lawful G v)
    (hw : ValueSelector.Lawful G w) (limit : κ) :
    (∃ sol, (s.run limit).1 = .ok (.solved sol) ∧ sol.Colours G k) ∨
      ((s.run limit).1 = .ok .exhausted ∧ ¬G.Colourable k) ∨
        (s.run limit).1 = .ok .interrupted := by
  obtain ⟨result, t, limit', he, hr, -, -⟩ := run_explored hs.isIdle limit
  rw [hr]
  rcases he.settles (hs.disciplined hv hw) with ⟨rfl, hno⟩ | ⟨sol, rfl, hb, ht⟩ | hstop
  · exact .inr (.inl ⟨rfl, fun ⟨f, hf, hk⟩ => hno f (hs.permits hf hk)⟩)
  · obtain ⟨hp, hsol⟩ := he.solved_view (P := fun v => v.assignment.IsProper) attempt_isProper
      hs.isProper
    exact .inl ⟨sol, rfl, colours_of_total ht hb hp hsol⟩
  · exact .inr (.inr hstop)

theorem run_ne_interrupted (hs : AtRoot k v w s) (hl : NeverStops limit) :
    (s.run limit).1 ≠ .ok .interrupted := by
  obtain ⟨result, t, limit', he, hr, -, -⟩ := run_explored hs.isIdle limit
  rw [hr]
  exact (he.uninterrupted hl).1

private theorem run_decides (hs : AtRoot k v w s) (hv : VariableSelector.Lawful G v)
    (hw : ValueSelector.Lawful G w) (hl : NeverStops limit) :
    (∃ sol, (s.run limit).1 = .ok (.solved sol) ∧ sol.Colours G k) ∨
      (s.run limit).1 = .ok .exhausted ∧ ¬G.Colourable k := by
  rcases run_settles hs hv hw limit with hsol | hno | hstop
  · exact .inl hsol
  · exact .inr hno
  · exact absurd hstop (run_ne_interrupted hs hl)

private theorem solved_iff_colourable (hs : AtRoot k v w s) (hv : VariableSelector.Lawful G v)
    (hw : ValueSelector.Lawful G w) (hl : NeverStops limit) :
    (∃ sol, (s.run limit).1 = .ok (.solved sol)) ↔ G.Colourable k := by
  rcases run_decides hs hv hw hl with ⟨sol, hr, hsol⟩ | ⟨hr, hno⟩
  · exact ⟨fun _ => hsol.colourable, fun _ => ⟨sol, hr⟩⟩
  · simp [hr, hno]

/-- Whichever selectors keep their contracts, a search that no limit stops ends with a solution
exactly when there is a proper colouring with the colours from one up to `k`, and every solution
is such a colouring. -/
theorem verdict_independent {σ' τ' κ' : Type} [VariableSelector σ'] [ValueSelector τ']
    [TerminationCondition κ'] {v' : σ'} {w' : τ'} {s' : Search G σ' τ'} {limit' : κ'}
    (hs : AtRoot k v w s) (hv : VariableSelector.Lawful G v) (hw : ValueSelector.Lawful G w)
    (hl : NeverStops limit) (hs' : AtRoot k v' w' s') (hv' : VariableSelector.Lawful G v')
    (hw' : ValueSelector.Lawful G w') (hl' : NeverStops limit') :
    ((∃ sol, (s.run limit).1 = .ok (.solved sol)) ↔
        ∃ sol, (s'.run limit').1 = .ok (.solved sol)) ∧
      ((∃ sol, (s.run limit).1 = .ok (.solved sol)) ↔ G.Colourable k) ∧
      ((s.run limit).1 = .ok .exhausted ↔ ¬G.Colourable k) ∧
      ∀ sol, (s.run limit).1 = .ok (.solved sol) → sol.Colours G k := by
  have hiff := solved_iff_colourable hs hv hw hl
  refine ⟨hiff.trans (solved_iff_colourable hs' hv' hw' hl').symm, hiff, ?_, fun sol h => ?_⟩
  · rcases run_decides hs hv hw hl with ⟨sol, hr, hsol⟩ | ⟨hr, hno⟩
    · rw [hr]
      simp [hsol.colourable]
    · simp [hr, hno]
  · rcases run_decides hs hv hw hl with ⟨sol', hr, hsol⟩ | ⟨hr, -⟩
    · rw [hr] at h
      cases h
      exact hsol
    · rw [hr] at h
      cases h

def onTriangle :
    Search (Graph.ofProblem (.ofStatements none [] [(0, 1), (1, 2), (2, 0)])) FewestColours
      LeastConstraining :=
  .start _ 3 .standard {}

/-- Begins with the last vertex and the smallest colour. -/
def alternatingOnTriangle :
    Search (Graph.ofProblem (.ofStatements none [] [(0, 1), (1, 2), (2, 0)])) Alternating
      Alternating :=
  .start _ 3 ⟨true⟩ ⟨false⟩

theorem verdict_independent_onTriangle :
    (∃ sol, (alternatingOnTriangle.propagateRoot.2.run (Limit.present .indefinite)).1 =
        .ok (.solved sol)) ∧
      (Graph.ofProblem (.ofStatements none [] [(0, 1), (1, 2), (2, 0)])).Colourable 3 := by
  have hroot : AtRoot 3 FewestColours.standard {} onTriangle := .start
  have hroot' : AtRoot 3 ⟨true⟩ ⟨false⟩ alternatingOnTriangle := .start
  have hl : NeverStops (Limit.present .indefinite) := fun n => by
    induction n with
    | zero => rfl
    | succ n ih => exact ih
  have h : (onTriangle.run Limit.indefinite).1 =
      .ok (.solved (.ofList [(0, 1), (1, 2), (2, 3)])) := by
    rw [run_within 12]
    decide +kernel
  have hv := verdict_independent hroot FewestColours.lawful_standard
    (LeastConstraining.lawful _) Limit.neverStops_indefinite hroot'.propagated
    (Alternating.lawful_select _) (Alternating.lawful_order _) hl
  exact ⟨hv.1.mp ⟨_, h⟩, hv.2.1.mp ⟨_, h⟩⟩

/-- The alternating selectors go through the triangle the other way. -/
example : (alternatingOnTriangle.run Limit.indefinite).1 =
    .ok (.solved (.ofList [(0, 3), (1, 2), (2, 1)])) := by
  rw [run_within 12]
  decide +kernel

end Search

end Chromatic
