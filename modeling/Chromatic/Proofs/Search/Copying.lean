import Chromatic.Proofs.Branching.FewestColours
import Chromatic.Proofs.Branching.LeastConstraining
import Chromatic.Proofs.Limit
import Chromatic.Proofs.Propagation.Copying
import Chromatic.Proofs.Search.Root
/-!
# The search on copies

Backtracking as it is usually written down: the domains and the assignment are handed to the
recursive call by value, so there is nothing to undo and no stack to keep. The search on a trail
finds the same solution with the same number of decisions and backtracks.
-/

namespace Chromatic

/-- The assignment in which a variable has a colour, whatever it had before. -/
def Assignment.give {n : Nat} (a : Assignment n) (i : Fin n) (c : Colour) : Assignment n :=
  ⟨a.values.set i (some c)⟩

theorem Assignment.assign_eq_give {n : Nat} {a : Assignment n} {i : Fin n}
    (hi : a.value i = none) (c : Colour) : a.assign i c = .ok (a.give i c) := by
  simp [assign, isAssigned, hi, give]

private theorem Assignment.numFree_give {n : Nat} {a : Assignment n} {i : Fin n}
    (hi : a.value i = none) (c : Colour) : (a.give i c).numFree < a.numFree := by
  have hn := numFree_of_assign (assign_eq_give hi c)
  omega

/-- What a search by recursion found, if it found anything, and the work it took. -/
structure Report (n : Nat) where
  found : Option (Assignment n)
  decisions : Nat
  backtracks : Nat

def Report.after {n : Nat} (r : Report n) (decisions backtracks : Nat) : Report n :=
  ⟨r.found, decisions + r.decisions, backtracks + r.backtracks⟩

/-- What the selectors look at when domains and assignment are copies. -/
def View.ofCopies {G : Graph} (d : Domains G.order) (a : Assignment G.order) : View G :=
  ⟨⟨d, .empty⟩, a⟩

namespace Graph

variable (G : Graph)

mutual

/-- Colours the remaining variables, the most constrained one first. -/
def solveCopy (d : Domains G.order) (a : Assignment G.order) : Report G.order :=
  match h : (View.ofCopies d a).mostConstrained with
  | none => ⟨some a, 0, 0⟩
  | some i =>
    tryCopy d a i (View.value_of_mostConstrained h) ((View.ofCopies d a).leastConstraining i)
termination_by (a.numFree, 1, 0)

/-- Tries colours of a free variable in turn, each on domains of its own. -/
def tryCopy (d : Domains G.order) (a : Assignment G.order) (i : Fin G.order)
    (hi : a.value i = none) (colours : List Colour) : Report G.order :=
  match colours with
  | [] => ⟨none, 0, 1⟩
  | c :: rest =>
    match G.propagateCopy (d.fix i c) (G.arcsInto i) with
    | none => (tryCopy d a i hi rest).after 1 0
    | some d' =>
      let below := solveCopy d' (a.give i c)
      match below.found with
      | some _ => below.after 1 0
      | none => (tryCopy d a i hi rest).after (below.decisions + 1) below.backtracks
termination_by (a.numFree, 0, colours.length)
decreasing_by
  · exact Prod.Lex.right _ (Prod.Lex.right _ (Nat.lt_succ_self _))
  · exact Prod.Lex.left _ _ (Assignment.numFree_give hi c)
  · exact Prod.Lex.right _ (Prod.Lex.right _ (Nat.lt_succ_self _))

end

def solutionOf (a : Assignment G.order) : Solution :=
  .ofList (a.entries.map fun e => (G.label e.1, e.2))

def outcomeOf (r : Report G.order) : Outcome :=
  match r.found with
  | some a => .solved (G.solutionOf a)
  | none => .exhausted

private theorem solveCopy_eq (d : Domains G.order) (a : Assignment G.order) :
    G.solveCopy d a =
      match h : (View.ofCopies d a).mostConstrained with
      | none => ⟨some a, 0, 0⟩
      | some i =>
        G.tryCopy d a i (View.value_of_mostConstrained h)
          ((View.ofCopies d a).leastConstraining i) := by
  rw [solveCopy]

private theorem solveCopy_none {d : Domains G.order} {a : Assignment G.order}
    (h : (View.ofCopies d a).mostConstrained = none) : G.solveCopy d a = ⟨some a, 0, 0⟩ := by
  rw [solveCopy_eq]
  split
  · rfl
  · next h' => cases h.symm.trans h'

private theorem solveCopy_some {d : Domains G.order} {a : Assignment G.order} {i : Fin G.order}
    (h : (View.ofCopies d a).mostConstrained = some i) :
    G.solveCopy d a =
      G.tryCopy d a i (View.value_of_mostConstrained h)
        ((View.ofCopies d a).leastConstraining i) := by
  rw [solveCopy_eq]
  split
  · next h' => cases h.symm.trans h'
  · next h' =>
    cases h.symm.trans h'
    rfl

variable {G} {d d' : Domains G.order} {a : Assignment G.order} {i : Fin G.order}
  (hi : a.value i = none) (c : Colour) (rest : List Colour)

private theorem tryCopy_nil : G.tryCopy d a i hi [] = ⟨none, 0, 1⟩ := by
  rw [tryCopy]

private theorem tryCopy_failed (h : G.propagateCopy (d.fix i c) (G.arcsInto i) = none) :
    G.tryCopy d a i hi (c :: rest) = (G.tryCopy d a i hi rest).after 1 0 := by
  rw [tryCopy, h]

private theorem tryCopy_found (h : G.propagateCopy (d.fix i c) (G.arcsInto i) = some d')
    {b : Assignment G.order} (hb : (G.solveCopy d' (a.give i c)).found = some b) :
    G.tryCopy d a i hi (c :: rest) = (G.solveCopy d' (a.give i c)).after 1 0 := by
  rw [tryCopy, h]
  simp only [hb]

private theorem tryCopy_defeated (h : G.propagateCopy (d.fix i c) (G.arcsInto i) = some d')
    (hb : (G.solveCopy d' (a.give i c)).found = none) :
    G.tryCopy d a i hi (c :: rest) =
      (G.tryCopy d a i hi rest).after ((G.solveCopy d' (a.give i c)).decisions + 1)
        (G.solveCopy d' (a.give i c)).backtracks := by
  rw [tryCopy, h]
  simp only [hb]

end Graph

private theorem Store.domains_keepOnly {n : Nat} {s : Store n} {i : Fin n} {c : Colour}
    (hc : c ∈ s.domain i) : (s.keepOnly i c).2.domains = Domains.fix s.domains i c := by
  have hk := keepOnly_of_mem hc
  refine Family.ext_get fun j => Domain.ext_mem fun x => ?_
  have hm := mem_keepOnly (x := x) (j := j) hk
  rw [domain] at hm
  rw [hm, Domains.fix, Family.get_set]
  split
  · next hij =>
    subst hij
    simp only [forall_const, Domain.mem_def, Domain.single, List.mem_singleton]
    refine ⟨And.right, fun hx => ⟨?_, hx⟩⟩
    rw [hx]
    exact hc
  · next hij => simp [hij, domain]

/-- No domain is empty, and that of a variable with a colour has no other colour. -/
structure View.Settled {G : Graph} (v : View G) : Prop where
  live : v.store.Live
  fixed : ∀ i c, v.assignment.value i = some c → (v.store.domain i).values = [c]

namespace Search

variable {G : Graph} {σ τ κ : Type} {s t : Search G σ τ} {i : Fin G.order} {x : VariableId}
  {c : Colour}

theorem attempt_settled (h : s.attempt x c = (.ok none, t)) (hs : s.view.Settled) :
    t.view.Settled := by
  obtain ⟨i, rfl, ha, hk, he, ht, -⟩ := attempt_held h
  have hkeep : (s.store.keepOnly i c).2.Live := hs.live.keepOnly hk
  have hlive : t.store.Live := by
    rw [ht]
    exact Graph.propagate_live hkeep he
  refine ⟨hlive, fun j e hj => ?_⟩
  have hr := attempt_reduction h
  rw [view, Assignment.value_of_assign ha] at hj
  split at hj
  · next hij =>
    cases hj
    subst hij
    have hp : Store.Reduction (s.store.keepOnly i c).2 t.store := by
      rw [ht]
      exact G.propagate_reduction _ _ _
    exact hp.values_eq_singleton hlive (Store.values_keepOnly hs.live hk)
  · exact hr.values_eq_singleton hlive (hs.fixed j e hj)

/-- While assigned variables have no other colour left, propagation leaves nothing for the check
of the neighbours to find. -/
theorem narrowed_conflict_free (hs : s.view.Settled) (hk : (s.store.keepOnly i c).1 = true)
    (he : (s.narrowed i c).emptiedBy = none) {j : Fin G.order} (hj : j ∈ G.neighbours i) :
    s.assignment.value j ≠ some c := by
  intro hv
  have hkeep : (s.store.keepOnly i c).2.Live := hs.live.keepOnly hk
  have hlive := Graph.propagate_live hkeep he
  have hred : Store.Reduction s.store (s.narrowed i c).store :=
    (s.store.keepOnly_reduction i c).trans (G.propagate_reduction _ _ _)
  have hjc : ((s.narrowed i c).store.domain j).values = [c] :=
    hred.values_eq_singleton hlive (hs.fixed j c hv)
  have harc : (⟨j, i⟩ : Arc G.order) ∈ G.arcsInto i := List.mem_map.mpr ⟨j, hj, rfl⟩
  have hno : c ∉ (s.narrowed i c).store.domain j :=
    Graph.not_mem_of_propagate harc hkeep (Store.values_keepOnly hs.live hk) he
  refine hno ?_
  rw [Domain.mem_def, hjc]
  exact List.mem_singleton_self c

private theorem attempt_give {r : Option Failure} (h : s.attempt (.ofFin i) c = (.ok r, t))
    (hi : s.assignment.value i = none) : t.assignment = s.assignment.give i c := by
  obtain ⟨i', hi', ha⟩ := attempt_ok h
  obtain rfl := VariableId.ofFin_injective hi'
  rw [Assignment.assign_eq_give hi] at ha
  exact (Except.ok.inj ha).symm

private theorem attempt_copying {r : Option Failure} (h : s.attempt (.ofFin i) c = (.ok r, t))
    (hs : s.view.Settled) (hc : c ∈ s.store.domain i) :
    G.propagateCopy (Domains.fix s.store.domains i c) (G.arcsInto i) =
      if r = none then some t.store.domains else none := by
  have hk := Store.keepOnly_of_mem hc
  rw [← Store.domains_keepOnly hc, Graph.propagateCopy_eq _ s.propagation]
  cases r with
  | none =>
    obtain ⟨i', hi, -, -, he, ht, -⟩ := attempt_held h
    obtain rfl := VariableId.ofFin_injective hi
    rw [if_pos rfl, ht]
    exact if_pos he
  | some cause =>
    obtain ⟨i', a, hi, ha, hfail⟩ := attempt_failed h
    obtain rfl := VariableId.ofFin_injective hi
    have he : (s.narrowed i c).emptiedBy ≠ none := by
      intro he
      rcases hfail with hno | ⟨-, arc, he'⟩ | ⟨-, -, j, hj, hv⟩
      · exact absurd (hk.symm.trans hno) (by decide)
      · cases he'.symm.trans he
      · rw [Assignment.value_of_assign ha, if_neg (Graph.ne_of_mem_neighbours hj)] at hv
        exact narrowed_conflict_free hs hk he hj hv
    exact (if_neg he).trans (if_neg (Option.some_ne_none cause)).symm

section Standard

variable {s t u : Search G FewestColours LeastConstraining} [TerminationCondition κ]

theorem choose_standard (hv : s.variableSelector = .standard) :
    s.choose = (.ok (s.view.mostConstrained.map fun i =>
      (VariableId.ofFin i, s.view.leastConstraining i)), s) := by
  have hself : { s with variableSelector := FewestColours.standard } = s := by rw [← hv]
  unfold choose
  rw [hv, FewestColours.select_standard]
  dsimp only
  rw [hself]
  cases s.view.mostConstrained with
  | none => rfl
  | some i =>
    simp only [Option.map_some, LeastConstraining.order_ofFin]
    exact congrArg (Prod.mk _) hself

private theorem eq_of_choose (hv : s.variableSelector = .standard)
    {choice : Except Fault (Option (VariableId × List Colour))} (hc : s.choose = (choice, t)) :
    s = t ∧ choice = .ok (s.view.mostConstrained.map fun i =>
      (VariableId.ofFin i, s.view.leastConstraining i)) := by
  rw [choose_standard hv] at hc
  obtain ⟨hchoice, ht⟩ := Prod.mk.inj hc
  exact ⟨ht, hchoice.symm⟩

theorem variableSelector_of_choose {choice : Except Fault (Option (VariableId × List Colour))}
    (hc : s.choose = (choice, t)) (hv : s.variableSelector = .standard) :
    t.variableSelector = .standard := by
  rw [← (eq_of_choose hv hc).1]
  exact hv

private theorem choose_ne_error {fault : Fault} (hv : s.variableSelector = .standard) :
    s.choose ≠ (.error fault, t) := by
  intro hc
  cases (eq_of_choose hv hc).2

private theorem mostConstrained_eq_none (hv : s.variableSelector = .standard)
    (hc : s.choose = (.ok none, t)) : s = t ∧ s.view.mostConstrained = none := by
  obtain ⟨ht, hchoice⟩ := eq_of_choose hv hc
  exact ⟨ht, Option.map_eq_none_iff.mp (Except.ok.inj hchoice).symm⟩

theorem mostConstrained_eq_some {colours : List Colour} (hv : s.variableSelector = .standard)
    (hc : s.choose = (.ok (some (x, colours)), t)) :
    s = t ∧ ∃ i, s.view.mostConstrained = some i ∧ x = .ofFin i ∧
      colours = s.view.leastConstraining i := by
  obtain ⟨ht, hchoice⟩ := eq_of_choose hv hc
  obtain ⟨i, hi, hx⟩ := Option.map_eq_some_iff.mp (Except.ok.inj hchoice).symm
  obtain ⟨rfl, rfl⟩ := Prod.mk.inj hx
  exact ⟨ht, i, hi, rfl, rfl⟩

theorem Swept.standard {untried : List Colour} {limit limit' : κ}
    (h : Swept s x untried limit none t limit') (hv : s.variableSelector = .standard) :
    t.variableSelector = .standard :=
  h.selectors (P := fun v _ => v = FewestColours.standard) variableSelector_of_choose nofun hv

private theorem solveCopy_attempt {r : Option Failure} (ha : s.attempt (.ofFin i) c = (.ok r, t))
    (hi : s.assignment.value i = none) {j : Fin G.order}
    (hj : t.view.mostConstrained = some j) :
    G.solveCopy t.store.domains (s.assignment.give i c) =
      G.tryCopy t.store.domains t.assignment j (View.value_of_mostConstrained hj)
        (t.view.leastConstraining j) := by
  rw [← attempt_give ha hi]
  exact G.solveCopy_some hj

/-- What a recursion on copies reports, from the counters of one state to those of another. -/
structure Matches (s t : Search G FewestColours LeastConstraining) (r : Report G.order)
    (result : Option (Except Fault Outcome)) : Prop where
  result : result = r.found.map fun a => .ok (.solved (G.solutionOf a))
  decisions : t.counters.decisions = s.counters.decisions + r.decisions
  backtracks : t.counters.backtracks = s.counters.backtracks + r.backtracks

private theorem Matches.after {r : Report G.order} {result : Option (Except Fault Outcome)}
    {d b : Nat} (h : Matches t u r result) (hd : t.counters.decisions = s.counters.decisions + d)
    (hb : t.counters.backtracks = s.counters.backtracks + b) :
    Matches s u (r.after d b) result where
  result := h.result
  decisions := by
    simp only [h.decisions, hd, Report.after]
    omega
  backtracks := by
    simp only [h.backtracks, hb, Report.after]
    omega

/-- Trying colours on the trail comes to what trying them on copies comes to. -/
theorem Swept.copying {untried : List Colour} {limit limit' : κ}
    {result : Option (Except Fault Outcome)} (h : Swept s x untried limit result t limit')
    (hx : x = .ofFin i) (hi : s.assignment.value i = none)
    (hu : ∀ c ∈ untried, c ∈ s.store.domain i) (hv : s.variableSelector = .standard)
    (hs : s.view.Settled) (hl : NeverStops limit) :
    Matches s t (G.tryCopy s.store.domains s.assignment i hi untried) result := by
  induction h generalizing i with
  | abandoned =>
    rw [Graph.tryCopy_nil]
    exact ⟨rfl, rfl, rfl⟩
  | stopped hstop => exact absurd hstop hl.not_stopped
  | @faulted s _ _ c _ _ _ _ _ ha =>
    subst hx
    obtain ⟨_, _, hfree⟩ := attempt_free hi c
    rw [hfree] at ha
    cases ha
  | @refuted s t _ _ c rest _ _ _ _ _ hstop ha _ ih =>
    subst hx
    obtain ⟨hc, hrest⟩ := List.forall_mem_cons.mp hu
    obtain ⟨hd, hb⟩ := attempt_counters ha
    rw [Graph.tryCopy_failed hi c rest (attempt_copying ha hs hc)]
    have hm := ih rfl hi hrest ((attempt_selectors ha).1.trans hv) hs (hl.pass hstop)
    exact hm.after hd hb
  | misordered hstop ha hc =>
    exact absurd hc (choose_ne_error ((attempt_selectors ha).1.trans hv))
  | @solved s t _ _ c rest _ _ hstop ha hc =>
    subst hx
    obtain ⟨hd, hb⟩ := attempt_counters ha
    have hprop := attempt_copying ha hs (hu c List.mem_cons_self)
    rw [if_pos rfl] at hprop
    obtain ⟨rfl, hnone⟩ := mostConstrained_eq_none ((attempt_selectors ha).1.trans hv) hc
    have hsolve : G.solveCopy t.store.domains (s.assignment.give i c) =
        ⟨some t.assignment, 0, 0⟩ := by
      rw [← attempt_give ha hi]
      exact G.solveCopy_none hnone
    have hm : Matches t t ⟨some t.assignment, 0, 0⟩ (some (.ok (.solved t.solution))) :=
      ⟨rfl, rfl, rfl⟩
    rw [Graph.tryCopy_found hi c rest hprop (congrArg Report.found hsolve), hsolve]
    exact hm.after hd hb
  | @settled s t _ _ _ _ c rest _ _ _ _ _ hstop ha hc _ ih =>
    subst hx
    obtain ⟨hd, hb⟩ := attempt_counters ha
    have hvt := (attempt_selectors ha).1.trans hv
    have hprop := attempt_copying ha hs (hu c List.mem_cons_self)
    rw [if_pos rfl] at hprop
    obtain ⟨rfl, j, hj, rfl, rfl⟩ := mostConstrained_eq_some hvt hc
    have hm := ih rfl (View.value_of_mostConstrained hj)
      (fun _ => (View.perm_leastConstraining _ j).mem_iff.mp) hvt (attempt_settled ha hs)
      (hl.pass hstop)
    have hsolve := solveCopy_attempt ha hi hj
    obtain ⟨b, hfound, -⟩ := Option.map_eq_some_iff.mp hm.result.symm
    rw [Graph.tryCopy_found hi c rest hprop ((congrArg Report.found hsolve).trans hfound),
      hsolve]
    exact hm.after hd hb
  | @defeated s t _ v _ _ _ c rest _ _ _ _ _ _ hstop ha hc hbelow _ ihb ihr =>
    subst hx
    obtain ⟨hcd, hrest⟩ := List.forall_mem_cons.mp hu
    obtain ⟨hd, hb⟩ := attempt_counters ha
    have hvt := (attempt_selectors ha).1.trans hv
    have hprop := attempt_copying ha hs hcd
    rw [if_pos rfl] at hprop
    obtain ⟨rfl, j, hj, rfl, rfl⟩ := mostConstrained_eq_some hvt hc
    have hm := ihb rfl (View.value_of_mostConstrained hj)
      (fun _ => (View.perm_leastConstraining _ j).mem_iff.mp) hvt (attempt_settled ha hs)
      (hl.pass hstop)
    have hsolve := solveCopy_attempt ha hi hj
    have hnone := Option.map_eq_none_iff.mp hm.result.symm
    rw [Graph.tryCopy_defeated hi c rest hprop ((congrArg Report.found hsolve).trans hnone),
      hsolve]
    have hmr := ihr rfl hi hrest (hbelow.standard hvt) hs
      (hbelow.uninterrupted (hl.pass hstop)).2
    have hdv := hm.decisions
    have hbv := hm.backtracks
    refine hmr.after ?_ ?_
    · simp only [rewindTo]
      omega
    · simp only [rewindTo]
      omega

private theorem leastConstraining_eq_nil {v : View G} (hv : ¬v.store.Live)
    (ha : v.assignment = .empty G.order) {j : Fin G.order} (hj : v.mostConstrained = some j) :
    v.leastConstraining j = [] := by
  -- a variable with an empty domain is chosen before any other
  obtain ⟨i, hi⟩ := not_forall.mp hv
  have hfree : i ∈ v.free := View.mem_free.mpr (by rw [ha, Assignment.value_empty])
  have hzero : (v.store.domain i).size = 0 := by
    by_contra hne
    exact hi (Domain.exists_mem_of_size_ne_zero hne)
  have hle : v.domainSize j ≤ v.domainSize i := List.le_of_mem_argmin hfree hj
  have hj0 : (v.store.domain j).size = 0 := Nat.le_zero.mp (hzero ▸ hle)
  have hnil : (v.store.domain j).values = [] := by
    rwa [Domain.size_eq, List.length_eq_zero_iff] at hj0
  have hperm := v.perm_leastConstraining j
  rw [hnil] at hperm
  exact hperm.eq_nil

private theorem Swept.copying_of_idle (hidle : s.IsIdle) (hv : s.variableSelector = .standard)
    {limit limit' : κ} (hl : NeverStops limit) {j : Fin G.order}
    (hj : s.view.mostConstrained = some j) {result : Option (Except Fault Outcome)}
    (h : Swept s (.ofFin j) (s.view.leastConstraining j) limit result t limit') :
    Matches s t (G.solveCopy s.store.domains s.assignment) result := by
  have hfree : s.assignment.value j = none := View.value_of_mostConstrained hj
  have hsolve : G.solveCopy s.store.domains s.assignment =
      G.tryCopy s.store.domains s.assignment j hfree (s.view.leastConstraining j) :=
    G.solveCopy_some hj
  rw [hsolve]
  by_cases hlive : s.store.Live
  · have hs : s.view.Settled := by
      refine ⟨hlive, fun i c hi => ?_⟩
      rw [view, hidle.assignment, Assignment.value_empty] at hi
      cases hi
    exact h.copying rfl hfree (fun _ => (View.perm_leastConstraining _ j).mem_iff.mp) hv hs hl
  · have hnil := leastConstraining_eq_nil hlive hidle.assignment hj
    rw [hnil] at h ⊢
    cases h
    rw [Graph.tryCopy_nil]
    exact ⟨rfl, rfl, rfl⟩

private theorem Explored.copying {limit limit' : κ} {result : Except Fault Outcome}
    (h : Explored s limit result t limit') (hidle : s.IsIdle)
    (hv : s.variableSelector = .standard) (hl : NeverStops limit) :
    result = .ok (G.outcomeOf (G.solveCopy s.store.domains s.assignment)) ∧
      t.counters.decisions =
        s.counters.decisions + (G.solveCopy s.store.domains s.assignment).decisions ∧
      t.counters.backtracks =
        s.counters.backtracks + (G.solveCopy s.store.domains s.assignment).backtracks := by
  cases h with
  | misordered hc => exact absurd hc (choose_ne_error hv)
  | solved hc =>
    obtain ⟨rfl, hnone⟩ := mostConstrained_eq_none hv hc
    have hsolve : G.solveCopy s.store.domains s.assignment = ⟨some s.assignment, 0, 0⟩ :=
      G.solveCopy_none hnone
    rw [hsolve]
    exact ⟨rfl, rfl, rfl⟩
  | settled hc hb =>
    obtain ⟨rfl, j, hj, rfl, rfl⟩ := mostConstrained_eq_some hv hc
    have hm := hb.copying_of_idle hidle hv hl hj
    obtain ⟨a, hfound, hr⟩ := Option.map_eq_some_iff.mp hm.result.symm
    rw [Graph.outcomeOf, hfound]
    exact ⟨hr.symm, hm.decisions, hm.backtracks⟩
  | defeated hc hb =>
    obtain ⟨rfl, j, hj, rfl, rfl⟩ := mostConstrained_eq_some hv hc
    have hm := hb.copying_of_idle hidle hv hl hj
    have hnone := Option.map_eq_none_iff.mp hm.result.symm
    rw [Graph.outcomeOf, hnone]
    exact ⟨rfl, hm.decisions, hm.backtracks⟩

theorem AtRoot.standard {k : Nat} (h : AtRoot k FewestColours.standard {} s) :
    s.variableSelector = .standard :=
  h.selectors (P := fun v _ => v = FewestColours.standard) variableSelector_of_choose rfl

/-- The search on a trail, fewest colours and least constraining colour first, comes to the
outcome of the recursion on copies, with as many decisions and backtracks. -/
theorem run_eq_solveCopy {k : Nat} (h : AtRoot k FewestColours.standard {} s) {limit : κ}
    (hl : NeverStops limit) :
    (s.run limit).1 = .ok (G.outcomeOf (G.solveCopy s.store.domains (.empty G.order))) ∧
      (s.run limit).2.1.counters.decisions =
        s.counters.decisions + (G.solveCopy s.store.domains (.empty G.order)).decisions ∧
      (s.run limit).2.1.counters.backtracks =
        s.counters.backtracks + (G.solveCopy s.store.domains (.empty G.order)).backtracks := by
  obtain ⟨result, t, limit', he, hr, -, ht⟩ := run_explored h.isIdle limit
  obtain ⟨hresult, hd, hb⟩ := he.copying h.isIdle h.standard hl
  rw [h.isIdle.assignment] at hresult hd hb
  have hrun := ht (by rw [hresult]; rfl)
  rw [hr, hresult, hrun]
  exact ⟨rfl, hd, hb⟩

def shortOfColours :
    Search (Graph.ofProblem (.ofStatements none [] [(0, 1), (1, 2), (2, 0)])) FewestColours
      LeastConstraining :=
  .start _ 2 .standard {}

theorem run_eq_solveCopy_shortOfColours :
    let r := Graph.solveCopy _ shortOfColours.propagateRoot.2.store.domains (.empty _)
    Graph.outcomeOf _ r = .exhausted ∧ r.decisions = 2 ∧ r.backtracks = 1 := by
  have hroot : AtRoot 2 FewestColours.standard {} shortOfColours := .start
  obtain ⟨hr, hd, hb⟩ := run_eq_solveCopy hroot.propagated Limit.neverStops_indefinite
  have hrun : (shortOfColours.propagateRoot.2.run Limit.indefinite).1 = .ok .exhausted := by
    rw [run_within 12]
    decide +kernel
  have hcount : (shortOfColours.propagateRoot.2.run Limit.indefinite).2.1.counters =
      ⟨2, 1, 0, 0⟩ := by
    rw [run_within 12]
    decide +kernel
  have hzero : shortOfColours.propagateRoot.2.counters = ⟨0, 0, 0, 0⟩ := by decide +kernel
  rw [hrun] at hr
  rw [hcount, hzero, Nat.zero_add] at hd hb
  exact ⟨(Except.ok.inj hr).symm, hd.symm, hb.symm⟩

end Standard

end Search

end Chromatic
