import Chromatic.Proofs.Domain.Reduction
import Chromatic.Search.Progress
/-!
# What an attempt comes to

An attempt gives a colour to a free variable, keeps only this colour in its domain and
propagates. It holds when no domain ran empty and no neighbour has the colour. Either way colours
were only removed, and the selectors were not asked.
-/

namespace Chromatic

private theorem VariableId.eq_of_locate {n : Nat} {x : VariableId} {i : Fin n}
    (h : x.locate n = .ok i) : x = .ofFin i := by
  unfold locate at h
  split at h
  · cases h
    rfl
  · cases h

theorem VariableId.ofFin_injective {n : Nat} {i j : Fin n} (h : ofFin i = ofFin j) : i = j :=
  Fin.ext (congrArg index h)

theorem Assignment.unassign_of_assign {n : Nat} {a b : Assignment n} {i : Fin n} {c : Colour}
    (h : a.assign i c = .ok b) : b.unassign i = .ok a := by
  have hb := value_of_assign (j := i) h
  rw [if_pos rfl] at hb
  unfold assign at h
  split at h
  · cases h
  · next hi =>
    cases h
    rw [unassign, if_pos (by simp [isAssigned, hb])]
    congr
    refine Family.ext_get fun j => ?_
    simp only [Family.get_set]
    split
    · next hij =>
      subst hij
      have hn : a.value i = none := by simpa [isAssigned] using hi
      exact hn.symm
    · rfl

namespace Search

variable {G : Graph} {σ τ κ : Type} {s t : Search G σ τ} {i : Fin G.order} {x : VariableId}
  {c : Colour} {cause : Failure}

/-- What narrowing leaves when no domain runs empty on the way. -/
def narrowed (s : Search G σ τ) (i : Fin G.order) (c : Colour) : Propagated G.order :=
  G.propagateFrom (s.store.keepOnly i c).2 s.propagation i

private theorem absorb_held {r : Propagated G.order} (h : s.absorb r = (true, t)) :
    r.emptiedBy = none ∧ t.store = r.store ∧ t.assignment = s.assignment := by
  unfold absorb at h
  dsimp only at h
  split at h
  · next hr =>
    cases h
    exact ⟨hr, rfl, rfl⟩
  · cases h

private theorem absorb_failed {r : Propagated G.order} (h : s.absorb r = (false, t)) :
    ∃ a, r.emptiedBy = some a := by
  unfold absorb at h
  dsimp only at h
  split at h
  · cases h
  · next a hr => exact ⟨a, hr⟩

theorem absorb_store (s : Search G σ τ) (r : Propagated G.order) :
    (s.absorb r).2.store = r.store := by
  unfold absorb
  split <;> rfl

private theorem absorb_counters (s : Search G σ τ) (r : Propagated G.order) :
    (s.absorb r).2.counters = s.counters := by
  unfold absorb
  split <;> rfl

/-- The ways in which narrowing ends. Nothing but the colour of a neighbour counts as a
conflict. -/
inductive Narrows (s : Search G σ τ) (i : Fin G.order) (c : Colour) (t : Search G σ τ) :
    Option Failure → Prop
  | absent (hk : (s.store.keepOnly i c).1 = false) (hs : t.store = (s.store.keepOnly i c).2)
    (hc : t.counters = s.counters) : Narrows s i c t (some .emptyDomain)
  | emptied {a : Arc G.order} (hk : (s.store.keepOnly i c).1 = true)
    (he : (s.narrowed i c).emptiedBy = some a) (hs : t.store = (s.narrowed i c).store)
    (hc : t.counters = s.counters) : Narrows s i c t (some .emptyDomain)
  | conflict {j : Fin G.order} (hk : (s.store.keepOnly i c).1 = true)
    (he : (s.narrowed i c).emptiedBy = none) (hs : t.store = (s.narrowed i c).store)
    (hj : j ∈ G.neighbours i) (hv : s.assignment.value j = some c)
    (hc : t.counters =
      { s.counters with neighbourConflicts := s.counters.neighbourConflicts + 1 }) :
    Narrows s i c t (some (.assignedNeighbour (.ofFin j)))
  | held (hk : (s.store.keepOnly i c).1 = true) (he : (s.narrowed i c).emptiedBy = none)
    (hs : t.store = (s.narrowed i c).store)
    (hv : ∀ j ∈ G.neighbours i, s.assignment.value j ≠ some c) (hc : t.counters = s.counters) :
    Narrows s i c t none

theorem narrows_of_narrow {r : Option Failure} (h : s.narrow i c = (r, t)) :
    s.Narrows i c t r := by
  unfold narrow at h
  split at h
  · next hk =>
    cases h
    exact .absent (congrArg Prod.fst hk) (congrArg Prod.snd hk).symm rfl
  · next store hk =>
    have hn : G.propagateFrom store s.propagation i = s.narrowed i c := by rw [narrowed, hk]
    have hkept := congrArg Prod.fst hk
    have hstore := absorb_store { s with store } (G.propagateFrom store s.propagation i)
    have hcounters := absorb_counters { s with store } (G.propagateFrom store s.propagation i)
    rw [hn] at h hstore hcounters
    split at h
    · next hu =>
      cases h
      rw [hu] at hstore hcounters
      obtain ⟨a, he⟩ := absorb_failed hu
      exact .emptied hkept he hstore hcounters
    · next u hu =>
      rw [hu] at hstore hcounters
      obtain ⟨he, -, ha⟩ := absorb_held hu
      split at h
      · next hf =>
        cases h
        refine .held hkept he hstore (fun j hj hv => ?_) hcounters
        rw [← ha] at hv
        exact List.find?_eq_none.mp hf j hj (by simpa using hv)
      · next j hf =>
        cases h
        have hv := List.find?_some hf
        rw [ha] at hv
        refine .conflict hkept he hstore (List.mem_of_find?_eq_some hf) (by simpa using hv) ?_
        exact congrArg
          (fun n => { n with neighbourConflicts := n.neighbourConflicts + 1 }) hcounters

private theorem narrow_held (h : s.narrow i c = (none, t)) :
    (s.store.keepOnly i c).1 = true ∧ (s.narrowed i c).emptiedBy = none ∧
      t.store = (s.narrowed i c).store ∧
      ∀ j ∈ G.neighbours i, s.assignment.value j ≠ some c := by
  cases narrows_of_narrow h with
  | held hk he hs hv => exact ⟨hk, he, hs, hv⟩

private theorem narrow_failed (h : s.narrow i c = (some cause, t)) :
    (s.store.keepOnly i c).1 = false ∨
      (s.store.keepOnly i c).1 = true ∧ (∃ a, (s.narrowed i c).emptiedBy = some a) ∨
      (s.store.keepOnly i c).1 = true ∧ (s.narrowed i c).emptiedBy = none ∧
        ∃ j ∈ G.neighbours i, s.assignment.value j = some c := by
  cases narrows_of_narrow h with
  | absent hk => exact .inl hk
  | emptied hk he => exact .inr (.inl ⟨hk, _, he⟩)
  | conflict hk he _ hj hv => exact .inr (.inr ⟨hk, he, _, hj, hv⟩)

/-- The state in which the domains are narrowed to the colour just given. -/
def committed (s : Search G σ τ) (a : Assignment G.order) : Search G σ τ :=
  { s with
    counters := { s.counters with decisions := s.counters.decisions + 1 }
    assignment := a }

theorem attempt_eq {a : Assignment G.order} (hi : x.locate G.order = .ok i)
    (ha : s.assignment.assign i c = .ok a) :
    s.attempt x c =
      match (s.committed a).narrow i c with
      | (some cause, t) => (.ok (some cause), t.note (.valueFailed x c cause))
      | (none, t) => (.ok none, t) := by
  simp only [attempt, hi, ha]
  rfl

/-- A colour holds that stays in the domain, empties no other domain and is not the colour of a
neighbour. -/
theorem attempt_of_holds {a : Assignment G.order} (ha : s.assignment.assign i c = .ok a)
    (hk : (s.store.keepOnly i c).1 = true) (he : (s.narrowed i c).emptiedBy = none)
    (hn : ∀ j ∈ G.neighbours i, a.value j ≠ some c) :
    s.attempt (.ofFin i) c =
      (.ok none, { s.committed a with
        store := (s.narrowed i c).store
        propagation := (s.narrowed i c).counters }) := by
  have hfind : ((G.neighbours i).find? fun j => decide (a.value j = some c)) = none := by
    rw [List.find?_eq_none]
    intro j hj
    simpa using hn j hj
  rw [attempt_eq (VariableId.locate_ofFin i) ha, narrow]
  rcases hr : s.store.keepOnly i c with ⟨b, store⟩
  rw [hr] at hk
  obtain rfl : b = true := hk
  rw [narrowed, hr] at he ⊢
  simp only [committed, absorb, hr, he, hfind]

theorem attempt_cases {r : Option Failure} (h : s.attempt x c = (.ok r, t)) :
    ∃ i a u, x = .ofFin i ∧ s.assignment.assign i c = .ok a ∧
      (s.committed a).narrow i c = (r, u) ∧
      t = r.elim u fun cause => u.note (.valueFailed x c cause) := by
  unfold attempt at h
  dsimp only at h
  split at h
  · cases h
  · next i hi =>
    split at h
    · cases h
    · next a ha =>
      refine ⟨i, a, ?_⟩
      split at h
      all_goals
        next hu =>
          cases h
          exact ⟨_, VariableId.eq_of_locate hi, ha, hu, rfl⟩

/-- An attempt that breaks a rule breaks it before the domains are touched. -/
theorem attempt_faulted {fault : Fault} (h : s.attempt x c = (.error fault, t)) :
    t = s.committed s.assignment := by
  unfold attempt at h
  dsimp only at h
  split at h
  · cases h
    rfl
  · split at h
    · cases h
      rfl
    · split at h <;> cases h

theorem attempt_of_unknown {fault : Fault} (hx : x.locate G.order = .error fault) :
    s.attempt x c = (.error fault, s.committed s.assignment) := by
  simp only [attempt, hx]
  rfl

theorem attempt_of_assigned {fault : Fault} (hi : x.locate G.order = .ok i)
    (ha : s.assignment.assign i c = .error fault) :
    s.attempt x c = (.error fault, s.committed s.assignment) := by
  simp only [attempt, hi, ha]
  rfl

/-- A change that no step of an attempt looks at can as well be made after it. -/
theorem attempt_commutes {φ : Search G σ τ → Search G σ τ}
    (hassignment : ∀ s, (φ s).assignment = s.assignment)
    (hcommitted : ∀ s a, (φ s).committed a = φ (s.committed a))
    (hnarrow : ∀ s i c, (φ s).narrow i c = ((s.narrow i c).1, φ (s.narrow i c).2))
    (hnote : ∀ s e, (φ s).note e = φ (s.note e)) (s : Search G σ τ) (x : VariableId)
    (c : Colour) : (φ s).attempt x c = ((s.attempt x c).1, φ (s.attempt x c).2) := by
  have hassign (i : Fin G.order) : (φ s).assignment.assign i c = s.assignment.assign i c := by
    rw [hassignment]
  cases hx : x.locate G.order with
  | error => rw [attempt_of_unknown hx, attempt_of_unknown hx, hassignment, hcommitted]
  | ok i =>
    cases ha : s.assignment.assign i c with
    | error =>
      rw [attempt_of_assigned hx ha, attempt_of_assigned hx ((hassign i).trans ha), hassignment,
        hcommitted]
    | ok a =>
      rw [attempt_eq hx ha, attempt_eq hx ((hassign i).trans ha), hcommitted, hnarrow]
      rcases (s.committed a).narrow i c with ⟨_ | cause, t⟩
      · rfl
      · exact congrArg _ (hnote t _)

theorem attempt_ok {r : Option Failure} (h : s.attempt x c = (.ok r, t)) :
    ∃ i, x = .ofFin i ∧ s.assignment.assign i c = .ok t.assignment := by
  obtain ⟨i, a, u, hx, ha, hn, rfl⟩ := attempt_cases h
  have hf := (narrow_frame (s.committed a) i c).2
  rw [hn] at hf
  refine ⟨i, hx, ?_⟩
  cases r <;> exact ha.trans (congrArg _ hf.symm)

theorem value_of_attempt {r : Option Failure} (h : s.attempt (.ofFin i) c = (.ok r, t)) :
    t.assignment.value i = some c := by
  obtain ⟨i', hi, ha⟩ := attempt_ok h
  obtain rfl := VariableId.ofFin_injective hi
  rw [Assignment.value_of_assign ha, if_pos rfl]

theorem attempt_held (h : s.attempt x c = (.ok none, t)) :
    ∃ i, x = .ofFin i ∧ s.assignment.assign i c = .ok t.assignment ∧
      (s.store.keepOnly i c).1 = true ∧ (s.narrowed i c).emptiedBy = none ∧
      t.store = (s.narrowed i c).store ∧
      ∀ j ∈ G.neighbours i, t.assignment.value j ≠ some c := by
  obtain ⟨i, a, u, rfl, ha, hn, rfl⟩ := attempt_cases h
  have hf := (narrow_frame (s.committed a) i c).2
  rw [hn] at hf
  obtain ⟨hk, he, hs, hv⟩ := narrow_held hn
  refine ⟨i, rfl, ?_, hk, he, hs, ?_⟩
  · rw [hf]
    exact ha
  · rw [hf]
    exact hv

theorem attempt_failed (h : s.attempt x c = (.ok (some cause), t)) :
    ∃ i a, x = .ofFin i ∧ s.assignment.assign i c = .ok a ∧
      ((s.store.keepOnly i c).1 = false ∨
        (s.store.keepOnly i c).1 = true ∧ (∃ a, (s.narrowed i c).emptiedBy = some a) ∨
        (s.store.keepOnly i c).1 = true ∧ (s.narrowed i c).emptiedBy = none ∧
          ∃ j ∈ G.neighbours i, a.value j = some c) := by
  obtain ⟨i, a, u, rfl, ha, hn, -⟩ := attempt_cases h
  exact ⟨i, a, rfl, ha, narrow_failed hn⟩

theorem attempt_free (hi : s.assignment.value i = none) (c : Colour) :
    ∃ r t, s.attempt (.ofFin i) c = (.ok r, t) := by
  have ha : s.assignment.assign i c = .ok ⟨s.assignment.values.set i (some c)⟩ := by
    simp [Assignment.assign, Assignment.isAssigned, hi]
  rw [attempt_eq (VariableId.locate_ofFin i) ha]
  split <;> exact ⟨_, _, rfl⟩

private theorem Narrows.reduction {r : Option Failure} (h : s.Narrows i c t r) :
    Store.Reduction s.store t.store := by
  have hk := s.store.keepOnly_reduction i c
  have hn : Store.Reduction s.store (s.narrowed i c).store :=
    hk.trans (G.propagate_reduction _ s.propagation (G.arcsInto i))
  cases h with
  | absent _ hs => rwa [hs]
  | emptied _ _ hs | conflict _ _ hs | held _ _ hs => rwa [hs]

theorem attempt_reduction {r : Except Fault (Option Failure)} (h : s.attempt x c = (r, t)) :
    Store.Reduction s.store t.store := by
  cases r with
  | error =>
    rw [attempt_faulted h]
    exact .refl
  | ok r =>
    obtain ⟨i, a, u, -, -, hn, rfl⟩ := attempt_cases h
    have hr := (narrows_of_narrow hn).reduction
    cases r <;> exact hr

private theorem narrow_kept (s : Search G σ τ) (i : Fin G.order) (c : Colour) :
    ((s.narrow i c).2.variableSelector = s.variableSelector ∧
        (s.narrow i c).2.valueSelector = s.valueSelector) ∧
      (s.narrow i c).2.counters.decisions = s.counters.decisions ∧
        (s.narrow i c).2.counters.backtracks = s.counters.backtracks := by
  unfold narrow absorb
  split
  · exact ⟨⟨rfl, rfl⟩, rfl, rfl⟩
  · dsimp only
    cases (G.propagateFrom _ s.propagation i).emptiedBy with
    | some => exact ⟨⟨rfl, rfl⟩, rfl, rfl⟩
    | none =>
      dsimp only
      split <;> exact ⟨⟨rfl, rfl⟩, rfl, rfl⟩

theorem attempt_selectors {r : Option Failure} (h : s.attempt x c = (.ok r, t)) :
    t.variableSelector = s.variableSelector ∧ t.valueSelector = s.valueSelector := by
  obtain ⟨i, a, u, -, -, hn, rfl⟩ := attempt_cases h
  have hs := (narrow_kept (s.committed a) i c).1
  rw [hn] at hs
  cases r <;> exact hs

theorem attempt_counters {r : Option Failure} (h : s.attempt x c = (.ok r, t)) :
    t.counters.decisions = s.counters.decisions + 1 ∧
      t.counters.backtracks = s.counters.backtracks := by
  obtain ⟨i, a, u, -, -, hn, rfl⟩ := attempt_cases h
  have hs := (narrow_kept (s.committed a) i c).2
  rw [hn] at hs
  cases r <;> exact hs

section Choice

variable [VariableSelector σ] [ValueSelector τ] {u : Search G σ τ}
  {choice : Except Fault (Option (VariableId × List Colour))}

theorem choose_kept (hc : s.choose = (choice, t)) :
    t.store = s.store ∧ t.assignment = s.assignment := by
  have hs : s.choose.2.store = s.store := by
    unfold choose
    dsimp only
    split
    · rfl
    · split <;> rfl
  have ha := s.choose_frame.2
  rw [hc] at hs ha
  exact ⟨hs, ha⟩

theorem choose_counters (hc : s.choose = (choice, t)) : t.counters = s.counters := by
  have h : s.choose.2.counters = s.counters := by
    unfold choose
    dsimp only
    split
    · rfl
    · split <;> rfl
  rwa [hc] at h

theorem choose_view (hc : s.choose = (choice, t)) : t.view = s.view := by
  rw [view, view, (choose_kept hc).1, (choose_kept hc).2]

theorem numFree_lt {r : Option Failure} (ha : s.attempt x c = (.ok r, t))
    (hc : t.choose = (choice, u)) : u.assignment.numFree < s.assignment.numFree := by
  rw [(choose_kept hc).2, ← (attempt_frame ha).2]
  exact Nat.lt_succ_self _

theorem branch_reduction {r : Except Fault (Option Failure)} (ha : s.attempt x c = (r, t))
    (hc : t.choose = (choice, u)) : Store.Reduction s.store u.store := by
  rw [(choose_kept hc).1]
  exact attempt_reduction ha

end Choice

end Search
end Chromatic
