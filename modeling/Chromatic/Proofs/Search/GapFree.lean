import Chromatic.Proofs.Search.Symmetry
/-!
# Solutions leave out no colour

The search may go on to a new colour only after the smaller new colours. When the smallest new
colour failed, no permitted colouring uses it, and since unused colours are interchangeable none
uses a larger new colour in its place. So the branch that finds a solution never leaves out a
colour, although branches that fail do.
-/

namespace Chromatic

namespace Assignment

variable {n m k : Nat} {a b : Assignment n} {i : Fin n} {c : Colour}

/-- The colours in use are those from one up to `m`. -/
def Gapless (a : Assignment n) (m : Nat) : Prop := ∀ c, (∃ i, a.value i = some c) ↔ 1 ≤ c ∧ c ≤ m

private theorem gapless_empty (n : Nat) : (empty n).Gapless 0 := by
  intro c
  simp only [value_empty]
  lia

private theorem Gapless.unused (h : a.Gapless m) (hm : m < c) (hk : c ≤ k) : a.Unused k c where
  pos := Nat.one_le_of_lt hm
  le := hk
  ne_value i hi := absurd ((h c).mp ⟨i, hi⟩).2 (Nat.not_le.mpr hm)

private theorem exists_value_of_assign {x : Colour} (h : a.assign i c = .ok b) :
    (∃ j, b.value j = some x) ↔ x = c ∨ ∃ j, a.value j = some x := by
  constructor
  · rintro ⟨j, hj⟩
    rw [value_of_assign h] at hj
    split at hj
    · exact .inl (Option.some.inj hj).symm
    · exact .inr ⟨j, hj⟩
  · rintro (rfl | ⟨j, hj⟩)
    · exact ⟨i, by rw [value_of_assign h, if_pos rfl]⟩
    · exact ⟨j, value_of_assign_of_eq_some h hj⟩

private theorem Gapless.assign (hm : a.Gapless m) (h : a.assign i c = .ok b) (h1 : 1 ≤ c)
    (hc : c ≤ m + 1) : b.Gapless (max m c) := by
  intro x
  rw [exists_value_of_assign h, hm x]
  lia

end Assignment

namespace View

variable {G : Graph} {v : View G} {i : Fin G.order} {m k : Nat} {c d : Colour}
  {rest : List Colour}

private theorem Symmetric.cost_eq (h : v.Symmetric k) (hc : v.assignment.Unused k c)
    (hd : v.assignment.Unused k d) (hcd : c ≠ d) (i : Fin G.order) :
    LeastConstraining.cost v i c = LeastConstraining.cost v i d := by
  refine List.countP_congr fun j _ => ?_
  simp only [Bool.and_eq_true, Assignment.isAssigned, Bool.not_eq_true', Option.isSome_eq_false_iff,
    Option.isNone_iff_eq_none, allows, decide_eq_true_eq]
  exact and_congr_right fun hj =>
    iff_of_true (h.mem c d hcd hc hd j hj) (h.mem d c hcd.symm hd hc j hj)

/-- Of the colours to try for a variable, the next new one comes before those beyond it. If they
are there without it, no permitted colouring gives it to the variable. -/
structure Staged (v : View G) (i : Fin G.order) (m : Nat) (untried : List Colour) : Prop where
  order : untried.Pairwise fun c d => m + 1 < c → d ≠ m + 1
  next : ∀ c ∈ untried, m + 1 < c →
    m + 1 ∈ untried ∨ ∀ f, v.Permits f → f i ≠ m + 1

private theorem staged_leastConstraining (h : v.Symmetric k) (hb : v.Bounded k)
    (hm : v.assignment.Gapless m) (hi : v.assignment.value i = none) :
    v.Staged i m (v.leastConstraining i) := by
  have hunused {c : Colour} (hc : c ∈ v.leastConstraining i) (hmc : m < c) :
      v.assignment.Unused k c := by
    refine hm.unused hmc (Domain.mem_full.mp ?_).2
    have hmem : c ∈ v.store.domain i := (v.perm_leastConstraining i).mem_iff.mp hc
    have hfull := hb.reduction.mem_domain hmem
    rwa [Store.domain_full] at hfull
  constructor
  · refine (v.pairwise_leastConstraining i).imp_of_mem fun {c d} hc hd hcd hmc hdm => ?_
    have hcu := hunused hc (by lia)
    have hdu := hunused hd (by lia)
    have hcost := h.cost_eq hcu hdu (by lia) i
    simp only [Prefers] at hcd
    lia
  · intro c hc hmc
    have hcu := hunused hc (by lia)
    have hnext : v.assignment.Unused k (m + 1) := hm.unused (by lia) (hmc.le.trans hcu.le)
    have hmem : m + 1 ∈ v.store.domain i := h.mem (m + 1) c (by lia) hnext hcu i hi
    exact .inl ((v.perm_leastConstraining i).mem_iff.mpr hmem)

private theorem Staged.head_le {f : Fin G.order → Colour} (hst : v.Staged i m (c :: rest))
    (h : v.Symmetric k) (hm : v.assignment.Gapless m) (hk : c ≤ k) (hf : v.Permits f)
    (hfi : f i = c) : c ≤ m + 1 := by
  -- otherwise the two colours could be swapped
  by_contra hlt
  have hmc : m + 1 < c := Nat.not_le.mp hlt
  have hcu : v.assignment.Unused k c := hm.unused (by lia) hk
  have hnext : v.assignment.Unused k (m + 1) := hm.unused (by lia) (by lia)
  rcases hst.next c List.mem_cons_self hmc with hmem | hno
  · rcases List.mem_cons.mp hmem with heq | hmem
    · lia
    · exact (List.pairwise_cons.mp hst.order).1 (m + 1) hmem hmc rfl
  · refine hno _ (h.permits_swap hcu hnext (by lia) hf) ?_
    rw [hfi, Equiv.swap_apply_left]

private theorem Staged.tail (hst : v.Staged i m (c :: rest)) (hno : ∀ f, v.Permits f → f i ≠ c) :
    v.Staged i m rest := by
  refine ⟨(List.pairwise_cons.mp hst.order).2, fun d hd hmd => ?_⟩
  rcases hst.next d (List.mem_cons_of_mem _ hd) hmd with hmem | hnext
  · rcases List.mem_cons.mp hmem with rfl | hmem
    · exact .inr hno
    · exact .inl hmem
  · exact .inr hnext

end View

namespace Search

section Colours

variable {G : Graph} {σ τ : Type} {k : Nat} {s t : Search G σ τ} {i j : Fin G.order}
  {x : VariableId} {c d : Colour}

private theorem attempt_keeps {r : Option Failure} (h : s.attempt x c = (.ok r, t))
    (hj : s.assignment.value j = some d) : t.assignment.value j = some d := by
  obtain ⟨i, -, ha⟩ := attempt_ok h
  exact Assignment.value_of_assign_of_eq_some ha hj

private theorem AtRoot.domain_eq_full [VariableSelector σ] [ValueSelector τ] {v : σ} {w : τ}
    (h : AtRoot k v w s) (hlive : s.store.Live) (i : Fin G.order) :
    s.store.domain i = .full k := by
  refine Domain.ext_mem fun x => ⟨fun hx => Domain.mem_full.mpr (h.bounds hx), fun hx => ?_⟩
  obtain ⟨h1, hk⟩ := Domain.mem_full.mp hx
  obtain ⟨y, hy⟩ := hlive i
  by_cases hxy : x = y
  · rwa [hxy]
  · have hfree (i : Fin G.order) : s.view.assignment.value i = none := by
      rw [view, h.isIdle.assignment, Assignment.value_empty]
    have hunused {z : Colour} (h1 : 1 ≤ z) (hk : z ≤ k) : s.view.assignment.Unused k z :=
      ⟨h1, hk, fun i hi => Option.some_ne_none z (hi.symm.trans (hfree i))⟩
    exact h.symmetric.mem x y hxy (hunused h1 hk) (hunused (h.bounds hy).1 (h.bounds hy).2) i
      (hfree i)

end Colours

section Standard

variable {G : Graph} {κ : Type} {k m : Nat} {s t u : Search G FewestColours LeastConstraining}
  {i : Fin G.order} {x y : VariableId} {c : Colour} {untried colours : List Colour}

/-- The selectors are the standard ones, every arc is consistent, the colours are from one up to
`k`, and the unused ones are interchangeable. -/
structure Tidy (k : Nat) (s : Search G FewestColours LeastConstraining) : Prop where
  standard : s.variableSelector = .standard
  consistent : s.view.Consistent
  bounded : s.view.Bounded k
  symmetric : s.view.Symmetric k

namespace Tidy

private theorem disciplined (hs : Tidy k s) : Disciplined k s where
  chooses := by
    rw [hs.standard]
    exact FewestColours.lawful_standard
  orders := LeastConstraining.lawful _
  bounded := hs.bounded

private theorem attempt (hs : Tidy k s) (ha : s.attempt (.ofFin i) c = (.ok none, t))
    (hc : c ∈ s.store.domain i) : Tidy k t where
  standard := (attempt_selectors ha).1.trans hs.standard
  consistent := attempt_consistent ha hs.consistent
  bounded := attempt_bounded ha hc hs.bounded
  symmetric := attempt_symmetric ha hs.symmetric

private theorem rewindTo (hs : Tidy k s) (ht : t.variableSelector = .standard) :
    Tidy k (t.rewindTo s) := ⟨ht, hs.consistent, hs.bounded, hs.symmetric⟩

end Tidy

variable [TerminationCondition κ] {limit limit' : κ} {result : Option (Except Fault Outcome)}
  {sol : Solution}

private theorem Swept.permits (h : Swept s x untried limit result t limit')
    (hr : result = some (.ok (.solved sol))) (hx : x = .ofFin i)
    (hi : s.assignment.value i = none) (hu : ∀ c ∈ untried, c ∈ s.store.domain i)
    (hs : Tidy k s) :
    ∃ f, s.view.Permits f ∧ ∀ j, t.assignment.value j = some (f j) := by
  have htotal : ∀ j, t.assignment.value j ≠ none := by
    rcases h.settles hx hi hu hs.disciplined with ⟨hnone, -⟩ | ⟨_, -, -, htotal⟩ | hstop
    · cases hr.symm.trans hnone
    · exact htotal
    · cases hr.symm.trans hstop
  have hview : t.view.Consistent ∧
      ∀ j c, s.assignment.value j = some c → t.assignment.value j = some c :=
    (h.solved_view (P := fun v => v.Consistent ∧
        ∀ j c, s.assignment.value j = some c → v.assignment.value j = some c)
      (fun ha hv => ⟨attempt_consistent ha hv.1, fun j c hj => attempt_keeps ha (hv.2 j c hj)⟩)
      hr ⟨hs.consistent, fun _ _ => id⟩).1
  choose f hf using fun j => Option.ne_none_iff_exists'.mp (htotal j)
  refine ⟨f, ⟨fun i j hij heq => ?_, fun j => ?_, fun j c hj => ?_⟩, hf⟩
  · refine hview.1.isProper i j hij (f i) (hf i) ?_
    rw [heq]
    exact hf j
  · exact h.reduction.mem_domain (hview.1.mem (hf j))
  · exact Option.some.inj ((hf j).symm.trans (hview.2 j c hj))

private theorem Swept.head_le {rest : List Colour} (h : Swept s x (c :: rest) limit result t limit')
    (hr : result = some (.ok (.solved sol))) (hx : x = .ofFin i)
    (hi : s.assignment.value i = none) (hu : ∀ d ∈ c :: rest, d ∈ s.store.domain i)
    (hs : Tidy k s) (hm : s.assignment.Gapless m) (hst : s.view.Staged i m (c :: rest))
    (hic : t.assignment.value i = some c) : 1 ≤ c ∧ c ≤ m + 1 := by
  obtain ⟨f, hf, hvalue⟩ := h.permits hr hx hi hu hs
  have hfi : f i = c := Option.some.inj ((hvalue i).symm.trans hic)
  have hck := hs.bounded.reduction.mem_domain (hu c List.mem_cons_self)
  rw [Store.domain_full, Domain.mem_full] at hck
  exact ⟨hck.1, hst.head_le hs.symmetric hm hck.2 hf hfi⟩

/-- The colours of a solution are without a gap, and that of the variable whose colours were tried
is at most the next new one. -/
theorem Swept.gapless (h : Swept s x untried limit result t limit')
    (hr : result = some (.ok (.solved sol))) (hx : x = .ofFin i)
    (hi : s.assignment.value i = none) (hu : ∀ c ∈ untried, c ∈ s.store.domain i)
    (hs : Tidy k s) (hm : s.assignment.Gapless m) (hst : s.view.Staged i m untried) :
    (∃ m', t.assignment.Gapless m') ∧ ∃ c, t.assignment.value i = some c ∧ c ≤ m + 1 := by
  induction h generalizing i m with
  | abandoned | stopped | faulted | misordered => cases hr
  | refuted hl ha _ ih =>
    -- no permitted colouring has the colour that failed
    subst hx
    refine ih hr rfl hi (List.forall_mem_cons.mp hu).2
      (hs.rewindTo ((attempt_selectors ha).1.trans hs.standard)) hm (hst.tail fun f hf hfc => ?_)
    subst hfc
    cases (attempt_permits ha hf).1
  | solved hl ha hc =>
    subst hx
    have hview := (choose_kept hc).2
    have hic := value_of_attempt ha
    rw [← hview] at hic
    obtain ⟨h1, hle⟩ := (Swept.solved hl ha hc).head_le hr rfl hi hu hs hm hst hic
    obtain ⟨i', hi', hassign⟩ := attempt_ok ha
    rw [← hview] at hassign
    exact ⟨⟨_, hm.assign hassign h1 hle⟩, _, hic, hle⟩
  | settled hl ha hc hb ih =>
    subst hx
    have ht := hs.attempt ha (hu _ List.mem_cons_self)
    obtain ⟨rfl, j, hj, rfl, rfl⟩ := mostConstrained_eq_some ht.standard hc
    have hic := (hb.solved_view (P := fun v => v.assignment.value i = some _)
      (fun ha hv => attempt_keeps ha hv) hr (value_of_attempt ha)).1
    obtain ⟨h1, hle⟩ := (Swept.settled hl ha hc hb).head_le hr rfl hi hu hs hm hst hic
    obtain ⟨i', hi', hassign⟩ := attempt_ok ha
    have hm' := hm.assign hassign h1 hle
    have hfree := View.value_of_mostConstrained hj
    exact ⟨(ih hr rfl hfree (fun _ => (View.perm_leastConstraining _ j).mem_iff.mp) ht hm'
      (View.staged_leastConstraining ht.symmetric ht.bounded hm' hfree)).1, _, hic, hle⟩
  | defeated hl ha hc hb _ _ ihr =>
    subst hx
    obtain ⟨hcd, hrest⟩ := List.forall_mem_cons.mp hu
    have ht := hs.attempt ha hcd
    have hstandard := (variableSelector_of_choose hc ht.standard)
    refine ihr hr rfl hi hrest (hs.rewindTo (hb.standard hstandard)) hm
      (hst.tail fun f hf hfc => ?_)
    subst hfc
    exact ht.disciplined.not_permits hc hb f (attempt_permits ha hf).2

private theorem mostConstrained_least {v : View G} (hfree : ∀ i, v.assignment.value i = none)
    {n : Nat}
    (hsize : ∀ i, v.domainSize i = n) (hi : v.mostConstrained = some i) (j : Fin G.order) :
    i ≤ j := by
  by_cases hne : j = i
  · exact hne.ge
  · have hleast := (View.mostConstrained_eq_some.mp hi).least j (hfree j) hne
    rw [hsize, hsize] at hleast
    omega

private theorem Prepared.tidy (hk : 1 ≤ k) (hs : Prepared k FewestColours.standard {} s) :
    Tidy k s where
  standard := hs.atRoot.standard
  consistent := hs.consistent hk
  bounded := hs.atRoot.bounded
  symmetric := hs.atRoot.symmetric

private theorem Explored.gapless (hk : 1 ≤ k) (hs : Prepared k FewestColours.standard {} s)
    (h : Explored s limit (.ok (.solved sol)) t limit') :
    (∃ m, t.assignment.Gapless m) ∧
      ∀ i : Fin G.order, (∀ j, i ≤ j) → t.assignment.value i = some 1 := by
  have hempty := hs.atRoot.isIdle.assignment
  have htidy := hs.tidy hk
  cases h with
  | solved hc =>
    have hnone : ∀ i : Fin G.order, False := fun i => by
      refine htidy.disciplined.complete hc i ?_
      rw [(choose_kept hc).2, hempty, Assignment.value_empty]
    refine ⟨⟨0, fun c => ?_⟩, fun i => (hnone i).elim⟩
    exact ⟨fun ⟨i, _⟩ => (hnone i).elim, fun h => absurd h.1 (by lia)⟩
  | settled hc hb =>
    obtain ⟨rfl, j, hj, rfl, rfl⟩ := mostConstrained_eq_some htidy.standard hc
    have hfree := View.value_of_mostConstrained hj
    have hm : s.assignment.Gapless 0 := by
      rw [hempty]
      exact Assignment.gapless_empty _
    obtain ⟨hcolours, c, hjc, hle⟩ := hb.gapless rfl rfl hfree
      (fun _ => (View.perm_leastConstraining _ j).mem_iff.mp) htidy hm
      (View.staged_leastConstraining htidy.symmetric htidy.bounded hm hfree)
    refine ⟨hcolours, fun i hi => ?_⟩
    -- nothing was removed at the root, so every domain has the same size
    have hij : j = i := by
      refine Fin.le_antisymm (mostConstrained_least (n := k) (fun i => ?_) (fun i => ?_) hj i)
        (hi j)
      · rw [view, hempty, Assignment.value_empty]
      · rw [View.domainSize, view, hs.atRoot.domain_eq_full (hs.store_consistent hk).1]
        rfl
    subst hij
    obtain ⟨m, hm⟩ := hcolours
    have h1 := ((hm c).mp ⟨j, hjc⟩).1
    rw [hjc, show c = 1 by lia]

/-- The colours of a solution are those from one up to some number, and the first vertex has
colour one. -/
theorem run_gapless (hk : 1 ≤ k) (hs : Prepared k FewestColours.standard {} s)
    (h : (s.run limit).1 = .ok (.solved sol)) :
    (∃ m, ∀ c, (∃ v, sol.colourOf v = some c) ↔ 1 ≤ c ∧ c ≤ m) ∧
      ∀ i : Fin G.order, (∀ j, i ≤ j) → sol.colourOf (G.label i) = some 1 := by
  obtain ⟨t, he, -⟩ := run_ok hs.atRoot.isIdle h
  obtain ⟨-, rfl⟩ := he.solved_view (P := fun _ => True) (fun _ => id) trivial
  obtain ⟨⟨m, hm⟩, hfirst⟩ := he.gapless hk hs
  refine ⟨⟨m, fun c => ?_⟩, fun i hi => t.colourOf_solution_label.mpr (hfirst i hi)⟩
  rw [← hm c]
  constructor
  · rintro ⟨v, hv⟩
    obtain ⟨i, -, hi⟩ := t.colourOf_solution.mp hv
    exact ⟨i, hi⟩
  · rintro ⟨i, hi⟩
    exact ⟨G.label i, t.colourOf_solution_label.mpr hi⟩

end Standard

end Search

end Chromatic
