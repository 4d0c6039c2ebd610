import Chromatic.Proofs.Search.Symmetry
import Mathlib.Data.Fintype.Card
import Mathlib.Order.Interval.Finset.Nat
/-!
# Colours to spare

With no fewer colours than vertices a variable only ever loses colours that its neighbours have,
and there are not enough neighbours to take them all. So no domain runs empty, and when a free
variable is down to one colour, every neighbour has lost this colour already. How many colours
there are then shows only in the sizes of the domains, by the same amount in each, and in dear
colours at the end of the order in which they are tried.
-/

namespace Chromatic

private theorem Assignment.card_add_card_le {n : Nat} {a : Assignment n} {used : Finset Colour}
    {free : Finset (Fin n)} (hu : ∀ c ∈ used, ∃ i, a.value i = some c)
    (hf : ∀ i ∈ free, a.value i = none) : used.card + free.card ≤ n := by
  have hsurj : Set.SurjOn (fun i => (a.value i).getD 0) (freeᶜ : Finset (Fin n)) used := by
    intro c hc
    obtain ⟨i, hi⟩ := hu c hc
    refine ⟨i, ?_, by simp [hi]⟩
    rw [Finset.mem_coe, Finset.mem_compl]
    intro hmem
    rw [hf i hmem] at hi
    cases hi
  have hle := Finset.card_le_card_of_surjOn _ hsurj
  rw [Finset.card_compl, Fintype.card_fin] at hle
  have hfree := free.card_le_univ
  rw [Fintype.card_fin] at hfree
  omega

private theorem Assignment.lt_of_used {n k : Nat} {a : Assignment n} {i : Fin n}
    (hi : a.value i = none) (hu : ∀ c, 1 ≤ c → c ≤ k → ∃ j, a.value j = some c) : k < n := by
  have hused : ∀ c ∈ Finset.Icc 1 k, ∃ j, a.value j = some c := fun c hc =>
    hu c (Finset.mem_Icc.mp hc).1 (Finset.mem_Icc.mp hc).2
  have hfree : ∀ j ∈ ({i} : Finset (Fin n)), a.value j = none := fun j hj => by
    rw [Finset.mem_singleton.mp hj, hi]
  have hle := card_add_card_le hused hfree
  rwa [Nat.card_Icc, Nat.add_sub_cancel, Finset.card_singleton] at hle

private theorem Assignment.exists_unused {n k : Nat} {a : Assignment n} {i : Fin n}
    (hi : a.value i = none) (hk : n ≤ k) : ∃ c ≤ n, a.Unused k c := by
  by_contra hno
  have hlt : n < n := lt_of_used hi fun c h1 hn => by
    by_contra hc
    exact hno ⟨c, hn, h1, hn.trans hk, fun j hj => hc ⟨j, hj⟩⟩
  exact Nat.lt_irrefl n hlt

/-- A variable with a colour is open to no other one, and of the colours from one up to `k` a free
variable lacks only those that its neighbours have. -/
structure View.Spare {G : Graph} (k : Nat) (v : View G) : Prop where
  within : ∀ i, ∀ x ∈ v.store.domain i, 1 ≤ x ∧ x ≤ k
  fixed : ∀ i c, v.assignment.value i = some c → (v.store.domain i).values = [c]
  taken : ∀ i, v.assignment.value i = none → ∀ x, 1 ≤ x → x ≤ k → x ∉ v.store.domain i →
    ∃ j ∈ G.neighbours i, v.assignment.value j = some x
  proper : v.assignment.IsProper

namespace View.Spare

variable {G : Graph} {k : Nat} {v : View G} {s : Store G.order} {a : Assignment G.order}
  {i j : Fin G.order} {arc : Arc G.order} {c x : Colour}

private theorem mem_of_fixed (h : v.Spare k) (hi : v.assignment.value i = some c) :
    c ∈ v.store.domain i := (Domain.mem_of_values_eq (h.fixed i c hi)).mpr rfl

private theorem eq_of_mem (h : v.Spare k) (hi : v.assignment.value i = some c)
    (hx : x ∈ v.store.domain i) : x = c := (Domain.mem_of_values_eq (h.fixed i c hi)).mp hx

private theorem mem_of_unused (h : v.Spare k) (hi : v.assignment.value i = none)
    (hx : v.assignment.Unused k x) : x ∈ v.store.domain i := by
  by_contra hout
  obtain ⟨j, -, hj⟩ := h.taken i hi x hx.pos hx.le hout
  exact hx.ne_value j hj

private theorem live (h : v.Spare k) (hk : G.order ≤ k) : v.store.Live := by
  intro i
  cases hi : v.assignment.value i with
  | some c => exact ⟨c, h.mem_of_fixed hi⟩
  | none =>
    by_contra hno
    have hlt : k < G.order := Assignment.lt_of_used hi fun c h1 hck => by
      obtain ⟨j, -, hj⟩ := h.taken i hi c h1 hck fun hmem => hno ⟨c, hmem⟩
      exact ⟨j, hj⟩
    omega

private theorem not_mem_of_single (h : v.Spare k) (hk : G.order ≤ k)
    (hi : v.assignment.value i = none)
    (hc : (v.store.domain i).values = [c]) (hij : i ≠ j) : c ∉ v.store.domain j := by
  intro hmem
  have hused : ∀ x, 1 ≤ x → x ≤ k → x ≠ c → ∃ j, v.assignment.value j = some x := by
    intro x h1 hxk hxc
    have hout : x ∉ v.store.domain i := fun hx => hxc ((Domain.mem_of_values_eq hc).mp hx)
    obtain ⟨j, -, hj⟩ := h.taken i hi x h1 hxk hout
    exact ⟨j, hj⟩
  cases hj : v.assignment.value j with
  | none =>
    -- two free variables are one too many
    have hrest : ∀ x ∈ (Finset.Icc 1 k).erase c, ∃ j, v.assignment.value j = some x := by
      intro x hx
      obtain ⟨hxc, hx⟩ := Finset.mem_erase.mp hx
      exact hused x (Finset.mem_Icc.mp hx).1 (Finset.mem_Icc.mp hx).2 hxc
    have hfree : ∀ z ∈ ({i, j} : Finset (Fin G.order)), v.assignment.value z = none := by
      intro z hz
      rcases Finset.mem_insert.mp hz with rfl | hz
      · exact hi
      · rw [Finset.mem_singleton.mp hz, hj]
    have hle := Assignment.card_add_card_le hrest hfree
    rw [Finset.card_erase_of_mem (Finset.mem_Icc.mpr (h.within j c hmem)), Nat.card_Icc,
      Finset.card_pair hij] at hle
    omega
  | some d =>
    -- the neighbour has the colour itself, so all colours are in use
    obtain rfl := h.eq_of_mem hj hmem
    have hlt : k < G.order := Assignment.lt_of_used hi fun x h1 hxk => by
      by_cases hxc : x = c
      · exact ⟨j, hxc ▸ hj⟩
      · exact hused x h1 hxk hxc
    omega

private theorem full (G : Graph) (k : Nat) : Spare k ⟨.full G.order k, .empty G.order⟩ where
  within i x hx := by
    rwa [Store.domain_full, Domain.mem_full] at hx
  fixed i c hi := by
    rw [Assignment.value_empty] at hi
    cases hi
  taken i _ x h1 hk hx := by
    rw [Store.domain_full, Domain.mem_full] at hx
    exact absurd ⟨h1, hk⟩ hx
  proper := Assignment.isProper_empty G

private theorem keepOnly (h : v.Spare k) (ha : v.assignment.assign i c = .ok a)
    (hc : c ∈ v.store.domain i) (hn : ∀ j ∈ G.neighbours i, a.value j ≠ some c) :
    Spare k ⟨(v.store.keepOnly i c).2, a⟩ := by
  have hk := Store.keepOnly_of_mem hc
  refine ⟨fun j x hx => h.within j x ((Store.mem_keepOnly hk).mp hx).1, fun j d hj => ?_,
    fun j hj x h1 hxk hx => ?_, h.proper.assign ha hn⟩
  all_goals rw [Assignment.value_of_assign ha] at hj
  · split at hj
    · next hij =>
      subst hij
      cases hj
      exact Domain.values_eq_singleton ⟨c, (Store.mem_keepOnly hk).mpr ⟨hc, fun _ => rfl⟩⟩
        fun x hx => ((Store.mem_keepOnly hk).mp hx).2 rfl
    · next hij =>
      rw [Store.domain_keepOnly_of_ne hk hij]
      exact h.fixed j d hj
  · split at hj
    · cases hj
    · next hij =>
      rw [Store.domain_keepOnly_of_ne hk hij] at hx
      obtain ⟨z, hz, hzx⟩ := h.taken j hj x h1 hxk hx
      exact ⟨z, hz, Assignment.value_of_assign_of_eq_some ha hzx⟩

private theorem remove (h : Spare k ⟨s, a⟩) (harc : G.IsArc arc) (hc : a.value arc.head = some c)
    (hmem : c ∈ s.domain arc.tail) : Spare k ⟨(s.remove arc.tail c).2, a⟩ := by
  have htail : a.value arc.tail = none := by
    cases hd : a.value arc.tail with
    | none => rfl
    | some d =>
      obtain rfl := h.eq_of_mem hd hmem
      exact absurd hc (h.proper arc.tail arc.head harc c hd)
  refine ⟨fun i x hx => h.within i x (Store.mem_domain_remove.mp hx).1, fun i d hi => ?_,
    fun i hi x h1 hxk hx => ?_, h.proper⟩
  · have hne : arc.tail ≠ i := by
      rintro rfl
      rw [htail] at hi
      cases hi
    rw [Store.domain_remove_of_ne hne]
    exact h.fixed i d hi
  · by_cases hix : arc.tail = i ∧ x = c
    · obtain ⟨rfl, rfl⟩ := hix
      exact ⟨arc.head, harc, hc⟩
    · exact h.taken i hi x h1 hxk fun hin => hx (Store.mem_domain_remove.mpr ⟨hin, hix⟩)

private theorem revise_removed (h : Spare k ⟨s, a⟩) (hk : G.order ≤ k) (harc : G.IsArc arc)
    (hc : a.value arc.head = some c) (hmem : c ∈ s.domain arc.tail) :
    s.revise arc = (.removed, (s.remove arc.tail c).2) := by
  have hrevise : s.revise arc = s.remove arc.tail c := by
    rw [Store.revise, Domain.fixedValue_eq_some.mpr (h.fixed arc.head c hc)]
  have hlive := (h.remove harc hc hmem).live hk arc.tail
  rw [hrevise]
  rcases hr : s.remove arc.tail c with ⟨_ | _ | _, t⟩
  · exact absurd (congrArg Prod.fst hr) (Store.remove_ne_absent hmem)
  · rfl
  · obtain ⟨x, hx⟩ := hlive
    exact absurd hx (Store.remove_emptied (congrArg Prod.fst hr) x)

private theorem revise_absent (h : Spare k ⟨s, a⟩) (hk : G.order ≤ k) (harc : G.IsArc arc)
    (hno : ∀ c, a.value arc.head = some c → c ∉ s.domain arc.tail) :
    s.revise arc = (.absent, s) := by
  cases hfix : (s.domain arc.head).fixedValue with
  | none => rw [Store.revise, hfix]
  | some c =>
    have hc := Domain.fixedValue_eq_some.mp hfix
    have hmem : c ∉ s.domain arc.tail := by
      cases hhead : a.value arc.head with
      | none => exact h.not_mem_of_single hk hhead hc (Graph.ne_of_mem_neighbours harc).symm
      | some d =>
        have hd := h.fixed arc.head d hhead
        rw [hc, List.singleton_inj] at hd
        exact hd ▸ hno d hhead
    rw [Store.revise, hfix]
    exact Store.remove_of_not_mem hmem

private theorem domainSize_add_card (h : v.Spare k) (i : Fin G.order) :
    v.domainSize i + ((Finset.Icc 1 k).filter (· ∉ v.store.domain i)).card = k := by
  have hopen : (Finset.Icc 1 k).filter (· ∈ v.store.domain i) =
      (v.store.domain i).values.toFinset := by
    ext x
    rw [Finset.mem_filter, Finset.mem_Icc, List.mem_toFinset]
    exact and_iff_right_of_imp (h.within i x)
  have hn : (v.store.domain i).values.Nodup := (v.store.domain i).ascending.imp Nat.ne_of_lt
  have hcard := Finset.card_filter_add_card_filter_not (s := Finset.Icc 1 k)
    (· ∈ v.store.domain i)
  rwa [hopen, List.toFinset_card_of_nodup hn, ← (v.store.domain i).size_eq, Nat.card_Icc,
    Nat.add_sub_cancel] at hcard

private theorem cost_le (h : v.Spare k) (hx : v.assignment.Unused k x) (i : Fin G.order)
    (c : Colour) : LeastConstraining.cost v i c ≤ LeastConstraining.cost v i x := by
  refine List.countP_mono_left fun j _ hj => ?_
  rw [Bool.and_eq_true, Bool.not_eq_true'] at hj ⊢
  have hfree : v.assignment.value j = none := by
    simpa [Assignment.isAssigned] using hj.1
  exact ⟨hj.1, decide_eq_true (h.mem_of_unused hfree hx)⟩

end View.Spare

/-- Two views with the same assignment and with the same open colours, as far as both have them. -/
structure View.Twins {G : Graph} (k l : Nat) (v w : View G) : Prop where
  left : v.Spare k
  right : w.Spare l
  assignment : w.assignment = v.assignment
  agree : ∀ i x, x ≤ k → x ≤ l → (x ∈ v.store.domain i ↔ x ∈ w.store.domain i)

namespace View.Twins

variable {G : Graph} {k l : Nat} {v w : View G} {s t : Store G.order} {a b : Assignment G.order}
  {i : Fin G.order} {arc : Arc G.order} {c x : Colour}
  {queue : List (Arc G.order)}

private theorem symm (h : Twins k l v w) : Twins l k w v where
  left := h.right
  right := h.left
  assignment := h.assignment.symm
  agree i x hl hk := (h.agree i x hk hl).symm

private theorem le_of_value (h : Twins k l v w) (hi : v.assignment.value i = some c) :
    c ≤ k ∧ c ≤ l := by
  refine ⟨(h.left.within i c (h.left.mem_of_fixed hi)).2, ?_⟩
  rw [← h.assignment] at hi
  exact (h.right.within i c (h.right.mem_of_fixed hi)).2

theorem full (G : Graph) (k l : Nat) :
    Twins k l ⟨.full G.order k, .empty G.order⟩ ⟨.full G.order l, .empty G.order⟩ where
  left := .full G k
  right := .full G l
  assignment := rfl
  agree i x hk hl := by
    rw [Store.domain_full, Store.domain_full, Domain.mem_full, Domain.mem_full]
    exact and_congr_right fun _ => iff_of_true hk hl

theorem keepOnly (h : Twins k l v w) (ha : v.assignment.assign i c = .ok a)
    (hv : c ∈ v.store.domain i) (hw : c ∈ w.store.domain i)
    (hn : ∀ j ∈ G.neighbours i, a.value j ≠ some c) :
    Twins k l ⟨(v.store.keepOnly i c).2, a⟩ ⟨(w.store.keepOnly i c).2, a⟩ where
  left := h.left.keepOnly ha hv hn
  right := h.right.keepOnly (h.assignment ▸ ha) hw hn
  assignment := rfl
  agree j x hk hl := by
    rw [Store.mem_keepOnly (Store.keepOnly_of_mem hv),
      Store.mem_keepOnly (Store.keepOnly_of_mem hw)]
    exact and_congr_left fun _ => h.agree j x hk hl

private theorem revise (h : Twins k l ⟨s, a⟩ ⟨t, a⟩) (hk : G.order ≤ k) (hl : G.order ≤ l)
    (harc : G.IsArc arc) :
    s.revise arc = (.absent, s) ∧ t.revise arc = (.absent, t) ∨
      ∃ s' t', s.revise arc = (.removed, s') ∧ t.revise arc = (.removed, t') ∧
        Twins k l ⟨s', a⟩ ⟨t', a⟩ := by
  have hagree : ∀ c, a.value arc.head = some c →
      (c ∈ s.domain arc.tail ↔ c ∈ t.domain arc.tail) := fun c hc =>
    h.agree arc.tail c (h.le_of_value hc).1 (h.le_of_value hc).2
  by_cases hlost : ∃ c, a.value arc.head = some c ∧ c ∈ s.domain arc.tail
  · obtain ⟨c, hc, hmem⟩ := hlost
    have hmem' := (hagree c hc).mp hmem
    refine .inr ⟨_, _, h.left.revise_removed hk harc hc hmem,
      h.right.revise_removed hl harc hc hmem', h.left.remove harc hc hmem,
      h.right.remove harc hc hmem', rfl, fun i x hxk hxl => ?_⟩
    rw [Store.mem_domain_remove, Store.mem_domain_remove]
    exact and_congr_left fun _ => h.agree i x hxk hxl
  · refine .inl ⟨h.left.revise_absent hk harc fun c hc hmem => hlost ⟨c, hc, hmem⟩,
      h.right.revise_absent hl harc fun c hc hmem => ?_⟩
    exact hlost ⟨c, hc, (hagree c hc).mpr hmem⟩

/-- Propagation does the same work on both views and empties no domain. -/
theorem propagate (h : Twins k l ⟨s, a⟩ ⟨t, a⟩) (counters : PropagationCounters)
    (hk : G.order ≤ k) (hl : G.order ≤ l) (hq : ∀ arc ∈ queue, G.IsArc arc) :
    (G.propagate s counters queue).emptiedBy = none ∧
      (G.propagate t counters queue).emptiedBy = none ∧
      (G.propagate t counters queue).counters = (G.propagate s counters queue).counters ∧
      Twins k l ⟨(G.propagate s counters queue).store, a⟩
        ⟨(G.propagate t counters queue).store, a⟩ := by
  revert t
  fun_induction Graph.propagate G s counters queue with
  | case1 =>
    intro t h
    rw [Graph.propagate_nil]
    exact ⟨rfl, rfl, rfl, h⟩
  | case2 s _ arc rest _ _ hr ih =>
    intro t h
    obtain ⟨harc, hrest⟩ := List.forall_mem_cons.mp hq
    rcases h.revise hk hl harc with ⟨-, ht⟩ | ⟨_, _, hs, -⟩
    · rw [Graph.propagate_cons, ht]
      exact ih hrest h
    · cases hr.symm.trans hs
  | case3 s _ arc rest _ s' hr ih =>
    intro t h
    obtain ⟨harc, hrest⟩ := List.forall_mem_cons.mp hq
    rcases h.revise hk hl harc with ⟨hs, -⟩ | ⟨_, t', hs, ht, h'⟩
    · cases hr.symm.trans hs
    · cases hr.symm.trans hs
      rw [Graph.propagate_cons, ht]
      refine ih (fun b hb => ?_) h'
      rcases List.mem_append.mp hb with hb | hb
      · exact hrest b hb
      · exact Graph.isArc_of_mem_arcsAfter hb
  | case4 s _ arc rest _ s' hr =>
    intro t h
    rcases h.revise hk hl (hq arc List.mem_cons_self) with ⟨hs, -⟩ | ⟨_, _, hs, -⟩
    all_goals cases hr.symm.trans hs

private theorem not_mem_of_not_mem (h : Twins k l v w) (hi : v.assignment.value i = none)
    (h1 : 1 ≤ x) (hk : x ≤ k) (hx : x ∉ v.store.domain i) : x ≤ l ∧ x ∉ w.store.domain i := by
  obtain ⟨j, -, hj⟩ := h.left.taken i hi x h1 hk hx
  have hl := (h.le_of_value hj).2
  exact ⟨hl, fun hmem => hx ((h.agree i x hk hl).mpr hmem)⟩

private theorem domainSize (h : Twins k l v w) (hi : v.assignment.value i = none) :
    v.domainSize i + l = w.domainSize i + k := by
  have hmissing : (Finset.Icc 1 k).filter (· ∉ v.store.domain i) =
      (Finset.Icc 1 l).filter (· ∉ w.store.domain i) := by
    have hi' : w.assignment.value i = none := h.assignment ▸ hi
    ext x
    simp only [Finset.mem_filter, Finset.mem_Icc]
    constructor
    · rintro ⟨⟨h1, hk⟩, hx⟩
      obtain ⟨hl, hx'⟩ := h.not_mem_of_not_mem hi h1 hk hx
      exact ⟨⟨h1, hl⟩, hx'⟩
    · rintro ⟨⟨h1, hl⟩, hx⟩
      obtain ⟨hk, hx'⟩ := h.symm.not_mem_of_not_mem hi' h1 hl hx
      exact ⟨⟨h1, hk⟩, hx'⟩
  have hv := h.left.domainSize_add_card i
  have hw := h.right.domainSize_add_card i
  rw [hmissing] at hv
  omega

theorem mostConstrained (h : Twins k l v w) : w.mostConstrained = v.mostConstrained := by
  have hfree : w.free = v.free := by rw [View.free, View.free, h.assignment]
  have hle : ∀ i ∈ v.free, ∀ j ∈ v.free,
      (w.domainSize i ≤ w.domainSize j ↔ v.domainSize i ≤ v.domainSize j) := by
    intro i hi j hj
    have hi := h.domainSize (View.mem_free.mp hi)
    have hj := h.domainSize (View.mem_free.mp hj)
    omega
  ext i
  simp only [View.mostConstrained, ← Option.mem_def, List.mem_argmin_iff, hfree]
  refine and_congr_right fun hi => and_congr ?_ ?_
  · exact forall₂_congr fun j hj => hle i hi j hj
  · exact forall₂_congr fun j hj => by rw [hle j hj i hi]

private theorem cost_eq (h : Twins k l v w) (i : Fin G.order) (hk : c ≤ k) (hl : c ≤ l) :
    LeastConstraining.cost w i c = LeastConstraining.cost v i c := by
  refine List.countP_congr fun j _ => ?_
  simp only [h.assignment, allows, h.agree j c hk hl]

end View.Twins

private theorem View.of_leastConstraining {G : Graph} {v : View G} {i : Fin G.order} {c : Colour}
    {rest : List Colour} (h : v.leastConstraining i = c :: rest) :
    c ∈ v.store.domain i ∧ ∀ d ∈ v.store.domain i, v.Prefers i c d := by
  have hmem : ∀ d, d ∈ v.store.domain i ↔ d ∈ c :: rest := fun d => by
    rw [← h]
    exact (v.perm_leastConstraining i).mem_iff.symm
  have hpairwise := v.pairwise_leastConstraining i
  rw [h] at hpairwise
  refine ⟨(hmem c).mpr List.mem_cons_self, fun d hd => ?_⟩
  rcases List.mem_cons.mp ((hmem d).mp hd) with rfl | hd
  · exact .inr ⟨rfl, Nat.le_refl d⟩
  · exact (List.pairwise_cons.mp hpairwise).1 d hd

namespace View.Twins

variable {G : Graph} {k l : Nat} {v w : View G} {i : Fin G.order} {c : Colour}
  {rest : List Colour}

private theorem head_le (h : Twins k l v w) (hk : G.order ≤ k) (hl : G.order ≤ l)
    (hi : v.assignment.value i = none) (hc : v.leastConstraining i = c :: rest) : c ≤ l := by
  -- a smaller colour that is not in use costs no more
  obtain ⟨hmem, hfirst⟩ := View.of_leastConstraining hc
  obtain ⟨h1, hck⟩ := h.left.within i c hmem
  by_contra hlc
  have hunused : v.assignment.Unused k c :=
    ⟨h1, hck, fun j hj => hlc (h.le_of_value hj).2⟩
  obtain ⟨x, hx, hxu⟩ := Assignment.exists_unused hi hk
  have hopen := h.left.mem_of_unused hi hxu
  -- both are not in use, so the larger one costs no less
  have hcost := h.left.cost_le hunused i x
  have hprefers := hfirst x hopen
  simp only [Prefers] at hprefers
  lia

theorem leastConstraining (h : Twins k l v w) (hk : G.order ≤ k) (hl : G.order ≤ l)
    (hi : v.assignment.value i = none) :
    ∃ c rest rest', v.leastConstraining i = c :: rest ∧ w.leastConstraining i = c :: rest' ∧
      c ∈ v.store.domain i ∧ c ∈ w.store.domain i := by
  have hcons : ∀ {k : Nat} {v : View G}, v.Spare k → G.order ≤ k →
      ∃ c rest, v.leastConstraining i = c :: rest := fun {k v} hv hk => by
    obtain ⟨x, hx⟩ := hv.live hk i
    exact List.exists_cons_of_ne_nil
      (List.ne_nil_of_mem ((v.perm_leastConstraining i).mem_iff.mpr hx))
  obtain ⟨c, rest, hc⟩ := hcons h.left hk
  obtain ⟨d, rest', hd⟩ := hcons h.right hl
  obtain ⟨hcv, hcfirst⟩ := View.of_leastConstraining hc
  obtain ⟨hdw, hdfirst⟩ := View.of_leastConstraining hd
  have hck := (h.left.within i c hcv).2
  have hdl := (h.right.within i d hdw).2
  have hcl := h.head_le hk hl hi hc
  have hdk := h.symm.head_le hl hk (h.assignment ▸ hi) hd
  have hcw := (h.agree i c hck hcl).mp hcv
  have hdv := (h.agree i d hdk hdl).mpr hdw
  have hcd := hcfirst d hdv
  have hdc := hdfirst c hcw
  rw [Prefers, h.cost_eq i hck hcl, h.cost_eq i hdk hdl] at hdc
  obtain rfl := hcd.antisymm hdc
  exact ⟨c, rest, rest', hc, hd, hcv, hcw⟩

end View.Twins

end Chromatic
