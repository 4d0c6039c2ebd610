import Chromatic.Proofs.Search.Unfailing
import Mathlib.Data.Finset.Card
import Mathlib.Order.Interval.Finset.Nat
/-!
# Searches that never go back

A variable loses a colour only when this colour is the last one of a neighbour. Different colours
are the last ones of different neighbours, so with more colours than neighbours there is always a
colour that is open to the variable and is not the last one of any neighbour. Then no revision
empties a domain, in whatever order arcs are revised, and every colour that is tried holds.
-/

namespace Chromatic

private theorem Graph.card_le_of_fixed {G : Graph} {s : Store G.order} {i : Fin G.order}
    {colours : Finset Colour}
    (h : ∀ x ∈ colours, ∃ j ∈ G.neighbours i, (s.domain j).values = [x]) :
    colours.card ≤ (G.neighbours i).length := by
  have hsurj : Set.SurjOn (fun j => (s.domain j).values.headD 0)
      ((G.neighbours i).toFinset : Finset (Fin G.order)) colours := by
    intro x hx
    obtain ⟨j, hj, hvalues⟩ := h x hx
    exact ⟨j, List.mem_toFinset.mpr hj, by simp [hvalues]⟩
  have hle := Finset.card_le_card_of_surjOn _ hsurj
  exact hle.trans (List.toFinset_card_le _)

/-- A variable with a colour is open to no other one, and of the colours from one up to `k` a free
variable lacks only those that are the last ones of its neighbours. -/
structure View.Ample {G : Graph} (k : Nat) (v : View G) : Prop where
  fixed : ∀ i c, v.assignment.value i = some c → (v.store.domain i).values = [c]
  taken : ∀ i, v.assignment.value i = none → ∀ x, 1 ≤ x → x ≤ k → x ∉ v.store.domain i →
    ∃ j ∈ G.neighbours i, (v.store.domain j).values = [x]
  proper : v.assignment.IsProper

/-- Every variable has fewer neighbours than there are colours. -/
def Graph.Sparse (G : Graph) (k : Nat) : Prop := ∀ i, (G.neighbours i).length < k

namespace View.Ample

variable {G : Graph} {k : Nat} {v : View G} {s : Store G.order} {a : Assignment G.order}
  {i j : Fin G.order} {arc : Arc G.order} {c : Colour}

private theorem exists_open (h : v.Ample k) (hG : G.Sparse k) (hi : v.assignment.value i = none) :
    ∃ x ∈ v.store.domain i, ∀ j ∈ G.neighbours i, (v.store.domain j).values ≠ [x] := by
  by_contra hno
  have htaken : ∀ x ∈ Finset.Icc 1 k, ∃ j ∈ G.neighbours i, (v.store.domain j).values = [x] := by
    intro x hx
    obtain ⟨h1, hk⟩ := Finset.mem_Icc.mp hx
    by_cases hmem : x ∈ v.store.domain i
    · by_contra hnone
      apply hno
      exact ⟨x, hmem, fun j hj heq => hnone ⟨j, hj, heq⟩⟩
    · exact h.taken i hi x h1 hk hmem
  have hcard := Graph.card_le_of_fixed htaken
  have hlt := hG i
  simp only [Nat.card_Icc] at hcard
  omega

private theorem full (G : Graph) (k : Nat) : Ample k ⟨.full G.order k, .empty G.order⟩ where
  fixed i c hi := by
    rw [Assignment.value_empty] at hi
    cases hi
  taken i _ x h1 hk hx := by
    rw [Store.domain_full, Domain.mem_full] at hx
    exact absurd ⟨h1, hk⟩ hx
  proper := Assignment.isProper_empty G

private theorem keepOnly (h : v.Ample k) (ha : v.assignment.assign i c = .ok a)
    (hc : c ∈ v.store.domain i) (hn : ∀ j ∈ G.neighbours i, a.value j ≠ some c) :
    Ample k ⟨(v.store.keepOnly i c).2, a⟩ := by
  have hk := Store.keepOnly_of_mem hc
  have hvalues : ((v.store.keepOnly i c).2.domain i).values = [c] := by
    apply Domain.values_eq_singleton
    · exact ⟨c, (Store.mem_keepOnly hk).mpr ⟨hc, fun _ => rfl⟩⟩
    · intro x hx
      exact ((Store.mem_keepOnly hk).mp hx).2 rfl
  refine ⟨?_, ?_, h.proper.assign ha hn⟩
  · intro j d hj
    rw [Assignment.value_of_assign ha] at hj
    by_cases hij : i = j
    · subst hij
      rw [if_pos rfl] at hj
      cases hj
      exact hvalues
    · rw [if_neg hij] at hj
      rw [Store.domain_keepOnly_of_ne hk hij]
      exact h.fixed j d hj
  · intro j hj x h1 hxk hx
    rw [Assignment.value_of_assign ha] at hj
    by_cases hij : i = j
    · rw [if_pos hij] at hj
      cases hj
    · rw [if_neg hij] at hj
      rw [Store.domain_keepOnly_of_ne hk hij] at hx
      obtain ⟨z, hz, hlast⟩ := h.taken j hj x h1 hxk hx
      refine ⟨z, hz, ?_⟩
      by_cases hiz : i = z
      · subst hiz
        rw [hvalues, (Domain.mem_of_values_eq hlast).mp hc]
      · rwa [Store.domain_keepOnly_of_ne hk hiz]

private theorem free_of_mem (h : Ample k ⟨s, a⟩) (hG : G.Sparse k) (harc : G.IsArc arc)
    (hc : (s.domain arc.head).values = [c]) (hmem : c ∈ s.domain arc.tail) :
    a.value arc.tail = none := by
  cases htail : a.value arc.tail with
  | none => rfl
  | some d =>
    exfalso
    have hvalues := h.fixed arc.tail d htail
    obtain rfl : c = d := (Domain.mem_of_values_eq hvalues).mp hmem
    cases hhead : a.value arc.head with
    | none =>
      -- the head is open to another colour than that of the tail
      obtain ⟨x, hx, hopen⟩ := h.exists_open hG hhead
      obtain rfl : x = c := (Domain.mem_of_values_eq hc).mp hx
      exact hopen arc.tail (G.adjacency_symm arc.tail arc.head harc) hvalues
    | some e =>
      have he := h.fixed arc.head e hhead
      obtain rfl : c = e := List.singleton_inj.mp (hc.symm.trans he)
      exact h.proper arc.tail arc.head harc c htail hhead

private theorem exists_other (h : Ample k ⟨s, a⟩) (hG : G.Sparse k) (harc : G.IsArc arc)
    (hc : (s.domain arc.head).values = [c]) (hmem : c ∈ s.domain arc.tail) :
    ∃ x ∈ s.domain arc.tail, x ≠ c := by
  obtain ⟨x, hx, hopen⟩ := h.exists_open hG (h.free_of_mem hG harc hc hmem)
  refine ⟨x, hx, ?_⟩
  rintro rfl
  exact hopen arc.head harc hc

private theorem remove (h : Ample k ⟨s, a⟩) (hG : G.Sparse k) (harc : G.IsArc arc)
    (hc : (s.domain arc.head).values = [c]) (hmem : c ∈ s.domain arc.tail) :
    Ample k ⟨(s.remove arc.tail c).2, a⟩ := by
  have hfree := h.free_of_mem hG harc hc hmem
  have hne : arc.tail ≠ arc.head := Graph.ne_of_mem_neighbours harc
  refine ⟨?_, ?_, h.proper⟩
  · intro i d hi
    have hit : arc.tail ≠ i := by
      rintro rfl
      rw [hfree] at hi
      cases hi
    rw [Store.domain_remove_of_ne hit]
    exact h.fixed i d hi
  · intro i hi x h1 hxk hx
    by_cases hix : arc.tail = i ∧ x = c
    · obtain ⟨rfl, rfl⟩ := hix
      refine ⟨arc.head, harc, ?_⟩
      rw [Store.domain_remove_of_ne hne]
      exact hc
    · have hout : x ∉ s.domain i := fun hin => hx (Store.mem_domain_remove.mpr ⟨hin, hix⟩)
      obtain ⟨j, hj, hlast⟩ := h.taken i hi x h1 hxk hout
      refine ⟨j, hj, ?_⟩
      have hjt : arc.tail ≠ j := by
        -- the tail has two colours
        rintro rfl
        obtain ⟨y, hy, hyc⟩ := h.exists_other hG harc hc hmem
        apply hyc
        rw [(Domain.mem_of_values_eq hlast).mp hy, (Domain.mem_of_values_eq hlast).mp hmem]
      rw [Store.domain_remove_of_ne hjt]
      exact hlast

private theorem revise {o : RemovalOutcome} {t : Store G.order} (h : Ample k ⟨s, a⟩)
    (hG : G.Sparse k)
    (harc : G.IsArc arc) (hr : s.revise arc = (o, t)) : o ≠ .emptied ∧ Ample k ⟨t, a⟩ := by
  rw [Store.revise] at hr
  split at hr
  · cases hr
    exact ⟨by simp, h⟩
  · next c hfixed =>
    have hc := Domain.fixedValue_eq_some.mp hfixed
    by_cases hmem : c ∈ s.domain arc.tail
    · obtain ⟨x, hx, hxc⟩ := h.exists_other hG harc hc hmem
      have ht := h.remove hG harc hc hmem
      have hstay : x ∈ (s.remove arc.tail c).2.domain arc.tail :=
        Store.mem_domain_remove.mpr ⟨hx, fun hxc' => hxc hxc'.2⟩
      rw [hr] at ht hstay
      refine ⟨?_, ht⟩
      rintro rfl
      have hempty := Store.remove_emptied (congrArg Prod.fst hr) x
      rw [hr] at hempty
      exact hempty hstay
    · rw [Store.remove_of_not_mem hmem] at hr
      cases hr
      exact ⟨by simp, h⟩

private theorem propagate {queue : List (Arc G.order)} (h : Ample k ⟨s, a⟩) (hG : G.Sparse k)
    (hq : ∀ arc ∈ queue, G.IsArc arc) (counters : PropagationCounters) :
    (G.propagate s counters queue).emptiedBy = none ∧
      Ample k ⟨(G.propagate s counters queue).store, a⟩ := by
  fun_induction Graph.propagate G s counters queue with
  | case1 => exact ⟨rfl, h⟩
  | case2 s _ arc rest _ _ hr ih =>
    exact ih h (List.forall_mem_cons.mp hq).2
  | case3 s _ arc rest _ s' hr ih =>
    obtain ⟨harc, hrest⟩ := List.forall_mem_cons.mp hq
    apply ih (h.revise hG harc hr).2
    intro b hb
    rcases List.mem_append.mp hb with hb | hb
    · exact hrest b hb
    · exact Graph.isArc_of_mem_arcsAfter hb
  | case4 s _ arc rest _ s' hr =>
    exact absurd rfl (h.revise hG (hq arc List.mem_cons_self) hr).1

end View.Ample

namespace Search

variable {G : Graph} {σ τ : Type} {k : Nat}

theorem unfailing_of_sparse (hG : G.Sparse k) :
    Unfailing σ τ fun v : View G => v.Ample k ∧ v.Consistent where
  live v h := h.2.live
  holds s i c h hi hc := by
    obtain ⟨hample, hconsistent⟩ := h
    have hassign : s.assignment.assign i c = .ok ⟨s.assignment.values.set i (some c)⟩ := by
      simp [Assignment.assign, Assignment.isAssigned, hi]
    have hn : ∀ j ∈ G.neighbours i,
        Assignment.value ⟨s.assignment.values.set i (some c)⟩ j ≠ some c := by
      intro j hj hv
      rw [Assignment.value_of_assign hassign, if_neg (Graph.ne_of_mem_neighbours hj)] at hv
      exact hconsistent.not_mem hj hv hc
    have harcs : ∀ arc ∈ G.arcsInto i, G.IsArc arc := fun _ => Graph.isArc_of_mem_arcsInto
    obtain ⟨he, hview⟩ := (hample.keepOnly hassign hc hn).propagate hG harcs s.propagation
    have hattempt := attempt_of_holds hassign (Store.keepOnly_of_mem hc) he hn
    exact ⟨_, hattempt, hview, attempt_consistent hattempt hconsistent⟩

variable [VariableSelector σ] [ValueSelector τ] {κ : Type} [TerminationCondition κ]
  {s : Search G σ τ} {v : σ} {w : τ}

theorem Prepared.ample (hs : Prepared k v w s) (hG : G.Sparse k) : s.view.Ample k := by
  have hstore : View.Ample k ⟨s.store, .empty G.order⟩ := by
    induction hs with
    | @propagated s _ hfull =>
      have harcs : ∀ arc ∈ G.arcs, G.IsArc arc := fun _ => Graph.isArc_of_mem_arcs
      rw [propagateRoot_store, hfull]
      exact ((View.Ample.full G k).propagate hG harcs s.propagation).2
    | searched h ho ih =>
      rw [h.atRoot.store_run ho]
      exact ih
    | noted _ _ ih | logTaken _ ih | charged _ _ ih => exact ih
  rw [view, hs.atRoot.isIdle.assignment]
  exact hstore

end Search

end Chromatic
