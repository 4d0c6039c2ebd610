import Chromatic.Proofs.Propagation.Soundness
/-!
# What propagation makes consistent

A queued arc whose head has one colour left is revised before propagation ends, so its tail loses
this colour. The head keeps it, because propagation that empties no domain only takes away colours
from domains that have others.
-/

namespace Chromatic

theorem Domain.values_eq_singleton {d : Domain} {c : Colour} (h : ∃ x, x ∈ d)
    (hc : ∀ x ∈ d, x = c) : d.values = [c] := by
  have hn : d.values.Nodup := d.ascending.imp Nat.ne_of_lt
  obtain ⟨x, hx⟩ := h
  have hmem : ∀ y, y ∈ d.values ↔ y ∈ [c] := by
    intro y
    rw [List.mem_singleton]
    refine ⟨hc y, fun hy => ?_⟩
    rw [hy, ← hc x hx]
    exact hx
  exact List.perm_singleton.mp
    ((List.perm_ext_iff_of_nodup hn (List.pairwise_singleton _ c)).mpr hmem)

theorem Domain.mem_of_values_eq {d : Domain} {c x : Colour} (h : d.values = [c]) :
    x ∈ d ↔ x = c := by
  rw [mem_def, h, List.mem_singleton]

namespace Store

variable {n : Nat} {s t : Store n} {i : Fin n} {a : Arc n} {c : Colour}

theorem remove_ne_absent (h : c ∈ s.domain i) : (s.remove i c).1 ≠ .absent := by
  rw [remove, dif_pos h]
  dsimp only
  split <;> simp

theorem revise_removed (h : s.revise a = (.removed, t)) :
    ∃ c, (s.domain a.head).values = [c] ∧ c ∈ s.domain a.tail ∧ t = (s.remove a.tail c).2 := by
  rw [revise] at h
  split at h
  · cases h
  · next c hc =>
    have hmem : c ∈ s.domain a.tail := mem_of_remove_ne_absent (by simp [h])
    exact ⟨c, Domain.fixedValue_eq_some.mp hc, hmem, (congrArg Prod.snd h).symm⟩

theorem Reduction.values_eq_singleton (h : Reduction s t) (ht : t.Live)
    (hc : (s.domain i).values = [c]) : (t.domain i).values = [c] := by
  refine Domain.values_eq_singleton (ht i) fun x hx => ?_
  exact (Domain.mem_of_values_eq hc).mp (h.mem_domain hx)

theorem values_keepOnly (hs : s.Live) (h : (s.keepOnly i c).1 = true) :
    ((s.keepOnly i c).2.domain i).values = [c] :=
  Domain.values_eq_singleton (hs.keepOnly h i) fun _ hx => ((mem_keepOnly h).mp hx).2 rfl

end Store

namespace Graph

open Store

variable {G : Graph} {s : Store G.order} {counters : PropagationCounters}
  {queue : List (Arc G.order)} {a : Arc G.order} {c : Colour}

/-- The tail of a queued arc loses the only colour of the head. -/
theorem not_mem_of_propagate (ha : a ∈ queue) (hs : s.Live) (hc : (s.domain a.head).values = [c])
    (he : (G.propagate s counters queue).emptiedBy = none) :
    c ∉ (G.propagate s counters queue).store.domain a.tail := by
  fun_induction propagate G s counters queue with
  | case1 => cases ha
  | case2 s _ b rest counters' s' hr ih =>
    rcases List.mem_cons.mp ha with rfl | ha
    · intro hmem
      have hmem' : c ∈ s.domain a.tail := (G.propagate_reduction _ _ _).mem_domain hmem
      have hx : (s.remove a.tail c).1 = .absent := by
        rw [revise, Domain.fixedValue_eq_some.mpr hc] at hr
        exact congrArg Prod.fst hr
      exact remove_ne_absent hmem' hx
    · exact ih ha hs hc he
  | case3 s _ b rest counters' s' hr ih =>
    have hlive := hs.revise hr
    have hc' := (reduction_of_revise hr).values_eq_singleton hlive hc
    rcases List.mem_cons.mp ha with rfl | ha
    · intro hmem
      have hmem' : c ∈ s'.domain a.tail := (G.propagate_reduction _ _ _).mem_domain hmem
      obtain ⟨d, hd, -, rfl⟩ := revise_removed hr
      obtain rfl : c = d := List.singleton_inj.mp (hc.symm.trans hd)
      exact (mem_domain_remove.mp hmem').2 ⟨rfl, rfl⟩
    · exact ih (List.mem_append_left _ ha) hlive hc' he
  | case4 => cases he

/-- Where no queued arc has a head with one colour left, propagation revises every arc once and
does nothing else. -/
theorem propagate_of_open (h : ∀ a ∈ queue, (s.domain a.head).fixedValue = none) :
    G.propagate s counters queue =
      ⟨s, ⟨counters.revisions + queue.length, counters.removals⟩, none⟩ := by
  fun_induction propagate G s counters queue with
  | case1 => rfl
  | case2 _ counters a rest counters' _ _ ih =>
    have hrevisions : counters'.revisions + rest.length =
        counters.revisions + (a :: rest).length := by
      simp only [counters', List.length_cons]
      omega
    rw [ih fun b hb => h b (List.mem_cons_of_mem _ hb), hrevisions]
  | case3 s _ a _ _ _ hr | case4 s _ a _ _ _ hr =>
    rw [revise, h a List.mem_cons_self] at hr
    cases hr

end Graph

end Chromatic
