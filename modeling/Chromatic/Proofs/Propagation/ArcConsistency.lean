import Chromatic.Proofs.Propagation.Copying
/-!
# Propagation leaves every arc consistent

A revision that takes a colour from a variable queues the arcs into this variable except the one
from the head. That one stays consistent by itself: the only colour of the head is the colour just
taken. So while propagation goes on every arc is queued or consistent.
-/

namespace Chromatic

namespace Store

variable {n : Nat} {s t : Store n} {a b : Arc n} {i j : Fin n} {c : Colour}

/-- If the head has one colour left, the tail does not have it. -/
def Supports (s : Store n) (a : Arc n) : Prop :=
  ∀ c, (s.domain a.head).values = [c] → c ∉ s.domain a.tail

theorem domain_remove_of_ne (h : i ≠ j) : (s.remove i c).2.domain j = s.domain j := by
  refine Domain.ext_mem fun x => ?_
  rw [mem_domain_remove]
  exact and_iff_left fun hij => h hij.1

private theorem supports_of_absent (h : s.revise a = (.absent, t)) : s.Supports a := by
  intro c hc hmem
  rw [revise, Domain.fixedValue_eq_some.mpr hc] at h
  exact remove_ne_absent hmem (congrArg Prod.fst h)

private theorem Supports.revise (hb : s.Supports b) (h : s.revise a = (.removed, t))
    (hne : a.tail ≠ b.head) : t.Supports b := by
  obtain ⟨c, -, -, rfl⟩ := revise_removed h
  intro d hd hmem
  rw [domain_remove_of_ne hne] at hd
  exact hb d hd (mem_domain_remove.mp hmem).1

private theorem supports_reverse (h : s.revise a = (.removed, t)) (hne : a.tail ≠ a.head) :
    t.Supports ⟨a.head, a.tail⟩ := by
  obtain ⟨c, hc, -, rfl⟩ := revise_removed h
  intro d hd hmem
  rw [domain_remove_of_ne hne, Domain.mem_of_values_eq hc] at hmem
  subst hmem
  have hlast : d ∈ (s.remove a.tail d).2.domain a.tail := (Domain.mem_of_values_eq hd).mpr rfl
  exact (mem_domain_remove.mp hlast).2 ⟨rfl, rfl⟩

end Store

namespace Graph

open Store

variable {G : Graph} {s : Store G.order} {counters : PropagationCounters}
  {queue : List (Arc G.order)}

/-- No vertex has the colour that is the only one left for a neighbour. -/
def ArcConsistent (G : Graph) (s : Store G.order) : Prop := ∀ a, G.IsArc a → s.Supports a

theorem mem_arcs {a : Arc G.order} (h : G.IsArc a) : a ∈ G.arcs := by
  obtain ⟨i, j⟩ := a
  simp only [arcs, List.mem_flatMap, List.mem_map]
  exact ⟨i, List.mem_finRange i, j, h, rfl⟩

theorem mem_arcsInto {a : Arc G.order} (h : G.IsArc a) : a ∈ G.arcsInto a.head :=
  List.mem_map.mpr ⟨a.tail, G.adjacency_symm a.tail a.head h, rfl⟩

private theorem mem_arcsAfter {a b : Arc G.order} (hb : G.IsArc b) (hhead : b.head = a.tail)
    (htail : b.tail ≠ a.head) : b ∈ G.arcsAfter a := by
  obtain ⟨i, j⟩ := b
  obtain rfl : j = a.tail := hhead
  have hi : i ∈ G.neighbours a.tail := G.adjacency_symm i a.tail hb
  exact List.mem_map.mpr ⟨i, List.mem_filter.mpr ⟨hi, by simpa using htail⟩, rfl⟩

private theorem queued_or_supports {t : Store G.order} {a b : Arc G.order}
    {rest : List (Arc G.order)} (ha : G.IsArc a) (hb : G.IsArc b) (h : b ∈ a :: rest ∨ s.Supports b)
    (hr : s.revise a = (.removed, t)) : b ∈ rest ++ G.arcsAfter a ∨ t.Supports b := by
  have hne : a.tail ≠ a.head := ne_of_mem_neighbours ha
  by_cases hhead : b.head = a.tail
  · by_cases htail : b.tail = a.head
    · -- the one arc into the tail that is not queued
      obtain ⟨i, j⟩ := b
      obtain ⟨rfl, rfl⟩ : i = a.head ∧ j = a.tail := ⟨htail, hhead⟩
      exact .inr (supports_reverse hr hne)
    · exact .inl (List.mem_append_right _ (mem_arcsAfter hb hhead htail))
  · rcases h with h | h
    · rcases List.mem_cons.mp h with rfl | h
      · obtain ⟨c, hc, -, rfl⟩ := revise_removed hr
        refine .inr fun d hd hmem => (mem_domain_remove.mp hmem).2 ⟨rfl, ?_⟩
        rw [domain_remove_of_ne hne, hc] at hd
        exact (List.cons.inj hd).1.symm
      · exact .inl (List.mem_append_left _ h)
    · exact .inr (h.revise hr fun h => hhead h.symm)

theorem arcConsistent_propagate (hq : ∀ a ∈ queue, G.IsArc a)
    (hs : ∀ a, G.IsArc a → a ∈ queue ∨ s.Supports a)
    (he : (G.propagate s counters queue).emptiedBy = none) :
    G.ArcConsistent (G.propagate s counters queue).store := by
  fun_induction propagate G s counters queue with
  | case1 => exact fun a ha => (hs a ha).resolve_left List.not_mem_nil
  | case2 s _ a rest _ _ hr ih =>
    refine ih (fun b hb => hq b (List.mem_cons_of_mem _ hb)) (fun b hb => ?_) he
    rcases hs b hb with h | h
    · rcases List.mem_cons.mp h with rfl | h
      · exact .inr (supports_of_absent hr)
      · exact .inl h
    · exact .inr h
  | case3 s _ a rest _ _ hr ih =>
    have ha := hq a List.mem_cons_self
    refine ih (fun b hb => ?_) (fun b hb => queued_or_supports ha hb (hs b hb) hr) he
    rcases List.mem_append.mp hb with hb | hb
    · exact hq b (List.mem_cons_of_mem _ hb)
    · exact isArc_of_mem_arcsAfter hb
  | case4 => cases he

theorem arcConsistent_propagateAll (he : (G.propagateAll s counters).emptiedBy = none) :
    G.ArcConsistent (G.propagateAll s counters).store :=
  arcConsistent_propagate (fun _ => isArc_of_mem_arcs) (fun _ ha => .inl (mem_arcs ha)) he

/-- Propagation from a variable restores consistency when only its own domain was narrowed. -/
theorem arcConsistent_propagateFrom {i : Fin G.order} {u : Store G.order}
    (hu : G.ArcConsistent u) (hr : Reduction u s) (hi : ∀ j, i ≠ j → s.domain j = u.domain j)
    (he : (G.propagateFrom s counters i).emptiedBy = none) :
    G.ArcConsistent (G.propagateFrom s counters i).store := by
  refine arcConsistent_propagate (fun _ => isArc_of_mem_arcsInto) (fun a ha => ?_) he
  by_cases hhead : i = a.head
  · subst hhead
    exact .inl (mem_arcsInto ha)
  · refine .inr fun c hc hmem => hu a ha c ?_ (hr.mem_domain hmem)
    rwa [← hi a.head hhead]

end Graph

end Chromatic
