import Chromatic.Proofs.Domain.Reduction
import Mathlib.Data.Set.Basic
/-!
# Propagation loses no colouring

A revision takes away only a colour that no proper colouring within the domains can use, so the
proper colourings within the domains are the same before and after propagation, whether it ends
with an empty domain or not.
-/

namespace Chromatic

/-- Neighbours have different colours. -/
def Graph.IsProper (G : Graph) (f : Fin G.order → Colour) : Prop :=
  ∀ i, ∀ j ∈ G.neighbours i, f i ≠ f j

/-- There is a proper colouring with the colours from one up to `k`. -/
def Graph.Colourable (G : Graph) (k : Nat) : Prop :=
  ∃ f : Fin G.order → Colour, G.IsProper f ∧ ∀ i, 1 ≤ f i ∧ f i ≤ k

/-- Every variable has its colour within its domain. -/
def Store.Admits {n : Nat} (s : Store n) (f : Fin n → Colour) : Prop := ∀ i, f i ∈ s.domain i

theorem Graph.ne_of_mem_neighbours {G : Graph} {i j : Fin G.order} (h : j ∈ G.neighbours i) :
    i ≠ j := by
  rintro rfl
  exact G.loopless i h

theorem Graph.nodup_neighbours (G : Graph) (i : Fin G.order) : (G.neighbours i).Nodup :=
  (G.adjacency_ascending i).imp fun h => Fin.ne_of_lt h

/-- The proper colourings within the domains. -/
def Graph.colourings (G : Graph) (s : Store G.order) : Set (Fin G.order → Colour) :=
  {f | G.IsProper f ∧ s.Admits f}

def Graph.IsArc (G : Graph) (a : Arc G.order) : Prop := a.head ∈ G.neighbours a.tail

namespace Store

variable {n : Nat} {s t : Store n} {a : Arc n} {f : Fin n → Colour}

private theorem Reduction.admits (h : Reduction s t) (hf : t.Admits f) : s.Admits f :=
  fun i => h.mem_domain (hf i)

theorem admits_full {k : Nat} : (full n k).Admits f ↔ ∀ i, 1 ≤ f i ∧ f i ≤ k := by
  simp [Admits]

private theorem Admits.revise {o : RemovalOutcome} (hf : s.Admits f) (ha : f a.tail ≠ f a.head)
    (h : s.revise a = (o, t)) : t.Admits f := by
  rw [Store.revise] at h
  split at h
  · cases h
    exact hf
  · next c hc =>
    obtain rfl : (s.remove a.tail c).2 = t := congrArg Prod.snd h
    intro i
    refine mem_domain_remove.mpr ⟨hf i, ?_⟩
    rintro ⟨hi, hx⟩
    apply ha
    have hh : f a.head ∈ (s.domain a.head).values := hf a.head
    rw [Domain.fixedValue_eq_some.mp hc, List.mem_singleton] at hh
    rw [hi, hx, hh]

theorem Admits.keepOnly (hf : s.Admits f) (i : Fin n) :
    (s.keepOnly i (f i)).1 = true ∧ (s.keepOnly i (f i)).2.Admits f := by
  have hk := keepOnly_of_mem (hf i)
  refine ⟨hk, fun j => (mem_keepOnly hk).mpr ⟨hf j, fun hij => ?_⟩⟩
  rw [hij]

theorem Live.revise (hs : s.Live) (h : s.revise a = (.removed, t)) : t.Live := by
  rw [Store.revise] at h
  split at h
  · cases h
  · next c _ =>
    have hr := hs.remove (i := a.tail) (c := c) (by simp [h])
    rwa [h] at hr

theorem revise_emptied (h : s.revise a = (.emptied, t)) (x : Colour) : x ∉ t.domain a.tail := by
  rw [revise] at h
  split at h
  · cases h
  · next c _ =>
    have hr := remove_emptied (congrArg Prod.fst h) x
    rwa [h] at hr

end Store

namespace Graph

open Store

variable {G : Graph} {s : Store G.order} {counters : PropagationCounters}
  {queue : List (Arc G.order)} {f : Fin G.order → Colour}

theorem isArc_of_mem_arcs {a : Arc G.order} (h : a ∈ G.arcs) : G.IsArc a := by
  simp only [arcs, List.mem_flatMap, List.mem_map] at h
  obtain ⟨i, -, j, hj, rfl⟩ := h
  exact hj

theorem isArc_of_mem_arcsInto {i : Fin G.order} {a : Arc G.order} (h : a ∈ G.arcsInto i) :
    G.IsArc a := by
  obtain ⟨j, hj, rfl⟩ := List.mem_map.mp h
  exact G.adjacency_symm i j hj

theorem isArc_of_mem_arcsAfter {a b : Arc G.order} (h : b ∈ G.arcsAfter a) : G.IsArc b := by
  obtain ⟨j, hj, rfl⟩ := List.mem_map.mp h
  exact G.adjacency_symm a.tail j (List.mem_filter.mp hj).1

theorem admits_propagate (hq : ∀ a ∈ queue, G.IsArc a) (hf : G.IsProper f) :
    (G.propagate s counters queue).store.Admits f ↔ s.Admits f := by
  refine ⟨(propagate_reduction G s counters queue).admits, fun hs => ?_⟩
  fun_induction propagate G s counters queue with
  | case1 => exact hs
  | case2 s _ a rest _ _ h ih => exact ih (fun b hb => hq b (List.mem_cons_of_mem _ hb)) hs
  | case3 s _ a rest _ s' h ih =>
    refine ih (fun b hb => ?_) (hs.revise (hf a.tail a.head (hq a List.mem_cons_self)) h)
    rcases List.mem_append.mp hb with hb | hb
    · exact hq b (List.mem_cons_of_mem _ hb)
    · exact isArc_of_mem_arcsAfter hb
  | case4 s _ a rest _ s' h => exact hs.revise (hf a.tail a.head (hq a List.mem_cons_self)) h

theorem propagate_emptied {a : Arc G.order}
    (h : (G.propagate s counters queue).emptiedBy = some a) (x : Colour) :
    x ∉ (G.propagate s counters queue).store.domain a.tail := by
  fun_induction propagate G s counters queue with
  | case1 => cases h
  | case2 _ _ _ _ _ _ _ ih => exact ih h
  | case3 _ _ _ _ _ _ _ ih => exact ih h
  | case4 s _ b _ _ s' hr =>
    cases h
    exact revise_emptied hr x

theorem propagate_live (hs : s.Live) (h : (G.propagate s counters queue).emptiedBy = none) :
    (G.propagate s counters queue).store.Live := by
  fun_induction propagate G s counters queue with
  | case1 => exact hs
  | case2 _ _ _ _ _ _ _ ih => exact ih hs h
  | case3 s _ a _ _ s' hr ih => exact ih (hs.revise hr) h
  | case4 => cases h

theorem not_admits_of_emptied {a : Arc G.order} (hq : ∀ a ∈ queue, G.IsArc a)
    (h : (G.propagate s counters queue).emptiedBy = some a) (hf : G.IsProper f) :
    ¬s.Admits f :=
  fun hs => propagate_emptied h (f a.tail) ((admits_propagate hq hf).mpr hs a.tail)

/-- Whichever arcs are queued and whatever the domains are, the proper colourings within the
domains are the same before and after propagation, and there are none where it stops at an empty
domain. -/
theorem propagate_keeps_colourings (hq : ∀ a ∈ queue, G.IsArc a) (counters : PropagationCounters) :
    G.colourings (G.propagate s counters queue).store = G.colourings s ∧
      ((G.propagate s counters queue).emptiedBy ≠ none → G.colourings s = ∅) := by
  refine ⟨Set.ext fun f => and_congr_right fun hf => admits_propagate hq hf, fun he => ?_⟩
  obtain ⟨a, ha⟩ := Option.ne_none_iff_exists'.mp he
  refine Set.eq_empty_iff_forall_notMem.mpr fun f hf => ?_
  exact not_admits_of_emptied hq ha hf.1 hf.2

/-- Three mutual neighbours. -/
def triangle : Graph := .ofProblem (.ofStatements none [] [(0, 1), (0, 2), (1, 2)])

/-- Two colours for each of three mutual neighbours, less one for the first of them. -/
def overfull : Store triangle.order :=
  ((Store.full triangle.order 2).remove ⟨0, by decide⟩ 2).2

theorem propagate_keeps_colourings_triangle :
    (triangle.propagate overfull ⟨0, 0⟩ (triangle.arcsInto ⟨0, by decide⟩)).emptiedBy =
        some ⟨⟨2, by decide⟩, ⟨1, by decide⟩⟩ ∧
      triangle.colourings overfull = ∅ := by
  have he : (triangle.propagate overfull ⟨0, 0⟩ (triangle.arcsInto ⟨0, by decide⟩)).emptiedBy =
      some ⟨⟨2, by decide⟩, ⟨1, by decide⟩⟩ := by decide +kernel
  have harcs : ∀ a ∈ triangle.arcsInto ⟨0, by decide⟩, triangle.IsArc a :=
    fun _ => isArc_of_mem_arcsInto
  exact ⟨he, (propagate_keeps_colourings (s := overfull) harcs ⟨0, 0⟩).2 (by simp [he])⟩

end Graph

end Chromatic
