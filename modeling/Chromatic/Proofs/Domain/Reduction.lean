import Chromatic.Propagation
import Mathlib.Tactic.ByContra
import Mathlib.Tactic.Tauto
/-!
# Stores that only lose colours

Narrowing and propagation change a store by removals alone. A store made by removals has smaller
domains, and undoing it to the checkpoint of the store before them gives back that store exactly.
-/

namespace Chromatic

/-- Removals lead from the first store to the second one. -/
inductive Store.Reduction {n : Nat} (s : Store n) : Store n → Prop
  | refl : Reduction s s
  | remove {t : Store n} (h : Reduction s t) (i : Fin n) (c : Colour) :
    Reduction s (t.remove i c).2

namespace Store

variable {n : Nat} {s t u : Store n} {i j : Fin n} {c x : Colour}

namespace Reduction

theorem trans (h : Reduction s t) (h' : Reduction t u) : Reduction s u := by
  induction h' with
  | refl => exact h
  | remove _ i c ih => exact ih.remove i c

private theorem single (s : Store n) (i : Fin n) (c : Colour) : Reduction s (s.remove i c).2 :=
  Reduction.refl.remove i c

theorem checkpoint_le (h : Reduction s t) : s.checkpoint ≤ t.checkpoint := by
  induction h with
  | refl => exact Nat.le_refl _
  | @remove t _ i c ih =>
    by_cases hc : c ∈ t.domain i
    · rw [store_remove hc]
      exact Nat.le_succ_of_le ih
    · rwa [remove_of_not_mem hc]

theorem undoTo (h : Reduction s t) : t.undoTo s.checkpoint = .ok s := by
  induction h with
  | refl => exact undoTo_checkpoint s
  | remove h i c ih => rw [undoTo_remove h.checkpoint_le, ih]

theorem mem_domain (h : Reduction s t) (hx : x ∈ t.domain j) : x ∈ s.domain j := by
  induction h with
  | refl => exact hx
  | remove _ i c ih => exact ih (mem_domain_remove.mp hx).1

end Reduction

/-- Every variable has a colour left. -/
def Live (s : Store n) : Prop := ∀ i, ∃ c, c ∈ s.domain i

theorem remove_emptied (h : (s.remove i c).1 = .emptied) (x : Colour) :
    x ∉ (s.remove i c).2.domain i := by
  by_cases hc : c ∈ s.domain i
  · have hd : (s.remove i c).2.domain i = (s.domain i).erase c hc := by
      rw [store_remove hc]
      simp [domain]
    rw [hd]
    simp only [remove, hc, ↓reduceDIte] at h
    split at h
    · next hz => exact Domain.not_mem_of_size_eq_zero hz x
    · cases h
  · rw [remove_of_not_mem hc] at h
    cases h

theorem Live.remove (hs : s.Live) (h : (s.remove i c).1 ≠ .emptied) :
    (s.remove i c).2.Live := by
  intro j
  by_cases hc : c ∈ s.domain i
  · rw [store_remove hc]
    simp only [domain, Family.get_set]
    split
    · simp only [Store.remove, hc, ↓reduceDIte] at h
      exact Domain.exists_mem_of_size_ne_zero fun hz => h (if_pos hz)
    · exact hs j
  · rw [remove_of_not_mem hc]
    exact hs j

private theorem removeAll_cons (s : Store n) (i : Fin n) (c : Colour) (rest : List Colour) :
    s.removeAll i (c :: rest) =
      if (s.remove i c).1 = .emptied then (false, (s.remove i c).2)
      else (s.remove i c).2.removeAll i rest := by
  rw [removeAll]
  rcases hr : s.remove i c with ⟨o, t⟩
  cases o <;> simp

private theorem removeAll_reduction (s : Store n) (i : Fin n) (l : List Colour) :
    Reduction s (s.removeAll i l).2 := by
  induction l generalizing s with
  | nil => exact .refl
  | cons c rest ih =>
    rw [removeAll_cons]
    split
    · exact .single s i c
    · exact (Reduction.single s i c).trans (ih _)

private theorem mem_removeAll {l : List Colour} (h : (s.removeAll i l).1 = true) :
    x ∈ (s.removeAll i l).2.domain j ↔ x ∈ s.domain j ∧ ¬(i = j ∧ x ∈ l) := by
  induction l generalizing s with
  | nil => simp [removeAll]
  | cons c rest ih =>
    rw [removeAll_cons] at h ⊢
    split at h
    · cases h
    · next he =>
      rw [if_neg he, ih h, mem_domain_remove, List.mem_cons]
      tauto

private theorem Live.removeAll {l : List Colour} (hs : s.Live) (h : (s.removeAll i l).1 = true) :
    (s.removeAll i l).2.Live := by
  induction l generalizing s with
  | nil => exact hs
  | cons c rest ih =>
    rw [removeAll_cons] at h ⊢
    split at h
    · cases h
    · next he =>
      rw [if_neg he]
      exact ih (hs.remove he) h

theorem keepOnly_reduction (s : Store n) (i : Fin n) (c : Colour) :
    Reduction s (s.keepOnly i c).2 := removeAll_reduction s i _

theorem Live.keepOnly (hs : s.Live) (h : (s.keepOnly i c).1 = true) :
    (s.keepOnly i c).2.Live := hs.removeAll h

theorem mem_keepOnly (h : (s.keepOnly i c).1 = true) :
    x ∈ (s.keepOnly i c).2.domain j ↔ x ∈ s.domain j ∧ (i = j → x = c) := by
  rw [keepOnly, mem_removeAll h]
  constructor
  · rintro ⟨hx, hn⟩
    refine ⟨hx, fun hij => ?_⟩
    subst hij
    by_contra hxc
    exact hn ⟨rfl, List.mem_filter.mpr ⟨hx, by simpa using hxc⟩⟩
  · rintro ⟨hx, hn⟩
    refine ⟨hx, fun ⟨hij, hm⟩ => ?_⟩
    have hxc := (List.mem_filter.mp hm).2
    simp [hn hij] at hxc

private theorem removeAll_of_not_mem {l : List Colour} (h : c ∈ s.domain i) (hl : c ∉ l) :
    (s.removeAll i l).1 = true := by
  induction l generalizing s with
  | nil => rfl
  | cons a rest ih =>
    rw [List.mem_cons, not_or] at hl
    have hc : c ∈ (s.remove i a).2.domain i :=
      mem_domain_remove.mpr ⟨h, fun ha => hl.1 ha.2⟩
    rw [removeAll_cons, if_neg fun he => remove_emptied he c hc]
    exact ih hc hl.2

theorem keepOnly_of_mem (h : c ∈ s.domain i) : (s.keepOnly i c).1 = true :=
  removeAll_of_not_mem h (by simp)

theorem mem_of_keepOnly (hs : s.Live) (h : (s.keepOnly i c).1 = true) : c ∈ s.domain i := by
  obtain ⟨x, hx⟩ := hs.keepOnly h i
  obtain ⟨hx, hxc⟩ := (mem_keepOnly h).mp hx
  rwa [← hxc rfl]

theorem reduction_of_revise {a : Arc n} {o : RemovalOutcome} (h : s.revise a = (o, t)) :
    Reduction s t := by
  rw [revise] at h
  split at h
  · cases h
    exact .refl
  · next c _ =>
    obtain rfl : (s.remove a.tail c).2 = t := congrArg Prod.snd h
    exact .single s a.tail c

end Store

namespace Graph

open Store

theorem propagate_reduction (G : Graph) (s : Store G.order) (counters : PropagationCounters)
    (queue : List (Arc G.order)) : Reduction s (G.propagate s counters queue).store := by
  fun_induction propagate G s counters queue with
  | case1 => exact .refl
  | case2 s _ a _ _ _ h ih => exact ih
  | case3 s _ a _ _ s' h ih => exact (reduction_of_revise h).trans ih
  | case4 s _ a _ _ s' h => exact reduction_of_revise h

end Graph

end Chromatic
