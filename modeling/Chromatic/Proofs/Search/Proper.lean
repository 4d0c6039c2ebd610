import Chromatic.Branching.Scripted
import Chromatic.Proofs.Search.Root
import Mathlib.Data.List.Nodup
import Mathlib.Data.List.FinRange
/-!
# Every solution is proper

An attempt holds only when no neighbour has the colour, so the assignment stays proper whatever
the selectors answer. While no domain is empty, an attempt holds only for a colour in the domain.
-/

namespace Chromatic

namespace Solution

private theorem colourOf_foldl_set {l : List (Vertex × Colour)} (hl : (l.map (·.1)).Nodup)
    (s : Solution) {v : Vertex} {c : Colour} :
    (l.foldl (fun s e => s.set e.1 e.2) s).colourOf v = some c ↔
      (v, c) ∈ l ∨ v ∉ l.map (·.1) ∧ s.colourOf v = some c := by
  induction l generalizing s with
  | nil => simp
  | cons e rest ih =>
    obtain ⟨x, d⟩ := e
    obtain ⟨hx, hrest⟩ := List.nodup_cons.mp hl
    rw [List.foldl_cons, ih hrest, colourOf_set]
    by_cases hv : v = x
    · subst hv
      have hn : (v, c) ∉ rest := fun h => hx (List.mem_map_of_mem (f := (·.1)) h)
      simp only [List.map_cons, List.mem_cons, hn, hx, not_true, not_false_eq_true,
        if_true, Prod.mk.injEq, true_and, false_or, or_false, false_and, Option.some.injEq]
      exact eq_comm
    · simp [hv]

private theorem colourOf_ofList {l : List (Vertex × Colour)} (hl : (l.map (·.1)).Nodup) {v : Vertex}
    {c : Colour} : (ofList l).colourOf v = some c ↔ (v, c) ∈ l := by
  rw [ofList, colourOf_foldl_set hl]
  simp

end Solution

private theorem Assignment.mem_entries {n : Nat} {a : Assignment n} {i : Fin n} {c : Colour} :
    (i, c) ∈ a.entries ↔ a.value i = some c := by
  simp [entries]

private theorem Assignment.nodup_entries {n : Nat} (a : Assignment n) :
    (a.entries.map (·.1)).Nodup := by
  rw [entries, List.map_filterMap]
  refine (List.nodup_finRange n).filterMap fun i j x hi hj => ?_
  simp only [Option.map_map, Option.mem_def, Option.map_eq_some_iff] at hi hj
  obtain ⟨c, -, rfl⟩ := hi
  obtain ⟨d, -, hd⟩ := hj
  exact hd.symm

theorem Graph.label_lt_label (G : Graph) {i j : Fin G.order} (h : i < j) :
    G.label i < G.label j := by
  have hi : i.val < G.labels.toList.length := by simp [Family.toList]
  have hj : j.val < G.labels.toList.length := by simp [Family.toList]
  have hlt := List.pairwise_iff_getElem.mp G.labels_ascending i.val j.val hi hj h
  simpa [Family.toList, label, Family.get] using hlt

theorem Graph.label_injective (G : Graph) : Function.Injective G.label := by
  intro i j h
  rcases Nat.lt_trichotomy i.val j.val with hij | hij | hij
  · exact absurd h (Int.ne_of_lt (G.label_lt_label hij))
  · exact Fin.ext hij
  · exact absurd h.symm (Int.ne_of_lt (G.label_lt_label hij))

namespace Search

variable {G : Graph} {σ τ κ : Type}

theorem colourOf_solution (s : Search G σ τ) {x : Vertex} {c : Colour} :
    s.solution.colourOf x = some c ↔ ∃ i, G.label i = x ∧ s.assignment.value i = some c := by
  have hn : ((s.assignment.entries.map fun e => (G.label e.1, e.2)).map (·.1)).Nodup := by
    have hm := s.assignment.nodup_entries.map G.label_injective
    rwa [List.map_map] at hm ⊢
  rw [solution, Solution.colourOf_ofList hn, List.mem_map]
  constructor
  · rintro ⟨⟨i, d⟩, he, hx⟩
    obtain ⟨rfl, rfl⟩ := Prod.mk.inj hx
    exact ⟨i, rfl, Assignment.mem_entries.mp he⟩
  · rintro ⟨i, rfl, hv⟩
    exact ⟨(i, c), Assignment.mem_entries.mpr hv, rfl⟩

theorem colourOf_solution_label (s : Search G σ τ) {i : Fin G.order} {c : Colour} :
    s.solution.colourOf (G.label i) = some c ↔ s.assignment.value i = some c := by
  rw [colourOf_solution]
  constructor
  · rintro ⟨j, hj, hv⟩
    rwa [← G.label_injective hj]
  · exact fun hv => ⟨i, rfl, hv⟩

end Search

/-- Neighbours that have a colour have different ones. -/
def Assignment.IsProper {G : Graph} (a : Assignment G.order) : Prop :=
  ∀ i, ∀ j ∈ G.neighbours i, ∀ c, a.value i = some c → a.value j ≠ some c

theorem Assignment.isProper_empty (G : Graph) : (empty G.order).IsProper := by
  intro i j _ c hc
  simp at hc

theorem Assignment.IsProper.assign {G : Graph} {a b : Assignment G.order} {i : Fin G.order}
    {c : Colour} (ha : a.IsProper) (h : a.assign i c = .ok b)
    (hn : ∀ j ∈ G.neighbours i, b.value j ≠ some c) : b.IsProper := by
  intro p q hpq d hp hq
  have hsymm : p ∈ G.neighbours q := G.adjacency_symm p q hpq
  by_cases hip : i = p
  · subst hip
    rw [value_of_assign h, if_pos rfl] at hp
    exact hn q hpq (hp ▸ hq)
  · by_cases hiq : i = q
    · subst hiq
      rw [value_of_assign h, if_pos rfl] at hq
      exact hn p hsymm (hq ▸ hp)
    · rw [value_of_assign h, if_neg hip] at hp
      rw [value_of_assign h, if_neg hiq] at hq
      exact ha p q hpq d hp hq

/-- The colours left and the colours given are from one up to `k`. -/
structure View.Bounded {G : Graph} (k : Nat) (v : View G) : Prop where
  reduction : Store.Reduction (.full G.order k) v.store
  values : ∀ i c, v.assignment.value i = some c → 1 ≤ c ∧ c ≤ k

namespace Search

variable {G : Graph} {σ τ κ : Type} {s t : Search G σ τ} {x : VariableId} {c : Colour}

theorem attempt_isProper (h : s.attempt x c = (.ok none, t)) (hs : s.view.assignment.IsProper) :
    t.view.assignment.IsProper := by
  obtain ⟨i, -, ha, -, -, -, hn⟩ := attempt_held h
  exact hs.assign ha hn

private theorem attempt_live (h : s.attempt x c = (.ok none, t)) (hs : s.store.Live) :
    t.store.Live := by
  obtain ⟨i, -, -, hk, he, ht, -⟩ := attempt_held h
  rw [ht]
  exact Graph.propagate_live (hs.keepOnly hk) he

theorem attempt_bounded {k : Nat} {i : Fin G.order} {r : Option Failure}
    (h : s.attempt (.ofFin i) c = (.ok r, t)) (hc : c ∈ s.store.domain i)
    (hs : s.view.Bounded k) : t.view.Bounded k := by
  refine ⟨hs.reduction.trans (attempt_reduction h), fun j d hj => ?_⟩
  obtain ⟨i', hi, ha⟩ := attempt_ok h
  obtain rfl := VariableId.ofFin_injective hi
  rw [view, Assignment.value_of_assign ha] at hj
  split at hj
  · cases hj
    simpa using hs.reduction.mem_domain hc
  · exact hs.values j d hj

private theorem attempt_bounded_of_live {k : Nat} (h : s.attempt x c = (.ok none, t))
    (hs : s.store.Live ∧ s.view.Bounded k) : t.store.Live ∧ t.view.Bounded k := by
  obtain ⟨i, rfl, -, hk, -, -, -⟩ := attempt_held h
  exact ⟨attempt_live h hs.1, attempt_bounded h (Store.mem_of_keepOnly hs.1 hk) hs.2⟩

variable [VariableSelector σ] [ValueSelector τ] [TerminationCondition κ]

theorem AtRoot.bounded {k : Nat} {v : σ} {w : τ} (hs : AtRoot k v w s) : s.view.Bounded k := by
  refine ⟨hs.reduction, fun i c hi => ?_⟩
  rw [view, hs.isIdle.assignment, Assignment.value_empty] at hi
  cases hi

theorem AtRoot.isProper {k : Nat} {v : σ} {w : τ} (hs : AtRoot k v w s) :
    s.view.assignment.IsProper := by
  rw [view, hs.isIdle.assignment]
  exact Assignment.isProper_empty G

/-- Whatever the selectors answer, a solution gives colours to vertices only and different ones
to neighbours, and they are colours from one up to `k` if every domain had a colour. -/
theorem solution_proper {k : Nat} {v : σ} {w : τ} {s : Search G σ τ} (hs : AtRoot k v w s)
    (limit : κ) {sol : Solution} (h : (s.run limit).1 = .ok (.solved sol)) :
    (∀ x c, sol.colourOf x = some c → ∃ i, G.label i = x) ∧
      (∀ i, ∀ j ∈ G.neighbours i, ∀ c, sol.colourOf (G.label i) = some c →
        sol.colourOf (G.label j) ≠ some c) ∧
      (s.store.Live → ∀ x c, sol.colourOf x = some c → 1 ≤ c ∧ c ≤ k) := by
  obtain ⟨t, he, -⟩ := run_ok hs.isIdle h
  obtain ⟨hp, rfl⟩ := he.solved_view (P := fun v => v.assignment.IsProper) attempt_isProper
    hs.isProper
  refine ⟨fun x c hx => ?_, fun i j hij c hi hj => ?_, fun hlive x c hx => ?_⟩
  · obtain ⟨i, hi, -⟩ := t.colourOf_solution.mp hx
    exact ⟨i, hi⟩
  · rw [colourOf_solution_label] at hi hj
    exact hp i j hij c hi hj
  · obtain ⟨i, -, hi⟩ := t.colourOf_solution.mp hx
    have hb := (he.solved_view (P := fun v => v.store.Live ∧ v.Bounded k)
      attempt_bounded_of_live ⟨hlive, hs.bounded⟩).1.2
    exact hb.values i c hi

/-- A search on the path with the vertices 0, 1 and 2 that is told to begin in the middle with a
colour that does not exist, and to end before the last vertex. -/
def onPath : Search (Graph.ofProblem (.ofStatements (some 2) [] [(0, 1), (1, 2)]))
    ScriptedVariables ScriptedValues :=
  .start _ 2 ⟨[some ⟨1⟩, some ⟨0⟩, none]⟩ ⟨[[5, 2], [2, 1]]⟩

theorem solution_proper_onPath :
    (onPath.run Limit.indefinite).1 = .ok (.solved (.ofList [(0, 1), (1, 2)])) ∧
      ∀ x c, (Solution.ofList [(0, 1), (1, 2)]).colourOf x = some c → 1 ≤ c ∧ c ≤ 2 := by
  have hroot : AtRoot 2 _ _ onPath := .start
  have hlive : onPath.store.Live := fun i => ⟨1, by simp [onPath, start]⟩
  have h : (onPath.run Limit.indefinite).1 = .ok (.solved (.ofList [(0, 1), (1, 2)])) := by
    rw [run_within 12]
    decide +kernel
  exact ⟨h, (solution_proper hroot Limit.indefinite h).2.2 hlive⟩

end Search

end Chromatic
