import Chromatic.Proofs.Propagation.Consistency
/-!
# What propagation counts

A queued arc is revised once, and a removal queues all arcs into its variable but one. So while
propagation goes on, the revisions made and the arcs still queued are together the arcs it began
with and those that the removals on the trail queued. No arc is left when it ends well, and some may
be left when a domain runs empty.
-/

namespace Chromatic

private theorem Store.entries_of_revise {n : Nat} {s t : Store n} {a : Arc n} {o : RemovalOutcome}
    (h : s.revise a = (o, t)) (ho : o ≠ .absent) :
    ∃ c, t.trail.entries = ⟨a.tail, c⟩ :: s.trail.entries := by
  rw [revise] at h
  split at h
  · cases h
    exact absurd rfl ho
  · next c _ =>
    have hmem : c ∈ s.domain a.tail := by
      apply mem_of_remove_ne_absent
      rw [h]
      exact ho
    have ht : (s.remove a.tail c).2 = t := congrArg Prod.snd h
    rw [store_remove hmem] at ht
    rw [← ht]
    exact ⟨c, rfl⟩

namespace Graph

variable {G : Graph} {s t : Store G.order} {counters : PropagationCounters}
  {queue rest : List (Arc G.order)} {a : Arc G.order} {taken : List (Removal G.order)}

/-- The number of arcs that removals queue: those into the variable of each, but one. -/
def numQueued (G : Graph) : List (Removal G.order) → Nat
  | [] => 0
  | r :: rest => ((G.neighbours r.target).length - 1) + G.numQueued rest

private theorem length_arcsAfter (ha : G.IsArc a) :
    (G.arcsAfter a).length = (G.neighbours a.tail).length - 1 := by
  -- the arc from the head is the one that is not queued
  have hfilter : (G.neighbours a.tail).filter (· ≠ a.head) =
      (G.neighbours a.tail).erase a.head := by
    rw [(G.nodup_neighbours a.tail).erase_eq_filter]
    apply List.filter_congr
    intro j _
    simp [bne, Bool.beq_eq_decide_eq]
  rw [arcsAfter, List.length_map, hfilter, List.length_erase_of_mem ha]

/-- A propagation between two revisions. -/
structure Worklist (G : Graph) where
  store : Store G.order
  counters : PropagationCounters
  queue : List (Arc G.order)

/-- From one state of a propagation to a later one the listed colours were taken, all of them are
counted, and every arc that was queued is revised or still queued. -/
structure Balanced (v w : Worklist G) (taken : List (Removal G.order)) : Prop where
  trail : w.store.trail.entries = taken ++ v.store.trail.entries
  removals : w.counters.removals = v.counters.removals + taken.length
  revisions : w.counters.revisions + w.queue.length =
    v.counters.revisions + v.queue.length + G.numQueued taken

namespace Balanced

variable {v : Worklist G}

private theorem refl : Balanced v v [] := ⟨rfl, rfl, rfl⟩

private theorem absent (h : Balanced v ⟨s, counters, a :: rest⟩ taken) :
    Balanced v ⟨s, ⟨counters.revisions + 1, counters.removals⟩, rest⟩ taken where
  trail := h.trail
  removals := h.removals
  revisions := by
    have hrevisions := h.revisions
    simp only [List.length_cons] at hrevisions ⊢
    omega

private theorem removed (h : Balanced v ⟨s, counters, a :: rest⟩ taken) (ha : G.IsArc a)
    (hr : s.revise a = (.removed, t)) :
    ∃ c, Balanced v ⟨t, ⟨counters.revisions + 1, counters.removals + 1⟩, rest ++ G.arcsAfter a⟩
      (⟨a.tail, c⟩ :: taken) := by
  obtain ⟨c, hentries⟩ := Store.entries_of_revise hr (by simp)
  have htrail := h.trail
  have hremovals := h.removals
  have hrevisions := h.revisions
  have hafter := length_arcsAfter ha
  refine ⟨c, ?_, ?_, ?_⟩
  · show t.trail.entries = _
    rw [hentries, htrail, List.cons_append]
  · show counters.removals + 1 = _
    rw [hremovals, List.length_cons, Nat.add_assoc]
  · simp only [List.length_cons, List.length_append, numQueued] at hrevisions ⊢
    omega

private theorem propagate (h : ∃ taken, Balanced v ⟨s, counters, queue⟩ taken)
    (hq : ∀ a ∈ queue, G.IsArc a) :
    (∃ taken, (G.propagate s counters queue).emptiedBy = none ∧
        Balanced v ⟨(G.propagate s counters queue).store,
          (G.propagate s counters queue).counters, []⟩ taken) ∨
      ∃ a t c rest taken, (G.propagate s counters queue).emptiedBy = some a ∧
        Balanced v ⟨t, c, a :: rest⟩ taken ∧
        t.revise a = (.emptied, (G.propagate s counters queue).store) ∧
        (G.propagate s counters queue).counters = ⟨c.revisions + 1, c.removals⟩ := by
  fun_induction Graph.propagate G s counters queue with
  | case1 =>
    obtain ⟨taken, h⟩ := h
    exact .inl ⟨taken, rfl, h⟩
  | case2 s _ a rest _ _ hr ih =>
    obtain ⟨taken, h⟩ := h
    exact ih ⟨taken, h.absent⟩ (List.forall_mem_cons.mp hq).2
  | case3 s _ a rest _ t hr ih =>
    obtain ⟨taken, h⟩ := h
    obtain ⟨ha, hrest⟩ := List.forall_mem_cons.mp hq
    obtain ⟨c, hc⟩ := h.removed ha hr
    apply ih ⟨_, hc⟩
    intro b hb
    rcases List.mem_append.mp hb with hb | hb
    · exact hrest b hb
    · exact isArc_of_mem_arcsAfter hb
  | case4 s counters a rest _ t hr =>
    obtain ⟨taken, h⟩ := h
    exact .inr ⟨a, s, counters, rest, taken, rfl, h, hr, rfl⟩

end Balanced

/-- Propagation that may make only so many revisions. It comes to nothing if arcs are queued when
they are used up. -/
def propagateWithin (G : Graph) (store : Store G.order) (counters : PropagationCounters) :
    Nat → List (Arc G.order) → Option (Propagated G.order)
  | _, [] => some ⟨store, counters, none⟩
  | 0, _ :: _ => none
  | n + 1, a :: rest =>
    match store.revise a with
    | (.absent, _) =>
      G.propagateWithin store ⟨counters.revisions + 1, counters.removals⟩ n rest
    | (.removed, store) =>
      G.propagateWithin store ⟨counters.revisions + 1, counters.removals + 1⟩ n
        (rest ++ G.arcsAfter a)
    | (.emptied, store) => some ⟨store, ⟨counters.revisions + 1, counters.removals⟩, some a⟩

private theorem le_revisions_propagate (G : Graph) (s : Store G.order)
    (counters : PropagationCounters) (queue : List (Arc G.order)) :
    counters.revisions ≤ (G.propagate s counters queue).counters.revisions := by
  fun_induction Graph.propagate G s counters queue with
  | case1 => exact Nat.le_refl _
  | case2 _ _ _ _ _ _ _ ih | case3 _ _ _ _ _ _ _ ih => exact Nat.le_of_succ_le ih
  | case4 => exact Nat.le_succ _

private theorem lt_revisions_propagate (G : Graph) (s : Store G.order)
    (counters : PropagationCounters) (a : Arc G.order) (rest : List (Arc G.order)) :
    counters.revisions < (G.propagate s counters (a :: rest)).counters.revisions := by
  rw [propagate_cons]
  split
  · exact G.le_revisions_propagate _ ⟨counters.revisions + 1, _⟩ _
  · exact G.le_revisions_propagate _ ⟨counters.revisions + 1, _⟩ _
  · exact Nat.lt_succ_self _

/-- Propagation ends, and after no more and no fewer revisions than it counts. -/
theorem propagateWithin_eq (G : Graph) (s : Store G.order) (counters : PropagationCounters)
    (n : Nat) (queue : List (Arc G.order)) :
    G.propagateWithin s counters n queue =
      if (G.propagate s counters queue).counters.revisions ≤ counters.revisions + n then
        some (G.propagate s counters queue)
      else none := by
  fun_induction propagateWithin G s counters n queue with
  | case1 => simp [propagate_nil]
  | case2 s counters a rest =>
    rw [if_neg]
    exact Nat.not_le_of_lt (G.lt_revisions_propagate s counters a rest)
  | case3 s counters n a rest _ hr ih | case4 s counters n a rest _ hr ih =>
    rw [ih, propagate_cons, hr]
    simp only [Nat.add_right_comm, Nat.add_assoc]
  | case5 s counters n a rest _ hr =>
    rw [propagate_cons, hr, if_pos]
    exact Nat.add_le_add_left (Nat.succ_le_succ (Nat.zero_le n)) _

/-- Propagation over arcs of the graph ends, after as many revisions as it counts. When it empties
no domain, it counts as removals the colours that it took, which are the newest ones on the trail,
and as revisions the arcs that it began with and those that the removals queued. Otherwise the
newest colour on the trail is the last one of its domain and is not counted, the removals before it
are, and there were some revisions, at most those. -/
theorem propagate_accounts (hq : ∀ a ∈ queue, G.IsArc a) (s : Store G.order)
    (counters : PropagationCounters) :
    let r := G.propagate s counters queue
    (∀ n, G.propagateWithin s counters n queue =
        if r.counters.revisions ≤ counters.revisions + n then some r else none) ∧
      (r.emptiedBy = none → ∃ taken, r.store.trail.entries = taken ++ s.trail.entries ∧
        r.counters.removals = counters.removals + taken.length ∧
        r.counters.revisions = counters.revisions + queue.length + G.numQueued taken) ∧
      ∀ a, r.emptiedBy = some a →
        ∃ c taken, r.store.trail.entries = ⟨a.tail, c⟩ :: taken ++ s.trail.entries ∧
          (∀ x, x ∉ r.store.domain a.tail) ∧
          r.counters.removals = counters.removals + taken.length ∧
          counters.revisions + 1 ≤ r.counters.revisions ∧
          r.counters.revisions ≤ counters.revisions + queue.length + G.numQueued taken := by
  intro r
  have hrun := Balanced.propagate ⟨[], .refl (v := ⟨s, counters, queue⟩)⟩ hq
  refine ⟨fun n => G.propagateWithin_eq s counters n queue, ?_, ?_⟩
  · intro hnone
    rcases hrun with ⟨taken, -, h⟩ | ⟨a, _, _, _, _, hsome, -⟩
    · exact ⟨taken, h.trail, h.removals, h.revisions⟩
    · cases hnone.symm.trans hsome
  · intro a hsome
    rcases hrun with ⟨_, hnone, -⟩ | ⟨b, t, c, rest, taken, hb, h, hr, hc⟩
    · cases hnone.symm.trans hsome
    obtain rfl : b = a := Option.some.inj (hb.symm.trans hsome)
    obtain ⟨x, hentries⟩ := Store.entries_of_revise hr (by simp)
    have hrevisions := h.revisions
    simp only [List.length_cons] at hrevisions
    refine ⟨x, taken, ?_, propagate_emptied hsome, ?_, ?_, ?_⟩
    · rw [hentries, h.trail]
      rfl
    · rw [hc]
      exact h.removals
    · cases queue with
      | nil =>
        rw [propagate_nil] at hb
        cases hb
      | cons a rest => exact G.lt_revisions_propagate s counters a rest
    · rw [hc]
      show c.revisions + 1 ≤ _
      omega

/-- Propagation from the first of three mutual neighbours, which has one of two colours left, takes
a colour from each of the others and then the last one of the third. An arc is left in the queue. -/
theorem propagate_accounts_triangle :
    let r := triangle.propagate overfull ⟨0, 0⟩ (triangle.arcsInto ⟨0, by decide⟩)
    r.emptiedBy = some ⟨⟨2, by decide⟩, ⟨1, by decide⟩⟩ ∧ r.counters = ⟨3, 2⟩ ∧
      ∃ c taken, r.store.trail.entries = ⟨⟨2, by decide⟩, c⟩ :: taken ++ overfull.trail.entries ∧
        taken.length = 2 ∧ 3 ≤ 2 + triangle.numQueued taken := by
  intro r
  have he : r.emptiedBy = some ⟨⟨2, by decide⟩, ⟨1, by decide⟩⟩ := by decide +kernel
  have hcounters : r.counters = ⟨3, 2⟩ := by decide +kernel
  have harcs : ∀ a ∈ triangle.arcsInto ⟨0, by decide⟩, triangle.IsArc a :=
    fun _ => isArc_of_mem_arcsInto
  obtain ⟨c, taken, hentries, -, hremovals, -, hrevisions⟩ :=
    (propagate_accounts harcs overfull ⟨0, 0⟩).2.2 _ he
  refine ⟨he, hcounters, c, taken, hentries, ?_, ?_⟩
  · have htwo : 2 = 0 + taken.length := by rwa [hcounters] at hremovals
    omega
  · rwa [hcounters] at hrevisions

end Graph
end Chromatic
