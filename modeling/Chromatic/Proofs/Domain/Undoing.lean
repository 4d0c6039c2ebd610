import Chromatic.Proofs.Propagation.Largest
import Mathlib.Data.Set.Card
/-!
# Undoing to any moment

Every colour that a variable may take is either in its domain or on the trail, and there only once.
So whatever was removed, propagated and undone before, going back to any length of the trail
brings back the store of the last moment at which the trail had this length. Propagation makes its
removals one after the other, and it is left in the middle just as well.
-/

namespace Chromatic

section Undoing

variable {n : Nat} {s t u : Store n} {m m' : Nat}

namespace Store

/-- Puts removed colours back in turn, up to the first one that is not missing. -/
def restoreInPlace (domains : Family n Domain) : List (Removal n) → Option Fault × Family n Domain
  | [] => (none, domains)
  | r :: rest =>
    match restore domains r with
    | .error fault => (some fault, domains)
    | .ok domains => restoreInPlace domains rest

/-- Undoing on a store that stays when a rule is broken, with whatever was done to it so far. -/
def undoInPlace (s : Store n) (m : Nat) : Option Fault × Store n :=
  match s.trail.undoTo m with
  | .error fault => (some fault, s)
  | .ok (removals, trail) =>
    let (fault, domains) := restoreInPlace s.domains removals
    (fault, { domains, trail })

private theorem restoreInPlace_of_ok {removals : List (Removal n)}
    {domains domains' : Family n Domain} (h : removals.foldlM restore domains = .ok domains') :
    restoreInPlace domains removals = (none, domains') := by
  induction removals generalizing domains with
  | nil =>
    cases h
    rfl
  | cons r rest ih =>
    rw [List.foldlM_cons] at h
    cases hr : restore domains r with
    | error fault => simp [hr, bind, Except.bind] at h
    | ok next =>
      simp only [hr, bind, Except.bind] at h
      simp only [restoreInPlace, hr]
      exact ih h

/-- The removals since the checkpoint can be put back, and the earlier ones stay on the trail. -/
theorem undoTo_eq_ok :
    s.undoTo m = .ok t ↔ m ≤ s.checkpoint ∧
      (s.trail.entries.take (s.checkpoint - m)).foldlM restore s.domains = .ok t.domains ∧
        t.trail.entries = s.trail.entries.drop (s.checkpoint - m) := by
  obtain ⟨domains, ⟨entries⟩⟩ := t
  simp only [undoTo, Trail.undoTo, checkpoint]
  by_cases hm : m ≤ s.trail.length
  · rw [if_pos hm]
    simp only [hm, true_and, bind, Except.bind, pure, Except.pure]
    cases (s.trail.entries.take (s.trail.length - m)).foldlM restore s.domains with
    | error fault => simp
    | ok restored => simp [eq_comm]
  · simp [hm, bind, Except.bind]

private theorem undoTo_beyond (h : s.checkpoint < m) :
    s.undoTo m = .error (.undoBeyond m s.checkpoint) ∧
      s.undoInPlace m = (some (.undoBeyond m s.checkpoint), s) := by
  have hm : ¬m ≤ s.trail.length := Nat.not_le.mpr h
  simp [undoTo, undoInPlace, Trail.undoTo, hm, checkpoint, bind, Except.bind]

private theorem undoInPlace_of_ok (h : s.undoTo m = .ok t) : s.undoInPlace m = (none, t) := by
  obtain ⟨hm, hdomains, htrail⟩ := undoTo_eq_ok.mp h
  have hundo : s.trail.undoTo m = .ok (s.trail.entries.take (s.checkpoint - m), t.trail) := by
    have hm' : m ≤ s.trail.length := hm
    rw [Trail.undoTo, if_pos hm']
    exact congrArg (fun entries => Except.ok (_, Trail.mk entries)) htrail.symm
  rw [undoInPlace, hundo]
  simp only [restoreInPlace_of_ok hdomains]

private theorem checkpoint_of_undoTo (h : s.undoTo m = .ok t) : t.checkpoint = m := by
  obtain ⟨hm, -, htrail⟩ := undoTo_eq_ok.mp h
  have hlen : t.trail.entries.length = m := by
    rw [htrail, List.length_drop]
    exact Nat.sub_sub_self hm
  exact hlen

private theorem undoTo_undoTo (h : s.undoTo m = .ok t) (hm' : m' ≤ m) :
    t.undoTo m' = .ok u ↔ s.undoTo m' = .ok u := by
  have ht := checkpoint_of_undoTo h
  obtain ⟨hm, hdomains, htrail⟩ := undoTo_eq_ok.mp h
  have hsplit : s.checkpoint - m' = (s.checkpoint - m) + (m - m') := by omega
  have hfold : (s.trail.entries.take (s.checkpoint - m')).foldlM restore s.domains =
      (t.trail.entries.take (t.checkpoint - m')).foldlM restore t.domains := by
    rw [hsplit, List.take_add, List.foldlM_append, hdomains, htrail, ht]
    rfl
  have hdrop : s.trail.entries.drop (s.checkpoint - m') =
      t.trail.entries.drop (t.checkpoint - m') := by
    rw [hsplit, ← List.drop_drop, htrail, ht]
  rw [undoTo_eq_ok, undoTo_eq_ok, hfold, hdrop, ht]
  simp [hm', hm'.trans hm]

/-- The colours of a variable that are on the trail. -/
def taken (s : Store n) (i : Fin n) : Set Colour := {c | ⟨i, c⟩ ∈ s.trail.entries}

/-- Every colour from one up to `k` is either open to a variable or on the trail for it, and there
only once. -/
structure Accounted (k : Nat) (s : Store n) : Prop where
  nodup : s.trail.entries.Nodup
  disjoint : ∀ i, ∀ c ∈ s.colours i, c ∉ s.taken i
  union : ∀ i, s.colours i ∪ s.taken i = Set.Icc 1 k

private theorem Accounted.full (n k : Nat) : Accounted k (full n k) where
  nodup := List.nodup_nil
  disjoint _ _ _ := List.not_mem_nil
  union i := by
    ext c
    simp [colours, taken, Store.full, domain, Trail.empty]

private theorem Accounted.remove {k : Nat} (h : s.Accounted k) (i : Fin n) (c : Colour) :
    (s.remove i c).2.Accounted k := by
  by_cases hc : c ∈ s.domain i
  · have htrail : (s.remove i c).2.trail = s.trail.record ⟨i, c⟩ := by rw [store_remove hc]
    have htaken : ∀ j x, x ∈ (s.remove i c).2.taken j ↔ x ∈ s.taken j ∨ i = j ∧ x = c := by
      intro j x
      simp only [taken, htrail, Trail.record, Set.mem_ofPred_eq, List.mem_cons, Removal.mk.injEq]
      tauto
    have hopen : ∀ j x, x ∈ (s.remove i c).2.colours j ↔ x ∈ s.colours j ∧ ¬(i = j ∧ x = c) :=
      fun j x => mem_domain_remove
    refine ⟨?_, fun j => ?_, fun j => ?_⟩
    · rw [htrail]
      apply List.nodup_cons.mpr
      refine ⟨fun hmem => ?_, h.nodup⟩
      exact h.disjoint i c hc hmem
    · intro x hx hx'
      rw [hopen] at hx
      rw [htaken] at hx'
      have hdisjoint := h.disjoint j x hx.1
      tauto
    · rw [← h.union j]
      ext x
      simp only [Set.mem_union, hopen, htaken]
      have hmem : i = j ∧ x = c → x ∈ s.colours j := by
        rintro ⟨rfl, rfl⟩
        exact hc
      tauto
  · rw [remove_of_not_mem hc]
    exact h

private theorem size_eq_ncard (s : Store n) (i : Fin n) :
    (s.domain i).size = (s.colours i).ncard := by
  have hcolours : s.colours i = ((s.domain i).values.toFinset : Set Colour) := by
    ext c
    simp [colours, Domain.mem_def]
  have hnodup : (s.domain i).values.Nodup := (s.domain i).ascending.imp Nat.ne_of_lt
  rw [hcolours, Set.ncard_coe_finset, List.toFinset_card_of_nodup hnodup, (s.domain i).size_eq]

end Store

/-- The stores that there were one after the other: the present one, and those before it, the
newest first. -/
structure Moments (n : Nat) where
  present : Store n
  past : List (Store n)

namespace Moments

def all (h : Moments n) : List (Store n) := h.present :: h.past

def next (h : Moments n) (s : Store n) : Moments n := ⟨s, h.all⟩

/-- The store of the last moment at which the trail had the given length. -/
def lastAt (h : Moments n) (m : Nat) : Option (Store n) := h.all.find? fun s => s.checkpoint = m

/-- Every store accounts for the colours from one up to `k`, and undoing the present one to any
length of its trail leads to the last moment of that length. -/
structure Rewindable (k : Nat) (h : Moments n) : Prop where
  accounted : ∀ s ∈ h.all, s.Accounted k
  rewinds : ∀ m ≤ h.present.checkpoint, ∃ s, h.lastAt m = some s ∧ h.present.undoTo m = .ok s

private theorem lastAt_next (h : Moments n) (s : Store n) (m : Nat) :
    (h.next s).lastAt m = if s.checkpoint = m then some s else h.lastAt m := by
  rw [lastAt, next, all, List.find?_cons]
  by_cases hs : s.checkpoint = m <;> simp [hs, lastAt]

namespace Rewindable

variable {k : Nat} {h : Moments n}

private theorem start (n k : Nat) : Rewindable k ⟨Store.full n k, []⟩ where
  accounted s hs := by
    rw [List.mem_singleton.mp hs]
    exact .full n k
  rewinds m hm := by
    obtain rfl : m = (Store.full n k).checkpoint := Nat.le_zero.mp hm
    exact ⟨_, by simp [lastAt, all], Store.undoTo_checkpoint _⟩

private theorem next (hh : h.Rewindable k) (hs : s.Accounted k)
    (hback : ∀ m < s.checkpoint, m ≤ h.present.checkpoint ∧
      ∀ u, h.present.undoTo m = .ok u → s.undoTo m = .ok u) : (h.next s).Rewindable k where
  accounted t ht := by
    rcases List.mem_cons.mp ht with rfl | ht
    · exact hs
    · exact hh.accounted t ht
  rewinds m hm := by
    change m ≤ s.checkpoint at hm
    change ∃ u, (h.next s).lastAt m = some u ∧ s.undoTo m = .ok u
    rw [lastAt_next]
    by_cases hs' : s.checkpoint = m
    · subst hs'
      exact ⟨s, if_pos rfl, Store.undoTo_checkpoint s⟩
    · obtain ⟨hle, hundo⟩ := hback m (by omega)
      obtain ⟨u, hlast, hu⟩ := hh.rewinds m hle
      rw [if_neg hs']
      exact ⟨u, hlast, hundo u hu⟩

private theorem remove (hh : h.Rewindable k) (i : Fin n) (c : Colour) :
    (h.next (h.present.remove i c).2).Rewindable k := by
  apply hh.next ((hh.accounted _ List.mem_cons_self).remove i c)
  intro m hm
  have hle : m ≤ h.present.checkpoint := by
    by_cases hc : c ∈ h.present.domain i
    · rw [Store.store_remove hc] at hm
      exact Nat.le_of_lt_succ hm
    · rw [Store.remove_of_not_mem hc] at hm
      exact hm.le
  refine ⟨hle, fun u hu => ?_⟩
  rw [Store.undoTo_remove hle]
  exact hu

private theorem undo (hh : h.Rewindable k) (m : Nat) :
    (h.next (h.present.undoInPlace m).2).Rewindable k := by
  by_cases hm : m ≤ h.present.checkpoint
  · obtain ⟨s, hlast, hs⟩ := hh.rewinds m hm
    rw [Store.undoInPlace_of_ok hs]
    apply hh.next (hh.accounted s (List.mem_of_find?_eq_some hlast))
    intro m' hm'
    rw [Store.checkpoint_of_undoTo hs] at hm'
    exact ⟨hm'.le.trans hm, fun u hu => (Store.undoTo_undoTo hs hm'.le).mpr hu⟩
  · rw [(Store.undoTo_beyond (Nat.not_le.mp hm)).2]
    apply hh.next (hh.accounted _ List.mem_cons_self)
    intro m' hm'
    exact ⟨hm'.le, fun _ hu => hu⟩

end Rewindable

end Moments

end Undoing

section Calls

variable {G : Graph}

/-- What can be asked of the domains of a graph. Propagation may begin with any arcs. -/
inductive StoreCall (G : Graph)
  | remove (i : Fin G.order) (c : Colour)
  | checkpoint
  | undoTo (m : Nat)
  /-- The counters are those of the propagator before the call. -/
  | propagate (counters : PropagationCounters) (queue : List (Arc G.order))

/-- The store after a call, with the rule that the call broke, if it broke one. -/
def StoreCall.perform (s : Store G.order) : StoreCall G → Option Fault × Store G.order
  | remove i c => (none, (s.remove i c).2)
  | checkpoint => (none, s)
  | undoTo m => s.undoInPlace m
  | propagate counters queue => (none, (G.propagate s counters queue).store)

/-- The store of a graph after calls made one after the other. -/
def Store.afterCalls (s : Store G.order) (calls : List (StoreCall G)) : Store G.order :=
  calls.foldl (fun s call => (call.perform s).2) s

/-- The moments of a propagation, one for each removal. -/
def Graph.watch (G : Graph) (h : Moments G.order) (queue : List (Arc G.order)) :
    Moments G.order :=
  match queue with
  | [] => h
  | a :: rest =>
    match _h : h.present.revise a with
    | (.absent, _) => G.watch h rest
    | (.removed, s) => G.watch (h.next s) (rest ++ G.arcsAfter a)
    | (.emptied, s) => h.next s
termination_by h.present.weight * (G.maxDegree + 1) + queue.length
decreasing_by
  · simp only [List.length_cons]
    omega
  · have hw := Store.weight_revise (s := h.present) (a := a) (by simp [_h])
    have hl := G.length_arcsAfter_le a
    rw [_h] at hw
    simp only [Moments.next, List.length_cons, List.length_append, ← hw, Nat.add_mul]
    omega

/-- The moments up to the end of a call. -/
def StoreCall.watch (h : Moments G.order) : StoreCall G → Moments G.order
  | remove i c => h.next (h.present.remove i c).2
  | checkpoint => h
  | undoTo m => h.next (h.present.undoInPlace m).2
  | propagate _ queue => G.watch h queue

/-- The moments of calls made one after the other, from full domains on. -/
def StoreCall.moments (k : Nat) (calls : List (StoreCall G)) : Moments G.order :=
  calls.foldl watch ⟨.full G.order k, []⟩

private theorem Graph.present_watch (h : Moments G.order) (counters : PropagationCounters)
    (queue : List (Arc G.order)) :
    (G.watch h queue).present = (G.propagate h.present counters queue).store := by
  fun_induction Graph.watch G h queue generalizing counters with
  | case1 => rw [propagate_nil]
  | case2 h a rest _ hr ih =>
    rw [propagate_cons, hr]
    exact ih _
  | case3 h a rest s hr ih =>
    rw [propagate_cons, hr]
    exact ih _
  | case4 h a rest s hr =>
    rw [propagate_cons, hr]
    rfl

private theorem StoreCall.present_watch (call : StoreCall G) (h : Moments G.order) :
    (call.watch h).present = (call.perform h.present).2 := by
  cases call with
  | remove | checkpoint | undoTo => rfl
  | propagate counters queue => exact G.present_watch h counters queue

private theorem StoreCall.present_foldl_watch (calls : List (StoreCall G)) (h : Moments G.order) :
    (calls.foldl watch h).present = h.present.afterCalls calls := by
  induction calls generalizing h with
  | nil => rfl
  | cons call rest ih =>
    rw [List.foldl_cons, ih, call.present_watch, Store.afterCalls, Store.afterCalls,
      List.foldl_cons]

namespace Moments.Rewindable

variable {k : Nat} {h : Moments G.order} {a : Arc G.order} {o : RemovalOutcome} {s : Store G.order}

private theorem revise (hh : h.Rewindable k) (hr : h.present.revise a = (o, s)) (ho : o ≠ .absent) :
    (h.next s).Rewindable k := by
  rw [Store.revise] at hr
  split at hr
  · exact absurd (congrArg Prod.fst hr).symm ho
  · next c _ =>
    have hs : (h.present.remove a.tail c).2 = s := congrArg Prod.snd hr
    rw [← hs]
    exact hh.remove a.tail c

private theorem watch (hh : h.Rewindable k) (queue : List (Arc G.order)) :
    (G.watch h queue).Rewindable k := by
  fun_induction Graph.watch G h queue with
  | case1 => exact hh
  | case2 h a rest _ hr ih => exact ih hh
  | case3 h a rest s hr ih => exact ih (hh.revise hr (by simp))
  | case4 h a rest s hr => exact hh.revise hr (by simp)

private theorem call (hh : h.Rewindable k) (call : StoreCall G) : (call.watch h).Rewindable k := by
  cases call with
  | remove i c => exact hh.remove i c
  | checkpoint => exact hh
  | undoTo m => exact hh.undo m
  | propagate _ queue => exact hh.watch queue

private theorem calls (hh : h.Rewindable k) (calls : List (StoreCall G)) :
    (calls.foldl StoreCall.watch h).Rewindable k := by
  induction calls generalizing h with
  | nil => exact hh
  | cons call rest ih => exact ih (hh.call call)

end Moments.Rewindable

/-- Whatever was asked of the domains of a graph, no removal is on the trail twice, the colours
from one up to `k` are for every variable the disjoint union of its domain and of those on the
trail, and the size kept beside a domain is the number of its colours. Undoing to any length of
the trail brings back the store of the last moment at which it had this length, also one in the
middle of a propagation; undoing to a greater length breaks a rule and leaves the store as it
is. -/
theorem Store.undoTo_restores (G : Graph) (k : Nat) (calls : List (StoreCall G)) :
    let h := StoreCall.moments k calls
    let s := (Store.full G.order k).afterCalls calls
    h.present = s ∧ s.Accounted k ∧ (∀ i, (s.domain i).size = (s.colours i).ncard) ∧
      (∀ m ≤ s.checkpoint, ∃ t, h.lastAt m = some t ∧ s.undoTo m = .ok t) ∧
        ∀ m, s.checkpoint < m → s.undoTo m = .error (.undoBeyond m s.checkpoint) ∧
          s.undoInPlace m = (some (.undoBeyond m s.checkpoint), s) := by
  intro h s
  have hpresent : h.present = s := StoreCall.present_foldl_watch calls _
  have hh : h.Rewindable k := (Moments.Rewindable.start G.order k).calls calls
  rw [← hpresent]
  refine ⟨rfl, hh.accounted _ List.mem_cons_self, ?_, hh.rewinds, ?_⟩
  · exact fun i => h.present.size_eq_ncard i
  · intro m hm
    exact h.present.undoTo_beyond hm

/-- On the path with the vertices 0, 1 and 2, propagation takes a colour from the middle and then
its last one; a checkpoint out of reach is tried in between. -/
def cutShort : List (StoreCall (Graph.ofProblem (.ofStatements none [] [(0, 1), (1, 2)]))) :=
  [.remove ⟨0, by decide⟩ 1, .remove ⟨2, by decide⟩ 2, .undoTo 7, .propagate ⟨0, 0⟩ (Graph.arcs _)]

/-- Going back by one removal leads into the middle of the propagation. -/
theorem Store.undoTo_restores_cutShort :
    let s := (Store.full _ 2).afterCalls cutShort
    s.checkpoint = 4 ∧ (s.domain ⟨1, by decide⟩).values = [] ∧
      ∃ t, (StoreCall.moments 2 cutShort).lastAt 3 = some t ∧ s.undoTo 3 = .ok t ∧
        (t.domain ⟨1, by decide⟩).values = [1] := by
  intro s
  have hlength : s.checkpoint = 4 := by decide +kernel
  have hempty : (s.domain ⟨1, by decide⟩).values = [] := by decide +kernel
  obtain ⟨-, -, -, hundo, -⟩ := Store.undoTo_restores _ 2 cutShort
  obtain ⟨t, hlast, ht⟩ := hundo 3 (by rw [hlength]; decide)
  refine ⟨hlength, hempty, t, hlast, ht, ?_⟩
  have hmiddle : (s.undoTo 3).map (fun u => (u.domain ⟨1, by decide⟩).values) = .ok [1] := by
    decide +kernel
  rw [ht] at hmiddle
  exact Except.ok.inj hmiddle

end Calls

end Chromatic
