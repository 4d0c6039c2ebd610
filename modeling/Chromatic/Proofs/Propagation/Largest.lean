import Chromatic.Proofs.Propagation.ArcConsistency
import Mathlib.Data.Set.Defs
/-!
# The largest consistent domains

Colours support each other when every one of them leaves each neighbour another one. A revision
takes away no colour of such a family, in whichever order arcs are revised, and consistent domains
are such a family themselves. So propagation ends with the largest one, or there is none.
-/

namespace Chromatic

variable {G : Graph} {s t u : Store G.order} {D : Fin G.order → Set Colour} {a : Arc G.order}
  {o : RemovalOutcome} {counters : PropagationCounters} {queue : List (Arc G.order)}

/-- The colours left for a variable. -/
def Store.colours {n : Nat} (s : Store n) (i : Fin n) : Set Colour := {c | c ∈ s.domain i}

/-- Some of the colours of every domain, at least one of each, such that every one of them leaves
each neighbour another one. -/
structure Graph.SelfSupporting (G : Graph) (s : Store G.order) (D : Fin G.order → Set Colour) :
    Prop where
  within : ∀ i, ∀ c ∈ D i, c ∈ s.domain i
  inhabited : ∀ i, ∃ c, c ∈ D i
  supported : ∀ i, ∀ j ∈ G.neighbours i, ∀ c ∈ D i, ∃ d ∈ D j, d ≠ c

/-- Arcs were revised, in any order and however often, and no domain ran empty. -/
inductive Graph.Revised (G : Graph) (s : Store G.order) : Store G.order → Prop
  | refl : Revised G s s
  | revise {t u : Store G.order} {a : Arc G.order} {o : RemovalOutcome} (h : Revised G s t)
    (ha : G.IsArc a) (hr : t.revise a = (o, u)) (ho : o ≠ .emptied) : Revised G s u

private theorem Store.eq_of_revise_absent (h : s.revise a = (.absent, t)) : t = s := by
  rw [revise] at h
  split at h
  · cases h
    rfl
  · next c _ =>
    by_cases hc : c ∈ s.domain a.tail
    · exact absurd (congrArg Prod.fst h) (remove_ne_absent hc)
    · rw [remove_of_not_mem hc] at h
      cases h
      rfl

namespace Graph

namespace SelfSupporting

private theorem revise (hD : G.SelfSupporting s D) (ha : G.IsArc a) (hr : s.revise a = (o, t)) :
    G.SelfSupporting t D := by
  -- the one colour that a revision may take away leaves the head no other
  refine ⟨fun i c hc => ?_, hD.inhabited, hD.supported⟩
  have hmem := hD.within i c hc
  rw [Store.revise] at hr
  split at hr
  · cases hr
    exact hmem
  · next e he =>
    obtain rfl : (s.remove a.tail e).2 = t := congrArg Prod.snd hr
    refine Store.mem_domain_remove.mpr ⟨hmem, ?_⟩
    rintro ⟨rfl, rfl⟩
    obtain ⟨d, hd, hne⟩ := hD.supported a.tail a.head ha c hc
    have hhead := hD.within a.head d hd
    exact hne ((Domain.mem_of_values_eq (Domain.fixedValue_eq_some.mp he)).mp hhead)

private theorem not_emptied (hD : G.SelfSupporting s D) (ha : G.IsArc a) :
    s.revise a ≠ (.emptied, t) := by
  intro hr
  obtain ⟨c, hc⟩ := hD.inhabited a.tail
  exact Store.revise_emptied hr c ((hD.revise ha hr).within a.tail c hc)

private theorem revised (hD : G.SelfSupporting s D) (h : G.Revised s t) : G.SelfSupporting t D := by
  induction h with
  | refl => exact hD
  | revise _ ha hr _ ih => exact ih.revise ha hr

end SelfSupporting

namespace Revised

private theorem trans (h : G.Revised s t) (h' : G.Revised t u) : G.Revised s u := by
  induction h' with
  | refl => exact h
  | revise _ ha hr ho ih => exact ih.revise ha hr ho

private theorem reduction (h : G.Revised s t) : Store.Reduction s t := by
  induction h with
  | refl => exact .refl
  | revise _ _ hr _ ih => exact ih.trans (Store.reduction_of_revise hr)

private theorem live (hs : s.Live) (h : G.Revised s t) : t.Live := by
  induction h with
  | refl => exact hs
  | @revise t u a o _ _ hr ho ih =>
    cases o with
    | absent =>
      rw [Store.eq_of_revise_absent hr]
      exact ih
    | removed => exact ih.revise hr
    | emptied => exact absurd rfl ho

end Revised

/-- Propagation is one order of revisions, the last of which may have emptied a domain. -/
theorem propagate_revised (hq : ∀ a ∈ queue, G.IsArc a) :
    (G.propagate s counters queue).emptiedBy = none ∧
        G.Revised s (G.propagate s counters queue).store ∨
      ∃ a t, (G.propagate s counters queue).emptiedBy = some a ∧ G.IsArc a ∧ G.Revised s t ∧
        t.revise a = (.emptied, (G.propagate s counters queue).store) := by
  fun_induction propagate G s counters queue with
  | case1 => exact .inl ⟨rfl, .refl⟩
  | case2 s _ a rest _ _ _ ih => exact ih fun b hb => hq b (List.mem_cons_of_mem _ hb)
  | case3 s _ a rest _ t hr ih =>
    have hfirst : G.Revised s t :=
      Revised.refl.revise (hq a List.mem_cons_self) hr (by simp)
    have hqueue : ∀ b ∈ rest ++ G.arcsAfter a, G.IsArc b := fun b hb => by
      rcases List.mem_append.mp hb with hb | hb
      · exact hq b (List.mem_cons_of_mem _ hb)
      · exact isArc_of_mem_arcsAfter hb
    rcases ih hqueue with ⟨he, h⟩ | ⟨b, u, he, hb, h, hlast⟩
    · exact .inl ⟨he, hfirst.trans h⟩
    · exact .inr ⟨b, u, he, hb, hfirst.trans h, hlast⟩
  | case4 s _ a _ _ _ hr => exact .inr ⟨a, s, rfl, hq a List.mem_cons_self, .refl, hr⟩

private theorem SelfSupporting.propagate (hD : G.SelfSupporting s D) (hq : ∀ a ∈ queue, G.IsArc a) :
    (G.propagate s counters queue).emptiedBy = none ∧
      G.SelfSupporting (G.propagate s counters queue).store D := by
  rcases propagate_revised hq with ⟨he, h⟩ | ⟨a, t, -, ha, h, hlast⟩
  · exact ⟨he, hD.revised h⟩
  · exact absurd hlast ((hD.revised h).not_emptied ha)

theorem ArcConsistent.selfSupporting (ht : G.ArcConsistent t) (hlive : t.Live)
    (hr : Store.Reduction s t) : G.SelfSupporting s t.colours := by
  -- a colour that left a neighbour no other would be missing from consistent domains
  refine ⟨fun i c hc => hr.mem_domain hc, hlive, fun i j hij c hc => ?_⟩
  by_contra hno
  have hlast : (t.domain j).values = [c] := by
    refine Domain.values_eq_singleton (hlive j) fun d hd => ?_
    by_contra hne
    exact hno ⟨d, hd, hne⟩
  exact ht ⟨i, j⟩ hij c hlast hc

/-- While every arc is queued or consistent, propagation succeeds exactly when there are colours
that support each other, and the colours it leaves do. -/
theorem propagate_settles (hs : s.Live) (hq : ∀ a ∈ queue, G.IsArc a)
    (hc : ∀ a, G.IsArc a → a ∈ queue ∨ s.Supports a) (counters : PropagationCounters) :
    ((G.propagate s counters queue).emptiedBy = none ↔ ∃ D, G.SelfSupporting s D) ∧
      ((G.propagate s counters queue).emptiedBy = none →
        G.SelfSupporting s (G.propagate s counters queue).store.colours) := by
  have hfamily (he : (G.propagate s counters queue).emptiedBy = none) :
      G.SelfSupporting s (G.propagate s counters queue).store.colours :=
    (arcConsistent_propagate hq hc he).selfSupporting (propagate_live hs he)
      (G.propagate_reduction s counters queue)
  refine ⟨⟨fun he => ⟨_, hfamily he⟩, ?_⟩, hfamily⟩
  rintro ⟨D, hD⟩
  exact (hD.propagate hq).1

private theorem propagateAll_settles (hs : s.Live) (counters : PropagationCounters) :
    ((G.propagateAll s counters).emptiedBy = none ↔ ∃ D, G.SelfSupporting s D) ∧
      ((G.propagateAll s counters).emptiedBy = none →
        G.SelfSupporting s (G.propagateAll s counters).store.colours) :=
  propagate_settles hs (fun _ => isArc_of_mem_arcs) (fun _ ha => .inl (mem_arcs ha)) counters

private theorem SelfSupporting.propagateAll (hD : G.SelfSupporting s D) :
    G.SelfSupporting (G.propagateAll s counters).store D :=
  (hD.propagate fun _ => isArc_of_mem_arcs).2

private theorem domains_eq_of_selfSupporting (h : G.SelfSupporting s t.colours)
    (h' : G.SelfSupporting t s.colours) : s.domains = t.domains :=
  Family.ext_get fun i => Domain.ext_mem fun c => ⟨h'.within i c, h.within i c⟩

/-- Where no domain is empty, propagation over all arcs succeeds exactly when there is a family of
colours that support each other, and then it leaves the largest one. Any other order of revisions
comes to the same domains when it makes every arc consistent, and empties a domain only if
propagation does. -/
theorem propagateAll_largest (hs : s.Live) (counters : PropagationCounters) :
    ((G.propagateAll s counters).emptiedBy = none ↔ ∃ D, G.SelfSupporting s D) ∧
      ((G.propagateAll s counters).emptiedBy = none →
        G.SelfSupporting s (G.propagateAll s counters).store.colours ∧
          ∀ D, G.SelfSupporting s D →
            ∀ i, ∀ c ∈ D i, c ∈ (G.propagateAll s counters).store.domain i) ∧
        ∀ t, G.Revised s t →
          (G.ArcConsistent t → (G.propagateAll s counters).emptiedBy = none ∧
            (G.propagateAll s counters).store.domains = t.domains) ∧
          ∀ a u, G.IsArc a → t.revise a = (.emptied, u) →
            (G.propagateAll s counters).emptiedBy ≠ none := by
  obtain ⟨hiff, hfamily⟩ := propagateAll_settles hs counters
  refine ⟨hiff, fun he => ⟨hfamily he, fun D hD => hD.propagateAll.within⟩, fun t ht => ⟨?_, ?_⟩⟩
  · intro hconsistent
    have hD := hconsistent.selfSupporting (ht.live hs) ht.reduction
    have he := hiff.mpr ⟨_, hD⟩
    exact ⟨he, domains_eq_of_selfSupporting hD.propagateAll ((hfamily he).revised ht)⟩
  · intro a u ha hr he
    exact ((hfamily he).revised ht).not_emptied ha hr

/-- The path with the vertices 0, 1 and 2. -/
def threeInARow : Graph := .ofProblem (.ofStatements none [] [(0, 1), (1, 2)])

/-- Two colours for each of the three vertices, less one for the first vertex. -/
def firstFixed : Store threeInARow.order :=
  ((Store.full threeInARow.order 2).remove ⟨0, by decide⟩ 2).2

private theorem live_firstFixed : firstFixed.Live := fun i =>
  ⟨1, by simp [firstFixed, Store.mem_domain_remove]⟩

theorem propagateAll_largest_threeInARow :
    (threeInARow.propagateAll firstFixed ⟨0, 0⟩).emptiedBy = none ∧
      ∀ D, threeInARow.SelfSupporting firstFixed D → ∀ c ∈ D ⟨2, by decide⟩, c = 1 := by
  have he : (threeInARow.propagateAll firstFixed ⟨0, 0⟩).emptiedBy = none := by decide +kernel
  have hlast : ((threeInARow.propagateAll firstFixed ⟨0, 0⟩).store.domain
      ⟨2, by decide⟩).values = [1] := by decide +kernel
  refine ⟨he, fun D hD c hc => (Domain.mem_of_values_eq hlast).mp ?_⟩
  exact ((propagateAll_largest live_firstFixed ⟨0, 0⟩).2.1 he).2 D hD _ c hc

/-- Where no domain is empty and only arcs into one variable may be inconsistent, propagation from
this variable fails exactly when propagation over all arcs does, and leaves the same domains. -/
theorem propagateFrom_agrees (hs : s.Live) {i : Fin G.order}
    (hi : ∀ a, G.IsArc a → a.head ≠ i → s.Supports a) (counters counters' : PropagationCounters) :
    ((G.propagateFrom s counters i).emptiedBy = none ↔
        (G.propagateAll s counters').emptiedBy = none) ∧
      ((G.propagateFrom s counters i).emptiedBy = none →
        (G.propagateFrom s counters i).store.domains =
          (G.propagateAll s counters').store.domains) := by
  have hq : ∀ a ∈ G.arcsInto i, G.IsArc a := fun _ => isArc_of_mem_arcsInto
  have hc : ∀ a, G.IsArc a → a ∈ G.arcsInto i ∨ s.Supports a := fun a ha => by
    by_cases hhead : a.head = i
    · subst hhead
      exact .inl (mem_arcsInto ha)
    · exact .inr (hi a ha hhead)
  obtain ⟨hall, hfamily⟩ := propagateAll_settles hs counters'
  obtain ⟨hfrom, hfamily'⟩ := propagate_settles hs hq hc counters
  have hiff := hfrom.trans hall.symm
  refine ⟨hiff, fun he => ?_⟩
  have hlargest : G.SelfSupporting (G.propagateFrom s counters i).store
      (G.propagateAll s counters').store.colours := ((hfamily (hiff.mp he)).propagate hq).2
  exact domains_eq_of_selfSupporting hlargest (hfamily' he).propagateAll

theorem propagateFrom_agrees_threeInARow :
    (threeInARow.propagateFrom firstFixed ⟨0, 0⟩ ⟨0, by decide⟩).emptiedBy = none ∧
      (threeInARow.propagateFrom firstFixed ⟨0, 0⟩ ⟨0, by decide⟩).store.domains =
        (threeInARow.propagateAll firstFixed ⟨0, 0⟩).store.domains := by
  have htwo : ∀ j : Fin threeInARow.order, j ≠ ⟨0, by decide⟩ →
      (firstFixed.domain j).values = [1, 2] := by decide +kernel
  have hagree := propagateFrom_agrees live_firstFixed (i := ⟨0, by decide⟩)
    (fun a _ hhead c hc => by simp [htwo a.head hhead] at hc) ⟨0, 0⟩ ⟨0, 0⟩
  have he : (threeInARow.propagateFrom firstFixed ⟨0, 0⟩ ⟨0, by decide⟩).emptiedBy = none := by
    decide +kernel
  exact ⟨he, hagree.2 he⟩

end Graph

end Chromatic
