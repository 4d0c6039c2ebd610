import Chromatic.Proofs.Search.Refinement
/-!
# Searches under other limits

A search looks at its limit only before a decision. So a search that no limit interrupted is the
same search under every limit that permits its decisions, and any other limit cuts it off exactly
where it says stop.
-/

namespace Chromatic

namespace Search

section Decisions

variable {G : Graph} {σ τ : Type} {s t u : Search G σ τ} {x : VariableId} {c : Colour}
  {r : Option Failure} {choice : Except Fault (Option (VariableId × List Colour))}

private theorem attempt_rewindTo_decisions (ha : s.attempt x c = (.ok r, t)) :
    (t.rewindTo s).counters.decisions = s.counters.decisions + 1 :=
  (attempt_counters ha).1

private theorem choose_decisions [VariableSelector σ] [ValueSelector τ]
    (ha : s.attempt x c = (.ok r, t)) (hc : t.choose = (choice, u)) :
    u.counters.decisions = s.counters.decisions + 1 := by
  rw [choose_counters hc]
  exact (attempt_counters ha).1

end Decisions

variable {G : Graph} {σ τ : Type} [VariableSelector σ] [ValueSelector τ]
  {s t u v w : Search G σ τ} {x y : VariableId} {c : Colour} {rest colours : List Colour}
  {result : Option (Except Fault Outcome)}

/-- Trying the listed colours is interrupted after `m` decisions. -/
def Cut {κ : Type} [TerminationCondition κ] (s : Search G σ τ) (x : VariableId)
    (untried : List Colour) (limit : κ) (m : Nat) : Prop :=
  ∃ t, Swept s x untried limit (some (.ok .interrupted)) t
      (TerminationCondition.shouldStop (TerminationCondition.pass^[m] limit)).2 ∧
    t.counters.decisions = s.counters.decisions + m

/-- Trying the listed colours takes `n` decisions and ends in the given state, unless the limit
stops it before. -/
structure Paced (s : Search G σ τ) (x : VariableId) (untried : List Colour)
    (result : Option (Except Fault Outcome)) (t : Search G σ τ) (n : Nat) : Prop where
  decisions : t.counters.decisions = s.counters.decisions + n
  permitted : ∀ {κ : Type} [TerminationCondition κ] {limit : κ}, Permits limit n →
    Swept s x untried limit result t (TerminationCondition.pass^[n] limit)
  stopped : ∀ {κ : Type} [TerminationCondition κ] {limit : κ} {m : Nat}, m < n →
    StopsAfter limit m → Cut s x untried limit m

section Cuts

variable {κ : Type} [TerminationCondition κ] {limit : κ} {m n : Nat}

private theorem Cut.atOnce (h : StopsAfter limit 0) : Cut s x (c :: rest) limit 0 :=
  ⟨s.note .interrupted, .stopped (Prod.ext h.stops rfl), rfl⟩

private theorem Cut.refuted {cause : Failure} (ha : s.attempt x c = (.ok (some cause), t))
    (hl : StopsAfter limit (m + 1))
    (h : Cut (t.rewindTo s) x rest (TerminationCondition.pass limit) m) :
    Cut s x (c :: rest) limit (m + 1) := by
  obtain ⟨u, hr, hd⟩ := h
  refine ⟨u, .refuted hl.permits.asked ha hr, ?_⟩
  rw [hd, attempt_rewindTo_decisions ha]
  omega

private theorem Cut.settled (ha : s.attempt x c = (.ok none, t))
    (hc : t.choose = (.ok (some (y, colours)), u)) (hl : StopsAfter limit (m + 1))
    (h : Cut u y colours (TerminationCondition.pass limit) m) :
    Cut s x (c :: rest) limit (m + 1) := by
  obtain ⟨v, hb, hd⟩ := h
  refine ⟨v, .settled hl.permits.asked ha hc hb, ?_⟩
  rw [hd, choose_decisions ha hc]
  omega

private theorem Cut.defeated (ha : s.attempt x c = (.ok none, t))
    (hc : t.choose = (.ok (some (y, colours)), u)) (hb : Paced u y colours none v n)
    (hl : StopsAfter limit (n + m + 1))
    (h : Cut (v.rewindTo s) x rest
      (TerminationCondition.pass^[n] (TerminationCondition.pass limit)) m) :
    Cut s x (c :: rest) limit (n + m + 1) := by
  obtain ⟨w, hr, hd⟩ := h
  refine ⟨w, ?_, ?_⟩
  · have hbelow := hb.permitted hl.permits.pass.left
    rw [Function.iterate_succ_apply, Nat.add_comm, Function.iterate_add_apply]
    exact .defeated hl.permits.asked ha hc hbelow hr
  · have hv : (v.rewindTo s).counters.decisions = _ := hb.decisions
    rw [hd, hv, choose_decisions ha hc]
    omega

end Cuts

namespace Paced

variable {fault : Fault} {m n : Nat}

private theorem abandoned : Paced s x [] none (s.abandon x) 0 := ⟨rfl, fun _ => .abandoned, nofun⟩

private theorem once (hd : t.counters.decisions = s.counters.decisions + 1)
    (h : ∀ {κ : Type} [TerminationCondition κ] {limit : κ}, Permits limit 1 →
      Swept s x (c :: rest) limit result t (TerminationCondition.pass limit)) :
    Paced s x (c :: rest) result t 1 := by
  refine ⟨hd, fun hp => h hp, fun hm hl => ?_⟩
  obtain rfl := Nat.lt_one_iff.mp hm
  exact .atOnce hl

private theorem faulted (ha : s.attempt x c = (.error fault, t)) :
    Paced s x (c :: rest) (some (.error fault)) t 1 := by
  refine .once ?_ fun hp => .faulted hp.asked ha
  rw [attempt_faulted ha]
  rfl

private theorem misordered (ha : s.attempt x c = (.ok none, t))
    (hc : t.choose = (.error fault, u)) : Paced s x (c :: rest) (some (.error fault)) u 1 :=
  .once (choose_decisions ha hc) fun hp => .misordered hp.asked ha hc

private theorem solved (ha : s.attempt x c = (.ok none, t)) (hc : t.choose = (.ok none, u)) :
    Paced s x (c :: rest) (some (.ok (.solved u.solution))) u 1 :=
  .once (choose_decisions ha hc) fun hp => .solved hp.asked ha hc

private theorem refuted {cause : Failure} (ha : s.attempt x c = (.ok (some cause), t))
    (hr : Paced (t.rewindTo s) x rest result u n) : Paced s x (c :: rest) result u (n + 1) := by
  refine ⟨?_, fun hp => .refuted hp.asked ha (hr.permitted hp.pass), fun {_ _ _ m} hm hl => ?_⟩
  · rw [hr.decisions, attempt_rewindTo_decisions ha]
    omega
  · cases m with
    | zero => exact .atOnce hl
    | succ m => exact .refuted ha hl (hr.stopped (Nat.lt_of_succ_lt_succ hm) hl.pass)

private theorem settled {r : Except Fault Outcome} (ha : s.attempt x c = (.ok none, t))
    (hc : t.choose = (.ok (some (y, colours)), u)) (hb : Paced u y colours (some r) v n) :
    Paced s x (c :: rest) (some r) v (n + 1) := by
  refine ⟨?_, fun hp => .settled hp.asked ha hc (hb.permitted hp.pass),
    fun {_ _ _ m} hm hl => ?_⟩
  · rw [hb.decisions, choose_decisions ha hc]
    omega
  · cases m with
    | zero => exact .atOnce hl
    | succ m => exact .settled ha hc hl (hb.stopped (Nat.lt_of_succ_lt_succ hm) hl.pass)

private theorem defeated (ha : s.attempt x c = (.ok none, t))
    (hc : t.choose = (.ok (some (y, colours)), u)) (hb : Paced u y colours none v m)
    (hr : Paced (v.rewindTo s) x rest result w n) :
    Paced s x (c :: rest) result w (m + n + 1) := by
  refine ⟨?_, fun hp => ?_, fun {_ _ _ i} hi hl => ?_⟩
  · have hv : (v.rewindTo s).counters.decisions = _ := hb.decisions
    rw [hr.decisions, hv, choose_decisions ha hc]
    omega
  · rw [Function.iterate_succ_apply, Nat.add_comm, Function.iterate_add_apply]
    exact .defeated hp.asked ha hc (hb.permitted hp.pass.left) (hr.permitted hp.pass.right)
  · cases i with
    | zero => exact .atOnce hl
    | succ i =>
      -- The limit stops either the search below the colour or that of the other colours.
      by_cases him : i < m
      · exact .settled ha hc hl (hb.stopped him hl.pass)
      · obtain ⟨j, rfl⟩ := Nat.exists_eq_add_of_le (Nat.le_of_not_lt him)
        apply Cut.defeated ha hc hb hl
        apply hr.stopped
        · omega
        · exact hl.pass.right

end Paced

variable {κ : Type} [TerminationCondition κ] {limit limit' : κ}

private theorem Swept.paced {untried : List Colour} (h : Swept s x untried limit result t limit')
    (hr : result ≠ some (.ok .interrupted)) : ∃ n, Paced s x untried result t n := by
  induction h with
  | abandoned => exact ⟨_, .abandoned⟩
  | stopped => exact absurd rfl hr
  | faulted _ ha => exact ⟨_, .faulted ha⟩
  | misordered _ ha hc => exact ⟨_, .misordered ha hc⟩
  | solved _ ha hc => exact ⟨_, .solved ha hc⟩
  | refuted _ ha _ ih =>
    obtain ⟨n, h⟩ := ih hr
    exact ⟨_, .refuted ha h⟩
  | settled _ ha hc _ ih =>
    obtain ⟨n, h⟩ := ih hr
    exact ⟨_, .settled ha hc h⟩
  | defeated _ ha hc _ _ ihb ihr =>
    obtain ⟨m, hb⟩ := ihb nofun
    obtain ⟨n, hr⟩ := ihr hr
    exact ⟨_, .defeated ha hc hb hr⟩

/-- A whole search takes `n` decisions and ends in the given state, unless the limit stops it
before. -/
structure Finishes (s : Search G σ τ) (outcome : Outcome) (t : Search G σ τ) (n : Nat) : Prop where
  decisions : t.counters.decisions = s.counters.decisions + n
  permitted : ∀ {κ : Type} [TerminationCondition κ] {limit : κ}, Permits limit n →
    s.run limit = (.ok outcome, t, TerminationCondition.pass^[n] limit)
  stopped : ∀ {κ : Type} [TerminationCondition κ] {limit : κ} {m : Nat}, m < n →
    StopsAfter limit m → ∃ u,
      s.run limit = (.ok .interrupted, u,
        (TerminationCondition.shouldStop (TerminationCondition.pass^[m] limit)).2) ∧
      u.counters.decisions = s.counters.decisions + m

private theorem Finishes.of_swept {outcome : Outcome} {n : Nat} (hs : s.IsIdle)
    (hc : s.choose = (.ok (some (x, colours)), t)) (hb : Paced t x colours result u n)
    (hr : result.getD (.ok .exhausted) = .ok outcome) :
    s.Finishes outcome (u.concluded s) n := by
  have hd := hb.decisions
  rw [choose_counters hc] at hd
  refine ⟨hd, fun hp => run_of_explored hs ?_, fun hm hl => ?_⟩
  · cases result with
    | none =>
      cases hr
      exact .defeated hc (hb.permitted hp)
    | some r =>
      cases hr
      exact .settled hc (hb.permitted hp)
  · obtain ⟨v, hv, hd⟩ := hb.stopped hm hl
    rw [choose_counters hc] at hd
    exact ⟨_, run_of_explored hs (.settled hc hv), hd⟩

/-- A search that was not interrupted is the same under every limit that permits its decisions,
and is cut off where any other limit says stop. -/
theorem finishes_of_run (hs : s.IsIdle) {outcome : Outcome} (ho : (s.run limit).1 = .ok outcome)
    (hu : outcome ≠ .interrupted) : ∃ n, s.Finishes outcome (s.run limit).2.1 n := by
  obtain ⟨t, he, ht⟩ := run_ok hs ho
  rw [ht]
  generalize (s.run limit).2.2 = limit' at he
  cases he with
  | solved hc =>
    have hd := congrArg SearchCounters.decisions (choose_counters hc)
    exact ⟨0, hd, fun _ => run_of_explored hs (.solved hc), nofun⟩
  | settled hc hb =>
    have hr : some (.ok outcome) ≠ some (Except.ok (ε := Fault) Outcome.interrupted) :=
      fun h => hu (Except.ok.inj (Option.some.inj h))
    obtain ⟨n, h⟩ := hb.paced hr
    exact ⟨n, .of_swept hs hc h rfl⟩
  | defeated hc hb =>
    obtain ⟨n, h⟩ := hb.paced nofun
    exact ⟨n, .of_swept hs hc h rfl⟩

end Search

end Chromatic
