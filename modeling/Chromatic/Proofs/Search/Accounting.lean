import Chromatic.Branching.Scripted
import Chromatic.Proofs.Search.ConflictFree
import Chromatic.Proofs.Search.Relabelling
import Chromatic.Proofs.Search.Unfailing
/-!
# What a search counts

A decision fails at once, or is taken back when the variable chosen after it is given up, or still
stands when the search ends. The variable chosen first is given up only after every branch has
failed, and this takes back no decision. So the decisions, the colours that failed, the variables
given up and the variables with a colour at the end are tied by an equation.
-/

namespace Chromatic

/-- The report that a colour was tried and failed. -/
def Event.isFailure : Event → Bool
  | valueFailed .. => true
  | _ => false

/-- The number of colours that failed, by what was reported. -/
def failures (events : List Event) : Nat := events.countP Event.isFailure

private theorem failures_append (l m : List Event) : failures (l ++ m) = failures l + failures m :=
  List.countP_append

private theorem Family.map_get_finRange {n : Nat} {α : Type} (f : Family n α) :
    (List.finRange n).map f.get = f.toList := by
  apply List.ext_getElem
  · simp [toList]
  · intro i _ _
    simp [get, toList]

private theorem Assignment.length_entries_add_numFree {n : Nat} (a : Assignment n) :
    a.entries.length + a.numFree = n := by
  have hcount (l : List (Fin n)) :
      (l.filterMap fun i => (a.value i).map fun c => (i, c)).length +
        (l.map a.value).foldr (fun v s => (if v.isNone then 1 else 0) + s) 0 = l.length := by
    induction l with
    | nil => rfl
    | cons i rest ih =>
      cases hi : a.value i with
      | none =>
        simp only [List.filterMap_cons, List.map_cons, List.foldr_cons, List.length_cons, hi,
          Option.map_none, Option.isNone_none, if_true]
        omega
      | some c =>
        simp only [List.filterMap_cons, List.map_cons, List.foldr_cons, List.length_cons, hi,
          Option.map_some, Option.isNone_some]
        simp only [Bool.false_eq_true, if_false]
        omega
  have hall := hcount (List.finRange n)
  rw [List.length_finRange] at hall
  rw [numFree, Family.total, ← a.values.map_get_finRange]
  exact hall

namespace Search

section Counts

variable {G : Graph} {σ τ : Type} {r s t u : Search G σ τ} {x : VariableId} {c : Colour}
  {d b d' b' : Nat} {l m : List Event}

private theorem size_solution (s : Search G σ τ) :
    s.solution.size + s.assignment.numFree = G.order := by
  have hascending : (s.assignment.entries.map fun e => (G.label e.1, e.2)).Pairwise
      fun a b => a.1 < b.1 := by
    rw [List.pairwise_map]
    exact s.assignment.pairwise_entries.imp fun hij => G.label_lt_label hij
  rw [Solution.size, solution, Solution.entries_ofList hascending, List.length_map]
  exact s.assignment.length_entries_add_numFree

/-- Between two states `d` decisions were made, `b` variables were given up, and the events were
reported, the newest first. -/
structure Since (s t : Search G σ τ) (d b : Nat) (events : List Event) : Prop where
  decisions : t.counters.decisions = s.counters.decisions + d
  backtracks : t.counters.backtracks = s.counters.backtracks + b
  log : t.log = events ++ s.log

namespace Since

private theorem trans (h : Since r s d b l) (h' : Since s t d' b' m) :
    Since r t (d + d') (b + b') (m ++ l) where
  decisions := by rw [h'.decisions, h.decisions, Nat.add_assoc]
  backtracks := by rw [h'.backtracks, h.backtracks, Nat.add_assoc]
  log := by rw [h'.log, h.log, List.append_assoc]

private theorem choose [VariableSelector σ] [ValueSelector τ]
    {choice : Except Fault (Option (VariableId × List Colour))} (hc : s.choose = (choice, t)) :
    Since s t 0 0 [] where
  decisions := congrArg SearchCounters.decisions (choose_counters hc)
  backtracks := congrArg SearchCounters.backtracks (choose_counters hc)
  log := choose_log hc

private theorem of_rewindTo (h : Since (s.rewindTo r) t d b l) : Since s t d b l :=
  ⟨h.decisions, h.backtracks, h.log⟩

private theorem held (ha : s.attempt x c = (.ok none, t)) : Since s t 1 0 [] where
  decisions := (attempt_counters ha).1
  backtracks := (attempt_counters ha).2
  log := attempt_log ha

end Since

private theorem narrow_log (s : Search G σ τ) (i : Fin G.order) (c : Colour) :
    ∃ events, (s.narrow i c).2.log = events ++ s.log ∧ failures events = 0 := by
  unfold narrow
  split
  · exact ⟨[], rfl, rfl⟩
  · unfold absorb
    dsimp only
    cases hr : (G.propagateFrom _ s.propagation i).emptiedBy with
    | some a => exact ⟨[_], rfl, rfl⟩
    | none =>
      dsimp only
      split
      · exact ⟨[], rfl, rfl⟩
      · exact ⟨[_], rfl, rfl⟩

private theorem Since.failed {cause : Failure} (ha : s.attempt x c = (.ok (some cause), t)) :
    ∃ events, Since s t 1 0 events ∧ failures events = 1 := by
  obtain ⟨i, a, u, -, -, hn, ht⟩ := attempt_cases ha
  obtain ⟨events, hlog, hnone⟩ := narrow_log (s.committed a) i c
  rw [hn] at hlog
  have hlog' : t.log = (.valueFailed x c cause :: events) ++ s.log := by
    rw [ht]
    exact congrArg (List.cons _) hlog
  refine ⟨_, ⟨(attempt_counters ha).1, (attempt_counters ha).2, hlog'⟩, ?_⟩
  rw [failures, List.countP_cons, ← failures, hnone]
  rfl

end Counts

/-- What `d` decisions, `f` colours that failed and `b` variables given up have to do with the
result of trying some colours, with `n` free variables before and `m` after it. -/
structure Balanced (n m d f b : Nat) (result : Option (Except Fault Outcome)) : Prop where
  /-- Every decision failed or was taken back, and the variable itself was given up. -/
  beaten : result = none → d + 1 = f + b ∧ 1 ≤ b
  /-- The decisions that stand gave colours to variables that were free. -/
  standing : ∀ outcome, result = some (.ok outcome) →
    outcome ≠ .exhausted ∧ ∃ k, m + k = n ∧ d = f + b + k

namespace Balanced

variable {n m d f b e g a : Nat} {result : Option (Except Fault Outcome)}

private theorem after_lost (h : Balanced n m d f b result) (he : e = g + a) :
    Balanced n m (e + d) (f + g) (a + b) result where
  beaten hr := by
    have hd := h.beaten hr
    omega
  standing outcome hr := by
    obtain ⟨hne, k, hk, hd⟩ := h.standing outcome hr
    exact ⟨hne, k, hk, by omega⟩

private theorem after_held {r : Except Fault Outcome} (h : Balanced n m d f b (some r)) :
    Balanced (n + 1) m (1 + d) f b (some r) where
  beaten := nofun
  standing outcome hr := by
    obtain ⟨hne, k, hk, hd⟩ := h.standing outcome hr
    exact ⟨hne, k + 1, by omega, by omega⟩

end Balanced

section Limits

variable {κ : Type} [TerminationCondition κ] {limit limit₁ limit' : κ} {d e : Nat}
  {result : Option (Except Fault Outcome)}

/-- The limit let `d` decisions be made, and was asked once more if it stopped the search. -/
structure Consulted (limit : κ) (d : Nat) (limit' : κ) (result : Option (Except Fault Outcome)) :
    Prop where
  permits : Permits limit d
  stopped : result = some (.ok .interrupted) →
    TerminationCondition.shouldStop (TerminationCondition.pass^[d] limit) = (true, limit')
  passed : result ≠ some (.ok .interrupted) → TerminationCondition.pass^[d] limit = limit'

namespace Consulted

private theorem unasked (hr : result ≠ some (.ok .interrupted)) : Consulted limit 0 limit result :=
  ⟨nofun, fun h => absurd h hr, fun _ => rfl⟩

private theorem after (h : Consulted (TerminationCondition.pass^[e] limit) d limit' result)
    (hp : Permits limit e) : Consulted limit (e + d) limit' result := by
  have hiterate : ∀ m, TerminationCondition.pass^[e + m] limit =
      TerminationCondition.pass^[m] (TerminationCondition.pass^[e] limit) := by
    intro m
    rw [Nat.add_comm, Function.iterate_add_apply]
  constructor
  · intro m hm
    by_cases hme : m < e
    · exact hp m hme
    · obtain ⟨i, rfl⟩ := Nat.exists_eq_add_of_le (Nat.le_of_not_lt hme)
      rw [hiterate]
      exact h.permits i (Nat.lt_of_add_lt_add_left hm)
  · rw [hiterate]
    exact h.stopped
  · rw [hiterate]
    exact h.passed

private theorem cons (hl : TerminationCondition.shouldStop limit = (false, limit₁))
    (h : Consulted (TerminationCondition.decisionMade limit₁) d limit' result) :
    Consulted limit (1 + d) limit' result := by
  have hpermits : Permits limit 1 := by
    intro m hm
    rw [Nat.lt_one_iff.mp hm, Function.iterate_zero, id, hl]
  have hpass : TerminationCondition.pass^[1] limit = TerminationCondition.decisionMade limit₁ := by
    rw [Function.iterate_one, TerminationCondition.pass, hl]
  rw [← hpass] at h
  exact h.after hpermits

end Consulted

end Limits

variable {G : Graph} {σ τ κ : Type} [VariableSelector σ] [ValueSelector τ]
  [TerminationCondition κ] {s t : Search G σ τ} {limit limit' : κ}

private theorem Since.branch {u : Search G σ τ} {x : VariableId} {c : Colour}
    {choice : Except Fault (Option (VariableId × List Colour))}
    (ha : s.attempt x c = (.ok none, t)) (hc : t.choose = (choice, u)) : Since s u 1 0 [] :=
  (Since.held ha).trans (.choose hc)

private theorem numFree_of_branch {u : Search G σ τ} {x : VariableId} {c : Colour}
    {choice : Except Fault (Option (VariableId × List Colour))}
    (ha : s.attempt x c = (.ok none, t)) (hc : t.choose = (choice, u)) :
    s.assignment.numFree = u.assignment.numFree + 1 := by
  rw [(choose_kept hc).2, (attempt_frame ha).2]

/-- What trying the listed colours of a variable adds to the counters and the log. -/
theorem Swept.tally {x : VariableId} {untried : List Colour}
    {result : Option (Except Fault Outcome)} (h : Swept s x untried limit result t limit') :
    ∃ d b events, Since s t d b events ∧
      Balanced s.assignment.numFree t.assignment.numFree d (failures events) b result ∧
        Consulted limit d limit' result := by
  induction h with
  | @abandoned s x limit =>
    exact ⟨0, 1, [.backtracked x], ⟨rfl, rfl, rfl⟩, ⟨fun _ => ⟨rfl, Nat.le_refl 1⟩, nofun⟩,
      .unasked nofun⟩
  | @stopped s x c rest limit limit₁ hl =>
    refine ⟨0, 0, [.interrupted], ⟨rfl, rfl, rfl⟩, ⟨nofun, fun outcome ho => ?_⟩, nofun,
      fun _ => hl, fun hne => absurd rfl hne⟩
    cases ho
    exact ⟨nofun, 0, rfl, rfl⟩
  | faulted hl ha =>
    obtain rfl := attempt_faulted ha
    refine ⟨1, 0, [], ⟨rfl, rfl, rfl⟩, ⟨nofun, by simp⟩, .cons hl (.unasked (by simp))⟩
  | refuted hl ha _ ih =>
    obtain ⟨d, b, events, hsince, hbalanced, hlimit⟩ := ih
    obtain ⟨events', hfailed, hone⟩ := Since.failed ha
    refine ⟨1 + d, 0 + b, events ++ events', ?_, ?_, .cons hl hlimit⟩
    · exact hfailed.trans hsince.of_rewindTo
    · rw [failures_append, hone]
      exact hbalanced.after_lost rfl
  | misordered hl ha hc =>
    exact ⟨1, 0, [], .branch ha hc, ⟨nofun, by simp⟩, .cons hl (.unasked (by simp))⟩
  | solved hl ha hc =>
    refine ⟨1, 0, [], .branch ha hc, ⟨nofun, fun outcome ho => ?_⟩,
      .cons hl (.unasked (by simp))⟩
    cases ho
    exact ⟨nofun, 1, (numFree_of_branch ha hc).symm, rfl⟩
  | settled hl ha hc _ ih =>
    obtain ⟨d, b, events, hsince, hbalanced, hlimit⟩ := ih
    refine ⟨1 + d, b, events, ?_, ?_, .cons hl hlimit⟩
    · simpa using (Since.branch ha hc).trans hsince
    · rw [numFree_of_branch ha hc]
      exact hbalanced.after_held
  | defeated hl ha hc _ _ ihb ihr =>
    obtain ⟨d, b, events, hsince, hbalanced, hlimit⟩ := ihb
    obtain ⟨d', b', events', hsince', hbalanced', hlimit'⟩ := ihr
    refine ⟨1 + d + d', b + b', events' ++ events, ?_, ?_, ?_⟩
    · have hbelow := (Since.branch ha hc).trans hsince
      simpa using hbelow.trans hsince'.of_rewindTo
    · rw [failures_append]
      have hlost := (hbalanced.beaten rfl).1
      exact hbalanced'.after_lost (by omega)
    · have hbelow := Consulted.cons hl hlimit
      have hpassed := hbelow.passed nofun
      rw [← hpassed] at hlimit'
      exact hlimit'.after hbelow.permits

private theorem Explored.tally {outcome : Outcome} (h : Explored s limit (.ok outcome) t limit') :
    ∃ d b events, Since s t d b events ∧
      (outcome = .exhausted → d + 1 = failures events + b ∧ 1 ≤ b) ∧
      (outcome ≠ .exhausted → ∃ k, t.assignment.numFree + k = s.assignment.numFree ∧
        d = failures events + b + k) ∧
      Consulted limit d limit' (some (.ok outcome)) := by
  -- the search began without a colour, so when it fails no decision stands
  cases h with
  | solved hc =>
    refine ⟨0, 0, [], .choose hc, nofun, fun _ => ⟨0, ?_, rfl⟩, .unasked (by simp)⟩
    rw [(choose_kept hc).2, Nat.add_zero]
  | settled hc hb =>
    obtain ⟨d, b, events, hsince, hbalanced, hlimit⟩ := hb.tally
    obtain ⟨hne, hstanding⟩ := hbalanced.standing outcome rfl
    refine ⟨d, b, events, ?_, fun ho => absurd ho hne, fun _ => ?_, hlimit⟩
    · simpa using (Since.choose hc).trans hsince
    · rw [← (choose_kept hc).2]
      exact hstanding
  | defeated hc hb =>
    obtain ⟨d, b, events, hsince, hbalanced, hlimit⟩ := hb.tally
    refine ⟨d, b, events, ?_, fun _ => hbalanced.beaten rfl, fun ho => absurd rfl ho,
      hlimit.permits, by simp, fun _ => hlimit.passed nofun⟩
    simpa using (Since.choose hc).trans hsince

/-- A search that comes to a solution has made a decision for every colour that failed, for every
variable that was given up and for every vertex of the solution. One that fails has made one
decision less than colours failed and variables were given up, at least one of these. One that is
interrupted has made at least as many, and its limit, which let all of them be made, said stop when
it was asked about the next one. -/
theorem run_accounts {outcome : Outcome} (h : (s.run limit).1 = .ok outcome) :
    ∃ d b events, Since s (s.run limit).2.1 d b events ∧
      (∀ sol, outcome = .solved sol → d = failures events + b + sol.size) ∧
      (outcome = .exhausted → d + 1 = failures events + b ∧ 1 ≤ b) ∧
      (outcome = .interrupted → failures events + b ≤ d ∧ Permits limit d ∧
        TerminationCondition.shouldStop (TerminationCondition.pass^[d] limit) =
          (true, (s.run limit).2.2)) := by
  have hidle := isIdle_of_run h
  obtain ⟨t, he, ht⟩ := run_ok hidle h
  obtain ⟨d, b, events, hsince, hexhausted, hstanding, hlimit⟩ := he.tally
  have hlog : (t.concluded s).log =
      (.finished t.counters.decisions t.counters.backtracks :: events) ++ s.log :=
    congrArg (List.cons _) hsince.log
  have hfailures : failures (.finished t.counters.decisions t.counters.backtracks :: events) =
      failures events := rfl
  rw [ht]
  refine ⟨d, b, _, ⟨hsince.decisions, hsince.backtracks, hlog⟩, ?_, ?_, ?_⟩
  · intro sol ho
    subst ho
    obtain ⟨k, hk, hd⟩ := hstanding nofun
    obtain rfl := (he.solved_view (P := fun _ => True) (fun _ _ => trivial) trivial).2
    have hsize := t.size_solution
    rw [hidle.assignment, Assignment.numFree_empty] at hk
    rw [hfailures]
    omega
  · rw [hfailures]
    exact hexhausted
  · intro ho
    obtain ⟨k, -, hd⟩ := hstanding (by simp [ho])
    rw [hfailures]
    exact ⟨by omega, hlimit.permits, hlimit.stopped (by rw [ho])⟩

/-- A search on the path with the vertices 0, 1 and 2 that begins in the middle. The first colour
holds, and the variable chosen next gets no colour to try. -/
def secondThoughts : Search (Graph.ofProblem (.ofStatements none [] [(0, 1), (1, 2)]))
    ScriptedVariables ScriptedValues :=
  .start _ 2 ⟨[some ⟨1⟩, some ⟨0⟩, some ⟨0⟩]⟩ ⟨[[1, 7, 2], [], [1]]⟩

/-- Of four decisions one failed, one was taken back, and the other two stand. -/
theorem run_accounts_secondThoughts :
    ∃ events sol, (secondThoughts.run Limit.indefinite).1 = .ok (.solved sol) ∧
      Since secondThoughts (secondThoughts.run Limit.indefinite).2.1 4 1 events ∧
      sol.size = 2 ∧ 4 = failures events + 1 + sol.size := by
  have hrun : (secondThoughts.run Limit.indefinite).1 =
      .ok (.solved (.ofList [(0, 1), (1, 2)])) := by
    rw [run_within 12]
    decide +kernel
  have hcounters : (secondThoughts.run Limit.indefinite).2.1.counters = ⟨4, 1, 0, 0⟩ := by
    rw [run_within 12]
    decide +kernel
  obtain ⟨d, b, events, hsince, hsolved, -, -⟩ := run_accounts hrun
  have hstart : secondThoughts.counters = ⟨0, 0, 0, 0⟩ := rfl
  have hd := hsince.decisions
  have hb := hsince.backtracks
  rw [hcounters, hstart, Nat.zero_add] at hd hb
  subst hd hb
  exact ⟨events, _, hrun, hsince, rfl, hsolved _ rfl⟩

end Search

end Chromatic
