import Chromatic.Proofs.Limit
import Chromatic.Proofs.Search.Attempt
import Chromatic.Search.Run
/-!
# The search as a recursion

The same search without a stack: trying a colour of a variable hands the state down by value, and
a failed colour is dropped by taking up the domains and the assignment from before it. Nothing is
undone and no frame is kept.
-/

namespace Chromatic

namespace Search

variable {G : Graph} {σ τ κ : Type}

/-- The state after a branch, with the domains and the assignment of the state before it. -/
def rewindTo (t s : Search G σ τ) : Search G σ τ :=
  { t with store := s.store, assignment := s.assignment }

variable [VariableSelector σ] [ValueSelector τ] [TerminationCondition κ]

/-- Trying the listed colours of a variable in turn, with a search for the next variable below
each colour that holds, ends in the given state: with a result, or with none when every colour
failed. -/
inductive Swept : Search G σ τ → VariableId → List Colour → κ →
    Option (Except Fault Outcome) → Search G σ τ → κ → Prop
  /-- No colour is left. -/
  | abandoned {s : Search G σ τ} {x : VariableId} {limit : κ} :
    Swept s x [] limit none (s.abandon x) limit
  /-- The limit is reached. -/
  | stopped {s : Search G σ τ} {x : VariableId} {c : Colour} {rest : List Colour}
    {limit limit₁ : κ} (hl : TerminationCondition.shouldStop limit = (true, limit₁)) :
    Swept s x (c :: rest) limit (some (.ok .interrupted)) (s.note .interrupted) limit₁
  /-- The colour cannot be given to the variable at all. -/
  | faulted {s t : Search G σ τ} {x : VariableId} {c : Colour} {rest : List Colour}
    {limit limit₁ : κ} {fault : Fault}
    (hl : TerminationCondition.shouldStop limit = (false, limit₁))
    (ha : s.attempt x c = (.error fault, t)) :
    Swept s x (c :: rest) limit (some (.error fault)) t
      (TerminationCondition.decisionMade limit₁)
  /-- The colour fails at once. -/
  | refuted {s t u : Search G σ τ} {x : VariableId} {c : Colour} {rest : List Colour}
    {limit limit₁ limit₂ : κ} {cause : Failure} {result : Option (Except Fault Outcome)}
    (hl : TerminationCondition.shouldStop limit = (false, limit₁))
    (ha : s.attempt x c = (.ok (some cause), t))
    (hr : Swept (t.rewindTo s) x rest (TerminationCondition.decisionMade limit₁) result u
      limit₂) :
    Swept s x (c :: rest) limit result u limit₂
  /-- The colour holds, and the colours of the next variable cannot be had. -/
  | misordered {s t u : Search G σ τ} {x : VariableId} {c : Colour} {rest : List Colour}
    {limit limit₁ : κ} {fault : Fault}
    (hl : TerminationCondition.shouldStop limit = (false, limit₁))
    (ha : s.attempt x c = (.ok none, t)) (hc : t.choose = (.error fault, u)) :
    Swept s x (c :: rest) limit (some (.error fault)) u
      (TerminationCondition.decisionMade limit₁)
  /-- The colour holds, and there is no next variable. -/
  | solved {s t u : Search G σ τ} {x : VariableId} {c : Colour} {rest : List Colour}
    {limit limit₁ : κ}
    (hl : TerminationCondition.shouldStop limit = (false, limit₁))
    (ha : s.attempt x c = (.ok none, t)) (hc : t.choose = (.ok none, u)) :
    Swept s x (c :: rest) limit (some (.ok (.solved u.solution))) u
      (TerminationCondition.decisionMade limit₁)
  /-- The colour holds, and the search below it has a result. -/
  | settled {s t u v : Search G σ τ} {x y : VariableId} {c : Colour}
    {rest colours : List Colour} {limit limit₁ limit₂ : κ} {result : Except Fault Outcome}
    (hl : TerminationCondition.shouldStop limit = (false, limit₁))
    (ha : s.attempt x c = (.ok none, t)) (hc : t.choose = (.ok (some (y, colours)), u))
    (hb : Swept u y colours (TerminationCondition.decisionMade limit₁) (some result) v
      limit₂) :
    Swept s x (c :: rest) limit (some result) v limit₂
  /-- The colour holds, and the search below it fails. -/
  | defeated {s t u v w : Search G σ τ} {x y : VariableId} {c : Colour}
    {rest colours : List Colour} {limit limit₁ limit₂ limit₃ : κ}
    {result : Option (Except Fault Outcome)}
    (hl : TerminationCondition.shouldStop limit = (false, limit₁))
    (ha : s.attempt x c = (.ok none, t)) (hc : t.choose = (.ok (some (y, colours)), u))
    (hb : Swept u y colours (TerminationCondition.decisionMade limit₁) none v limit₂)
    (hr : Swept (v.rewindTo s) x rest limit₂ result w limit₃) :
    Swept s x (c :: rest) limit result w limit₃

/-- The colours of a variable can always be tried. The recursion is on the number of free
variables, and for one variable on its list of colours. -/
theorem exists_swept (s : Search G σ τ) (x : VariableId) (untried : List Colour) (limit : κ) :
    ∃ result t limit', Swept s x untried limit result t limit' := by
  match untried with
  | [] => exact ⟨_, _, _, .abandoned⟩
  | c :: rest =>
    rcases hl : TerminationCondition.shouldStop limit with ⟨_ | _, limit₁⟩
    · rcases ha : s.attempt x c with ⟨_ | _ | cause, t⟩
      · exact ⟨_, _, _, .faulted hl ha⟩
      · rcases hc : t.choose with ⟨_ | _ | ⟨y, colours⟩, u⟩
        · exact ⟨_, _, _, .misordered hl ha hc⟩
        · exact ⟨_, _, _, .solved hl ha hc⟩
        · obtain ⟨_ | result, v, limit₂, hb⟩ :=
            exists_swept u y colours (TerminationCondition.decisionMade limit₁)
          · obtain ⟨_, _, _, hr⟩ := exists_swept (v.rewindTo s) x rest limit₂
            exact ⟨_, _, _, .defeated hl ha hc hb hr⟩
          · exact ⟨_, _, _, .settled hl ha hc hb⟩
      · obtain ⟨_, _, _, hr⟩ :=
          exists_swept (t.rewindTo s) x rest (TerminationCondition.decisionMade limit₁)
        exact ⟨_, _, _, .refuted hl ha hr⟩
    · exact ⟨_, _, _, .stopped hl⟩
termination_by (s.assignment.numFree, untried.length)
decreasing_by
  · exact Prod.Lex.left _ _ (numFree_lt ha hc)
  · exact Prod.Lex.right _ (Nat.lt_succ_self _)
  · exact Prod.Lex.right _ (Nat.lt_succ_self _)

/-- When every colour failed, the domains and the assignment are as before. -/
theorem Swept.of_none {s t : Search G σ τ} {x : VariableId} {untried : List Colour}
    {limit limit' : κ} (h : Swept s x untried limit none t limit') :
    t.store = s.store ∧ t.assignment = s.assignment := by
  generalize hr : (none : Option (Except Fault Outcome)) = result at h
  induction h with
  | abandoned => exact ⟨rfl, rfl⟩
  | refuted _ _ _ ih => exact ih hr
  | defeated _ _ _ _ _ _ ih => exact ih hr
  | stopped | faulted | misordered | solved | settled => cases hr

theorem Swept.reduction {s t : Search G σ τ} {x : VariableId} {untried : List Colour}
    {limit limit' : κ} {result : Option (Except Fault Outcome)}
    (h : Swept s x untried limit result t limit') : Store.Reduction s.store t.store := by
  induction h with
  | abandoned | stopped => exact .refl
  | faulted _ ha => exact attempt_reduction ha
  | refuted _ _ _ ih => exact ih
  | misordered _ ha hc | solved _ ha hc => exact branch_reduction ha hc
  | settled _ ha hc _ ih => exact (branch_reduction ha hc).trans ih
  | defeated _ _ _ _ _ _ ih => exact ih

theorem Swept.uninterrupted {s t : Search G σ τ} {x : VariableId} {untried : List Colour}
    {limit limit' : κ} {result : Option (Except Fault Outcome)}
    (h : Swept s x untried limit result t limit') (hl : NeverStops limit) :
    result ≠ some (.ok .interrupted) ∧ NeverStops limit' := by
  induction h with
  | abandoned => exact ⟨nofun, hl⟩
  | stopped hstop => exact absurd hstop hl.not_stopped
  | faulted hstop | misordered hstop | solved hstop => exact ⟨nofun, hl.pass hstop⟩
  | refuted hstop _ _ ih => exact ih (hl.pass hstop)
  | settled hstop _ _ _ ih => exact ih (hl.pass hstop)
  | defeated hstop _ _ _ _ ihb ihr => exact ihr (ihb (hl.pass hstop)).2

/-- What every attempt that holds preserves is true when a solution is found. -/
theorem Swept.solved_view {P : View G → Prop}
    (hP : ∀ {s t : Search G σ τ} {x : VariableId} {c : Colour},
      s.attempt x c = (.ok none, t) → P s.view → P t.view)
    {s t : Search G σ τ} {x : VariableId} {untried : List Colour} {limit limit' : κ}
    {result : Option (Except Fault Outcome)} {sol : Solution}
    (h : Swept s x untried limit result t limit') (hr : result = some (.ok (.solved sol)))
    (hs : P s.view) : P t.view ∧ sol = t.solution := by
  induction h with
  | abandoned | stopped | faulted | misordered => cases hr
  | refuted _ _ _ ih => exact ih hr hs
  | @solved _ _ u _ _ _ _ _ _ ha hc =>
    cases hr
    refine ⟨?_, rfl⟩
    rw [choose_view hc]
    exact hP ha hs
  | settled _ ha hc _ ih =>
    refine ih hr ?_
    rw [choose_view hc]
    exact hP ha hs
  | defeated _ _ _ _ _ _ ih => exact ih hr hs

theorem Swept.selectors {P : σ → τ → Prop}
    (hP : ∀ {s t : Search G σ τ} {choice : Except Fault (Option (VariableId × List Colour))},
      s.choose = (choice, t) → P s.variableSelector s.valueSelector →
        P t.variableSelector t.valueSelector)
    {s t : Search G σ τ} {x : VariableId} {untried : List Colour} {limit limit' : κ}
    {result : Option (Except Fault Outcome)} (h : Swept s x untried limit result t limit')
    (hr : ∀ fault, result ≠ some (.error fault)) (hs : P s.variableSelector s.valueSelector) :
    P t.variableSelector t.valueSelector := by
  have hattempt : ∀ {s t : Search G σ τ} {x : VariableId} {c : Colour} {r : Option Failure},
      s.attempt x c = (.ok r, t) → P s.variableSelector s.valueSelector →
        P t.variableSelector t.valueSelector := by
    intro s t x c r ha hs
    rw [(attempt_selectors ha).1, (attempt_selectors ha).2]
    exact hs
  induction h with
  | abandoned | stopped => exact hs
  | faulted | misordered => exact absurd rfl (hr _)
  | refuted _ ha _ ih =>
    have ht := hattempt ha hs
    exact ih hr ht
  | solved _ ha hc => exact hP hc (hattempt ha hs)
  | settled _ ha hc _ ih => exact ih hr (hP hc (hattempt ha hs))
  | defeated _ ha hc _ _ ihb ihr =>
    have hv := ihb nofun (hP hc (hattempt ha hs))
    exact ihr hr hv

/-- The whole search, from the choice of the first variable. -/
inductive Explored (s : Search G σ τ) (limit : κ) :
    Except Fault Outcome → Search G σ τ → κ → Prop
  | misordered {t : Search G σ τ} {fault : Fault} (hc : s.choose = (.error fault, t)) :
    Explored s limit (.error fault) t limit
  | solved {t : Search G σ τ} (hc : s.choose = (.ok none, t)) :
    Explored s limit (.ok (.solved t.solution)) t limit
  | settled {t u : Search G σ τ} {x : VariableId} {colours : List Colour} {limit' : κ}
    {result : Except Fault Outcome} (hc : s.choose = (.ok (some (x, colours)), t))
    (hb : Swept t x colours limit (some result) u limit') : Explored s limit result u limit'
  | defeated {t u : Search G σ τ} {x : VariableId} {colours : List Colour} {limit' : κ}
    (hc : s.choose = (.ok (some (x, colours)), t))
    (hb : Swept t x colours limit none u limit') :
    Explored s limit (.ok .exhausted) u limit'

theorem exists_explored (s : Search G σ τ) (limit : κ) :
    ∃ result t limit', Explored s limit result t limit' := by
  rcases hc : s.choose with ⟨_ | _ | ⟨x, colours⟩, t⟩
  · exact ⟨_, _, _, .misordered hc⟩
  · exact ⟨_, _, _, .solved hc⟩
  · obtain ⟨_ | result, u, limit', hb⟩ := exists_swept t x colours limit
    · exact ⟨_, _, _, .defeated hc hb⟩
    · exact ⟨_, _, _, .settled hc hb⟩

theorem Explored.uninterrupted {s t : Search G σ τ} {limit limit' : κ}
    {result : Except Fault Outcome} (h : Explored s limit result t limit')
    (hl : NeverStops limit) : result ≠ .ok .interrupted ∧ NeverStops limit' := by
  cases h with
  | misordered | solved => exact ⟨nofun, hl⟩
  | settled _ hb =>
    obtain ⟨hr, hl'⟩ := hb.uninterrupted hl
    exact ⟨fun h => hr (congrArg some h), hl'⟩
  | defeated _ hb => exact ⟨nofun, (hb.uninterrupted hl).2⟩

theorem Explored.solved_view {P : View G → Prop}
    (hP : ∀ {s t : Search G σ τ} {x : VariableId} {c : Colour},
      s.attempt x c = (.ok none, t) → P s.view → P t.view)
    {s t : Search G σ τ} {limit limit' : κ} {sol : Solution}
    (h : Explored s limit (.ok (.solved sol)) t limit') (hs : P s.view) :
    P t.view ∧ sol = t.solution := by
  cases h with
  | solved hc =>
    rw [choose_view hc]
    exact ⟨hs, rfl⟩
  | settled hc hb =>
    refine hb.solved_view hP rfl ?_
    rw [choose_view hc]
    exact hs

theorem Explored.selectors {P : σ → τ → Prop}
    (hP : ∀ {s t : Search G σ τ} {choice : Except Fault (Option (VariableId × List Colour))},
      s.choose = (choice, t) → P s.variableSelector s.valueSelector →
        P t.variableSelector t.valueSelector)
    {s t : Search G σ τ} {limit limit' : κ} {outcome : Outcome}
    (h : Explored s limit (.ok outcome) t limit')
    (hs : P s.variableSelector s.valueSelector) : P t.variableSelector t.valueSelector := by
  cases h with
  | solved hc => exact hP hc hs
  | settled hc hb => exact hb.selectors hP nofun (hP hc hs)
  | defeated hc hb => exact hb.selectors hP nofun (hP hc hs)

theorem Explored.reduction {s t : Search G σ τ} {limit limit' : κ}
    {result : Except Fault Outcome} (h : Explored s limit result t limit') :
    Store.Reduction s.store t.store := by
  cases h with
  | misordered hc | solved hc =>
    rw [(choose_kept hc).1]
    exact .refl
  | settled hc hb | defeated hc hb =>
    rw [← (choose_kept hc).1]
    exact hb.reduction

end Search

end Chromatic
