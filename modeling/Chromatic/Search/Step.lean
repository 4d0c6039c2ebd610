import Chromatic.Search.State
/-!
# The steps of a search

A step tries one colour of the top variable, or drops the top variable when it has no colour
left and takes back the colour of the variable below. A failed colour is undone at once; a colour
that holds brings a new variable on top.
-/

namespace Chromatic

/-- A search after a step: it goes on, or it has ended. -/
inductive Turn (G : Graph) (σ τ κ : Type)
  | again (s : Search G σ τ) (limit : κ)
  | done (result : Except Fault Outcome) (s : Search G σ τ) (limit : κ)

namespace Search

variable {G : Graph} {σ τ κ : Type}

/-- Chooses the next variable and the order in which its colours are tried. -/
def choose [VariableSelector σ] [ValueSelector τ] (s : Search G σ τ) :
    Except Fault (Option (VariableId × List Colour)) × Search G σ τ :=
  let (choice, variableSelector) := VariableSelector.select s.view s.variableSelector
  let s := { s with variableSelector }
  match choice with
  | none => (.ok none, s)
  | some x =>
    match ValueSelector.order s.view x s.valueSelector with
    | .error fault => (.error fault, s)
    | .ok (untried, valueSelector) => (.ok (some (x, untried)), { s with valueSelector })

/-- Puts a frame on the stack for the next variable. Without one the assignment is the
solution. -/
def descend [VariableSelector σ] [ValueSelector τ] (s : Search G σ τ) (limit : κ) :
    Turn G σ τ κ :=
  match s.choose with
  | (.error fault, s) => .done (.error fault) s limit
  | (.ok none, s) => .done (.ok (.solved s.solution)) s limit
  | (.ok (some (x, untried)), s) =>
    .again { s with frames := ⟨x, untried, s.store.checkpoint⟩ :: s.frames } limit

/-- Narrows the domain of a variable to the colour it was given and propagates. What was removed
stays removed when this fails. -/
def narrow (s : Search G σ τ) (i : Fin G.order) (c : Colour) :
    Option Failure × Search G σ τ :=
  match s.store.keepOnly i c with
  | (false, store) => (some .emptyDomain, { s with store })
  | (true, store) =>
    match { s with store }.absorb (G.propagateFrom store s.propagation i) with
    | (false, s) => (some .emptyDomain, s)
    | (true, s) =>
      match (G.neighbours i).find? fun j => s.assignment.value j = some c with
      | none => (none, s)
      | some j =>
        let counters :=
          { s.counters with neighbourConflicts := s.counters.neighbourConflicts + 1 }
        (some (.assignedNeighbour (.ofFin j)),
          { s with counters }.note (.neighbourConflict (.ofFin i) c (.ofFin j)))

/-- Gives a colour to a variable; tells why it fails, if it does. -/
def attempt (s : Search G σ τ) (x : VariableId) (c : Colour) :
    Except Fault (Option Failure) × Search G σ τ :=
  let counters := { s.counters with decisions := s.counters.decisions + 1 }
  let s := { s with counters }
  match x.locate G.order with
  | .error fault => (.error fault, s)
  | .ok i =>
    match s.assignment.assign i c with
    | .error fault => (.error fault, s)
    | .ok assignment =>
      match { s with assignment }.narrow i c with
      | (some cause, s) => (.ok (some cause), s.note (.valueFailed x c cause))
      | (none, s) => (.ok none, s)

/-- Goes back to a checkpoint and takes its colour from a variable. -/
def retract (s : Search G σ τ) (x : VariableId) (checkpoint : Nat) :
    Except Fault (Search G σ τ) := do
  let store ← s.store.undoTo checkpoint
  let i ← x.locate G.order
  let assignment ← s.assignment.unassign i
  return { s with store, assignment }

theorem retract_eq_ok {s t : Search G σ τ} {x : VariableId} {checkpoint : Nat}
    (h : s.retract x checkpoint = .ok t) :
    ∃ store i assignment, s.store.undoTo checkpoint = .ok store ∧
      x.locate G.order = .ok i ∧ s.assignment.unassign i = .ok assignment ∧
      t = { s with store, assignment } := by
  unfold retract at h
  cases hstore : s.store.undoTo checkpoint with
  | error => simp [hstore, bind, Except.bind] at h
  | ok store =>
    cases hx : x.locate G.order with
    | error => simp [hstore, hx, bind, Except.bind] at h
    | ok i =>
      cases ha : s.assignment.unassign i with
      | error => simp [hstore, hx, ha, bind, Except.bind] at h
      | ok assignment =>
        simp only [hstore, hx, ha, bind, Except.bind, pure, Except.pure] at h
        exact ⟨store, i, assignment, rfl, rfl, ha, (Except.ok.inj h).symm⟩

/-- Goes on after a retraction, unless it broke a rule. -/
def afterRetract (s : Search G σ τ) (x : VariableId) (checkpoint : Nat) (limit : κ) :
    Turn G σ τ κ :=
  match s.retract x checkpoint with
  | .ok s => .again s limit
  | .error fault => .done (.error fault) s limit

/-- Counts a variable none of whose colours was kept. -/
def abandon (s : Search G σ τ) (x : VariableId) : Search G σ τ :=
  let counters := { s.counters with backtracks := s.counters.backtracks + 1 }
  { s with counters }.note (.backtracked x)

/-- Takes back the colour of the top variable. Without a variable every branch has failed. -/
def unwind (s : Search G σ τ) (limit : κ) : Turn G σ τ κ :=
  match s.frames with
  | [] => .done (.ok .exhausted) s limit
  | top :: _ => s.afterRetract top.target top.checkpoint limit

/-- Drops the top variable, whose frame is given, and takes back the colour of the variable
below. -/
def backtrack (s : Search G σ τ) (top : Frame) (below : List Frame) (limit : κ) :
    Turn G σ τ κ :=
  ({ s with frames := below }.abandon top.target).unwind limit

/-- Tries a colour for the variable of the top frame. -/
def tryColour [VariableSelector σ] [ValueSelector τ] (s : Search G σ τ) (top : Frame)
    (c : Colour) (limit : κ) : Turn G σ τ κ :=
  match s.attempt top.target c with
  | (.error fault, s) => .done (.error fault) s limit
  | (.ok (some _), s) => s.afterRetract top.target top.checkpoint limit
  | (.ok none, s) => s.descend limit

/-- One step of the search. The colour to try is off the stack before the limit is asked. -/
def step [VariableSelector σ] [ValueSelector τ] [TerminationCondition κ] (s : Search G σ τ)
    (limit : κ) : Turn G σ τ κ :=
  match s.frames with
  | [] => .done (.ok .exhausted) s limit
  | top :: below =>
    match top.untried with
    | [] => s.backtrack top below limit
    | c :: untried =>
      let top := { top with untried }
      let s := { s with frames := top :: below }
      match TerminationCondition.shouldStop limit with
      | (true, limit) => .done (.ok .interrupted) (s.note .interrupted) limit
      | (false, limit) => s.tryColour top c (TerminationCondition.decisionMade limit)

end Search

end Chromatic
