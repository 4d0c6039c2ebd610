import Chromatic.Search.Progress
/-!
# Running a search

Steps are taken until the search ends. Then everything it did is undone, so that the next search
starts from the same state.
-/

namespace Chromatic
namespace Search

variable {G : Graph} {σ τ κ : Type}

/-- Takes steps until the search ends. -/
def explore [VariableSelector σ] [ValueSelector τ] [TerminationCondition κ] (s : Search G σ τ)
    (limit : κ) : Except Fault Outcome × Search G σ τ × κ :=
  match _h : s.step limit with
  | .done result s limit => (result, s, limit)
  | .again s limit => s.explore limit
termination_by s.rank
decreasing_by exact lowered_step _h

theorem explore_eq [VariableSelector σ] [ValueSelector τ] [TerminationCondition κ]
    (s : Search G σ τ) (limit : κ) :
    s.explore limit = match s.step limit with
      | .done result s limit => (result, s, limit)
      | .again s limit => s.explore limit := by
  rw [explore]
  split <;> simp_all

/-- Starts a search, which has to be at the root, by choosing its first variable. -/
def enter [VariableSelector σ] [ValueSelector τ] (s : Search G σ τ) (limit : κ) :
    Turn G σ τ κ :=
  if s.frames.isEmpty ∧ s.assignment.numAssigned = 0 then s.descend limit
  else .done (.error .notAtRoot) s limit

/-- Drops what a search did since the checkpoint of its root. A search that broke a rule is left
as it is. -/
def leave (s : Search G σ τ) (root : Nat) (result : Except Fault Outcome) :
    Except Fault Outcome × Search G σ τ :=
  match result with
  | .error fault => (.error fault, s)
  | .ok outcome =>
    match s.store.undoTo root with
    | .error fault => (.error fault, s)
    | .ok store =>
      let s := { s with frames := [], assignment := .empty G.order, store }
      (.ok outcome, s.note (.finished s.counters.decisions s.counters.backtracks))

/-- Searches until there is a solution, every branch has failed, or the limit is reached. -/
def run [VariableSelector σ] [ValueSelector τ] [TerminationCondition κ] (s : Search G σ τ)
    (limit : κ) : Except Fault Outcome × Search G σ τ × κ :=
  let (result, t, limit) :=
    match s.enter limit with
    | .done result s limit => (result, s, limit)
    | .again s limit => s.explore limit
  let (result, t) := t.leave s.store.checkpoint result
  (result, t, limit)

end Search
end Chromatic
