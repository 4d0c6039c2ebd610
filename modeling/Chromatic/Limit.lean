/-!
# Limits on a search

A limit is asked before each decision whether the search should stop, and is told of each
decision.
-/

namespace Chromatic

/-- What can stop a search before it has a verdict. -/
class TerminationCondition (κ : Type) where
  /-- Whether to stop now, with the condition after it was asked. -/
  shouldStop : κ → Bool × κ
  /-- The condition after a decision. -/
  decisionMade : κ → κ

/-- The limits that combine numbers of decisions and stretches of time. -/
inductive Limit
  | indefinite
  /-- A number of decisions, and how many were made. -/
  | decisions (budget made : Nat)
  /-- A stretch of time, and whether it has passed. -/
  | time (spent : Bool)
  | either (a b : Limit)
  | absent
  | present (a : Limit)
deriving DecidableEq

namespace Limit

def budget (n : Nat) : Limit := decisions n 0

def isReached : Limit → Bool
  | indefinite => false
  | decisions budget made => budget ≤ made
  | time spent => spent
  | either a b => a.isReached || b.isReached
  | absent => false
  | present a => a.isReached

def countDecision : Limit → Limit
  | indefinite => indefinite
  | decisions budget made => decisions budget (made + 1)
  | time spent => time spent
  | either a b => either a.countDecision b.countDecision
  | absent => absent
  | present a => present a.countDecision

instance : TerminationCondition Limit where
  shouldStop a := (a.isReached, a)
  decisionMade := countDecision

end Limit

end Chromatic
