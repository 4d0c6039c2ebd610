/-!
# Tie breaking

Of the candidates offered in turn the first one with the best score is kept.
-/

namespace Chromatic

inductive Direction
  | minimum
  | maximum
deriving DecidableEq

/-- The best candidate so far, with its score. -/
structure TieBreaker (α β : Type) where
  direction : Direction
  best : Option (α × β)
deriving DecidableEq

namespace TieBreaker

variable {α β : Type}

def ofDirection (direction : Direction) : TieBreaker α β := ⟨direction, none⟩

/-- Offers a candidate. It is kept if its score is strictly better than the best so far. -/
def consider [LT β] [DecidableLT β] (t : TieBreaker α β) (a : α) (score : β) :
    TieBreaker α β :=
  match t.best with
  | none => { t with best := some (a, score) }
  | some (_, best) =>
    let improves : Bool := match t.direction with
      | .minimum => score < best
      | .maximum => best < score
    if improves then { t with best := some (a, score) } else t

/-- Takes out the best candidate; the next one offered starts anew. -/
def select (t : TieBreaker α β) : Option α × TieBreaker α β :=
  (t.best.map (·.1), { t with best := none })

end TieBreaker

end Chromatic
