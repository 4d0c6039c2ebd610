import Chromatic.Proofs.Search.Refinement
/-!
# Carrying searches over

When an image of searches goes along with what the recursion does to a search, the search from the
image goes through the images of the states, to the image of the result.
-/

namespace Chromatic

def Outcome.map (ψ : Solution → Solution) : Outcome → Outcome
  | solved s => solved (ψ s)
  | exhausted => exhausted
  | interrupted => interrupted

@[simp] theorem Outcome.map_id : Outcome.map id = id := by
  funext outcome
  cases outcome <;> rfl

namespace Search

/-- The image of a search does what the search does and leaves the image of what it leaves. A
solution read off the image is the image of the solution. -/
structure Carries {G H : Graph} {σ τ : Type} [VariableSelector σ] [ValueSelector τ]
    (φ : Search G σ τ → Search H σ τ) (ψ : Solution → Solution) : Prop where
  attempt : ∀ s x c, (φ s).attempt x c = ((s.attempt x c).1, φ (s.attempt x c).2)
  choose : ∀ s, (φ s).choose = (s.choose.1, φ s.choose.2)
  rewindTo : ∀ t s, (φ t).rewindTo (φ s) = φ (t.rewindTo s)
  abandon : ∀ s x, (φ s).abandon x = φ (s.abandon x)
  interrupt : ∀ s, (φ s).note .interrupted = φ (s.note .interrupted)
  solution : ∀ s, (φ s).solution = ψ s.solution

namespace Carries

variable {G H : Graph} {σ τ κ : Type} [VariableSelector σ] [ValueSelector τ]
  {φ : Search G σ τ → Search H σ τ} {ψ : Solution → Solution} {s t : Search G σ τ}
  {x : VariableId} {limit limit' : κ}

private theorem attempt_eq {r : Except Fault (Option Failure)} {c : Colour} (h : Carries φ ψ)
    (ha : s.attempt x c = (r, t)) : (φ s).attempt x c = (r, φ t) := by
  rw [h.attempt, ha]

private theorem choose_eq {r : Except Fault (Option (VariableId × List Colour))} (h : Carries φ ψ)
    (hc : s.choose = (r, t)) : (φ s).choose = (r, φ t) := by
  rw [h.choose, hc]

variable [TerminationCondition κ]

private theorem swept {untried : List Colour} {result : Option (Except Fault Outcome)}
    (h : Carries φ ψ) (hs : Swept s x untried limit result t limit') :
    Swept (φ s) x untried limit (result.map (Except.map (Outcome.map ψ))) (φ t) limit' := by
  induction hs with
  | abandoned =>
    rw [← h.abandon]
    exact .abandoned
  | stopped hl =>
    rw [← h.interrupt]
    exact .stopped hl
  | faulted hl ha => exact .faulted hl (h.attempt_eq ha)
  | refuted hl ha _ ih =>
    rw [← h.rewindTo] at ih
    exact .refuted hl (h.attempt_eq ha) ih
  | misordered hl ha hc => exact .misordered hl (h.attempt_eq ha) (h.choose_eq hc)
  | solved hl ha hc =>
    simp only [Option.map_some, Except.map, Outcome.map, ← h.solution]
    exact .solved hl (h.attempt_eq ha) (h.choose_eq hc)
  | settled hl ha hc _ ih => exact .settled hl (h.attempt_eq ha) (h.choose_eq hc) ih
  | defeated hl ha hc _ _ ihb ihr =>
    rw [← h.rewindTo] at ihr
    exact .defeated hl (h.attempt_eq ha) (h.choose_eq hc) ihb ihr

theorem explored {result : Except Fault Outcome} (h : Carries φ ψ)
    (hs : Explored s limit result t limit') :
    Explored (φ s) limit (result.map (Outcome.map ψ)) (φ t) limit' := by
  cases hs with
  | misordered hc => exact .misordered (h.choose_eq hc)
  | solved hc =>
    simp only [Except.map, Outcome.map, ← h.solution]
    exact .solved (h.choose_eq hc)
  | settled hc hb => exact .settled (h.choose_eq hc) (h.swept hb)
  | defeated hc hb => exact .defeated (h.choose_eq hc) (h.swept hb)

end Carries

end Search

end Chromatic
