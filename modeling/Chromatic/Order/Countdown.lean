/-!
# Countdowns

A countdown is a list of numbers. Lowering a number allows all numbers after it to be replaced by
any others, as long as their count stays. Such steps cannot go on for ever, however large the
replacements are.
-/

namespace Chromatic

/-- The first list comes from the second one by lowering a number and replacing those after it. -/
inductive Lowered : List Nat → List Nat → Prop
  | head {a b : Nat} {l m : List Nat} (h : a < b) (hl : l.length = m.length) :
    Lowered (a :: l) (b :: m)
  | tail {a : Nat} {l m : List Nat} (h : Lowered l m) : Lowered (a :: l) (a :: m)

namespace Lowered

private theorem length_eq {l m : List Nat} (h : Lowered l m) : l.length = m.length := by
  induction h with
  | head _ hl => simp only [List.length_cons, hl]
  | tail _ ih => simp only [List.length_cons, ih]

theorem append {a b : Nat} {l m : List Nat} (r : List Nat) (h : a < b)
    (hl : l.length = m.length) : Lowered (r ++ a :: l) (r ++ b :: m) := by
  induction r with
  | nil => exact head h hl
  | cons _ _ ih => exact tail ih

private theorem acc_of_length (n : Nat) : ∀ l : List Nat, l.length = n → Acc Lowered l := by
  induction n with
  | zero =>
    intro l hl
    rw [List.length_eq_zero_iff.mp hl]
    exact ⟨_, nofun⟩
  | succ n ih =>
    have hcons : ∀ a : Nat, ∀ l : List Nat, l.length = n → Acc Lowered (a :: l) := by
      intro a
      induction a using Nat.strongRecOn with
      | ind a iha =>
        intro l hl
        induction ih l hl with
        | intro l _ ihl =>
          refine ⟨_, fun m hm => ?_⟩
          cases hm with
          | head h hlen => exact iha _ h _ (hlen.trans hl)
          | tail h => exact ihl _ h (h.length_eq.trans hl)
    intro l hl
    cases l with
    | nil => cases hl
    | cons a l => exact hcons a l (Nat.succ.inj hl)

theorem wellFounded : WellFounded Lowered := ⟨fun l => acc_of_length l.length l rfl⟩

end Lowered

/-- A list of numbers, ordered by lowering. -/
structure Countdown where
  counts : List Nat

instance : WellFoundedRelation Countdown where
  rel c d := Lowered c.counts d.counts
  wf := InvImage.wf Countdown.counts Lowered.wellFounded

end Chromatic
