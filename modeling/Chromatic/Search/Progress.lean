import Chromatic.Order.Countdown
import Chromatic.Search.Step
/-!
# The progress of a search

A step lowers the number of colours that some frame has left to try, and only frames above that
one are new. So no search takes steps for ever, whatever the selectors answer.
-/

namespace Chromatic
namespace Search

variable {G : Graph} {σ τ κ : Type}

/-- The numbers of colours left to try from the bottom of a stack to its top, and a zero for
every frame that may still come. -/
def ranks (frames : List Frame) (free : Nat) : List Nat :=
  frames.reverse.map (fun f => f.untried.length + 1) ++ List.replicate free 0

private theorem ranks_cons {f : Frame} {below : List Frame} {free : Nat} :
    ranks (f :: below) free = below.reverse.map (fun f => f.untried.length + 1) ++
      (f.untried.length + 1) :: List.replicate free 0 := by
  simp [ranks]

private theorem lowered_pop {top : Frame} {below : List Frame} {free : Nat} :
    Lowered (ranks below (free + 1)) (ranks (top :: below) free) := by
  rw [ranks_cons, ranks, List.replicate_succ]
  exact .append _ (Nat.succ_pos _) rfl

private theorem lowered_retry {x : VariableId} {c : Colour} {untried : List Colour}
    {checkpoint : Nat} {below : List Frame} {free : Nat} :
    Lowered (ranks (⟨x, untried, checkpoint⟩ :: below) free)
      (ranks (⟨x, c :: untried, checkpoint⟩ :: below) free) := by
  rw [ranks_cons, ranks_cons]
  exact .append _ (Nat.lt_succ_self _) rfl

private theorem lowered_push {f : Frame} {x : VariableId} {c : Colour} {untried : List Colour}
    {checkpoint : Nat} {below : List Frame} {free : Nat} :
    Lowered (ranks (f :: ⟨x, untried, checkpoint⟩ :: below) free)
      (ranks (⟨x, c :: untried, checkpoint⟩ :: below) (free + 1)) := by
  rw [ranks_cons, ranks_cons, List.reverse_cons, List.map_append, List.append_assoc]
  exact .append _ (Nat.lt_succ_self _) (by simp)

/-- What a step lowers. -/
def rank (s : Search G σ τ) : Countdown := ⟨ranks s.frames s.assignment.numFree⟩

theorem absorb_frame (s : Search G σ τ) (r : Propagated G.order) :
    (s.absorb r).2.frames = s.frames ∧ (s.absorb r).2.assignment = s.assignment := by
  unfold absorb
  split <;> exact ⟨rfl, rfl⟩

theorem narrow_frame (s : Search G σ τ) (i : Fin G.order) (c : Colour) :
    (s.narrow i c).2.frames = s.frames ∧ (s.narrow i c).2.assignment = s.assignment := by
  unfold narrow
  split
  · exact ⟨rfl, rfl⟩
  · next store _ =>
    have h := absorb_frame { s with store } (G.propagateFrom store s.propagation i)
    split
    · next hr => rw [hr] at h; exact h
    · next hr =>
      rw [hr] at h
      split <;> exact h

theorem choose_frame [VariableSelector σ] [ValueSelector τ] (s : Search G σ τ) :
    s.choose.2.frames = s.frames ∧ s.choose.2.assignment = s.assignment := by
  unfold choose
  dsimp only
  split
  · exact ⟨rfl, rfl⟩
  · split <;> exact ⟨rfl, rfl⟩

private theorem descend_frame [VariableSelector σ] [ValueSelector τ] {s s' : Search G σ τ}
    {limit limit' : κ} (h : s.descend limit = .again s' limit') :
    (∃ f, s'.frames = f :: s.frames) ∧ s'.assignment = s.assignment := by
  have hc := s.choose_frame
  unfold descend at h
  split at h
  · cases h
  · cases h
  · next hp =>
    cases h
    rw [hp] at hc
    exact ⟨⟨_, congrArg _ hc.1⟩, hc.2⟩

theorem attempt_frame {s t : Search G σ τ} {x : VariableId} {c : Colour} {r : Option Failure}
    (h : s.attempt x c = (.ok r, t)) :
    t.frames = s.frames ∧ t.assignment.numFree + 1 = s.assignment.numFree := by
  unfold attempt at h
  dsimp only at h
  split at h
  · cases h
  · next i _ =>
    split at h
    · cases h
    · next a ha =>
      have hn := narrow_frame { s with
        counters := { s.counters with decisions := s.counters.decisions + 1 }
        assignment := a } i c
      rw [← Assignment.numFree_of_assign ha]
      split at h
      all_goals
        next hr =>
          cases h
          rw [hr] at hn
          exact ⟨hn.1, congrArg (·.numFree + 1) hn.2⟩

private theorem afterRetract_frame {s s' : Search G σ τ} {x : VariableId} {checkpoint : Nat}
    {limit limit' : κ} (h : s.afterRetract x checkpoint limit = .again s' limit') :
    s'.frames = s.frames ∧ s'.assignment.numFree = s.assignment.numFree + 1 := by
  unfold afterRetract at h
  split at h
  · next hr =>
    cases h
    obtain ⟨_, _, _, -, -, ha, rfl⟩ := retract_eq_ok hr
    exact ⟨rfl, Assignment.numFree_of_unassign ha⟩
  · cases h

theorem lowered_step [VariableSelector σ] [ValueSelector τ] [TerminationCondition κ]
    {s s' : Search G σ τ} {limit limit' : κ} (h : s.step limit = .again s' limit') :
    Lowered s'.rank.counts s.rank.counts := by
  unfold step at h
  split at h
  · cases h
  · next top below hframes =>
    obtain ⟨x, untried, checkpoint⟩ := top
    simp only [rank, hframes]
    split at h
    · unfold backtrack unwind at h
      split at h
      · cases h
      · obtain ⟨hf, hn⟩ := afterRetract_frame h
        rw [hf, hn]
        exact lowered_pop
    · next c untried huntried =>
      simp only at huntried h
      subst huntried
      split at h
      · cases h
      · unfold tryColour at h
        split at h
        · cases h
        · next hr =>
          obtain ⟨hf, hn⟩ := afterRetract_frame h
          obtain ⟨hf', hn'⟩ := attempt_frame hr
          rw [hf, hn, hf', hn']
          exact lowered_retry
        · next hr =>
          obtain ⟨⟨f, hf⟩, ha⟩ := descend_frame h
          obtain ⟨hf', hn'⟩ := attempt_frame hr
          rw [hf, ha, hf', ← hn']
          exact lowered_push

end Search
end Chromatic
