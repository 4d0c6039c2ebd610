import Chromatic.Proofs.Search.Past
import Chromatic.Proofs.Solver.GapFree
/-!
# Asking again

Whatever a solver was asked before and wherever these calls were stopped, a call that nothing
stops comes to the verdict of the very first one, with the same work.
-/

namespace Chromatic

namespace Search

variable {G : Graph} {κ : Type} [TerminationCondition κ] {k : Nat}
  {s s' : Search G FewestColours LeastConstraining}

private theorem Prepared.run_repeats (h : Prepared k .standard {} s)
    (h' : Prepared k .standard {} s')
    (limit : κ) {outcome : Outcome} (ho : (s.run limit).1 = .ok outcome) :
    ∃ w, (s'.run limit).1 = .ok outcome ∧ (s.run limit).2.1.work = s.work + w ∧
      (s'.run limit).2.1.work = s'.work + w := by
  have hidle := h.atRoot.isIdle
  have hidle' := h'.atRoot.isIdle
  have hblank : s.blank.after s' = s' := by
    rw [h.blank_eq h']
    exact blank_after s'
  obtain ⟨result, t, limit', he⟩ := exists_explored s.blank limit
  have hs := he.after s
  have hs' := he.after s'
  rw [blank_after] at hs
  rw [hblank] at hs'
  cases result with
  | error fault =>
    have hfault := run_of_explored_error hidle hs
    rw [ho] at hfault
    cases hfault
  | ok found =>
    have hrun := run_of_explored hidle hs
    have hrun' := run_of_explored hidle' hs'
    obtain rfl : outcome = found := Except.ok.inj (ho.symm.trans (congrArg Prod.fst hrun))
    rw [hrun, hrun']
    exact ⟨t.work, rfl, rfl, rfl⟩

private theorem run_neverStops {κ' : Type} [TerminationCondition κ'] (hs : s.IsIdle) {free : κ}
    {free' : κ'} (hf' : NeverStops free') {outcome : Outcome} (ho : (s.run free).1 = .ok outcome)
    (hu : outcome ≠ .interrupted) :
    (s.run free').1 = .ok outcome ∧ (s.run free').2.1 = (s.run free).2.1 := by
  obtain ⟨n, hn⟩ := finishes_of_run hs ho hu
  rw [hn.permitted (hf'.permits n)]
  exact ⟨rfl, rfl⟩

end Search

namespace Solver

variable {p : Problem} {s : Solver} {log : List Event}

def work (s : Solver) : Work := s.search.work

theorem satisfy_work {κ : Type} [TerminationCondition κ] {limit : κ} {outcome : Outcome}
    (ho : (s.search.run limit).1 = .ok outcome) :
    (s.satisfy limit).1 = .ok outcome.verdict ∧
      (s.satisfy limit).2.1.work = (s.search.run limit).2.1.work := by
  obtain ⟨hverdict, hcounters, hpropagation, -⟩ := satisfy_of_run ho
  refine ⟨hverdict, ?_⟩
  simp only [work, Search.work, hcounters, hpropagation]

/-- A call that nothing stops comes to the verdict of the first such call on a new solver for the
problem, and adds the same to every count of work, whatever was asked before. -/
theorem satisfy_repeats {s₀ : Solver} (hc : create p = (.ok s₀, log)) (hs : Reached p s)
    {κ κ' : Type} [TerminationCondition κ] [TerminationCondition κ'] {free : κ} {free' : κ'}
    (hf : NeverStops free) (hf' : NeverStops free') :
    ∃ verdict w, verdict ≠ .unknown ∧
      ((s₀.satisfy free).1 = .ok verdict ∧ (s₀.satisfy free).2.1.work = s₀.work + w) ∧
      (s.satisfy free').1 = .ok verdict ∧ (s.satisfy free').2.1.work = s.work + w := by
  have hs₀ : Reached p s₀ := .created hc
  obtain ⟨-, -, rfl⟩ := create_ok hc
  obtain ⟨q, search⟩ := s
  obtain rfl : q = p := hs.problem_eq
  obtain ⟨outcome, ho, hu⟩ := hs₀.run_decided hf
  obtain ⟨w, ho', hw, hw'⟩ := hs₀.prepared.run_repeats hs.prepared free ho
  obtain ⟨hfree, heq⟩ := Search.run_neverStops hs.prepared.atRoot.isIdle hf' ho' hu
  rw [← heq] at hw'
  refine ⟨outcome.verdict, w, Outcome.verdict_ne_unknown hu, ?_, ?_⟩
  · obtain ⟨hverdict, hwork⟩ := satisfy_work ho
    exact ⟨hverdict, hwork.trans hw⟩
  · obtain ⟨hverdict, hwork⟩ := satisfy_work hfree
    exact ⟨hverdict, hwork.trans hw'⟩

/-- The first call is stopped after four decisions. The second one goes back once and finds a
colouring, as the first one would have. -/
theorem satisfy_repeats_goingBack :
    let s : Solver := ⟨goingBack, goingBack.rootSearch⟩
    let stopped := s.satisfy (Limit.budget 4)
    stopped.1 = .ok .unknown ∧
      ∃ w, w.backtracks = 1 ∧ (s.satisfy Limit.indefinite).2.1.work = s.work + w ∧
        (stopped.2.1.satisfy Limit.indefinite).1 = (s.satisfy Limit.indefinite).1 ∧
          (stopped.2.1.satisfy Limit.indefinite).2.1.work = stopped.2.1.work + w := by
  intro s stopped
  have hcreate : create goingBack = (.ok s, (create goingBack).2) :=
    Prod.ext (Problem.create_of_accepted (k := 3) rfl (by decide) (by decide +kernel)
      (by decide)) rfl
  have hunknown : stopped.1 = .ok .unknown := by
    simp only [stopped, satisfy_eq, Search.run_within 12]
    decide +kernel
  have hbacktracks : (s.satisfy Limit.indefinite).2.1.work.backtracks = s.work.backtracks + 1 := by
    simp only [satisfy_eq, Search.run_within 12]
    decide +kernel
  obtain ⟨verdict, w, -, ⟨hfirst, hw⟩, hagain, hw'⟩ :=
    satisfy_repeats hcreate (.asked (.created hcreate) (Limit.budget 4))
      Limit.neverStops_indefinite Limit.neverStops_indefinite
  refine ⟨hunknown, w, ?_, hw, hagain.trans hfirst.symm, hw'⟩
  rw [hw] at hbacktracks
  exact Nat.add_left_cancel hbacktracks

end Solver

end Chromatic
