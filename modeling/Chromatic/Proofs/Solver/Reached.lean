import Chromatic.Proofs.Search.Prepared
import Chromatic.Proofs.Solver.Decision
/-!
# Solvers in use

A solver may be asked for a verdict any number of times, with any limits. What was found at the
root stays, so its search is always one between two runs on the graph of its problem.
-/

namespace Chromatic

theorem Outcome.verdict_ne_unknown {outcome : Outcome} (h : outcome ≠ .interrupted) :
    outcome.verdict ≠ .unknown := by
  cases outcome with
  | interrupted => exact absurd rfl h
  | solved | exhausted => nofun

theorem Problem.one_le_usableColours {p : Problem} (h : p.objection = none) :
    1 ≤ p.usableColours := by
  unfold objection at h
  split at h
  · cases h
  · next k hk =>
    split at h
    · cases h
    · rw [usableColours_eq hk]
      lia

namespace Solver

/-- What a solver for a problem can be after it was made. -/
inductive Reached (p : Problem) : Solver → Prop
  | created {s : Solver} {log : List Event} (h : create p = (.ok s, log)) : Reached p s
  | asked {s : Solver} {κ : Type} [TerminationCondition κ] (h : Reached p s) (limit : κ) :
    Reached p (s.satisfy limit).2.1
  | charged {s : Solver} (h : Reached p s) (milliseconds : Nat) :
    Reached p { s with search := s.search.charge milliseconds }
  | logTaken {s : Solver} (h : Reached p s) : Reached p s.takeLog.2

theorem create_ok {p : Problem} {s : Solver} {log : List Event} (h : create p = (.ok s, log)) :
    p.objection = none ∧ p.startSearch.propagateRoot.1 = true ∧ s = ⟨p, p.rootSearch⟩ := by
  unfold create at h
  split at h
  · cases h
  · next hnone =>
    dsimp only at h
    split at h
    · next hp =>
      cases h
      exact ⟨hnone, hp, rfl⟩
    · cases h

theorem settle_ok (s : Solver) (outcome : Outcome) (search : s.problem.StandardSearch) :
    ∃ t, (t = search ∨ ∃ e, t = search.note e) ∧
      s.settle (.ok outcome) search = (.ok outcome.verdict, { s with search := t }) := by
  cases outcome with
  | solved sol => exact ⟨_, .inr ⟨_, rfl⟩, rfl⟩
  | exhausted => exact ⟨_, .inr ⟨_, rfl⟩, rfl⟩
  | interrupted => exact ⟨_, .inl rfl, rfl⟩

theorem satisfy_eq {κ : Type} [TerminationCondition κ] (s : Solver) (limit : κ) :
    s.satisfy limit =
      ((s.settle (s.search.run limit).1 (s.search.run limit).2.1).1,
        (s.settle (s.search.run limit).1 (s.search.run limit).2.1).2,
        (s.search.run limit).2.2) := rfl

theorem satisfy_of_run {s : Solver} {κ : Type} [TerminationCondition κ] {limit : κ}
    {outcome : Outcome} (ho : (s.search.run limit).1 = .ok outcome) :
    (s.satisfy limit).1 = .ok outcome.verdict ∧
      (s.satisfy limit).2.1.search.counters = (s.search.run limit).2.1.counters ∧
        (s.satisfy limit).2.1.search.propagation = (s.search.run limit).2.1.propagation ∧
          (s.satisfy limit).2.2 = (s.search.run limit).2.2 := by
  rw [satisfy_eq, ho]
  cases outcome with
  | solved | exhausted | interrupted => exact ⟨rfl, rfl, rfl, rfl⟩

namespace Reached

variable {p : Problem} {s : Solver}

theorem prepared (h : Reached p s) :
    s.search.Prepared s.problem.usableColours FewestColours.standard {} := by
  induction h with
  | created h =>
    obtain ⟨-, hp, rfl⟩ := create_ok h
    exact .logTaken (.propagated .start rfl hp)
  | @asked s _ _ _ limit ih =>
    obtain ⟨outcome, ho⟩ : ∃ outcome, (s.search.run limit).1 = .ok outcome := by
      rcases Search.run_settles ih.atRoot FewestColours.lawful_standard
        (LeastConstraining.lawful _) limit with ⟨_, hr, -⟩ | ⟨hr, -⟩ | hr
      all_goals exact ⟨_, hr⟩
    obtain ⟨t, ht, hsettle⟩ := s.settle_ok outcome (s.search.run limit).2.1
    rw [satisfy_eq, ho, hsettle]
    rcases ht with rfl | ⟨e, rfl⟩
    · exact ih.searched ho
    · exact (ih.searched ho).noted e
  | charged _ m ih => exact ih.charged m
  | logTaken _ ih => exact ih.logTaken

theorem run_decided (h : Reached p s) {κ : Type} [TerminationCondition κ] {free : κ}
    (hf : NeverStops free) :
    ∃ outcome, (s.search.run free).1 = .ok outcome ∧ outcome ≠ .interrupted := by
  rcases Search.run_settles h.prepared.atRoot FewestColours.lawful_standard
    (LeastConstraining.lawful _) free with ⟨_, hr, -⟩ | ⟨hr, -⟩ | hr
  · exact ⟨_, hr, nofun⟩
  · exact ⟨_, hr, nofun⟩
  · obtain ⟨t, he, -⟩ := Search.run_ok h.prepared.atRoot.isIdle hr
    exact absurd rfl (he.uninterrupted hf).1

theorem problem_eq (h : Reached p s) : s.problem = p := by
  induction h with
  | created h =>
    obtain ⟨-, -, rfl⟩ := create_ok h
    rfl
  | @asked s _ _ _ limit ih =>
    rw [satisfy_eq]
    unfold settle
    split <;> exact ih
  | charged _ _ ih | logTaken _ ih => exact ih

theorem one_le_usableColours (h : Reached p s) : 1 ≤ p.usableColours := by
  induction h with
  | created h => exact Problem.one_le_usableColours (create_ok h).1
  | asked _ _ ih | charged _ _ ih | logTaken _ ih => exact ih

end Reached

end Solver

end Chromatic
