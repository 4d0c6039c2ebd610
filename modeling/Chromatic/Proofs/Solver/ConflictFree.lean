import Chromatic.Branching.Scripted
import Chromatic.Proofs.Search.ConflictFree
import Chromatic.Proofs.Solver.Reached
/-!
# The check of the neighbours finds nothing

After propagation no tried colour is the colour of a neighbour, in any search with any selectors
whose root was not emptied. So the count of such conflicts stays zero, also for a solver however
often it is asked.
-/

namespace Chromatic

private theorem Solver.Reached.inUse {p : Problem} {s : Solver} (h : Reached p s) :
    s.search.InUse s.problem.usableColours FewestColours.standard {} := by
  induction h with
  | created h =>
    obtain ⟨-, hp, rfl⟩ := create_ok h
    exact .logTaken (.propagated .start hp)
  | @asked s _ _ _ limit ih =>
    have hrun := ih.searched limit
    rw [satisfy_eq]
    rcases (s.search.run limit).1 with fault | outcome
    · exact hrun
    · obtain ⟨t, ht, hsettle⟩ := s.settle_ok outcome (s.search.run limit).2.1
      rw [hsettle]
      rcases ht with rfl | ⟨e, rfl⟩
      · exact hrun
      · exact hrun.noted e
  | charged _ m ih => exact ih.charged m
  | logTaken _ ih => exact ih.logTaken

namespace Search

/-- Whatever the selectors answer and whatever the limits are, no colour tried in a search with at
least one colour is found at a neighbour, unless a propagation at the root emptied a domain. In
particular no solver ever counts one. -/
theorem conflict_free :
    (∀ (G : Graph) (σ τ κ : Type) [VariableSelector σ] [ValueSelector τ] [TerminationCondition κ]
        (k : Nat) (v : σ) (w : τ) (r : Search G σ τ) (limit : κ), 1 ≤ k → r.InUse k v w →
      r.counters.neighbourConflicts = 0 ∧
        ∀ s limit', AtHead r limit s limit' →
          s.counters.neighbourConflicts = 0 ∧
            ∀ frames x c y,
              ((s.withFrames frames).attempt x c).1 ≠ .ok (some (.assignedNeighbour y))) ∧
      ∀ p s, Solver.Reached p s → s.search.counters.neighbourConflicts = 0 := by
  refine ⟨fun G σ τ κ _ _ _ k v w r limit hk hr => ?_, fun p s hs => ?_⟩
  · have hroot := hr.unchallenged hk
    refine ⟨hroot.conflicts, fun s limit' hs => ?_⟩
    have hhead := (hs.grounded hroot).unchallenged
    refine ⟨hhead.conflicts, fun frames x c y => ?_⟩
    rw [attempt_withFrames]
    exact (attempt_unchallenged hhead.settled rfl).2 y
  · have hk : 1 ≤ s.problem.usableColours := by
      rw [hs.problem_eq]
      exact hs.one_le_usableColours
    exact (hs.inUse.unchallenged hk).conflicts

/-- A search on the path with the vertices 0, 1 and 2. The first time it is told to try a colour
that does not exist, the second time to give the colour of the middle to an end. -/
def misled : Search (Graph.ofProblem (.ofStatements (some 2) [] [(0, 1), (1, 2)]))
    ScriptedVariables ScriptedValues :=
  .start _ 2 ⟨[some ⟨1⟩, some ⟨1⟩, some ⟨0⟩]⟩ ⟨[[7], [1], [1, 2]]⟩

/-- In the second search the middle has colour 1, and so should the vertex on top. -/
theorem conflict_free_misled :
    ∃ s limit, AtHead (misled.propagateRoot.2.run Limit.indefinite).2.1 Limit.indefinite s limit ∧
      s.frames.length = 2 ∧ s.counters.backtracks = 1 ∧
        (s.attempt ⟨0⟩ 1).1 ≠ .ok (some (.assignedNeighbour ⟨1⟩)) := by
  have hp : misled.propagateRoot.1 = true := by decide +kernel
  have hr : (misled.propagateRoot.2.run Limit.indefinite).2.1.InUse 2
      ⟨[some ⟨1⟩, some ⟨1⟩, some ⟨0⟩]⟩ ⟨[[7], [1], [1, 2]]⟩ :=
    .searched (.propagated .start hp) Limit.indefinite
  let turn := ((misled.propagateRoot.2.run Limit.indefinite).2.1.enter Limit.indefinite).advance 1
  have hprogress : turn.progress = some (2, 1) := by
    simp only [turn]
    rw [run_within 12]
    decide +kernel
  rcases hturn : turn with ⟨s, limit⟩ | ⟨_, _, _⟩
  · have hs := atHead_advance 1 (fun _ _ h => .entered h) hturn
    rw [hturn] at hprogress
    obtain ⟨hframes, hbacktracks⟩ := Prod.mk.inj (Option.some.inj hprogress)
    have hfree := (conflict_free.1 _ _ _ _ _ _ _ _ _ (by decide) hr).2 s limit hs
    exact ⟨s, limit, hs, hframes, hbacktracks, hfree.2 s.frames ⟨0⟩ 1 ⟨1⟩⟩
  · rw [hturn] at hprogress
    cases hprogress

end Search

end Chromatic
