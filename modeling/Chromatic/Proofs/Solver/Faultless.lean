import Chromatic.Proofs.Problem.Tables
import Chromatic.Proofs.Search.Stack
import Chromatic.Proofs.Solver.Budget
/-!
# Solvers break no rule

No call of a solver ends in a fault, whatever was asked before and wherever calls were stopped.
With fewer than 2³² vertices the numbers of variables have 32 bits, so variables may be passed
around as numbers: every number that a search comes across is found in every table.
-/

namespace Chromatic

namespace Tables

variable {G : Graph} {σ τ : Type} {tables : Tables} {s : Search G σ τ}

/-- The variables of the tables have a label, a row of neighbours, a domain and a place in the
assignment, and no other variable is named in a row, in a frame or on the trail. -/
structure InRange (tables : Tables) (s : Search G σ τ) : Prop where
  labels : ∀ x ∈ tables.labels.keys, ∃ v, tables.labels.get x = .ok v
  rows : ∀ x ∈ tables.labels.keys, ∃ row, tables.adjacency.get x = .ok row ∧
    ∀ y ∈ row, y ∈ tables.labels.keys
  domains : ∀ x ∈ tables.labels.keys, ∃ d, s.store.domains.table.get x = .ok d
  assignment : ∀ x ∈ tables.labels.keys, ∃ c, s.assignment.values.table.get x = .ok c
  frames : ∀ f ∈ s.frames, f.target ∈ tables.labels.keys
  trail : ∀ r ∈ s.store.trail.entries, .ofFin r.target ∈ tables.labels.keys

private theorem Represents.mem_keys (h : tables.Represents G) (hn : G.order < 4294967296)
    {x : VariableId} : x ∈ tables.labels.keys ↔ ∃ i : Fin G.order, x = .ofFin i := by
  rw [h.labels, Table.keys, Family.size_table, List.mem_map]
  constructor
  · rintro ⟨i, hi, rfl⟩
    have hlt := List.mem_range.mp hi
    exact ⟨⟨i, hlt⟩, VariableId.ofIndex_eq_ofFin hn ⟨i, hlt⟩⟩
  · rintro ⟨i, rfl⟩
    exact ⟨i, List.mem_range.mpr i.isLt, VariableId.ofIndex_eq_ofFin hn i⟩

private theorem Represents.inRange (h : tables.Represents G) (hn : G.order < 4294967296)
    (hs : ∀ f ∈ s.frames, ∃ i : Fin G.order, f.target = .ofFin i) : tables.InRange s := by
  have hkeys {x : VariableId} : x ∈ tables.labels.keys ↔ ∃ i : Fin G.order, x = .ofFin i :=
    h.mem_keys hn
  refine ⟨?_, ?_, ?_, ?_, ?_, ?_⟩
  · intro x hx
    obtain ⟨i, rfl⟩ := hkeys.mp hx
    rw [h.labels]
    exact ⟨_, Family.get_table _ i⟩
  · intro x hx
    obtain ⟨i, rfl⟩ := hkeys.mp hx
    refine ⟨_, h.row i, fun y hy => ?_⟩
    obtain ⟨j, -, rfl⟩ := List.mem_map.mp hy
    exact hkeys.mpr ⟨j, rfl⟩
  · intro x hx
    obtain ⟨i, rfl⟩ := hkeys.mp hx
    exact ⟨_, Family.get_table _ i⟩
  · intro x hx
    obtain ⟨i, rfl⟩ := hkeys.mp hx
    exact ⟨_, Family.get_table _ i⟩
  · intro f hf
    exact hkeys.mpr (hs f hf)
  · intro r _
    exact hkeys.mpr ⟨r.target, rfl⟩

end Tables

private theorem Search.Orderly.target {G : Graph} {σ τ : Type} {s : Search G σ τ} (h : s.Orderly)
    {f : Frame} (hf : f ∈ s.frames) : ∃ i : Fin G.order, f.target = .ofFin i := by
  rcases hframes : s.frames with _ | ⟨g, below⟩
  · rw [hframes] at hf
    cases hf
  · rw [hframes] at hf
    rcases List.mem_cons.mp hf with rfl | hbelow
    · obtain ⟨-, i, hi, -⟩ := h.untried f (by rw [hframes]; rfl)
      exact ⟨i, hi⟩
    · have hmem : f.target ∈ s.frames.tail.map (·.target) := by
        rw [hframes]
        exact List.mem_map_of_mem hbelow
      obtain ⟨i, hi, -⟩ := (h.assigned f.target).mp hmem
      exact ⟨i, hi⟩

private theorem Problem.usableColours_le {p : Problem} (h : p.objection = none) :
    ∃ k, p.colourCount = some k ∧ (p.usableColours : Int) ≤ k := by
  unfold objection at h
  split at h
  · cases h
  · next k hk =>
    split at h
    · cases h
    · refine ⟨k, hk, ?_⟩
      rw [usableColours_eq hk]
      lia

namespace Solver

variable {p : Problem} {s : Solver}

private theorem Reached.accepted (h : Reached p s) : p.objection = none := by
  induction h with
  | created h => exact (create_ok h).1
  | asked _ _ ih | charged _ _ ih | logTaken _ ih => exact ih

private theorem Reached.satisfy_ok (h : Reached p s) {κ : Type} [TerminationCondition κ]
    (limit : κ) :
    ∃ verdict, (s.satisfy limit).1 = .ok verdict ∧
      ∀ sol, verdict = .satisfiable sol → p.violation sol = none := by
  obtain ⟨q, search⟩ := s
  obtain rfl : q = p := h.problem_eq
  rcases Search.run_settles h.prepared.atRoot FewestColours.lawful_standard
    (LeastConstraining.lawful _) limit with ⟨sol, ho, hcolours⟩ | ⟨ho, -⟩ | ho
  · refine ⟨_, (satisfy_of_run ho).1, fun found hfound => ?_⟩
    obtain rfl := Verdict.satisfiable.inj hfound
    obtain ⟨k, hk, hle⟩ := Problem.usableColours_le h.accepted
    exact hcolours.violation_eq_none hk hle
  · exact ⟨_, (satisfy_of_run ho).1, nofun⟩
  · exact ⟨_, (satisfy_of_run ho).1, nofun⟩

/-- The tables of a problem with fewer than 2³² vertices can be built. Every variable that the
solver's searches come across, at the root and whenever they look at their top frame, is found in
all tables, and every call of the solver comes to a verdict and breaks no rule. -/
theorem faultless (hn : p.vertices.length < 4294967296) :
    ∃ tables, Tables.build p = some tables ∧ tables.Represents (Graph.ofProblem p) ∧
      tables.InRange p.startSearch ∧
      ∀ s, Reached p s → ∀ (κ : Type) [TerminationCondition κ] (limit : κ),
        (∃ verdict, (s.satisfy limit).1 = .ok verdict ∧
          ∀ sol, verdict = .satisfiable sol → p.violation sol = none) ∧
        ∀ t limit', Search.AtHead s.search limit t limit' → tables.InRange t := by
  obtain ⟨tables, hbuild, hrep⟩ := Tables.build_represents hn
  refine ⟨tables, hbuild, hrep, hrep.inRange hn nofun, fun s hs κ _ limit => ?_⟩
  refine ⟨hs.satisfy_ok limit, fun t limit' ht => ?_⟩
  obtain ⟨q, search⟩ := s
  obtain rfl : q = p := hs.problem_eq
  have horderly := Search.orderly_atHead hs.one_le_usableColours hs.prepared ht
  exact hrep.inRange hn fun f => horderly.target

/-- On the path the middle is found between the ends, and a call after one that was stopped comes
to a colouring that passes the check. -/
theorem faultless_onPath :
    ∃ tables, Tables.build onPath.problem = some tables ∧
      tables.adjacency.get ⟨1⟩ = .ok [⟨0⟩, ⟨2⟩] ∧
      ∃ sol, ((onPath.satisfy (Limit.budget 1)).2.1.satisfy Limit.indefinite).1 =
          .ok (.satisfiable sol) ∧
        onPath.problem.violation sol = none := by
  obtain ⟨tables, hbuild, hrep, -, hcalls⟩ := faultless (p := onPath.problem) (by decide +kernel)
  obtain ⟨⟨verdict, hverdict, hcheck⟩, -⟩ :=
    hcalls _ (.asked reached_onPath (Limit.budget 1)) Limit Limit.indefinite
  have hfound : ((onPath.satisfy (Limit.budget 1)).2.1.satisfy Limit.indefinite).1 =
      .ok (.satisfiable (.ofList [(0, 1), (1, 2), (2, 1)])) := by
    simp only [satisfy_eq, Search.run_within 12]
    decide +kernel
  let middle : Fin (Graph.ofProblem onPath.problem).order := ⟨1, by decide +kernel⟩
  have hrow : ((Graph.ofProblem onPath.problem).neighbours middle).map VariableId.ofFin =
      [⟨0⟩, ⟨2⟩] := by decide +kernel
  refine ⟨tables, hbuild, ?_, _, hfound, hcheck _ ?_⟩
  · rw [← hrow]
    exact hrep.row middle
  · exact Except.ok.inj (hverdict.symm.trans hfound)

end Solver

end Chromatic
