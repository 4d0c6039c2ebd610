import Chromatic.Proofs.Problem.Depiction
import Chromatic.Proofs.Solver.Decision
/-!
# Which problems are accepted

A problem that calls build up is refused for the first reason that applies, and it is accepted when
none does. Propagation at the root of an accepted problem revises every arc once and removes
nothing: with two colours to try no domain has a single colour, and with only one there are no arcs.
-/

namespace Chromatic

namespace Colour

/-- Colours have 32 bits. -/
def largest : Colour := 4294967295

/-- The number as a colour, unless it is too small or too large for one. -/
def ofInt? (k : Int) : Option Colour := if 0 ≤ k ∧ k ≤ largest then some k.toNat else none

/-- The number of colours worth trying for `n` vertices, in colours throughout: what is too large
for a colour is larger than any number of vertices that can be told apart. -/
def clamp (k : Int) (n : Nat) : Colour :=
  let numVertices := (ofInt? (max n 1 : Nat)).getD largest
  (ofInt? k).elim numVertices (min · numVertices)

private theorem ofInt?_natCast {n : Nat} (hn : n ≤ largest) : ofInt? n = some n := by
  rw [ofInt?, if_pos (by lia), Int.toNat_natCast]

private theorem clamp_eq {k : Int} {n : Nat} (h1 : 1 ≤ k) (hn : n < 4294967296) :
    clamp k n = min k.toNat (max n 1) := by
  have hmax : max n 1 ≤ largest := by
    rw [largest]
    omega
  rw [clamp, ofInt?_natCast hmax, ofInt?]
  split
  · rfl
  · next hk =>
    rw [largest] at hk
    have hle : max n 1 ≤ k.toNat := by lia
    exact (Nat.min_eq_right hle).symm

end Colour

namespace Calls

variable {calls : List Call} {k : Int} {reason : Infeasibility}

/-- The first reason not to look for a colouring. -/
inductive Refused (calls : List Call) : Infeasibility → Prop
  | missingColourCount (hk : colourCount calls = none) : Refused calls .missingColourCount
  | nonPositiveColourCount {k : Int} (hk : colourCount calls = some k) (h : k < 1) :
    Refused calls (.nonPositiveColourCount k)
  | selfConstraint {k : Int} {v : Vertex} (hk : colourCount calls = some k) (h1 : 1 ≤ k)
    (hv : selfConstraint calls = some v) : Refused calls (.selfConstraint v)
  | singleColour (hk : colourCount calls = some 1) (hself : selfConstraint calls = none)
    (hc : (constraints calls).Nonempty) :
    Refused calls (.singleColour (constraints calls).ncard)

/-- There is no reason not to look for a colouring with `k` colours. -/
structure Accepted (calls : List Call) (k : Int) : Prop where
  colourCount : colourCount calls = some k
  positive : 1 ≤ k
  differs : ∀ v, .addition (.constraint v v) ∉ calls
  enough : 2 ≤ k ∨ constraints calls = ∅

private theorem refused_or_accepted (calls : List Call) :
    (∃ reason, Refused calls reason) ∨ ∃ k, Accepted calls k := by
  cases hk : colourCount calls with
  | none => exact .inl ⟨_, .missingColourCount hk⟩
  | some k =>
    by_cases h1 : k < 1
    · exact .inl ⟨_, .nonPositiveColourCount hk h1⟩
    · cases hself : selfConstraint calls with
      | some v => exact .inl ⟨_, .selfConstraint hk (by omega) hself⟩
      | none =>
        by_cases henough : 2 ≤ k ∨ constraints calls = ∅
        · exact .inr ⟨k, hk, by omega, selfConstraint_eq_none.mp hself, henough⟩
        · rw [not_or, ← ne_eq, ← Set.nonempty_iff_ne_empty] at henough
          obtain rfl : k = 1 := by omega
          exact .inl ⟨_, .singleColour hk hself henough.2⟩

end Calls

namespace Problem

variable {calls : List Call} {p : Problem} {k : Int} {reason : Infeasibility}

private theorem constraints_ofCalls_eq_nil :
    (ofCalls calls).constraints = [] ↔ Calls.constraints calls = ∅ := by
  rw [List.eq_nil_iff_forall_not_mem, Set.eq_empty_iff_forall_notMem]
  simp only [mem_constraints_ofCalls]

private theorem objection_of_refused (h : Calls.Refused calls reason) :
    (ofCalls calls).objection = some reason := by
  cases h with
  | missingColourCount hk => simp [objection, colourCount_ofCalls, hk]
  | nonPositiveColourCount hk h => simp [objection, colourCount_ofCalls, hk, h]
  | selfConstraint hk h1 hv =>
    simp [objection, colourCount_ofCalls, selfConstraint_ofCalls, hk, hv, Int.not_lt.mpr h1]
  | singleColour hk hself hc =>
    have hne : (ofCalls calls).constraints ≠ [] := by
      rw [ne_eq, constraints_ofCalls_eq_nil]
      exact hc.ne_empty
    rw [objection_eq (colourCount_ofCalls.trans hk) le_rfl (selfConstraint_ofCalls.trans hself),
      if_pos ⟨rfl, hne⟩, length_constraints_ofCalls]

private theorem not_singleColour_of_accepted (h : Calls.Accepted calls k) :
    ¬(k = 1 ∧ (ofCalls calls).constraints ≠ []) := by
  rintro ⟨rfl, hne⟩
  rw [ne_eq, constraints_ofCalls_eq_nil] at hne
  exact h.enough.elim (by omega) hne

private theorem objection_of_accepted (h : Calls.Accepted calls k) :
    (ofCalls calls).objection = none := by
  have hself := Calls.selfConstraint_eq_none.mpr h.differs
  rw [objection_eq (colourCount_ofCalls.trans h.colourCount) h.positive
    (selfConstraint_ofCalls.trans hself), if_neg (not_singleColour_of_accepted h)]

private theorem objection_eq_some :
    (ofCalls calls).objection = some reason ↔ Calls.Refused calls reason := by
  constructor
  · intro h
    rcases Calls.refused_or_accepted calls with ⟨reason', hr⟩ | ⟨k, hk⟩
    · rw [objection_of_refused hr] at h
      cases h
      exact hr
    · rw [objection_of_accepted hk] at h
      cases h
  · exact objection_of_refused

private theorem objection_eq_none :
    (ofCalls calls).objection = none ↔ ∃ k, Calls.Accepted calls k := by
  constructor
  · intro h
    refine (Calls.refused_or_accepted calls).resolve_left ?_
    rintro ⟨reason, hr⟩
    rw [objection_of_refused hr] at h
    cases h
  · rintro ⟨k, hk⟩
    exact objection_of_accepted hk

private theorem rootSearch_untouched (hk : p.colourCount = some k) (h1 : 1 ≤ k)
    (hm : ¬(k = 1 ∧ p.constraints ≠ [])) :
    p.rootSearch.store = .full (Graph.ofProblem p).order p.usableColours ∧
      p.rootSearch.propagation = ⟨2 * p.constraints.length, 0⟩ := by
  have hall := propagateAll_startSearch hk h1 hm
  constructor
  · have hstore := Search.propagateRoot_store p.startSearch
    rw [hall] at hstore
    exact hstore
  · have hcounters := (Search.propagateRoot_counters p.startSearch).2
    rw [hall, Graph.length_arcs, Graph.numEdges_ofProblem] at hcounters
    exact hcounters

end Problem

namespace Solver

variable {calls : List Call} {k : Int} {p : Problem}

private theorem exists_create_eq_ok : (∃ s, (create p).1 = .ok s) ↔ p.objection = none := by
  cases h : p.objection with
  | none => simp [create_of_objection_eq_none h]
  | some reason => simp [create_eq_error.mpr h]

private theorem create_ofCalls (h : Calls.Accepted calls k) :
    (create (.ofCalls calls)).1 = .ok ⟨.ofCalls calls, (Problem.ofCalls calls).rootSearch⟩ :=
  create_of_objection_eq_none (Problem.objection_of_accepted h)

/-- A solver is created exactly when a positive number of colours was stated last, no vertex was
required to differ from itself, and there are two colours or no constraints. Otherwise the first
reason that applies is given, and propagation never is the reason. In a new solver every domain
has the colours up to the number of colours or of vertices, whichever is smaller, nothing is on
the trail, and every constraint was revised from both ends. -/
theorem create_accepts (hn : (Calls.vertices calls).ncard < 4294967296) :
    let n := (Calls.vertices calls).ncard
    let m := (Calls.constraints calls).ncard
    ((∃ s, (create (.ofCalls calls)).1 = .ok s) ↔ ∃ k, Calls.Accepted calls k) ∧
      (∀ reason, (create (.ofCalls calls)).1 = .error reason ↔ Calls.Refused calls reason) ∧
      (create (.ofCalls calls)).1 ≠ .error .rootInconsistency ∧
      ∀ s k, (create (.ofCalls calls)).1 = .ok s → Calls.colourCount calls = some k →
        s.problem = .ofCalls calls ∧
          (∀ i, s.search.store.domain i = .full (Colour.clamp k n)) ∧
          Colour.clamp k n = min k.toNat (max n 1) ∧
          s.search.store.trail = .empty ∧ s.search.propagation = ⟨2 * m, 0⟩ := by
  intro n m
  have herror : ∀ reason, (create (.ofCalls calls)).1 = .error reason ↔
      Calls.Refused calls reason := by
    intro reason
    rw [create_eq_error, Problem.objection_eq_some]
  refine ⟨exists_create_eq_ok.trans Problem.objection_eq_none, herror, ?_, ?_⟩
  · intro h
    cases (herror _).mp h
  · intro s k hs hk
    obtain ⟨k', haccepted⟩ := Problem.objection_eq_none.mp (exists_create_eq_ok.mp ⟨s, hs⟩)
    obtain rfl : k = k' := Option.some.inj (hk.symm.trans haccepted.colourCount)
    obtain rfl := Except.ok.inj ((create_ofCalls haccepted).symm.trans hs)
    have hcount := Problem.colourCount_ofCalls.trans hk
    have hclamp : Colour.clamp k n = min k.toNat (max n 1) :=
      Colour.clamp_eq haccepted.positive hn
    obtain ⟨hstore, hpropagation⟩ := Problem.rootSearch_untouched hcount haccepted.positive
      (Problem.not_singleColour_of_accepted haccepted)
    rw [Problem.usableColours_eq hcount, Problem.length_vertices_ofCalls, ← hclamp] at hstore
    rw [Problem.length_constraints_ofCalls] at hpropagation
    dsimp only
    rw [hstore]
    exact ⟨rfl, Store.domain_full _ _, hclamp, rfl, hpropagation⟩

/-- Two pairs and more colours than have 32 bits, stated after a single one. -/
theorem create_accepts_manyColours :
    let calls : List Call := [.colourCount 1, .addition (.constraint 3 1),
      .colourCount 9000000000, .addition (.constraint 1 2), .addition (.constraint 1 3)]
    ∃ s, (create (.ofCalls calls)).1 = .ok s ∧
      (∀ i, s.search.store.domain i = .full 3) ∧ s.search.propagation = ⟨4, 0⟩ := by
  intro calls
  have hvertices : (Calls.vertices calls).ncard = 3 := by
    rw [← Problem.length_vertices_ofCalls]
    decide +kernel
  have hconstraints : (Calls.constraints calls).ncard = 2 := by
    rw [← Problem.length_constraints_ofCalls]
    decide +kernel
  have hcount : Calls.colourCount calls = some 9000000000 := by decide
  have hself : Calls.selfConstraint calls = none := by decide
  have hn : (Calls.vertices calls).ncard < 4294967296 := by omega
  obtain ⟨hok, -, -, hroot⟩ := create_accepts hn
  obtain ⟨s, hs⟩ := hok.mpr
    ⟨_, hcount, by decide, Calls.selfConstraint_eq_none.mp hself, .inl (by decide)⟩
  obtain ⟨-, hdomains, hclamp, -, hpropagation⟩ := hroot s _ hs hcount
  rw [hclamp, hvertices] at hdomains
  rw [hconstraints] at hpropagation
  exact ⟨s, hs, hdomains, hpropagation⟩

end Solver

end Chromatic
