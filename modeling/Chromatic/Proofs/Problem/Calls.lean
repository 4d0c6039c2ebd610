import Chromatic.Proofs.Problem.Additions
import Mathlib.Data.Set.Card
/-!
# Problems built up by calls

A problem is built up from nothing by calls, some of which state the number of colours and some of
which add to it. The number that is stated last counts, and what is added does not depend on where
between the additions a number was stated.
-/

namespace Chromatic

/-- A call that builds up a problem. -/
inductive Call
  | colourCount (k : Int)
  | addition (s : Addition)
deriving DecidableEq

namespace Call

def stated : Call → Option Int
  | colourCount k => some k
  | addition _ => none

def added : Call → Option Addition
  | colourCount _ => none
  | addition s => some s

end Call

namespace Calls

variable (calls : List Call)

/-- The number of colours that was stated last. -/
def colourCount : Option Int := (calls.filterMap Call.stated).getLast?

def additions : List Addition := calls.filterMap Call.added

def vertices : Set Vertex := {v | ∃ s, .addition s ∈ calls ∧ s.Names v}

def constraints : Set Constraint := {c | ∃ s, .addition s ∈ calls ∧ s.Requires c}

/-- The first vertex that was required to differ from itself. -/
def selfConstraint : Option Vertex := (additions calls).findSome? Addition.self

variable {calls}

private theorem colourCount_concat_colourCount (k : Int) :
    colourCount (calls ++ [.colourCount k]) = some k := by
  simp [colourCount, Call.stated]

private theorem colourCount_concat_addition (s : Addition) :
    colourCount (calls ++ [.addition s]) = colourCount calls := by
  simp [colourCount, Call.stated]

private theorem additions_concat_colourCount (k : Int) :
    additions (calls ++ [.colourCount k]) = additions calls := by
  simp [additions, Call.added]

private theorem additions_concat_addition (s : Addition) :
    additions (calls ++ [.addition s]) = additions calls ++ [s] := by
  simp [additions, Call.added]

private theorem mem_additions {s : Addition} : s ∈ additions calls ↔ .addition s ∈ calls := by
  rw [additions, List.mem_filterMap]
  constructor
  · rintro ⟨c, hc, hs⟩
    cases c with
    | colourCount => cases hs
    | addition => cases hs; exact hc
  · intro h
    exact ⟨_, h, rfl⟩

theorem selfConstraint_eq_none :
    selfConstraint calls = none ↔ ∀ v, .addition (.constraint v v) ∉ calls := by
  rw [selfConstraint, List.findSome?_eq_none_iff]
  constructor
  · intro h v hv
    have hself := h _ (mem_additions.mpr hv)
    simp [Addition.self] at hself
  · intro h s hs
    cases s with
    | vertex => rfl
    | constraint u v =>
      apply if_neg
      rintro rfl
      exact h u (mem_additions.mp hs)

end Calls

private theorem length_eq_ncard {α : Type} {l : List α} {S : Set α} (hl : l.Nodup)
    (hS : ∀ a, a ∈ l ↔ a ∈ S) : l.length = S.ncard := by
  classical
  have hcoe : S = l.toFinset := by
    ext a
    simp [hS]
  rw [hcoe, Set.ncard_coe_finset, List.toFinset_card_of_nodup hl]

namespace Problem

variable {calls : List Call} {k : Option Int} {l : List Addition}

def call (p : Problem) : Call → Problem
  | .colourCount k => p.setColourCount k
  | .addition s => p.add s

/-- The problem that calls build up. -/
def ofCalls (calls : List Call) : Problem := calls.foldl call empty

private theorem setColourCount_build (k' : Int) :
    (build k l).setColourCount k' = build (some k') l := by
  apply ext_mem
  · exact colourCount_build.symm
  · intro v
    exact mem_vertices_build.trans mem_vertices_build.symm
  · intro c
    exact mem_constraints_build.trans mem_constraints_build.symm
  · exact selfConstraint_build.trans selfConstraint_build.symm

/-- Numbers of colours may be stated first of all, and but for the last one not at all. -/
theorem ofCalls_eq_build :
    ofCalls calls = build (Calls.colourCount calls) (Calls.additions calls) := by
  induction calls using List.reverseRecOn with
  | nil => rfl
  | append_singleton calls c ih =>
    have hstep : ofCalls (calls ++ [c]) = (ofCalls calls).call c := List.foldl_concat ..
    rw [hstep, ih]
    cases c with
    | colourCount k =>
      rw [Calls.colourCount_concat_colourCount, Calls.additions_concat_colourCount]
      exact setColourCount_build k
    | addition s =>
      rw [Calls.colourCount_concat_addition, Calls.additions_concat_addition, build, build,
        List.foldl_concat]
      rfl

theorem colourCount_ofCalls : (ofCalls calls).colourCount = Calls.colourCount calls := by
  rw [ofCalls_eq_build, colourCount_build]

theorem selfConstraint_ofCalls : (ofCalls calls).selfConstraint = Calls.selfConstraint calls := by
  rw [ofCalls_eq_build, selfConstraint_build, Calls.selfConstraint]

theorem mem_vertices_ofCalls {v : Vertex} :
    v ∈ (ofCalls calls).vertices ↔ v ∈ Calls.vertices calls := by
  simp only [ofCalls_eq_build, mem_vertices_build, Calls.mem_additions]
  rfl

theorem mem_constraints_ofCalls {c : Constraint} :
    c ∈ (ofCalls calls).constraints ↔ c ∈ Calls.constraints calls := by
  simp only [ofCalls_eq_build, mem_constraints_build, Calls.mem_additions]
  rfl

theorem length_vertices_ofCalls :
    (ofCalls calls).vertices.length = (Calls.vertices calls).ncard :=
  length_eq_ncard (ofCalls calls).nodup_vertices fun _ => mem_vertices_ofCalls

theorem length_constraints_ofCalls :
    (ofCalls calls).constraints.length = (Calls.constraints calls).ncard :=
  length_eq_ncard (ofCalls calls).nodup_constraints fun _ => mem_constraints_ofCalls

end Problem

end Chromatic
