import Chromatic.Proofs.Problem.Additions
/-!
# Merging problems

What two problems state, one after the other: the union of the vertices and of the constraints, the
number of colours that was stated last, and the vertex that was required first to differ from
itself. What is stated last of all may be stated before or after the merging.
-/

namespace Chromatic.Problem

variable {p q r : Problem} {u v w : Vertex} {c : Constraint}

/-- What two problems state, the second one after the first. -/
def merge (p q : Problem) : Problem where
  colourCount := q.colourCount.or p.colourCount
  vertices := (p.vertices ++ q.vertices).foldr insertAscending []
  constraints := (p.constraints ++ q.constraints).foldr insertAscending []
  selfConstraint := p.selfConstraint.or q.selfConstraint
  vertices_ascending := pairwise_foldr_insertAscending _
  constraints_ascending := pairwise_foldr_insertAscending _
  endpoints_mem := by
    intro c hc
    simp only [mem_foldr_insertAscending, List.mem_append] at hc ⊢
    rcases hc with hc | hc
    · exact (p.endpoints_mem c hc).imp .inl .inl
    · exact (q.endpoints_mem c hc).imp .inr .inr
  selfConstraint_mem := by
    intro v hv
    simp only [mem_foldr_insertAscending, List.mem_append]
    rcases Option.or_eq_some_iff.mp hv with hv | ⟨-, hv⟩
    · exact .inl (p.selfConstraint_mem v hv)
    · exact .inr (q.selfConstraint_mem v hv)

@[simp] theorem colourCount_merge : (p.merge q).colourCount = q.colourCount.or p.colourCount := rfl

@[simp] theorem selfConstraint_merge :
    (p.merge q).selfConstraint = p.selfConstraint.or q.selfConstraint := rfl

@[simp] theorem mem_vertices_merge :
    v ∈ (p.merge q).vertices ↔ v ∈ p.vertices ∨ v ∈ q.vertices := by
  simp only [merge, mem_foldr_insertAscending, List.mem_append]

@[simp] theorem mem_constraints_merge :
    c ∈ (p.merge q).constraints ↔ c ∈ p.constraints ∨ c ∈ q.constraints := by
  simp only [merge, mem_foldr_insertAscending, List.mem_append]

theorem merge_empty (p : Problem) : p.merge empty = p := by
  apply ext_mem <;> simp [empty]

theorem merge_setColourCount (p q : Problem) (k : Int) :
    p.merge (q.setColourCount k) = (p.merge q).setColourCount k := rfl

theorem merge_addConstraint (p q : Problem) (u v : Vertex) :
    p.merge (q.addConstraint u v) = (p.merge q).addConstraint u v := by
  apply ext_mem
  · simp only [colourCount_merge, colourCount_addConstraint]
  · intro w
    simp only [mem_vertices_merge, mem_vertices_addConstraint]
    exact or_left_comm
  · intro c
    simp only [mem_constraints_merge, mem_constraints_addConstraint]
    exact or_left_comm
  · simp only [selfConstraint_merge, selfConstraint_addConstraint, Option.or_assoc]

end Chromatic.Problem
