import Chromatic.Proofs.Problem.Additions
import Chromatic.Solution
/-!
# The first violation

A check looks at the vertices in ascending order and then at the constraints, and reports the first
thing that is wrong. So everything that is smaller than what it reports is right. Vertices of a
solution that the problem does not have are never looked at, because the ends of its constraints are
vertices of the problem.
-/

namespace Chromatic

/-- What is found first in an ascending list is found at the smallest place where there is something
to find. -/
theorem findSome?_ascending {α β : Type} [LT α] [Trans (α := α) (· < ·) (· < ·) (· < ·)]
    [Std.Irrefl (α := α) (· < ·)] {l : List α} (hl : l.Pairwise (· < ·)) {f : α → Option β}
    {b : β} : l.findSome? f = some b ↔ ∃ a ∈ l, f a = some b ∧ ∀ x ∈ l, x < a → f x = none := by
  rw [List.findSome?_eq_some_iff]
  constructor
  · rintro ⟨before, a, after, rfl, ha, hbefore⟩
    have hafter := (List.pairwise_cons.mp (List.pairwise_append.mp hl).2.1).1
    refine ⟨a, by simp, ha, fun x hx hlt => ?_⟩
    rcases List.mem_append.mp hx with hx | hx
    · exact hbefore x hx
    · rcases List.mem_cons.mp hx with rfl | hx
      · exact absurd hlt (Std.Irrefl.irrefl x)
      · exact absurd (Trans.trans hlt (hafter x hx)) (Std.Irrefl.irrefl x)
  · rintro ⟨a, ha, hb, hless⟩
    obtain ⟨before, after, rfl⟩ := List.append_of_mem ha
    refine ⟨before, a, after, rfl, hb, fun x hx => ?_⟩
    have hlt : x < a := (List.pairwise_append.mp hl).2.2 x hx a List.mem_cons_self
    exact hless x (List.mem_append_left _ hx) hlt

private theorem findSome?_congr {α β : Type} {l : List α} {f g : α → Option β}
    (h : ∀ a ∈ l, f a = g a) : l.findSome? f = l.findSome? g := by
  induction l with
  | nil => rfl
  | cons a rest ih =>
    rw [List.findSome?_cons, List.findSome?_cons, h a List.mem_cons_self,
      ih fun b hb => h b (List.mem_cons_of_mem a hb)]

namespace Problem

variable {p : Problem} {s t : Solution} {v : Vertex} {c : Colour} {e : Constraint}
  {x : Violation}

/-- The vertex has an allowed colour. -/
def ColouredBy (p : Problem) (s : Solution) (v : Vertex) : Prop :=
  ∃ c, s.colourOf v = some c ∧ p.Allows c

private theorem vertexViolation_eq_none : p.vertexViolation s v = none ↔ p.ColouredBy s v := by
  rw [vertexViolation, ColouredBy]
  cases s.colourOf v with
  | none => simp
  | some c => simp

private theorem constraintViolation_eq_none :
    constraintViolation s e = none ↔ s.colourOf e.low ≠ s.colourOf e.high := by
  simp [constraintViolation]

private theorem violation_eq_or : p.violation s = (p.vertices.findSome? (p.vertexViolation s)).or
    (p.constraints.findSome? (constraintViolation s)) := Option.orElse_eq_or

theorem violation_eq_none : p.violation s = none ↔
    (∀ v ∈ p.vertices, p.ColouredBy s v) ∧
      ∀ c ∈ p.constraints, s.colourOf c.low ≠ s.colourOf c.high := by
  simp only [violation_eq_or, Option.or_eq_none_iff, List.findSome?_eq_none_iff,
    vertexViolation_eq_none, constraintViolation_eq_none]

private theorem findSome?_vertices :
    p.vertices.findSome? (p.vertexViolation s) = some x ↔
      ∃ v ∈ p.vertices, p.vertexViolation s v = some x ∧
        ∀ u ∈ p.vertices, u < v → p.ColouredBy s u := by
  simp only [findSome?_ascending p.vertices_ascending, vertexViolation_eq_none]

private theorem findSome?_constraints :
    p.constraints.findSome? (constraintViolation s) = some x ↔
      ∃ c ∈ p.constraints, constraintViolation s c = some x ∧
        ∀ d ∈ p.constraints, d < c → s.colourOf d.low ≠ s.colourOf d.high := by
  simp only [findSome?_ascending p.constraints_ascending, constraintViolation_eq_none]

private theorem vertexViolation_eq_some : p.vertexViolation s v = some x ↔
    s.colourOf v = none ∧ x = .uncoloured v ∨
      ∃ c, s.colourOf v = some c ∧ ¬p.Allows c ∧ x = .outOfRange v c := by
  rw [vertexViolation]
  cases s.colourOf v with
  | none => simp [eq_comm]
  | some c => simp [eq_comm]

private theorem constraintViolation_eq_some : constraintViolation s e = some x ↔
    s.colourOf e.low = s.colourOf e.high ∧ x = .conflict e := by
  simp [constraintViolation, eq_comm]

private theorem violation_eq_uncoloured : p.violation s = some (.uncoloured v) ↔
    v ∈ p.vertices ∧ s.colourOf v = none ∧ ∀ u ∈ p.vertices, u < v → p.ColouredBy s u := by
  simp [violation_eq_or, Option.or_eq_some_iff, findSome?_vertices, findSome?_constraints,
    vertexViolation_eq_some, constraintViolation_eq_some, and_assoc]

private theorem violation_eq_outOfRange : p.violation s = some (.outOfRange v c) ↔
    v ∈ p.vertices ∧ s.colourOf v = some c ∧ ¬p.Allows c ∧
      ∀ u ∈ p.vertices, u < v → p.ColouredBy s u := by
  simp [violation_eq_or, Option.or_eq_some_iff, findSome?_vertices, findSome?_constraints,
    vertexViolation_eq_some, constraintViolation_eq_some, and_assoc]

private theorem violation_eq_conflict : p.violation s = some (.conflict e) ↔
    (∀ v ∈ p.vertices, p.ColouredBy s v) ∧ e ∈ p.constraints ∧
      s.colourOf e.low = s.colourOf e.high ∧
        ∀ d ∈ p.constraints, d < e → s.colourOf d.low ≠ s.colourOf d.high := by
  simp [violation_eq_or, Option.or_eq_some_iff, findSome?_vertices, findSome?_constraints,
    vertexViolation_eq_none, vertexViolation_eq_some, constraintViolation_eq_some, and_assoc]

private theorem exists_shared_colour (hs : ∀ v ∈ p.vertices, p.ColouredBy s v)
    (he : e ∈ p.constraints) :
    s.colourOf e.low = s.colourOf e.high ↔
      ∃ c, s.colourOf e.low = some c ∧ s.colourOf e.high = some c := by
  -- the ends of a constraint are vertices, so they do not agree by having no colour
  obtain ⟨c, hc, -⟩ := hs e.low (p.endpoints_mem e he).1
  constructor
  · intro heq
    exact ⟨c, hc, heq ▸ hc⟩
  · rintro ⟨d, hlow, hhigh⟩
    rw [hlow, hhigh]

private theorem violation_congr (h : ∀ v ∈ p.vertices, t.colourOf v = s.colourOf v) :
    p.violation t = p.violation s := by
  have hvertices : p.vertices.findSome? (p.vertexViolation t) =
      p.vertices.findSome? (p.vertexViolation s) := by
    apply findSome?_congr
    intro v hv
    rw [vertexViolation, vertexViolation, h v hv]
  have hconstraints : p.constraints.findSome? (constraintViolation t) =
      p.constraints.findSome? (constraintViolation s) := by
    apply findSome?_congr
    intro c hc
    obtain ⟨hlow, hhigh⟩ := p.endpoints_mem c hc
    rw [constraintViolation, constraintViolation, h _ hlow, h _ hhigh]
  rw [violation_eq_or, violation_eq_or, hvertices, hconstraints]

/-- The check finds nothing exactly when every vertex has an allowed colour and the ends of every
constraint differ. Otherwise it reports the smallest vertex without an allowed colour, and if there
is none, the smallest constraint whose ends have the same colour. Whatever a solution says about
vertices that the problem does not have, the answer is the same. -/
theorem violation_first (p : Problem) (s : Solution) :
    (p.violation s = none ↔ (∀ v ∈ p.vertices, p.ColouredBy s v) ∧
        ∀ e ∈ p.constraints, s.colourOf e.low ≠ s.colourOf e.high) ∧
      (∀ v, p.violation s = some (.uncoloured v) ↔ v ∈ p.vertices ∧ s.colourOf v = none ∧
        ∀ u ∈ p.vertices, u < v → p.ColouredBy s u) ∧
      (∀ v c, p.violation s = some (.outOfRange v c) ↔ v ∈ p.vertices ∧ s.colourOf v = some c ∧
        ¬p.Allows c ∧ ∀ u ∈ p.vertices, u < v → p.ColouredBy s u) ∧
      (∀ e, p.violation s = some (.conflict e) ↔ (∀ v ∈ p.vertices, p.ColouredBy s v) ∧
        e ∈ p.constraints ∧ (∃ c, s.colourOf e.low = some c ∧ s.colourOf e.high = some c) ∧
          ∀ d ∈ p.constraints, d < e → s.colourOf d.low ≠ s.colourOf d.high) ∧
      ∀ t : Solution, (∀ v ∈ p.vertices, t.colourOf v = s.colourOf v) →
        p.violation t = p.violation s := by
  refine ⟨violation_eq_none, fun _ => violation_eq_uncoloured, fun _ _ => violation_eq_outOfRange,
    fun e => ?_, fun _ => violation_congr⟩
  rw [violation_eq_conflict]
  apply and_congr_right
  intro hs
  apply and_congr_right
  intro he
  rw [exists_shared_colour hs he]

end Problem

end Chromatic
