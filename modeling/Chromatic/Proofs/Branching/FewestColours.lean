import Chromatic.Branching.FewestColours
import Chromatic.Proofs.Branching.Contract
import Chromatic.Proofs.Branching.TieBreaker
/-!
# The most constrained variable is chosen

Considering candidates in turn and keeping the strictly better one finds the first minimum, and
taking it out leaves nothing behind for the next choice. The candidates come in ascending order, so
of several variables with the fewest colours left the smallest is chosen.
-/

namespace Chromatic

theorem View.mem_free {G : Graph} {v : View G} {i : Fin G.order} :
    i ∈ v.free ↔ v.assignment.value i = none := by
  simp [free, Assignment.isAssigned]

/-- The variables without a colour that has the fewest colours left, the first of them. -/
def View.mostConstrained {G : Graph} (v : View G) : Option (Fin G.order) :=
  v.free.argmin v.domainSize

theorem View.value_of_mostConstrained {G : Graph} {v : View G} {i : Fin G.order}
    (h : v.mostConstrained = some i) : v.assignment.value i = none :=
  mem_free.mp (List.argmin_mem h)

namespace View

variable {G : Graph} {v : View G} {i j : Fin G.order}

private theorem free_ascending (v : View G) : v.free.Pairwise (· < ·) :=
  (List.pairwise_lt_finRange G.order).filter _

/-- A variable without a colour that is least by the number of colours left and by its own
number. -/
structure IsMostConstrained (v : View G) (i : Fin G.order) : Prop where
  free : v.assignment.value i = none
  least : ∀ j, v.assignment.value j = none → j ≠ i →
    v.domainSize i < v.domainSize j ∨ v.domainSize i = v.domainSize j ∧ i < j

private theorem IsMostConstrained.unique (hi : v.IsMostConstrained i) (hj : v.IsMostConstrained j) :
    i = j := by
  by_contra hne
  have hij := hi.least j hj.free (Ne.symm hne)
  have hji := hj.least i hi.free hne
  omega

private theorem isMostConstrained_of_mostConstrained (h : v.mostConstrained = some i) :
    v.IsMostConstrained i where
  free := value_of_mostConstrained h
  least := by
    intro j hj hne
    obtain ⟨before, after, hfree, hbefore, hafter⟩ := exists_append_of_argmin h
    have hmem : j ∈ before ++ i :: after := hfree ▸ mem_free.mpr hj
    have hascending := hfree ▸ v.free_ascending
    rcases List.mem_append.mp hmem with hmem | hmem
    · exact .inl (hbefore j hmem)
    · have hmem := (List.mem_cons.mp hmem).resolve_left hne
      have hlt := (List.pairwise_cons.mp (List.pairwise_append.mp hascending).2.1).1 j hmem
      exact (hafter j hmem).lt_or_eq.imp_right fun heq => ⟨heq, hlt⟩

private theorem mostConstrained_eq_none :
    v.mostConstrained = none ↔ ∀ i, v.assignment.isAssigned i = true := by
  rw [mostConstrained, List.argmin_eq_none, free, List.filter_eq_nil_iff]
  simp

theorem mostConstrained_eq_some : v.mostConstrained = some i ↔ v.IsMostConstrained i := by
  refine ⟨isMostConstrained_of_mostConstrained, fun hi => ?_⟩
  cases h : v.mostConstrained with
  | none =>
    have hassigned := mostConstrained_eq_none.mp h i
    rw [Assignment.isAssigned, hi.free] at hassigned
    cases hassigned
  | some j => rw [(isMostConstrained_of_mostConstrained h).unique hi]

end View

namespace FewestColours

variable {G : Graph}

theorem select_standard (v : View G) :
    VariableSelector.select v standard =
      (v.mostConstrained.map VariableId.ofFin, standard) := by
  have hoffers := TieBreaker.foldl_consider .minimum []
    (v.free.map fun i => (VariableId.ofFin i, v.domainSize i))
  rw [← TieBreaker.ofDirection_eq, List.foldl_map, List.nil_append] at hoffers
  simp only [VariableSelector.select, choose, standard]
  rw [hoffers, TieBreaker.select_pick, Direction.pick, argmin_map, Option.map_map]
  rfl

private theorem eq_standard_of_reaches {w : FewestColours}
    (h : VariableSelector.Reaches G standard w) : w = standard := by
  induction h with
  | refl => rfl
  | ask _ view ih => rw [ih, select_standard]

theorem lawful_standard : VariableSelector.Lawful G standard where
  free := by
    intro w view x hr hx
    rw [eq_standard_of_reaches hr, select_standard] at hx
    obtain ⟨i, hi, rfl⟩ := Option.map_eq_some_iff.mp hx
    exact ⟨i, rfl, View.value_of_mostConstrained hi⟩
  complete := by
    intro w view hr hx i hi
    rw [eq_standard_of_reaches hr, select_standard] at hx
    have hassigned := View.mostConstrained_eq_none.mp (Option.map_eq_none_iff.mp hx) i
    rw [Assignment.isAssigned, hi] at hassigned
    cases hassigned

/-- What becomes of a selector that is asked about one state after the other, on any graphs. -/
def asked (f : FewestColours) (history : List ((H : Graph) × View H)) : FewestColours :=
  history.foldl (fun f state => (VariableSelector.select state.2 f).2) f

private theorem asked_standard (history : List ((H : Graph) × View H)) :
    standard.asked history = standard := by
  induction history with
  | nil => rfl
  | cons state rest ih =>
    rw [asked, List.foldl_cons, select_standard]
    exact ih

/-- Whatever was asked before, the answer is none exactly when every variable has a colour, and else
the variable without one that is least by the number of colours left and by its own number. -/
theorem select_least (history : List ((H : Graph) × View H)) (v : View G) :
    ((VariableSelector.select v (standard.asked history)).1 = none ↔
        ∀ i, v.assignment.isAssigned i = true) ∧
      (∀ x, (VariableSelector.select v (standard.asked history)).1 = some x ↔
        ∃ i, x = .ofFin i ∧ v.IsMostConstrained i) ∧
      ∀ other, (VariableSelector.select v (standard.asked other)).1 =
        (VariableSelector.select v (standard.asked history)).1 := by
  rw [asked_standard, select_standard]
  refine ⟨?_, ?_, ?_⟩
  · rw [Option.map_eq_none_iff, View.mostConstrained_eq_none]
  · intro x
    rw [Option.map_eq_some_iff]
    apply exists_congr
    intro i
    rw [View.mostConstrained_eq_some, and_comm, eq_comm]
  · intro other
    rw [asked_standard, select_standard]

end FewestColours

end Chromatic
