import Chromatic.Branching.View
/-!
# The contracts of the selectors

A variable selector chooses a free variable as long as there is one, and a value selector lists
the colours of a domain in some order. Both may remember what they were asked before, so the
contracts speak of every state that questions can lead to.
-/

namespace Chromatic

variable {σ τ : Type} {G : Graph}

/-- The states to which questions about a graph bring a variable selector. -/
inductive VariableSelector.Reaches (G : Graph) [VariableSelector σ] (v : σ) : σ → Prop
  | refl : Reaches G v v
  | ask {w : σ} (h : Reaches G v w) (view : View G) : Reaches G v (select view w).2

/-- The states to which questions about free variables of a graph bring a value selector. -/
inductive ValueSelector.Reaches (G : Graph) [ValueSelector τ] (v : τ) : τ → Prop
  | refl : Reaches G v v
  | ask {w w' : τ} {view : View G} {i : Fin G.order} {colours : List Colour}
    (h : Reaches G v w) (hi : view.assignment.value i = none)
    (ho : order view (.ofFin i) w = .ok (colours, w')) : Reaches G v w'

/-- Whatever was asked before, the answer is a free variable, and none only when every variable
has a colour. -/
structure VariableSelector.Lawful (G : Graph) [VariableSelector σ] (v : σ) : Prop where
  free : ∀ {w : σ} {view : View G} {x : VariableId}, Reaches G v w →
    (select view w).1 = some x → ∃ i, x = .ofFin i ∧ view.assignment.value i = none
  complete : ∀ {w : σ} {view : View G}, Reaches G v w →
    (select view w).1 = none → ∀ i, view.assignment.value i ≠ none

/-- Whatever was asked before, the answer is a free variable, if it is one at all. -/
structure VariableSelector.ChoosesFree (G : Graph) [VariableSelector σ] (v : σ) : Prop where
  free : ∀ {w : σ} {view : View G} {x : VariableId}, Reaches G v w →
    (select view w).1 = some x → ∃ i, x = .ofFin i ∧ view.assignment.value i = none

/-- Whatever was asked before, the answer for a free variable lists the colours of its domain,
each of them once. -/
structure ValueSelector.Lawful (G : Graph) [ValueSelector τ] (v : τ) : Prop where
  lists : ∀ {w : τ} {view : View G} {i : Fin G.order}, Reaches G v w →
    view.assignment.value i = none →
      ∃ colours w', order view (.ofFin i) w = .ok (colours, w') ∧
        colours.Perm (view.store.domain i).values

namespace VariableSelector

variable [VariableSelector σ] {u v w : σ}

private theorem Reaches.trans (h : Reaches G u v) (h' : Reaches G v w) : Reaches G u w := by
  induction h' with
  | refl => exact h
  | ask _ view ih => exact ih.ask view

theorem Lawful.ask (h : Lawful G v) (view : View G) : Lawful G (select view v).2 where
  free hr := h.free ((Reaches.refl.ask view).trans hr)
  complete hr := h.complete ((Reaches.refl.ask view).trans hr)

theorem Lawful.choosesFree (h : Lawful G v) : ChoosesFree G v := ⟨h.free⟩

theorem ChoosesFree.ask (h : ChoosesFree G v) (view : View G) :
    ChoosesFree G (select view v).2 where
  free hr := h.free ((Reaches.refl.ask view).trans hr)

end VariableSelector

namespace ValueSelector

variable [ValueSelector τ] {u v w : τ}

private theorem Reaches.trans (h : Reaches G u v) (h' : Reaches G v w) : Reaches G u w := by
  induction h' with
  | refl => exact h
  | ask _ hi ho ih => exact ih.ask hi ho

theorem Lawful.ask {view : View G} {i : Fin G.order} {colours : List Colour}
    (h : Lawful G v) (hi : view.assignment.value i = none)
    (ho : order view (.ofFin i) v = .ok (colours, w)) : Lawful G w where
  lists hr := h.lists ((Reaches.refl.ask hi ho).trans hr)

end ValueSelector

end Chromatic
