import Chromatic.Proofs.Propagation.Largest
import Chromatic.Proofs.Search.Unfailing
import Mathlib.Combinatorics.SimpleGraph.Acyclic
/-!
# Completing partial colourings

Consistent arcs leave every neighbour another colour, but this need not be enough for a proper
colouring from the domains. In a graph without cycles it is: take away an edge, colour what falls
apart, and let one end choose a colour that differs from that of the other end. With two colours
it is enough as well when the graph is bipartite, because the two sides may take different colours
wherever the colours are not fixed.
-/

namespace Chromatic

section Forests

variable {V : Type} {H : SimpleGraph V} {D : V → Set Colour} {f g : V → Colour} {u v w : V}
  {c : Colour}

/-- One colour of every set, and different ones for neighbours. -/
structure Selects (H : SimpleGraph V) (D : V → Set Colour) (f : V → Colour) : Prop where
  within : ∀ v, f v ∈ D v
  proper : ∀ u v, H.Adj u v → f u ≠ f v

open Classical in
/-- Where the graph falls apart without an edge, the part of one end may be coloured by itself, as
long as the two ends differ. -/
theorem Selects.graft (hf : Selects (H.deleteEdges {s(u, w)}) D f)
    (hg : Selects (H.deleteEdges {s(u, w)}) D g)
    (hbridge : ¬(H.deleteEdges {s(u, w)}).Reachable w u) (hne : f u ≠ g w) :
    Selects H D fun x => if (H.deleteEdges {s(u, w)}).Reachable w x then g x else f x := by
  constructor
  · intro x
    split
    · exact hg.within x
    · exact hf.within x
  · intro x y hxy
    by_cases hedge : s(x, y) = s(u, w)
    · rcases Sym2.eq_iff.mp hedge with ⟨rfl, rfl⟩ | ⟨rfl, rfl⟩
      · rw [if_neg hbridge, if_pos (.refl y)]
        exact hne
      · rw [if_neg hbridge, if_pos (.refl x)]
        exact hne.symm
    · have hadj : (H.deleteEdges {s(u, w)}).Adj x y := SimpleGraph.deleteEdges_adj.mpr ⟨hxy, hedge⟩
      have hsame : (H.deleteEdges {s(u, w)}).Reachable w x ↔
          (H.deleteEdges {s(u, w)}).Reachable w y :=
        ⟨fun h => h.trans hadj.reachable, fun h => h.trans hadj.symm.reachable⟩
      by_cases hx : (H.deleteEdges {s(u, w)}).Reachable w x
      · rw [if_pos hx, if_pos (hsame.mp hx)]
        exact hg.proper x y hadj
      · rw [if_neg hx, if_neg (hsame.not.mp hx)]
        exact hf.proper x y hadj

private theorem exists_bridge_apart (hH : H.IsAcyclic) (hne : ∃ a b, H.Adj a b) (v : V) :
    ∃ u w, H.Adj u w ∧ ¬(H.deleteEdges {s(u, w)}).Reachable w u ∧
      ¬(H.deleteEdges {s(u, w)}).Reachable w v := by
  obtain ⟨a, b, hab⟩ := hne
  have hbridge : ¬(H.deleteEdges {s(a, b)}).Reachable a b :=
    SimpleGraph.isAcyclic_iff_forall_adj_isBridge.mp hH hab
  by_cases hv : (H.deleteEdges {s(a, b)}).Reachable b v
  · refine ⟨b, a, hab.symm, ?_⟩
    rw [Sym2.eq_swap]
    exact ⟨hbridge, fun h => hbridge (h.trans hv.symm)⟩
  · exact ⟨a, b, hab, fun h => hbridge h.symm, hv⟩

/-- In a graph without cycles, where every colour leaves each neighbour another one, every colour
is that of a selection. The induction is on the graph, by taking away edges. -/
theorem exists_selects_of_isAcyclic [Finite V] (hH : H.IsAcyclic) (hD : ∀ v, ∃ c, c ∈ D v)
    (hs : ∀ u v, H.Adj u v → ∀ c ∈ D u, ∃ d ∈ D v, d ≠ c) (hc : c ∈ D v) :
    ∃ f, Selects H D f ∧ f v = c := by
  induction H using WellFoundedLT.induction generalizing v c with
  | ind H ih =>
    by_cases hne : ∃ a b, H.Adj a b
    · obtain ⟨u, w, hadj, hbridge, hapart⟩ := exists_bridge_apart hH hne v
      have hle : H.deleteEdges {s(u, w)} ≤ H := SimpleGraph.deleteEdges_le _
      have hlt : H.deleteEdges {s(u, w)} < H := by
        refine lt_of_le_of_ne hle fun heq => ?_
        rw [heq] at hbridge
        exact hbridge hadj.symm.reachable
      have hless : ∀ {v c}, c ∈ D v → ∃ f, Selects (H.deleteEdges {s(u, w)}) D f ∧ f v = c :=
        ih _ hlt (hH.anti hle) fun x y hxy => hs x y (hle hxy)
      obtain ⟨f, hf, hfv⟩ := hless hc
      obtain ⟨d, hd, hdu⟩ := hs u w hadj (f u) (hf.within u)
      obtain ⟨g, hg, rfl⟩ := hless hd
      refine ⟨_, hf.graft hg hbridge hdu.symm, ?_⟩
      rw [if_neg hapart, hfv]
    · -- without edges only the given colour has to be met
      classical
      choose f hf using hD
      refine ⟨Function.update f v c, ⟨?_, ?_⟩, Function.update_self v c f⟩
      · intro x
        by_cases hx : x = v
        · subst hx
          rwa [Function.update_self]
        · rw [Function.update_of_ne hx]
          exact hf x
      · intro x y hxy
        exact absurd ⟨x, y, hxy⟩ hne

end Forests

private theorem Store.eq_one_or_two {n k : Nat} {i : Fin n} {x : Colour} (hk : k ≤ 2)
    (hx : x ∈ (full n k).domain i) : x = 1 ∨ x = 2 := by
  rw [domain_full, Domain.mem_full] at hx
  lia

namespace Graph

variable {G : Graph} {k : Nat} {i j : Fin G.order}

/-- The graph without labels. -/
def toSimple (G : Graph) : SimpleGraph (Fin G.order) where
  Adj i j := j ∈ G.neighbours i
  symm := ⟨fun i j => G.adjacency_symm i j⟩
  loopless := ⟨G.loopless⟩

/-- Wherever colours from one up to `k` support each other, every one of them is that of a proper
colouring with such colours. -/
def Completes (G : Graph) (k : Nat) : Prop :=
  ∀ D, G.SelfSupporting (.full G.order k) D → ∀ i, ∀ c ∈ D i,
    ∃ f, G.IsProper f ∧ (∀ j, f j ∈ D j) ∧ f i = c

theorem completes_of_isAcyclic (hG : G.toSimple.IsAcyclic) (k : Nat) : G.Completes k := by
  intro D hD i c hc
  obtain ⟨f, hf, hfi⟩ := exists_selects_of_isAcyclic hG hD.inhabited hD.supported hc
  exact ⟨f, hf.proper, hf.within, hfi⟩

/-- With two colours, a variable takes the colour of its side where it can. Neighbours can both do
so, or neither of them can. -/
theorem completes_of_isBipartite (hG : G.toSimple.IsBipartite) (hk : k ≤ 2) : G.Completes k := by
  intro D hD i c hc
  obtain ⟨side⟩ := hG
  have htwo : ∀ j, ∀ x ∈ D j, x = 1 ∨ x = 2 := by
    intro j x hx
    exact Store.eq_one_or_two hk (hD.within j x hx)
  -- the colour of the side of a variable, when the side of `i` has `c`
  let wish (j : Fin G.order) : Colour := if side j = side i then c else 3 - c
  have hcolour : ∀ j, wish j = 1 ∨ wish j = 2 := by
    intro j
    have hone := htwo i c hc
    simp only [wish]
    split <;> lia
  have hother : ∀ j, ∀ l ∈ G.neighbours j, wish j + wish l = 3 := by
    intro j l hl
    have hone := htwo i c hc
    have hside : side j ≠ side l := side.valid hl
    simp only [wish]
    split <;> split <;> lia
  have hopen : ∀ j, ∀ l ∈ G.neighbours j, wish j ∈ D j → wish l ∈ D l := by
    intro j l hl hj
    obtain ⟨d, hd, hne⟩ := hD.supported j l hl (wish j) hj
    have hsum := hother j l hl
    have hd' := htwo l d hd
    have hj' := hcolour j
    obtain rfl : d = wish l := by lia
    exact hd
  classical
  refine ⟨fun j => if wish j ∈ D j then wish j else 3 - wish j, ?_, ?_, ?_⟩
  · intro j l hl
    have hsum := hother j l hl
    have hj' := hcolour j
    dsimp only
    by_cases hj : wish j ∈ D j
    · rw [if_pos hj, if_pos (hopen j l hl hj)]
      lia
    · have hl' : wish l ∉ D l := fun h => hj (hopen l j (G.adjacency_symm j l hl) h)
      rw [if_neg hj, if_neg hl']
      lia
  · intro j
    dsimp only
    split
    · assumption
    · next hj =>
      obtain ⟨x, hx⟩ := hD.inhabited j
      have hne : x ≠ wish j := by
        rintro rfl
        exact hj hx
      have hx' := htwo j x hx
      have hj' := hcolour j
      obtain rfl : x = 3 - wish j := by lia
      exact hx
  · have hi : wish i = c := if_pos rfl
    dsimp only
    rw [hi, if_pos hc]

/-- With two colours, a variable with a single colour leaves one colour to every variable that is
connected to it. -/
theorem fixed_of_reachable {s : Store G.order} (hs : s.Live) (harcs : G.ArcConsistent s)
    (hk : k ≤ 2) (hr : Store.Reduction (.full G.order k) s) (hij : G.toSimple.Reachable i j)
    (hi : ∃ c, (s.domain i).values = [c]) : ∃ d, (s.domain j).values = [d] := by
  have htwo : ∀ l, ∀ x ∈ s.domain l, x = 1 ∨ x = 2 := by
    intro l x hx
    exact Store.eq_one_or_two hk (hr.mem_domain hx)
  obtain ⟨path⟩ := hij
  induction path with
  | nil => exact hi
  | @cons i l j hil _ ih =>
    apply ih
    obtain ⟨c, hc⟩ := hi
    have hout : c ∉ s.domain l := harcs ⟨l, i⟩ (G.adjacency_symm i l hil) c hc
    have hmem : c ∈ s.domain i := (Domain.mem_of_values_eq hc).mpr rfl
    have hc' := htwo i c hmem
    refine ⟨3 - c, Domain.values_eq_singleton (hs l) ?_⟩
    intro x hx
    have hx' := htwo l x hx
    have hne : x ≠ c := by
      rintro rfl
      exact hout hx
    lia

end Graph

namespace Search

variable {G : Graph} {σ τ : Type} {k : Nat} {s : Search G σ τ}

/-- Where partial colourings can be completed, consistent arcs are enough for every colour to
hold. -/
theorem unfailing_of_completes (hG : G.Completes k) :
    Unfailing σ τ fun v : View G => v.Consistent ∧ v.Bounded k where
  live v h := h.1.live
  holds s i c h hi hc := by
    obtain ⟨hconsistent, hbounded⟩ := h
    have hD := hconsistent.arcs.selfSupporting hconsistent.live hbounded.reduction
    obtain ⟨f, hproper, hwithin, rfl⟩ := hG _ hD i c hc
    have hagrees : ∀ j d, s.assignment.value j = some d → f j = d := by
      intro j d hj
      exact (Domain.mem_of_values_eq (hconsistent.fixed j d hj)).mp (hwithin j)
    obtain ⟨r, t, ha⟩ := attempt_free hi (f i)
    obtain ⟨rfl, -⟩ := attempt_permits ha ⟨hproper, hwithin, hagrees⟩
    exact ⟨t, ha, attempt_consistent ha hconsistent, attempt_bounded ha hc hbounded⟩

variable [VariableSelector σ] [ValueSelector τ]

/-- With two colours for a bipartite graph, the colour that is tried next holds, and leaves a single
colour to every variable that is connected to the one on top. -/
theorem Poised.fixes (h : Poised (fun v : View G => v.Consistent ∧ v.Bounded k) k s)
    (hG : G.toSimple.IsBipartite) (hk : k ≤ 2) :
    ∃ i c rest checkpoint below t, s.frames = ⟨.ofFin i, c :: rest, checkpoint⟩ :: below ∧
      s.attempt (.ofFin i) c = (.ok none, t) ∧
        ∀ j, G.toSimple.Reachable i j → ∃ d, (t.store.domain j).values = [d] := by
  have hunfailing := unfailing_of_completes (σ := σ) (τ := τ)
    (Graph.completes_of_isBipartite hG hk)
  obtain ⟨i, c, rest, checkpoint, below, hframes, hi, hc⟩ := h.top
  obtain ⟨t, ht, hview, hbounded⟩ := hunfailing.holds s i c h.view hi hc
  refine ⟨i, c, rest, checkpoint, below, t, hframes, ht, ?_⟩
  intro j hij
  have hfixed : (t.store.domain i).values = [c] := hview.fixed i c (value_of_attempt ht)
  exact Graph.fixed_of_reachable hview.live hview.arcs hk hbounded.reduction hij ⟨c, hfixed⟩

end Search

end Chromatic
