import Chromatic.Proofs.Search.Carrying
import Chromatic.Proofs.Search.Past
import Chromatic.Proofs.Search.SurplusColours
/-!
# Searches do not look at labels

A search knows vertices by their numbers. The labels of a graph are read once, when a solution is
written down. So on a graph with other labels, in the same order, a search goes through the same
states, and finds the same colours under the other labels.
-/

namespace Chromatic

def Family.map {n : Nat} {α β : Type} (g : α → β) (f : Family n α) : Family n β :=
  ⟨f.values.map g⟩

@[simp] theorem Family.get_map {n : Nat} {α β : Type} (g : α → β) (f : Family n α) (i : Fin n) :
    (f.map g).get i = g (f.get i) := by
  simp [map, get]

@[simp] theorem Family.toList_map {n : Nat} {α β : Type} (g : α → β) (f : Family n α) :
    (f.map g).toList = f.toList.map g :=
  Vector.toList_map

namespace Solution

/-- The solution with its vertices renamed. -/
def rename (f : Vertex → Vertex) (s : Solution) : Solution :=
  .ofList (s.entries.map fun e => (f e.1, e.2))

private theorem insertEntry_of_lt {v : Vertex} {c : Colour} {l : List (Vertex × Colour)}
    (h : ∀ e ∈ l, e.1 < v) : insertEntry v c l = l ++ [(v, c)] := by
  induction l with
  | nil => rfl
  | cons e rest ih =>
    obtain ⟨he, hrest⟩ := List.forall_mem_cons.mp h
    have hlt : ¬v < e.1 := by lia
    have hne : v ≠ e.1 := by lia
    rw [insertEntry, if_neg hlt, if_neg hne, ih hrest]
    rfl

private theorem entries_foldl_set {l : List (Vertex × Colour)} {s : Solution}
    (h : (s.entries ++ l).Pairwise fun a b => a.1 < b.1) :
    (l.foldl (fun s e => s.set e.1 e.2) s).entries = s.entries ++ l := by
  induction l generalizing s with
  | nil => simp
  | cons e rest ih =>
    have hset : (s.set e.1 e.2).entries = s.entries ++ [e] := by
      apply insertEntry_of_lt
      intro d hd
      exact (List.pairwise_append.mp h).2.2 d hd e List.mem_cons_self
    rw [List.foldl_cons, ih, hset, List.append_assoc]
    · rfl
    · rwa [hset, List.append_assoc]

theorem entries_ofList {l : List (Vertex × Colour)} (h : l.Pairwise fun a b => a.1 < b.1) :
    (ofList l).entries = l := entries_foldl_set h

end Solution

theorem Assignment.pairwise_entries {n : Nat} (a : Assignment n) :
    a.entries.Pairwise fun x y => x.1 < y.1 := by
  rw [entries, List.pairwise_filterMap]
  apply (List.pairwise_lt_finRange n).imp
  intro i j hij x hx y hy
  obtain ⟨c, -, rfl⟩ := Option.map_eq_some_iff.mp hx
  obtain ⟨d, -, rfl⟩ := Option.map_eq_some_iff.mp hy
  exact hij

namespace Graph

/-- The labels keep their order. -/
def Orders (f : Vertex → Vertex) (G : Graph) : Prop := (G.labels.toList.map f).Pairwise (· < ·)

/-- The graph with other labels in the same order. -/
abbrev relabel (G : Graph) (f : Vertex → Vertex) (h : G.Orders f) : Graph :=
  { G with
    labels := G.labels.map f
    labels_ascending := by
      rw [Family.toList_map]
      exact h }

variable {G : Graph} {f : Vertex → Vertex} {h : G.Orders f}

theorem label_relabel (i : Fin G.order) : (G.relabel f h).label i = f (G.label i) :=
  Family.get_map f G.labels i

private theorem propagate_relabel (store : Store G.order) (counters : PropagationCounters)
    (queue : List (Arc G.order)) :
    (G.relabel f h).propagate store counters queue = G.propagate store counters queue := by
  fun_induction propagate G store counters queue with
  | case1 => rw [propagate_nil]
  | case2 store counters a rest _ store' hr ih =>
    rw [propagate_cons, hr]
    exact ih
  | case3 store counters a rest _ store' hr ih =>
    rw [propagate_cons, hr]
    exact ih
  | case4 store counters a rest _ store' hr => rw [propagate_cons, hr]

theorem neighbours_relabel (i : Fin G.order) : (G.relabel f h).neighbours i = G.neighbours i := rfl

private theorem propagateFrom_relabel (store : Store G.order) (counters : PropagationCounters)
    (i : Fin G.order) :
    (G.relabel f h).propagateFrom store counters i = G.propagateFrom store counters i :=
  propagate_relabel store counters (G.arcsInto i)

private theorem propagateAll_relabel (store : Store G.order) (counters : PropagationCounters) :
    (G.relabel f h).propagateAll store counters = G.propagateAll store counters :=
  propagate_relabel store counters G.arcs

end Graph

namespace Search

variable {G : Graph} {σ τ : Type}

/-- The search in the same place on the graph with other labels. -/
def relabel (s : Search G σ τ) (f : Vertex → Vertex) (h : G.Orders f) :
    Search (G.relabel f h) σ τ where
  store := s.store
  assignment := s.assignment
  propagation := s.propagation
  variableSelector := s.variableSelector
  valueSelector := s.valueSelector
  frames := s.frames
  counters := s.counters
  log := s.log

section Operations

variable (s : Search G σ τ) (f : Vertex → Vertex) (h : G.Orders f)

private theorem narrow_relabel (i : Fin G.order) (c : Colour) :
    (s.relabel f h).narrow i c = ((s.narrow i c).1, (s.narrow i c).2.relabel f h) := by
  simp only [narrow, absorb, relabel, Graph.propagateFrom_relabel, Graph.neighbours_relabel]
  rcases s.store.keepOnly i c with ⟨_ | _, store⟩
  · rfl
  · dsimp only
    cases (G.propagateFrom store s.propagation i).emptiedBy with
    | some => rfl
    | none =>
      dsimp only
      cases (G.neighbours i).find? fun j => decide (s.assignment.value j = some c) with
      | none => rfl
      | some => rfl

private theorem attempt_relabel (x : VariableId) (c : Colour) :
    (s.relabel f h).attempt x c = ((s.attempt x c).1, (s.attempt x c).2.relabel f h) := by
  cases hx : x.locate G.order with
  | error fault =>
    have hx' : x.locate (G.relabel f h).order = .error fault := hx
    rw [attempt_of_unknown hx, attempt_of_unknown hx']
    rfl
  | ok i =>
    have hx' : x.locate (G.relabel f h).order = .ok i := hx
    cases ha : s.assignment.assign i c with
    | error fault =>
      have ha' : (s.relabel f h).assignment.assign i c = .error fault := ha
      rw [attempt_of_assigned hx ha, attempt_of_assigned hx' ha']
      rfl
    | ok a =>
      have ha' : (s.relabel f h).assignment.assign i c = .ok a := ha
      have hcommitted : (s.relabel f h).committed a = (s.committed a).relabel f h := rfl
      rw [attempt_eq hx ha, attempt_eq hx' ha', hcommitted, narrow_relabel]
      rcases (s.committed a).narrow i c with ⟨_ | _, t⟩
      · rfl
      · rfl

end Operations

section Choice

variable [VariableSelector σ] [ValueSelector τ] {s : Search G σ τ} {x : VariableId} {v : σ}
  {w : τ}

private theorem choose_of_none
    (hv : VariableSelector.select s.view s.variableSelector = (none, v)) :
    s.choose = (.ok none, { s with variableSelector := v }) := by
  simp only [choose, hv]

private theorem choose_of_error {fault : Fault}
    (hv : VariableSelector.select s.view s.variableSelector = (some x, v))
    (hw : ValueSelector.order s.view x s.valueSelector = .error fault) :
    s.choose = (.error fault, { s with variableSelector := v }) := by
  have hview : view { s with variableSelector := v } = s.view := rfl
  simp only [choose, hv, hview, hw]

private theorem choose_of_some {colours : List Colour}
    (hv : VariableSelector.select s.view s.variableSelector = (some x, v))
    (hw : ValueSelector.order s.view x s.valueSelector = .ok (colours, w)) :
    s.choose = (.ok (some (x, colours)),
      { s with variableSelector := v, valueSelector := w }) := by
  have hview : view { s with variableSelector := v } = s.view := rfl
  simp only [choose, hv, hview, hw]

end Choice

section Standard

variable (s : Search G FewestColours LeastConstraining) (f : Vertex → Vertex) (h : G.Orders f)

private theorem choose_relabel : (s.relabel f h).choose = (s.choose.1, s.choose.2.relabel f h) := by
  rcases hv : VariableSelector.select s.view s.variableSelector with ⟨_ | x, v⟩
  · have hv' : VariableSelector.select (s.relabel f h).view s.variableSelector = (none, v) := hv
    rw [choose_of_none hv, choose_of_none hv']
    rfl
  · have hv' : VariableSelector.select (s.relabel f h).view s.variableSelector = (some x, v) := hv
    rcases hw : ValueSelector.order s.view x s.valueSelector with fault | ⟨colours, w⟩
    · have hw' : ValueSelector.order (s.relabel f h).view x s.valueSelector = .error fault := hw
      rw [choose_of_error hv hw, choose_of_error hv' hw']
      rfl
    · have hw' : ValueSelector.order (s.relabel f h).view x s.valueSelector =
        .ok (colours, w) := hw
      rw [choose_of_some hv hw, choose_of_some hv' hw']
      rfl

end Standard

private theorem solution_relabel (s : Search G σ τ) (f : Vertex → Vertex) (h : G.Orders f) :
    (s.relabel f h).solution = s.solution.rename f := by
  have hentries : (s.assignment.entries.map fun e => (G.label e.1, e.2)).Pairwise
      fun a b => a.1 < b.1 := by
    rw [List.pairwise_map]
    exact s.assignment.pairwise_entries.imp fun hij => G.label_lt_label hij
  rw [Solution.rename, solution, solution, Solution.entries_ofList hentries, List.map_map]
  simp only [Graph.label_relabel]
  rfl

private theorem carries_relabel (f : Vertex → Vertex) (h : G.Orders f) :
    Carries (fun s : Search G FewestColours LeastConstraining => s.relabel f h)
      (Solution.rename f) where
  attempt s x c := attempt_relabel s f h x c
  choose s := choose_relabel s f h
  rewindTo _ _ := rfl
  abandon _ _ := rfl
  interrupt _ := rfl
  solution s := solution_relabel s f h

private theorem propagateRoot_relabel (s : Search G σ τ) (f : Vertex → Vertex) (h : G.Orders f) :
    (s.relabel f h).propagateRoot = (s.propagateRoot.1, s.propagateRoot.2.relabel f h) := by
  simp only [propagateRoot, absorb, relabel, Graph.propagateAll_relabel]
  cases (G.propagateAll s.store s.propagation).emptiedBy with
  | none => rfl
  | some => rfl

private theorem readied_relabel (k : Nat) (f : Vertex → Vertex) (h : G.Orders f) :
    readied (G.relabel f h) k = (readied G k).relabel f h := by
  have hroot := propagateRoot_relabel (start G k FewestColours.standard LeastConstraining.mk) f h
  exact congrArg Prod.snd hroot

end Search

namespace Graph

variable {κ : Type} [TerminationCondition κ]

/-- What the standard search on a graph with `k` colours comes to, and the work it has done by
then. -/
def search (G : Graph) (k : Nat) (limit : κ) : Except Fault Outcome × Work :=
  let r := (Search.readied G k).takeLog.2.run limit
  (r.1, r.2.1.work)

/-- Other labels in the same order show in the vertices of a solution only. -/
theorem search_relabel (G : Graph) (f : Vertex → Vertex) (h : G.Orders f) (k : Nat) (limit : κ) :
    ∃ outcome work, G.search k limit = (.ok outcome, work) ∧
      (G.relabel f h).search k limit = (.ok (outcome.map (Solution.rename f)), work) := by
  have hroot : (Search.readied G k).takeLog.2.AtRoot k .standard {} :=
    .logTaken (Search.atRoot_readied G k)
  obtain ⟨outcome, ho⟩ : ∃ outcome, ((Search.readied G k).takeLog.2.run limit).1 = .ok outcome := by
    rcases Search.run_settles hroot FewestColours.lawful_standard
      (LeastConstraining.lawful _) limit with ⟨_, hr, -⟩ | ⟨hr, -⟩ | hr
    all_goals exact ⟨_, hr⟩
  obtain ⟨t, he, ht⟩ := Search.run_ok hroot.isIdle ho
  have hcarried := (Search.carries_relabel f h).explored he
  have hidle : ((Search.readied G k).takeLog.2.relabel f h).IsIdle :=
    ⟨hroot.isIdle.frames, hroot.isIdle.assignment⟩
  have hrun := Search.run_of_explored hidle hcarried
  refine ⟨outcome, t.work, ?_, ?_⟩
  · rw [search, ho, ht]
    rfl
  · have hlog : ((Search.readied G k).relabel f h).takeLog.2 =
        (Search.readied G k).takeLog.2.relabel f h := rfl
    rw [search, Search.readied_relabel, hlog, hrun]
    rfl

end Graph

end Chromatic
