/-!
# Families

A family has one value for each of `n` variables. What is read after a value was replaced says
everything about a replacement; totals over all values change by the difference.
-/

namespace Chromatic

/-- One value for each of `n` variables. -/
structure Family (n : Nat) (α : Type) where
  values : Vector α n
deriving DecidableEq

namespace Family

variable {n : Nat} {α : Type}

def replicate (n : Nat) (a : α) : Family n α := ⟨Vector.replicate n a⟩

def ofList (l : List α) : Family l.length α := ⟨⟨l.toArray, List.size_toArray⟩⟩

def get (f : Family n α) (i : Fin n) : α := f.values[i]

def set (f : Family n α) (i : Fin n) (a : α) : Family n α := ⟨f.values.set i a⟩

def toList (f : Family n α) : List α := f.values.toList

@[simp] theorem get_replicate (a : α) (i : Fin n) : (replicate n a).get i = a := by
  simp [get, replicate]

@[simp] theorem get_set (f : Family n α) (i j : Fin n) (a : α) :
    (f.set i a).get j = if i = j then a else f.get j := by
  simp [get, set, Vector.getElem_set, Fin.val_inj]

theorem ext_get {f g : Family n α} (h : ∀ i, f.get i = g.get i) : f = g := by
  obtain ⟨v⟩ := f
  obtain ⟨w⟩ := g
  exact congrArg mk (Vector.ext fun i hi => h ⟨i, hi⟩)

/-- The sum of a number for each value. -/
def total (m : α → Nat) (f : Family n α) : Nat := f.toList.foldr (fun a s => m a + s) 0

theorem total_eq_zero {m : α → Nat} {f : Family n α} :
    f.total m = 0 ↔ ∀ i, m (f.get i) = 0 := by
  have hl : ∀ l : List α, l.foldr (fun a s => m a + s) 0 = 0 ↔ ∀ a ∈ l, m a = 0 := by
    intro l
    induction l with
    | nil => simp
    | cons a rest ih => simp [ih]
  rw [total, hl]
  constructor
  · intro h i
    exact h _ (by simp [toList, get])
  · intro h a ha
    obtain ⟨i, hi, rfl⟩ := List.getElem_of_mem ha
    exact h ⟨i, by simpa [toList] using hi⟩

theorem total_replicate (m : α → Nat) (a : α) : (replicate n a).total m = n * m a := by
  rw [total, replicate, toList, Vector.toList_replicate]
  induction n with
  | zero => simp
  | succ n ih => rw [List.replicate_succ, List.foldr_cons, ih, Nat.succ_mul, Nat.add_comm]

private theorem foldr_set {m : α → Nat} {l : List α} {i : Nat} {a : α} (h : i < l.length) :
    (l.set i a).foldr (fun a s => m a + s) 0 + m l[i] =
      l.foldr (fun a s => m a + s) 0 + m a := by
  induction l generalizing i with
  | nil => cases h
  | cons b rest ih =>
    cases i with
    | zero =>
      simp only [List.set_cons_zero, List.foldr_cons, List.getElem_cons_zero]
      omega
    | succ i =>
      have := ih (Nat.lt_of_succ_lt_succ h)
      simp only [List.set_cons_succ, List.foldr_cons, List.getElem_cons_succ]
      omega

theorem total_set (m : α → Nat) (f : Family n α) (i : Fin n) (a : α) :
    (f.set i a).total m + m (f.get i) = f.total m + m a := by
  have h := foldr_set (m := m) (l := f.values.toList) (i := i.val) (a := a) (by simp)
  rw [Vector.getElem_toList, ← Vector.toList_set i.isLt] at h
  exact h

end Family

end Chromatic
