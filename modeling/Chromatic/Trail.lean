import Chromatic.Fault
/-!
# Trails

A trail records what happened, so that it can be undone back to a checkpoint, newest first. A
checkpoint is the number of entries at the moment it was taken.
-/

namespace Chromatic

/-- The entries on record, the newest one first. -/
structure Trail (α : Type) where
  entries : List α
deriving DecidableEq

namespace Trail

variable {α : Type}

def empty : Trail α := ⟨[]⟩

def record (t : Trail α) (a : α) : Trail α := ⟨a :: t.entries⟩

/-- The number of entries, which is also the checkpoint of this moment. -/
def length (t : Trail α) : Nat := t.entries.length

/-- Takes off the entries made since a checkpoint. They come back newest first. -/
def undoTo (t : Trail α) (checkpoint : Nat) : Except Fault (List α × Trail α) :=
  if checkpoint ≤ t.length then
    .ok (t.entries.take (t.length - checkpoint), ⟨t.entries.drop (t.length - checkpoint)⟩)
  else
    .error (.undoBeyond checkpoint t.length)

@[simp] theorem length_record (t : Trail α) (a : α) : (t.record a).length = t.length + 1 := rfl

theorem undoTo_length (t : Trail α) : t.undoTo t.length = .ok ([], t) := by
  simp [undoTo]

theorem undoTo_record {t : Trail α} {a : α} {checkpoint : Nat} (h : checkpoint ≤ t.length) :
    (t.record a).undoTo checkpoint = (t.undoTo checkpoint).map fun r => (a :: r.1, r.2) := by
  rw [undoTo, undoTo, length_record, if_pos (Nat.le_succ_of_le h), if_pos h,
    Nat.sub_add_comm h]
  rfl

end Trail

end Chromatic
