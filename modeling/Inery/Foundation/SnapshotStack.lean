import Mathlib.Data.List.DropRight
import Mathlib.Logic.Function.Iterate

/-!
# A state with full snapshots

The simplest nested transactions: `push` saves the whole state, `undo` takes
the newest snapshot back, `squash` forgets it, `commit` forgets the oldest
ones.  Each snapshot carries the revision under which it was taken.
-/

namespace Inery.Foundation

universe u v

/-- A current state over saved ones, newest first. -/
structure SnapshotStack (σ : Type u) where
  current : σ
  revision : ℤ := 0
  saved : List (σ × ℤ) := []
deriving DecidableEq

namespace SnapshotStack

variable {σ : Type u}

def update (f : σ → σ) (s : SnapshotStack σ) : SnapshotStack σ := { s with current := f s.current }

variable (s : SnapshotStack σ)

/-- Save the current state under the next revision. -/
def push : SnapshotStack σ :=
  { s with revision := s.revision + 1, saved := (s.current, s.revision + 1) :: s.saved }

/-- Restore the newest snapshot and drop it. -/
def undo : SnapshotStack σ :=
  match s.saved with
  | [] => s
  | (old, _) :: rest => ⟨old, s.revision - 1, rest⟩

/-- Drop the newest snapshot and keep the current state. -/
def squash : SnapshotStack σ :=
  match s.saved with
  | [] => s
  | _ :: rest => ⟨s.current, s.revision - 1, rest⟩

def commit (revision : ℤ) (s : SnapshotStack σ) : SnapshotStack σ :=
  { s with saved := s.saved.rdropWhile fun snapshot => snapshot.2 ≤ revision }

def undoAll : SnapshotStack σ := undo^[s.saved.length] s

@[simp] theorem undo_push : s.push.undo = s := by
  simp [push, undo]

variable {s : SnapshotStack σ}

/-- Whatever happens to the current state in between, `undo` takes back `push`. -/
theorem undo_of_saved {t : SnapshotStack σ} (hsaved : t.saved = s.push.saved)
    (hrevision : t.revision = s.push.revision) : t.undo = s := by
  cases s with
  | mk current revision saved =>
    simp only [push] at hsaved hrevision
    simp [undo, hsaved, hrevision]

def Consecutive : ℤ → List (σ × ℤ) → Prop
  | _, [] => True
  | revision, (_, r) :: rest => r = revision ∧ Consecutive (revision - 1) rest

/-- Every snapshot carries the revision that it was saved under. -/
def Numbered (s : SnapshotStack σ) : Prop := Consecutive s.revision s.saved

theorem Numbered.undo (h : s.Numbered) : s.undo.Numbered := by
  obtain ⟨current, revision, saved⟩ := s
  cases saved with
  | nil => exact h
  | cons top rest => exact h.2

/-- On a numbered stack `push` takes back `undo`, up to the current state. -/
theorem Numbered.push_undo (h : s.Numbered) (hsaved : s.saved ≠ []) :
    { s.undo.push with current := s.current } = s := by
  obtain ⟨current, revision, saved⟩ := s
  cases saved with
  | nil => exact absurd rfl hsaved
  | cons top rest =>
    obtain ⟨old, r⟩ := top
    obtain ⟨rfl, -⟩ := h
    simp [push, SnapshotStack.undo]

theorem revision_undo (hsaved : s.saved ≠ []) : s.undo.revision = s.revision - 1 := by
  obtain ⟨current, revision, saved⟩ := s
  cases saved with
  | nil => exact absurd rfl hsaved
  | cons top rest => rfl

theorem saved_undo (s : SnapshotStack σ) : s.undo.saved = s.saved.tail := by
  obtain ⟨current, revision, saved⟩ := s
  cases saved <;> rfl

end SnapshotStack

/-- Dropping from the back of a list with one more element in front. -/
theorem rdropWhile_cons {α : Type v} (p : α → Bool) (a : α) (l : List α) :
    (a :: l).rdropWhile p =
      if l.rdropWhile p = [] then (if p a then [] else [a]) else a :: l.rdropWhile p := by
  simp only [List.rdropWhile, List.reverse_cons, List.dropWhile_append, List.isEmpty_iff,
    List.reverse_eq_nil_iff]
  split
  · next h =>
    by_cases hp : p a
    · simp [hp]
    · simp [hp]
  · simp

end Inery.Foundation
