import Inery.Foundation.Table

/-!
# Change sets of a table

Instead of a snapshot one may keep what is needed to go back: the keys created since, and the old
values of the rows overwritten and removed since.  `Mark` lists the four ways a key can relate to
such a change set, and `Undoes` says that every key is in one of them; the operations on the table
and the composition of two change sets are then checked key by key.
-/

namespace Inery.Foundation

open Table Option

variable {κ α : Type} [DecidableEq κ]

/-! ## One key -/

structure ChangeEntry (α : Type) where
  created : Bool
  updated : Option α
  removed : Option α

/-- How one key relates to a change set: its entry, its row now and its row
before. -/
inductive Mark : ChangeEntry α → Option α → Option α → Prop
  | nop (row : Option α) : Mark ⟨false, none, none⟩ row row
  | new (row : α) : Mark ⟨true, none, none⟩ (some row) none
  | upd (old row : α) : Mark ⟨false, some old, none⟩ (some row) (some old)
  | del (old : α) : Mark ⟨false, none, some old⟩ none (some old)

open Mark

namespace ChangeEntry

def mergeUpdated (y : α) (a : ChangeEntry α) : ChangeEntry α :=
  if a.created then a else if a.updated.isSome then a else { a with updated := some y }

/-- Compose with a later removal of a row that was `y`. -/
def mergeRemoved (y : α) (a : ChangeEntry α) : ChangeEntry α :=
  if a.created then { a with created := false }
  else match a.updated with
    | some x => { a with removed := a.removed.or (some x), updated := none }
    | none => { a with removed := a.removed.or (some y) }

def merge (b a : ChangeEntry α) : ChangeEntry α :=
  let a := (b.updated.map mergeUpdated).getD id a
  let a := { a with created := a.created || b.created }
  (b.removed.map mergeRemoved).getD id a

theorem empty_merge (a : ChangeEntry α) : merge ⟨false, none, none⟩ a = a := by
  simp [merge]

/-- The key was created or overwritten, and not removed. -/
def Listed (e : ChangeEntry α) : Prop :=
  (e.created = true ∨ e.updated.isSome = true) ∧ e.removed = none

theorem listed_mergeUpdated {a : ChangeEntry α} {y : α} (ha : a.removed = none) :
    (a.mergeUpdated y).Listed := by
  unfold mergeUpdated Listed
  by_cases hcreated : a.created = true
  · simp [hcreated, ha]
  · by_cases hupdated : a.updated.isSome = true <;> simp [hcreated, hupdated, ha]

theorem removed_merge_eq_none {a b : ChangeEntry α} (ha : a.removed = none)
    (hb : b.removed = none) : (b.merge a).removed = none := by
  obtain ⟨created, updated, removed⟩ := b
  cases hb
  cases updated with
  | none => simpa [merge] using ha
  | some y => exact (listed_mergeUpdated (y := y) ha).2

theorem Listed.merge {a b : ChangeEntry α} (hb : b.Listed) (ha : a.removed = none) :
    (b.merge a).Listed := by
  refine ⟨?_, removed_merge_eq_none ha hb.2⟩
  obtain ⟨created, updated, removed⟩ := b
  obtain ⟨hlisted, rfl⟩ := hb
  cases updated with
  | none =>
    obtain rfl : created = true := by simpa using hlisted
    exact .inl (by simp [ChangeEntry.merge])
  | some y =>
    have hor := (listed_mergeUpdated (y := y) ha).1
    simp only [ChangeEntry.merge, map_some, getD_some, map_none, getD_none, id_eq, Bool.or_eq_true]
    exact hor.imp_left .inl

end ChangeEntry

/-- **The composition matrix.** Going back through `b` and then through `a` is
going back through their composition, if no key that `a` removed was created
again by `b`. -/
theorem Mark.merge {a b : ChangeEntry α} {row mid before : Option α}
    (ha : Mark a mid before) (hb : Mark b row mid)
    (hfresh : b.created = true → a.removed = none) : Mark (b.merge a) row before := by
  cases hb with
  | nop => simpa [ChangeEntry.merge] using ha
  | new row =>
    cases ha with
    | nop => exact new row
    | del old => cases hfresh rfl
  | upd old row =>
    cases ha with
    | nop => exact upd old row
    | new => exact new row
    | upd x => exact upd x row
  | del old =>
    cases ha with
    | nop => exact del old
    | new => exact nop none
    | upd x => exact del x

/-! ## All keys -/

/-- The keys created, the old values of rows overwritten and the rows removed. -/
structure ChangeSet (κ α : Type) where
  created : Finset κ := ∅
  updated : Table κ α := ∅
  removed : Table κ α := ∅

namespace ChangeSet

variable {u a b m : ChangeSet κ α} {current mid before : Table κ α} {k : κ} {v w : α}

def entry (u : ChangeSet κ α) (k : κ) : ChangeEntry α :=
  ⟨k ∈ u.created, u.updated.lookup k, u.removed.lookup k⟩

theorem entry_congr (hcreated : k ∈ a.created ↔ k ∈ b.created)
    (hupdated : a.updated.lookup k = b.updated.lookup k)
    (hremoved : a.removed.lookup k = b.removed.lookup k) : a.entry k = b.entry k := by
  simp [entry, hcreated, hupdated, hremoved]

/-- Undoing `u` takes `current` back to `before`. -/
def Undoes (u : ChangeSet κ α) (current before : Table κ α) : Prop :=
  ∀ k, Mark (u.entry k) (current.lookup k) (before.lookup k)

variable (h : u.Undoes current before)
include h

/-- The four marks of a key, spelled out. -/
theorem Undoes.mark (k : κ) :
    (k ∉ u.created ∧ u.updated.lookup k = none ∧ u.removed.lookup k = none ∧
      before.lookup k = current.lookup k) ∨
    (k ∈ u.created ∧ u.updated.lookup k = none ∧ u.removed.lookup k = none ∧
      (∃ row, current.lookup k = some row) ∧ before.lookup k = none) ∨
    (k ∉ u.created ∧ u.removed.lookup k = none ∧ (∃ row, current.lookup k = some row) ∧
      ∃ old, u.updated.lookup k = some old ∧ before.lookup k = some old) ∨
    (k ∉ u.created ∧ u.updated.lookup k = none ∧ current.lookup k = none ∧
      ∃ old, u.removed.lookup k = some old ∧ before.lookup k = some old) := by
  have hk := h k
  generalize he : u.entry k = e at hk
  generalize current.lookup k = row at hk ⊢
  generalize before.lookup k = old at hk ⊢
  unfold entry at he
  cases hk <;> simp_all

theorem Undoes.of_created (hk : k ∈ u.created) : k ∈ current ∧ before.lookup k = none := by
  rcases h.mark k with ⟨hc, -⟩ | ⟨-, -, -, ⟨row, hrow⟩, hb⟩ | ⟨hc, -⟩ | ⟨hc, -⟩
  · exact absurd hk hc
  · exact ⟨mem_of_lookup hrow, hb⟩
  · exact absurd hk hc
  · exact absurd hk hc

theorem Undoes.of_updated (hk : u.updated.lookup k = some v) :
    k ∉ u.created ∧ k ∈ current ∧ before.lookup k = some v := by
  have hmark := h.mark k
  simp only [hk, reduceCtorEq, false_and, and_false, false_or, or_false] at hmark
  obtain ⟨hc, -, ⟨row, hrow⟩, old, hold, hb⟩ := hmark
  cases hold
  exact ⟨hc, mem_of_lookup hrow, hb⟩

theorem Undoes.of_removed (hk : u.removed.lookup k = some v) :
    k ∉ u.created ∧ u.updated.lookup k = none ∧ current.lookup k = none ∧
      before.lookup k = some v := by
  have hmark := h.mark k
  simp only [hk, reduceCtorEq, false_and, and_false, false_or] at hmark
  obtain ⟨hc, hu, hcurrent, old, hold, hb⟩ := hmark
  cases hold
  exact ⟨hc, hu, hcurrent, hb⟩

/-- The table before, read off the change set and the current table. -/
theorem Undoes.lookup_before (k : κ) :
    before.lookup k = (u.removed.lookup k).or ((u.updated.lookup k).or
      (if k ∈ u.created then none else current.lookup k)) := by
  rcases h.mark k with ⟨hc, hu, hr, hb⟩ | ⟨hc, hu, hr, -, hb⟩ | ⟨hc, hr, -, old, hu, hb⟩ |
    ⟨hc, hu, -, old, hr, hb⟩
  all_goals simp [hc, hu, hr, hb]

omit h

theorem undoes_empty (t : Table κ α) : Undoes {} t t := by
  intro k
  simpa [entry] using nop (t.lookup k)

include h

/-- A change at `k` alone is composed at `k` alone. -/
theorem Undoes.step {u' : ChangeSet κ α} {current' : Table κ α} {e : ChangeEntry α} {row : Option α}
    (hentry : ∀ j, u'.entry j = if j = k then e.merge (u.entry j) else u.entry j)
    (hcurrent : ∀ j, current'.lookup j = if j = k then row else current.lookup j)
    (he : Mark e row (current.lookup k))
    (hfresh : e.created = true → u.removed.lookup k = none) : u'.Undoes current' before := by
  intro j
  rw [hentry, hcurrent]
  split
  · next heq =>
    subst heq
    exact (h j).merge he hfresh
  · exact h j

/-! ## Recording an operation -/

theorem Undoes.create (v : α) (hcurrent : current.lookup k = none)
    (hbefore : before.lookup k = none) :
    Undoes { u with created := insert k u.created } (current.insert k v) before := by
  refine h.step (e := ⟨true, none, none⟩) (fun j => ?_) (fun j => lookup_insert_ite ..)
    (hcurrent ▸ new v) fun _ => ?_
  · by_cases hj : j = k <;> simp [entry, ChangeEntry.merge, hj]
  · have hmark := h.mark k
    simp only [hcurrent, hbefore, reduceCtorEq, and_false, exists_false, false_and, or_false]
      at hmark
    exact hmark.2.2.1

theorem Undoes.update {u' : ChangeSet κ α} (w : α) (hcurrent : current.lookup k = some v)
    (hentry : ∀ j, u'.entry j = if j = k then (u.entry j).mergeUpdated v else u.entry j) :
    u'.Undoes (current.insert k w) before := by
  refine h.step (e := ⟨false, some v, none⟩) (fun j => ?_) (fun j => lookup_insert_ite ..)
    (hcurrent ▸ upd v w) nofun
  rw [hentry]
  simp [ChangeEntry.merge]

theorem Undoes.remove {u' : ChangeSet κ α} (hcurrent : current.lookup k = some v)
    (hentry : ∀ j, u'.entry j = if j = k then (u.entry j).mergeRemoved v else u.entry j) :
    u'.Undoes (current.erase k) before := by
  refine h.step (e := ⟨false, none, some v⟩) (fun j => ?_) (fun j => lookup_erase_ite ..)
    (hcurrent ▸ del v) nofun
  rw [hentry]
  simp [ChangeEntry.merge]

omit h

theorem Undoes.merge (ha : a.Undoes mid before) (hb : b.Undoes current mid)
    (hfresh : ∀ k ∈ b.created, a.removed.lookup k = none)
    (hm : ∀ k, m.entry k = (b.entry k).merge (a.entry k)) : m.Undoes current before := by
  intro k
  rw [hm]
  refine (ha k).merge (hb k) ?_
  intro hcreated
  exact hfresh k (of_decide_eq_true hcreated)

end ChangeSet

end Inery.Foundation
