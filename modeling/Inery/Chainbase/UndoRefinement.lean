import Inery.Chainbase.GenericIndex
import Inery.Foundation.SnapshotStack

/-!
# The undo stack refines full snapshots

Each undo state of the container is a change set from the snapshot below to the state above it, and
`squash` composes two of them.  The container agrees with whole copies of the table after every
sequence of operations that respects the preconditions of `modify`.
-/

namespace Inery.Chainbase

open Foundation List Finmap Finset GenericIndex Table ChangeSet ChangeEntry Option Prod

variable {V : Type} {unique : Uniqueness V}

/-! ## The specification -/

structure Contents (V : Type) where
  table : Table ℕ V := ∅
  nextId : ℕ := 0

abbrev SnapshotIndex (V : Type) := SnapshotStack (Contents V)

namespace Contents

/-- Store a new object, unless it violates a unique index. -/
def emplace (unique : Uniqueness V) (v : V) (c : Contents V) : Contents V :=
  if conflicts unique c.table c.nextId v then c
  else ⟨c.table.insert c.nextId v, c.nextId + 1⟩

def modify (id : ℕ) (m : V → V) (c : Contents V) : Contents V :=
  match c.table.lookup id with
  | none => c
  | some v => { c with table := c.table.insert id (m v) }

def remove (id : ℕ) (c : Contents V) : Contents V := { c with table := c.table.erase id }

end Contents

def SnapshotIndex.apply (unique : Uniqueness V) (m : SnapshotIndex V) : IndexOp V → SnapshotIndex V
  | .emplace v => m.update (Contents.emplace unique v)
  | .modify id f => m.update (Contents.modify id f)
  | .remove id => m.update (Contents.remove id)
  | .startUndoSession enabled => if enabled then m.push else m
  | .squash => m.squash
  | .undo => m.undo
  | .commit revision => m.commit revision
  | .undoAll => m.undoAll

def SnapshotIndex.run (unique : Uniqueness V) (m : SnapshotIndex V) (ops : List (IndexOp V)) :
    SnapshotIndex V :=
  ops.foldl (SnapshotIndex.apply unique) m

/-! ## The preconditions -/

/-- Objects that are stored both before and after can be taken back in any order: no old value
violates a unique index together with the new value of another one. -/
def UndoableInAnyOrder (unique : Uniqueness V) (old new : Table ℕ V) : Prop :=
  ∀ i ∈ old.keys, ∀ j ∈ new.keys, i ≠ j → i ∈ new.keys → j ∈ old.keys →
    ∀ a ∈ old.lookup i, ∀ b ∈ new.lookup j, unique.clash a b = false

instance (unique : Uniqueness V) (old new : Table ℕ V) :
    Decidable (UndoableInAnyOrder unique old new) :=
  inferInstanceAs (Decidable (∀ i ∈ old.keys, ∀ j ∈ new.keys, i ≠ j → i ∈ new.keys →
    j ∈ old.keys → ∀ a ∈ old.lookup i, ∀ b ∈ new.lookup j, unique.clash a b = false))

/-- Every session on the stack can be undone, newest first. -/
def AllUndoable (unique : Uniqueness V) : Contents V → List (Contents V × ℤ) → Prop
  | _, [] => True
  | current, (old, _) :: rest =>
    UndoableInAnyOrder unique old.table current.table ∧ AllUndoable unique old rest

/-- What an operation may assume.  References are to stored objects, `modify`
violates no unique index, and what is undone can be undone in any order. -/
def Precondition (unique : Uniqueness V) (m : SnapshotIndex V) : IndexOp V → Prop
  | .modify id f => ∃ v, m.current.table.lookup id = some v ∧
      ¬ conflicts unique m.current.table id (f v)
  | .remove id => id ∈ m.current.table
  | .undo => AllUndoable unique m.current (m.saved.take 1)
  | .undoAll => AllUndoable unique m.current m.saved
  | _ => True

/-- Every operation of the sequence meets its precondition when it is reached. -/
def Admissible (unique : Uniqueness V) : SnapshotIndex V → List (IndexOp V) → Prop
  | _, [] => True
  | m, op :: ops => Precondition unique m op ∧ Admissible unique (m.apply unique op) ops

/-! ## The refinement relation -/

/-- Ids are below the next one and no unique index is violated. -/
structure Contents.Valid (unique : Uniqueness V) (c : Contents V) : Prop where
  id_lt : ∀ id ∈ c.table, id < c.nextId
  consistent : ∀ i j a b, i ≠ j → c.table.lookup i = some a → c.table.lookup j = some b →
    unique.clash a b = false

def UndoState.changes (u : UndoState V) : ChangeSet ℕ V := ⟨u.newIds, u.oldValues, u.removedValues⟩

/-- Each undo state leads from the contents above it to the snapshot below. -/
inductive StackRel (unique : Uniqueness V) :
    Contents V → List (UndoState V) → List (Contents V × ℤ) → Prop
  | nil {current : Contents V} (hvalid : current.Valid unique) : StackRel unique current [] []
  | cons {current old : Contents V} {u : UndoState V} {us : List (UndoState V)}
      {saved : List (Contents V × ℤ)} (hvalid : current.Valid unique)
      (hundoes : u.changes.Undoes current.table old.table) (hnext : u.oldNextId = old.nextId)
      (hle : old.nextId ≤ current.nextId) (hnew : ∀ id ∈ u.newIds, old.nextId ≤ id)
      (hrest : StackRel unique old us saved) :
      StackRel unique current (u :: us) ((old, u.revision) :: saved)

/-- The container stands for the specification. -/
structure Refines (unique : Uniqueness V) (s : GenericIndex V) (m : SnapshotIndex V) : Prop where
  indices : s.indices = m.current.table
  nextId : s.nextId = m.current.nextId
  revision : s.revision = m.revision
  stack : StackRel unique m.current s.stack m.saved

variable {current : Contents V}

theorem StackRel.valid {us : List (UndoState V)} {saved : List (Contents V × ℤ)}
    (h : StackRel unique current us saved) : current.Valid unique := by
  cases h <;> assumption

/-! ## The hooks -/

variable {t : Table ℕ V}

theorem lookup_emplaceEntry (t : Table ℕ V) (id j : ℕ) (v : V) :
    (emplaceEntry t id v).lookup j =
      if j = id then (t.lookup j).or (some v) else t.lookup j := by
  unfold emplaceEntry
  split
  next hmem =>
    split
    next hj =>
      subst hj
      obtain ⟨w, hw⟩ := mem_iff.mp hmem
      rw [hw]
      rfl
    next => rfl
  next hmem =>
    rw [lookup_insert_ite]
    split
    next hj =>
      subst hj
      rw [lookup_eq_none.mpr hmem]
      rfl
    next => rfl

section Hooks

variable {u : UndoState V} {current before : Table ℕ V} {id : ℕ} {v : V}

theorem onModify_entry (j : ℕ) : (u.onModify id v).changes.entry j =
    if j = id then (u.changes.entry j).mergeUpdated v else u.changes.entry j := by
  unfold UndoState.onModify mergeUpdated
  by_cases hj : j = id
  · subst hj
    rw [if_pos rfl]
    by_cases hnew : j ∈ u.newIds
    · simp [hnew, UndoState.changes, entry]
    · by_cases hold : j ∈ u.oldValues
      · simp [hnew, hold, UndoState.changes, entry, lookup_isSome]
      · have hnone := lookup_eq_none.mpr hold
        simp [hnew, hold, hnone, UndoState.changes, entry, lookup_emplaceEntry]
  · rw [if_neg hj]
    split
    · rfl
    · split
      · rfl
      · exact entry_congr Iff.rfl ((lookup_emplaceEntry ..).trans (if_neg hj)) rfl

theorem mergeRemovedValue_entry (obj : ℕ × V) (j : ℕ) :
    (u.mergeRemovedValue obj).changes.entry j =
      if j = obj.1 then (u.changes.entry j).mergeRemoved obj.2 else u.changes.entry j := by
  unfold UndoState.mergeRemovedValue mergeRemoved
  by_cases hj : j = obj.1
  · subst hj
    rw [if_pos rfl]
    by_cases hnew : obj.1 ∈ u.newIds
    · simp [hnew, UndoState.changes, entry]
    · cases hold : u.oldValues.lookup obj.1 with
      | some old => simp [hnew, hold, UndoState.changes, entry, lookup_emplaceEntry]
      | none => simp [hnew, hold, UndoState.changes, entry, lookup_emplaceEntry]
  · rw [if_neg hj]
    split
    · exact entry_congr (mem_erase.trans (and_iff_right hj)) rfl rfl
    · have hemplace : ∀ v, (emplaceEntry u.removedValues obj.1 v).lookup j =
          u.removedValues.lookup j := fun v => (lookup_emplaceEntry ..).trans (if_neg hj)
      split
      · exact entry_congr Iff.rfl (lookup_erase_ne hj) (hemplace _)
      · exact entry_congr Iff.rfl rfl (hemplace _)

theorem onRemove_eq_mergeRemovedValue : u.onRemove id v = u.mergeRemovedValue (id, v) := by
  unfold UndoState.onRemove UndoState.mergeRemovedValue
  split
  · rfl
  · cases hold : u.oldValues.lookup id with
    | some old => simp only
    | none =>
      simp only
      split
      · next hmem => rw [emplaceEntry, if_pos hmem]
      · rfl

theorem onRemove_entry (j : ℕ) : (u.onRemove id v).changes.entry j =
    if j = id then (u.changes.entry j).mergeRemoved v else u.changes.entry j := by
  rw [onRemove_eq_mergeRemovedValue, mergeRemovedValue_entry]

/-- Neither changes the id and the revision of the start. -/
def SameStart (u u' : UndoState V) : Prop := u'.oldNextId = u.oldNextId ∧ u'.revision = u.revision

theorem onModify_frame : SameStart u (u.onModify id v) ∧ (u.onModify id v).newIds = u.newIds ∧
    (u.onModify id v).removedValues = u.removedValues := by
  unfold UndoState.onModify
  split
  · exact ⟨⟨rfl, rfl⟩, rfl, rfl⟩
  · split <;> exact ⟨⟨rfl, rfl⟩, rfl, rfl⟩

theorem onRemove_frame : SameStart u (u.onRemove id v) ∧ (u.onRemove id v).newIds ⊆ u.newIds := by
  rw [onRemove_eq_mergeRemovedValue]
  unfold UndoState.mergeRemovedValue
  split
  · exact ⟨⟨rfl, rfl⟩, erase_subset _ _⟩
  · split <;> exact ⟨⟨rfl, rfl⟩, Subset.rfl⟩

end Hooks

/-! ## Squash -/

/-- The three loops compose the two change sets at every id. -/
theorem merge_entry (state prev : UndoState V) (j : ℕ) :
    (state.merge prev).changes.entry j = (state.changes.entry j).merge (prev.changes.entry j) := by
  have hold := foldl_orderedRows (fun (u : UndoState V) j => u.changes.entry j)
    UndoState.mergeOldValue mergeUpdated (fun _ _ => onModify_entry) state.oldValues prev j
  have hremoved := fun prev => foldl_orderedRows
    (fun (u : UndoState V) j => u.changes.entry j) UndoState.mergeRemovedValue
    mergeRemoved (fun _ => mergeRemovedValue_entry) state.removedValues prev j
  have hunion : ∀ u : UndoState V,
      ({ u with newIds := u.newIds ∪ state.newIds } : UndoState V).changes.entry j =
        { u.changes.entry j with
          created := (u.changes.entry j).created || (state.changes.entry j).created } := by
    intro u
    have hmem : decide (j ∈ u.newIds ∪ state.newIds) =
        (decide (j ∈ u.newIds) || decide (j ∈ state.newIds)) := by
      rw [Bool.eq_iff_iff]
      simp
    exact congrArg (fun c =>
      (⟨c, u.oldValues.lookup j, u.removedValues.lookup j⟩ : ChangeEntry V)) hmem
  calc (state.merge prev).changes.entry j
      = _ := hremoved _
    _ = _ := congrArg _ (hunion _)
    _ = _ := by rw [hold]; rfl

theorem foldl_frame {f : UndoState V → ℕ × V → UndoState V}
    (hf : ∀ u item, SameStart u (f u item)) (l : List (ℕ × V)) (u : UndoState V) :
    SameStart u (l.foldl f u) := by
  induction l generalizing u with
  | nil => exact ⟨rfl, rfl⟩
  | cons item l ih =>
    rw [foldl_cons, SameStart, (ih _).1, (ih _).2]
    exact hf u item

theorem merge_frame (state prev : UndoState V) : SameStart prev (state.merge prev) := by
  have hremoved := foldl_frame (V := V) (f := UndoState.mergeRemovedValue) fun u obj =>
    onRemove_eq_mergeRemovedValue (u := u) ▸ onRemove_frame.1
  rw [UndoState.merge, SameStart, (hremoved _ _).1, (hremoved _ _).2]
  exact foldl_frame (fun u item => onModify_frame.1) _ _

theorem merge_newIds_subset (state prev : UndoState V) {id : ℕ}
    (h : id ∈ (state.merge prev).newIds) : id ∈ prev.newIds ∨ id ∈ state.newIds := by
  have hentry := congrArg ChangeEntry.created (merge_entry state prev id)
  have hcreated : ((state.merge prev).changes.entry id).created = true := decide_eq_true h
  rw [hcreated] at hentry
  have hflag : ∀ (y : V) (e : ChangeEntry V), (e.mergeUpdated y).created = e.created := by
    intro y e
    unfold mergeUpdated
    split
    · rfl
    · split <;> rfl
  have hflag' : ∀ (y : V) (e : ChangeEntry V), (e.mergeRemoved y).created = true →
      e.created = true := by
    intro y e he
    unfold mergeRemoved at he
    split at he
    · assumption
    · split at he <;> exact he
  unfold ChangeEntry.merge at hentry
  have hor : ((prev.changes.entry id).created || (state.changes.entry id).created) = true := by
    cases hr : (state.changes.entry id).removed <;> cases hu : (state.changes.entry id).updated <;>
      simp only [hr, hu, map_none, map_some, getD_none, getD_some, id_eq] at hentry
    · exact hentry.symm
    · rw [hflag] at hentry
      exact hentry.symm
    · exact hflag' _ _ hentry.symm
    · have := hflag' _ _ hentry.symm
      simpa only [hflag] using this
  rw [Bool.or_eq_true] at hor
  exact hor.imp of_decide_eq_true of_decide_eq_true

/-! ## Undo -/

theorem not_conflicts_iff {id : ℕ} {v : V} :
    ¬ conflicts unique t id v ↔ ∀ j w, j ≠ id → t.lookup j = some w → unique.clash v w = false := by
  constructor
  · intro h j w hj hlook
    by_contra hclash
    exact h ⟨j, mem_keys.mpr (mem_of_lookup hlook), hj, w, hlook, by simpa using hclash⟩
  · rintro h ⟨j, -, hj, w, hlook, hclash⟩
    rw [h j w hj hlook] at hclash
    cases hclash

theorem eraseNewIds_ok {ids : List ℕ} (hnodup : ids.Nodup) (hmem : ∀ id ∈ ids, id ∈ t) :
    ∃ t', eraseNewIds ids t = .ok t' := by
  induction ids generalizing t with
  | nil => exact ⟨t, rfl⟩
  | cons id ids ih =>
    rw [nodup_cons] at hnodup
    rw [eraseNewIds, if_pos (hmem id mem_cons_self)]
    refine ih hnodup.2 fun j hj => ?_
    rw [Finmap.mem_erase]
    exact ⟨by rintro rfl; exact hnodup.1 hj, hmem j (mem_cons_of_mem _ hj)⟩

theorem lookup_of_eraseNewIds {ids : List ℕ} {t' : Table ℕ V} (h : eraseNewIds ids t = .ok t')
    (j : ℕ) : t'.lookup j = if j ∈ ids then none else t.lookup j := by
  fun_induction eraseNewIds with
  | case1 =>
    cases h
    rfl
  | case2 id ids t _ ih =>
    rw [ih h, lookup_erase_ite]
    by_cases hj : j = id <;> simp [hj]
  | case3 => cases h

/-- What a loop that stores `items` into `t` leaves behind. -/
def Stored (items : List (ℕ × V)) (t t' : Table ℕ V) : Prop :=
  (∀ id v, (id, v) ∈ items → t'.lookup id = some v) ∧
    ∀ j, j ∉ items.map fst → t'.lookup j = t.lookup j

theorem stored_nil (t : Table ℕ V) : Stored [] t t := ⟨nofun, fun _ _ => rfl⟩

theorem stored_cons {id : ℕ} {v : V} {items : List (ℕ × V)} {t' : Table ℕ V}
    (hnodup : id ∉ items.map fst) (h : Stored items (t.insert id v) t') :
    Stored ((id, v) :: items) t t' := by
  constructor
  · intro j w hmem
    rcases mem_cons.mp hmem with heq | hmem
    · cases heq
      rw [h.2 _ hnodup, lookup_insert_ite, if_pos rfl]
    · exact h.1 j w hmem
  · intro j hj
    rw [List.map_cons, List.mem_cons, not_or] at hj
    rw [h.2 j hj.2, lookup_insert_ite, if_neg hj.1]

/-- No value to be stored conflicts with a row present at the start or with
another value to be stored. -/
def Compatible (unique : Uniqueness V) (items : List (ℕ × V)) (t : Table ℕ V) : Prop :=
  ∀ id v j w, (id, v) ∈ items → j ≠ id → t.lookup j = some w ∨ (j, w) ∈ items →
    unique.clash v w = false

section Storing

variable {id : ℕ} {v : V} {items : List (ℕ × V)} {t : Table ℕ V}

theorem Compatible.not_conflicts (h : Compatible unique ((id, v) :: items) t) :
    ¬ conflicts unique t id v := by
  rw [not_conflicts_iff]
  intro j w hj hw
  exact h id v j w mem_cons_self hj (.inl hw)

theorem Compatible.tail (h : Compatible unique ((id, v) :: items) t) :
    Compatible unique items (t.insert id v) := by
  intro j w k x hjw hk hkx
  apply h j w k x (mem_cons_of_mem _ hjw) hk
  rcases hkx with hkx | hkx
  · rcases lookup_insert_eq_some.mp hkx with ⟨rfl, rfl⟩ | ⟨-, hkx⟩
    · exact .inr mem_cons_self
    · exact .inl hkx
  · exact .inr (mem_cons_of_mem _ hkx)

theorem restoreOldValues_ok (hmem : ∀ id ∈ items.map fst, id ∈ t)
    (hcompat : Compatible unique items t) : ∃ t', restoreOldValues unique items t = .ok t' := by
  induction items generalizing t with
  | nil => exact ⟨t, rfl⟩
  | cons item items ih =>
    obtain ⟨id, v⟩ := item
    rw [restoreOldValues, if_neg (not_not.mpr (hmem id mem_cons_self)),
      if_neg hcompat.not_conflicts]
    refine ih (fun j hj => ?_) hcompat.tail
    exact mem_insert.mpr (.inr (hmem j (mem_cons_of_mem _ hj)))

variable (hnodup : (items.map fst).Nodup)
include hnodup

theorem reinsertRemovedValues_ok (hmem : ∀ id ∈ items.map fst, id ∉ t)
    (hcompat : Compatible unique items t) :
    ∃ t', reinsertRemovedValues unique items t = .ok t' := by
  induction items generalizing t with
  | nil => exact ⟨t, rfl⟩
  | cons item items ih =>
    obtain ⟨id, v⟩ := item
    rw [List.map_cons, List.nodup_cons] at hnodup
    rw [reinsertRemovedValues, if_neg (not_or.mpr ⟨hmem id mem_cons_self, hcompat.not_conflicts⟩)]
    refine ih hnodup.2 (fun j hj hin => ?_) hcompat.tail
    rcases mem_insert.mp hin with rfl | hin
    · exact hnodup.1 hj
    · exact hmem j (mem_cons_of_mem _ hj) hin

theorem stored_of_restoreOldValues {t' : Table ℕ V} (h : restoreOldValues unique items t = .ok t') :
    Stored items t t' := by
  fun_induction restoreOldValues with
  | case1 =>
    cases h
    exact stored_nil _
  | case2 | case3 => cases h
  | case4 _ _ _ _ _ _ ih =>
    obtain ⟨hid, hnodup⟩ := List.nodup_cons.mp hnodup
    exact stored_cons hid (ih hnodup h)

theorem stored_of_reinsertRemovedValues {t' : Table ℕ V}
    (h : reinsertRemovedValues unique items t = .ok t') : Stored items t t' := by
  fun_induction reinsertRemovedValues with
  | case1 =>
    cases h
    exact stored_nil _
  | case2 => cases h
  | case3 _ _ _ _ _ ih =>
    obtain ⟨hid, hnodup⟩ := List.nodup_cons.mp hnodup
    exact stored_cons hid (ih hnodup h)

omit hnodup

theorem mem_map_fst_orderedRows {t : Table ℕ V} {j : ℕ} :
    j ∈ (orderedRows t).map fst ↔ ∃ v, t.lookup j = some v := by
  rw [List.mem_map]
  constructor
  · rintro ⟨⟨_, v⟩, hmem, rfl⟩
    exact ⟨v, mem_orderedRows.mp hmem⟩
  · rintro ⟨v, hlook⟩
    exact ⟨(j, v), mem_orderedRows.mpr hlook, rfl⟩

/-- A loop over all rows of `source` leaves them over those of `t`. -/
theorem Stored.lookup {source t' : Table ℕ V} (h : Stored (orderedRows source) t t')
    (j : ℕ) : t'.lookup j = (source.lookup j).or (t.lookup j) := by
  cases hj : source.lookup j with
  | some v => exact h.1 j v (mem_orderedRows.mpr hj)
  | none =>
    apply h.2
    rw [mem_map_fst_orderedRows, hj]
    rintro ⟨v, hv⟩
    cases hv

end Storing

theorem mem_ascending_newIds {u : UndoState V} {j : ℕ} :
    j ∈ ascending u.newIds.val ↔ j ∈ u.newIds := by
  rw [← Multiset.mem_coe, coe_ascending, mem_val]

/-- The objects modified in a session can be taken back in the order of their
ids, once those created in it are gone. -/
theorem compatible_oldValues {u : UndoState V} {old : Contents V}
    (h : u.changes.Undoes current.table old.table) (hvalid : old.Valid unique)
    (hany : UndoableInAnyOrder unique old.table current.table)
    (ht : ∀ j, t.lookup j = if j ∈ u.newIds then none else current.table.lookup j) :
    Compatible unique (orderedRows u.oldValues) t := by
  intro id v j w hv hj hw
  rw [mem_orderedRows] at hv hw
  obtain ⟨-, hcurrent, hold⟩ := h.of_updated hv
  have hconsistent : old.table.lookup j = some w → unique.clash v w = false :=
    hvalid.consistent id j v w (Ne.symm hj) hold
  rcases hw with hw | hw
  · -- `j` was not created in the session: its old value is `w` too, or it was modified
    rw [ht] at hw
    split at hw
    · cases hw
    next hnew =>
      rcases h.mark j with ⟨-, -, -, hb⟩ | ⟨hc, -⟩ | ⟨-, -, -, x, -, hb⟩ | ⟨-, -, hc, -⟩
      · exact hconsistent (hb.trans hw)
      · exact absurd hc hnew
      · exact hany id (mem_keys.mpr (mem_of_lookup hold)) j
          (mem_keys.mpr (mem_of_lookup hw)) (Ne.symm hj)
          (mem_keys.mpr hcurrent) (mem_keys.mpr (mem_of_lookup hb)) v hold w hw
      · rw [hc] at hw
        cases hw
  · exact hconsistent (h.of_updated hw).2.2

/-- **One undo.** The three loops succeed and rebuild the snapshot. -/
theorem undo_loops_ok {u : UndoState V} {old : Contents V}
    (h : u.changes.Undoes current.table old.table) (hvalid : old.Valid unique)
    (hany : UndoableInAnyOrder unique old.table current.table) :
    ∃ t₁ t₂, eraseNewIds (ascending u.newIds.val) current.table = .ok t₁ ∧
      restoreOldValues unique (orderedRows u.oldValues) t₁ = .ok t₂ ∧
      reinsertRemovedValues unique (orderedRows u.removedValues) t₂ = .ok old.table := by
  have hids := @mem_ascending_newIds V u
  have hnodup : (ascending u.newIds.val).Nodup := by
    rw [← Multiset.coe_nodup, coe_ascending]
    exact u.newIds.nodup
  obtain ⟨t₁, hok₁⟩ := eraseNewIds_ok hnodup fun id hid => (h.of_created (hids.mp hid)).1
  have hlook₁ := lookup_of_eraseNewIds hok₁
  simp only [hids] at hlook₁
  have hmem₁ : ∀ id ∈ (orderedRows u.oldValues).map fst, id ∈ t₁ := by
    intro id hid
    obtain ⟨v, hv⟩ := mem_map_fst_orderedRows.mp hid
    obtain ⟨hnew, hcurrent, -⟩ := h.of_updated hv
    have hlook := hlook₁ id
    rw [if_neg (show id ∉ u.newIds from hnew)] at hlook
    rw [← lookup_isSome, hlook]
    exact lookup_isSome.mpr hcurrent
  obtain ⟨t₂, hok₂⟩ := restoreOldValues_ok hmem₁ (compatible_oldValues h hvalid hany hlook₁)
  have hstored₂ := stored_of_restoreOldValues (nodup_orderedRows _) hok₂
  -- the snapshot is what is stored now, and the removed objects over it
  have hbefore : ∀ j, old.table.lookup j = (u.removedValues.lookup j).or (t₂.lookup j) := by
    intro j
    rw [hstored₂.lookup, hlook₁]
    exact h.lookup_before j
  have hgone : ∀ j v, u.removedValues.lookup j = some v → t₂.lookup j = none := by
    intro j v hv
    obtain ⟨-, hupdated, hcurrent, -⟩ := h.of_removed hv
    rw [hstored₂.lookup, hlook₁, hcurrent, ite_self, or_none]
    exact hupdated
  have hmem₂ : ∀ id ∈ (orderedRows u.removedValues).map fst, id ∉ t₂ := by
    intro id hid
    obtain ⟨v, hv⟩ := mem_map_fst_orderedRows.mp hid
    exact lookup_eq_none.mp (hgone id v hv)
  have hcompat : Compatible unique (orderedRows u.removedValues) t₂ := by
    intro id v j w hv hj hw
    rw [mem_orderedRows] at hv hw
    apply hvalid.consistent id j v w (Ne.symm hj) (h.of_removed hv).2.2.2
    rcases hw with hw | hw
    · cases hr : u.removedValues.lookup j with
      | none => rw [hbefore, hr, hw, none_or]
      | some x => exact absurd (hw.symm.trans (hgone j x hr)) (by simp)
    · exact (h.of_removed hw).2.2.2
  obtain ⟨t₃, hok₃⟩ := reinsertRemovedValues_ok (nodup_orderedRows _) hmem₂ hcompat
  have heq : t₃ = old.table := by
    apply ext_lookup
    intro j
    rw [(stored_of_reinsertRemovedValues (nodup_orderedRows _) hok₃).lookup, hbefore]
  exact ⟨t₁, t₂, hok₁, hok₂, by rw [hok₃, heq]⟩

/-! ## One operation -/

section Step

variable {s : GenericIndex V} {m : SnapshotIndex V} {current current' : Contents V}

theorem Contents.Valid.insert {id nextId : ℕ} {v : V} (h : current.Valid unique)
    (hnext : current.nextId ≤ nextId) (hid : id < nextId)
    (hfree : ¬ conflicts unique current.table id v) :
    Contents.Valid unique ⟨current.table.insert id v, nextId⟩ := by
  rw [not_conflicts_iff] at hfree
  constructor
  · intro j hj
    rcases mem_insert.mp hj with rfl | hj
    · exact hid
    · exact Nat.lt_of_lt_of_le (h.id_lt j hj) hnext
  · intro i j a b hij ha hb
    rcases lookup_insert_eq_some.mp ha with ⟨rfl, rfl⟩ | ⟨hi, ha'⟩ <;>
      rcases lookup_insert_eq_some.mp hb with ⟨rfl, rfl⟩ | ⟨hj, hb'⟩
    · exact absurd rfl hij
    · exact hfree j b hj hb'
    · rw [unique.symm]
      exact hfree i a hi ha'
    · exact h.consistent i j a b hij ha' hb'

theorem Contents.Valid.remove {id : ℕ} (h : current.Valid unique) :
    (current.remove id).Valid unique := by
  constructor
  · intro j hj
    exact h.id_lt j (mem_erase.mp hj).2
  · intro i j a b hij ha hb
    exact h.consistent i j a b hij (lookup_erase_eq_some.mp ha).2 (lookup_erase_eq_some.mp hb).2

variable {saved : List (Contents V × ℤ)}

/-- A change of the current contents that the newest undo state records. -/
theorem StackRel.onHead {f : UndoState V → UndoState V}
    (h : StackRel unique current s.stack saved) (hvalid : current'.Valid unique)
    (hle : current.nextId ≤ current'.nextId) (hframe : ∀ u, SameStart u (f u))
    (hnew : ∀ u id, id ∈ (f u).newIds → id ∈ u.newIds ∨ id = current.nextId)
    (hundoes : ∀ u (old : Contents V), old.Valid unique → old.nextId ≤ current.nextId →
      u.changes.Undoes current.table old.table → (f u).changes.Undoes current'.table old.table) :
    StackRel unique current' (s.onHead f) saved := by
  unfold GenericIndex.onHead
  generalize s.stack = stack at h ⊢
  cases h with
  | nil => exact .nil hvalid
  | @cons _ old u us saved _ hund hnext hle' hnew' hrest =>
    obtain ⟨hf, hrev⟩ := hframe u
    rw [← hrev]
    refine .cons hvalid (hundoes u old hrest.valid hle' hund) (hf.trans hnext)
      (Nat.le_trans hle' hle) ?_ hrest
    intro id hid
    rcases hnew u id hid with hid | rfl
    · exact hnew' id hid
    · exact hle'

variable (h : Refines unique s m)
include h

theorem Refines.emplace (v : V) :
    ∃ s', s.apply unique (.emplace v) = .ok s' ∧
      Refines unique s' (m.apply unique (.emplace v)) := by
  have hvalid := h.stack.valid
  have hfresh : m.current.nextId ∉ m.current.table := fun hmem =>
    Nat.lt_irrefl _ (hvalid.id_lt _ hmem)
  simp only [GenericIndex.apply, GenericIndex.emplace, SnapshotIndex.apply,
    SnapshotStack.update, Contents.emplace, h.indices, h.nextId]
  by_cases hconf : conflicts unique m.current.table m.current.nextId v
  · rw [if_pos (.inr hconf), if_pos hconf]
    exact ⟨s, rfl, h⟩
  · rw [if_neg (not_or.mpr ⟨hfresh, hconf⟩), if_neg hconf]
    refine ⟨_, rfl, rfl, rfl, h.revision, ?_⟩
    apply h.stack.onHead (hvalid.insert (Nat.le_succ _) (Nat.lt_succ_self _) hconf)
      (Nat.le_succ _)
    · exact fun u => ⟨rfl, rfl⟩
    · intro u id hid
      exact (mem_insert.mp hid).symm
    · intro u old hold hle hund
      apply hund.create v (lookup_eq_none.mpr hfresh)
      rw [lookup_eq_none]
      intro hmem
      have := hold.id_lt _ hmem
      omega

theorem Refines.modify {id : ℕ} {f : V → V} (hpre : Precondition unique m (.modify id f)) :
    ∃ s', s.apply unique (.modify id f) = .ok s' ∧
      Refines unique s' (m.apply unique (.modify id f)) := by
  have hvalid := h.stack.valid
  obtain ⟨v, hlook, hfree⟩ := hpre
  simp only [GenericIndex.apply, GenericIndex.modify, SnapshotIndex.apply,
    SnapshotStack.update, Contents.modify, h.indices, hlook]
  rw [if_neg hfree]
  refine ⟨_, rfl, rfl, h.nextId, h.revision, ?_⟩
  apply h.stack.onHead
    (hvalid.insert (Nat.le_refl _) (hvalid.id_lt id (mem_of_lookup hlook)) hfree) (Nat.le_refl _)
  · exact fun u => onModify_frame.1
  · intro u j hj
    rw [onModify_frame.2.1] at hj
    exact .inl hj
  · intro u old _ _ hund
    exact hund.update (f v) hlook onModify_entry

theorem Refines.remove {id : ℕ} (hpre : Precondition unique m (.remove id)) :
    ∃ s', s.apply unique (.remove id) = .ok s' ∧
      Refines unique s' (m.apply unique (.remove id)) := by
  obtain ⟨v, hlook⟩ := mem_iff.mp hpre
  simp only [GenericIndex.apply, GenericIndex.remove, SnapshotIndex.apply,
    SnapshotStack.update, Contents.remove, h.indices, hlook]
  refine ⟨_, rfl, rfl, h.nextId, h.revision, ?_⟩
  apply h.stack.onHead h.stack.valid.remove (Nat.le_refl _)
  · exact fun u => onRemove_frame.1
  · intro u j hj
    exact .inl (onRemove_frame.2 hj)
  · intro u old _ _ hund
    exact hund.remove hlook onRemove_entry

theorem Refines.startUndoSession (enabled : Bool) :
    Refines unique (s.startUndoSession enabled) (m.apply unique (.startUndoSession enabled)) := by
  unfold GenericIndex.startUndoSession
  simp only [SnapshotIndex.apply]
  cases enabled with
  | false => exact h
  | true =>
    refine ⟨h.indices, h.nextId, congrArg (· + 1) h.revision, ?_⟩
    rw [if_pos rfl, if_pos rfl, h.nextId, h.revision]
    exact .cons (u := { oldNextId := m.current.nextId, revision := m.revision + 1 })
      h.stack.valid (undoes_empty _) rfl (Nat.le_refl _)
      (fun _ hid => absurd hid (notMem_empty _)) h.stack

theorem Refines.squash : Refines unique s.squash (m.apply unique .squash) := by
  obtain ⟨current, revision, saved⟩ := m
  obtain ⟨hind, hnextId, hrev, hstack⟩ := h
  unfold squash
  simp only [SnapshotIndex.apply, SnapshotStack.squash] at hind hnextId hrev hstack ⊢
  generalize hs : s.stack = stack at hstack
  cases hstack with
  | nil hvalid => exact ⟨hind, hnextId, hrev, by rw [hs]; exact .nil hvalid⟩
  | @cons _ mid state us saved hvalid hund hnext hle hnew hrest =>
    have hrev' : s.revision - 1 = revision - 1 := by rw [hrev]
    cases hrest with
    | nil => exact ⟨hind, hnextId, hrev', .nil hvalid⟩
    | @cons _ old prev us saved hvalid' hund' hnext' hle' hnew' hrest' =>
      obtain ⟨hframe, hrevision⟩ := merge_frame state prev
      refine ⟨hind, hnextId, hrev', ?_⟩
      rw [← hrevision]
      refine .cons hvalid ?_ (hframe.trans hnext') (Nat.le_trans hle' hle) ?_ hrest'
      · apply hund'.merge hund ?_ (merge_entry state prev)
        -- an id removed in the earlier session is below those created in the later one
        intro id hid
        by_contra hsome
        obtain ⟨x, hx⟩ := ne_none_iff_exists'.mp hsome
        have hlt := hrest'.valid.id_lt id
          (mem_of_lookup (hund'.of_removed hx).2.2.2)
        have := hnew id hid
        omega
      · intro id hid
        rcases merge_newIds_subset state prev hid with hid | hid
        · exact hnew' id hid
        · have := hnew id hid
          omega

theorem Refines.undo (hpre : AllUndoable unique m.current (m.saved.take 1)) :
    ∃ s', s.undo unique = .ok s' ∧ Refines unique s' m.undo := by
  obtain ⟨current, revision, saved⟩ := m
  obtain ⟨hind, hnextId, hrev, hstack⟩ := h
  unfold undo
  simp only [SnapshotStack.undo] at hind hnextId hrev hstack hpre ⊢
  generalize hs : s.stack = stack at hstack
  cases hstack with
  | nil hvalid => exact ⟨s, rfl, hind, hnextId, hrev, by rw [hs]; exact .nil hvalid⟩
  | @cons _ old u us saved hvalid hund hnext hle hnew hrest =>
    obtain ⟨t₁, t₂, hok₁, hok₂, hok₃⟩ := undo_loops_ok hund hrest.valid hpre.1
    refine ⟨⟨old.table, u.oldNextId, s.revision - 1, us⟩, ?_, rfl, hnext, by rw [hrev], hrest⟩
    simp [hind, hok₁, hok₂, hok₃]

omit h

theorem StackRel.length_eq {us : List (UndoState V)} (h : StackRel unique current us saved) :
    us.length = saved.length := by
  induction h with
  | nil => rfl
  | cons _ _ _ _ _ _ ih => simp [ih]

theorem StackRel.rdropWhile {us : List (UndoState V)} (h : StackRel unique current us saved)
    (revision : ℤ) :
    StackRel unique current (us.rdropWhile fun u => u.revision ≤ revision)
      (saved.rdropWhile fun snapshot => snapshot.2 ≤ revision) := by
  induction h with
  | nil hvalid => exact .nil hvalid
  | @cons current old u us saved hvalid hund hnext hle hnew hrest ih =>
    simp only [rdropWhile_cons]
    have hlength := ih.length_eq
    by_cases hempty : us.rdropWhile (fun u => u.revision ≤ revision) = []
    · have hempty' : saved.rdropWhile (fun snapshot => snapshot.2 ≤ revision) = [] := by
        rw [← length_eq_zero_iff, ← hlength, hempty]
        rfl
      rw [if_pos hempty, if_pos hempty']
      rw [hempty, hempty'] at ih
      by_cases hdrop : u.revision ≤ revision
      · simp only [hdrop, decide_true, if_true]
        exact .nil hvalid
      · simp only [hdrop, decide_false, Bool.false_eq_true, if_false]
        exact .cons hvalid hund hnext hle hnew ih
    · have hempty' : saved.rdropWhile (fun snapshot => snapshot.2 ≤ revision) ≠ [] := by
        rw [← length_pos_iff, ← hlength, length_pos_iff]
        exact hempty
      rw [if_neg hempty, if_neg hempty']
      exact .cons hvalid hund hnext hle hnew ih

include h

theorem Refines.undoRounds {n : ℕ} (hpre : AllUndoable unique m.current m.saved)
    (hn : n = m.saved.length) :
    ∃ s', undoRounds unique n s = .ok s' ∧ Refines unique s' (SnapshotStack.undo^[n] m) := by
  induction n generalizing s m with
  | zero => exact ⟨s, rfl, h⟩
  | succ n ih =>
    obtain ⟨current, revision, saved⟩ := m
    cases saved with
    | nil => cases hn
    | cons snapshot rest =>
      obtain ⟨old, r⟩ := snapshot
      obtain ⟨s', hok, href⟩ := h.undo ⟨hpre.1, trivial⟩
      obtain ⟨s'', hok', href'⟩ := ih href hpre.2 (Nat.succ.inj hn)
      refine ⟨s'', ?_, href'⟩
      simp only [undoRounds, hok, ok_bind]
      exact hok'

/-- **One operation.** The container returns normally and still stands for the
specification. -/
theorem Refines.apply (op : IndexOp V) (hpre : Precondition unique m op) :
    ∃ s', s.apply unique op = .ok s' ∧ Refines unique s' (m.apply unique op) := by
  cases op with
  | emplace v => exact h.emplace v
  | modify id f => exact h.modify hpre
  | remove id => exact h.remove hpre
  | startUndoSession enabled => exact ⟨_, rfl, h.startUndoSession enabled⟩
  | squash => exact ⟨_, rfl, h.squash⟩
  | undo => exact h.undo hpre
  | commit revision =>
    exact ⟨_, rfl, h.indices, h.nextId, h.revision, h.stack.rdropWhile revision⟩
  | undoAll =>
    have hrounds := h.undoRounds hpre h.stack.length_eq
    simpa only [GenericIndex.apply, GenericIndex.undoAll, SnapshotIndex.apply,
      SnapshotStack.undoAll, h.stack.length_eq] using hrounds

theorem Refines.run {ops : List (IndexOp V)} (hpre : Admissible unique m ops) :
    ∃ s', s.run unique ops = .ok s' ∧ Refines unique s' (m.run unique ops) := by
  induction ops generalizing s m with
  | nil => exact ⟨s, rfl, h⟩
  | cons op ops ih =>
    obtain ⟨s', hok, href⟩ := h.apply op hpre.1
    obtain ⟨s'', hok', href'⟩ := ih href hpre.2
    refine ⟨s'', ?_, href'⟩
    simp only [run, hok, ok_bind]
    exact hok'

end Step

theorem refines_initial {c : Contents V} (hvalid : c.Valid unique) (revision : ℤ) :
    Refines unique ⟨c.table, c.nextId, revision, []⟩ ⟨c, revision, []⟩ :=
  ⟨rfl, rfl, rfl, .nil hvalid⟩

/-- **The undo stack refines full snapshots.** From any contents without undo history, every
sequence of operations that respects the preconditions runs without aborting, and ends with the
table, the next id and the revision of the snapshot machine. -/
theorem generic_index_refines_snapshots (unique : Uniqueness V) (c : Contents V)
    (hvalid : c.Valid unique) (revision : ℤ) (ops : List (IndexOp V))
    (hpre : Admissible unique ⟨c, revision, []⟩ ops) :
    ∃ s, run unique ⟨c.table, c.nextId, revision, []⟩ ops = .ok s ∧
      s.indices = (SnapshotIndex.run unique ⟨c, revision, []⟩ ops).current.table ∧
      s.nextId = (SnapshotIndex.run unique ⟨c, revision, []⟩ ops).current.nextId ∧
      s.revision = (SnapshotIndex.run unique ⟨c, revision, []⟩ ops).revision := by
  obtain ⟨s, hok, href⟩ := (refines_initial hvalid revision).run hpre
  exact ⟨s, hok, href.indices, href.nextId, href.revision⟩

def distinctNumbers : Uniqueness ℕ where
  clash a b := a == b
  symm _ _ := BEq.comm

/-- Two nested sessions that create, modify and remove, squashed and undone. -/
def nestedSessions : List (IndexOp ℕ) :=
  [.emplace 5, .emplace 6, .startUndoSession true, .modify 0 (· + 10), .emplace 7,
    .startUndoSession true, .remove 1, .modify 2 (· + 1), .emplace 15, .squash, .undo]

theorem generic_index_refines_snapshots_nestedSessions :
    ∃ s, run distinctNumbers {} nestedSessions = .ok s ∧
      s.indices.lookup 0 = some 5 ∧ s.indices.lookup 1 = some 6 ∧ s.nextId = 2 ∧
      s.revision = 0 := by
  have hvalid : Contents.Valid distinctNumbers {} :=
    ⟨fun id hid => absurd hid notMem_empty,
      fun i j a b _ ha => by rw [lookup_empty] at ha; cases ha⟩
  have hpre : Admissible distinctNumbers ⟨{}, 0, []⟩ nestedSessions := by
    refine ⟨trivial, trivial, trivial, ⟨5, by decide, by decide⟩, trivial, trivial,
      lookup_isSome.mp (by decide), ⟨7, by decide, by decide⟩, trivial, trivial,
      ⟨by decide, trivial⟩, trivial⟩
  obtain ⟨s, hok, hind, hnext, hrev⟩ :=
    generic_index_refines_snapshots distinctNumbers {} hvalid 0 nestedSessions hpre
  refine ⟨s, hok, ?_, ?_, ?_, ?_⟩
  · rw [hind]
    decide
  · rw [hind]
    decide
  · rw [hnext]
    decide
  · rw [hrev]
    decide

end Inery.Chainbase
