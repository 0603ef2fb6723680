import Inery.Foundation.ChangeSet
import Inery.Foundation.Outcome
import Mathlib.Data.List.DropRight

/-!
# `chainbase::generic_index`

A table of objects under consecutive ids with a stack of undo states.  The
multi-index container is a finite table together with the relation "these two
objects violate a unique index"; the functions that construct and modify
objects are arbitrary.
-/

namespace Inery.Chainbase

open Foundation Table

/-- The unique indices of a container, besides the one on ids: which pairs of
objects may not be stored together. -/
structure Uniqueness (V : Type) where
  clash : V → V → Bool
  symm : ∀ a b, clash a b = clash b a

inductive Fault where
  /-- The `std::logic_error` of `emplace`. -/
  | logicError
  /-- `std::abort` on a uniqueness violation. -/
  | abort
  /-- A reference to an object that is not stored. -/
  | danglingReference
deriving DecidableEq, Repr

structure UndoState (V : Type) where
  oldValues : Table ℕ V := ∅
  removedValues : Table ℕ V := ∅
  newIds : Finset ℕ := ∅
  oldNextId : ℕ := 0
  revision : ℤ := 0

/-- `generic_index`; `stack` has the back of the deque in front. -/
structure GenericIndex (V : Type) where
  indices : Table ℕ V := ∅
  nextId : ℕ := 0
  revision : ℤ := 0
  stack : List (UndoState V) := []

variable {V : Type} (unique : Uniqueness V)

/-- Whether storing `v` under `id` would violate a unique index. -/
def conflicts (t : Table ℕ V) (id : ℕ) (v : V) : Prop :=
  ∃ j ∈ t.keys, j ≠ id ∧ ∃ w ∈ t.lookup j, unique.clash v w

instance (unique : Uniqueness V) (t : Table ℕ V) (id : ℕ) (v : V) :
    Decidable (conflicts unique t id v) :=
  inferInstanceAs (Decidable (∃ j ∈ t.keys, j ≠ id ∧ ∃ w ∈ t.lookup j, unique.clash v w))

/-- `emplace` of an ordered map: keeps an existing entry. -/
def emplaceEntry (t : Table ℕ V) (id : ℕ) (v : V) : Table ℕ V :=
  if id ∈ t then t else t.insert id v

namespace UndoState

def onCreate (head : UndoState V) (id : ℕ) : UndoState V :=
  { head with newIds := insert id head.newIds }

/-- `on_modify`, with the value before the modification. -/
def onModify (head : UndoState V) (id : ℕ) (v : V) : UndoState V :=
  if id ∈ head.newIds then head
  else if id ∈ head.oldValues then head
  else { head with oldValues := emplaceEntry head.oldValues id v }

def onRemove (head : UndoState V) (id : ℕ) (v : V) : UndoState V :=
  if id ∈ head.newIds then { head with newIds := head.newIds.erase id }
  else match head.oldValues.lookup id with
    | some old =>
      { head with
        removedValues := emplaceEntry head.removedValues id old
        oldValues := head.oldValues.erase id }
    | none =>
      if id ∈ head.removedValues then head
      else { head with removedValues := emplaceEntry head.removedValues id v }

/-- The body of the loop of `squash` over `state.old_values`. -/
def mergeOldValue (prev : UndoState V) (item : ℕ × V) : UndoState V :=
  if item.1 ∈ prev.newIds then prev
  else if item.1 ∈ prev.oldValues then prev
  else { prev with oldValues := emplaceEntry prev.oldValues item.1 item.2 }

/-- The body of the loop of `squash` over `state.removed_values`. -/
def mergeRemovedValue (prev : UndoState V) (obj : ℕ × V) : UndoState V :=
  if obj.1 ∈ prev.newIds then { prev with newIds := prev.newIds.erase obj.1 }
  else match prev.oldValues.lookup obj.1 with
    | some old =>
      { prev with
        removedValues := emplaceEntry prev.removedValues obj.1 old
        oldValues := prev.oldValues.erase obj.1 }
    | none => { prev with removedValues := emplaceEntry prev.removedValues obj.1 obj.2 }

/-- The three loops of `squash`: `prev` becomes the composition of both. -/
def merge (state prev : UndoState V) : UndoState V :=
  let prev := (orderedRows state.oldValues).foldl mergeOldValue prev
  let prev := { prev with newIds := prev.newIds ∪ state.newIds }
  (orderedRows state.removedValues).foldl mergeRemovedValue prev

end UndoState

/-! ## The loops of `undo` -/

def eraseNewIds : List ℕ → Table ℕ V → Except Fault (Table ℕ V)
  | [], t => .ok t
  | id :: ids, t =>
    if id ∈ t then eraseNewIds ids (t.erase id) else .error .danglingReference

def restoreOldValues : List (ℕ × V) → Table ℕ V → Except Fault (Table ℕ V)
  | [], t => .ok t
  | (id, v) :: items, t =>
    if id ∉ t then .error .danglingReference
    else if conflicts unique t id v then .error .abort
    else restoreOldValues items (t.insert id v)

def reinsertRemovedValues : List (ℕ × V) → Table ℕ V → Except Fault (Table ℕ V)
  | [], t => .ok t
  | (id, v) :: items, t =>
    if id ∈ t ∨ conflicts unique t id v then .error .abort
    else reinsertRemovedValues items (t.insert id v)

namespace GenericIndex

variable (s : GenericIndex V)

/-- Change the back of the stack, if undo is enabled. -/
def onHead (f : UndoState V → UndoState V) : List (UndoState V) :=
  match s.stack with
  | [] => []
  | head :: rest => f head :: rest

def emplace (v : V) : Except Fault (GenericIndex V) :=
  if s.nextId ∈ s.indices ∨ conflicts unique s.indices s.nextId v then .error .logicError
  else .ok
    { s with
      indices := s.indices.insert s.nextId v
      nextId := s.nextId + 1
      stack := s.onHead fun head => head.onCreate s.nextId }

def modify (id : ℕ) (m : V → V) : Except Fault (GenericIndex V) :=
  match s.indices.lookup id with
  | none => .error .danglingReference
  | some v =>
    if conflicts unique s.indices id (m v) then .error .abort
    else .ok
      { s with
        indices := s.indices.insert id (m v)
        stack := s.onHead fun head => head.onModify id v }

def remove (id : ℕ) : Except Fault (GenericIndex V) :=
  match s.indices.lookup id with
  | none => .error .danglingReference
  | some v => .ok
      { s with
        indices := s.indices.erase id
        stack := s.onHead fun head => head.onRemove id v }

def startUndoSession (enabled : Bool) : GenericIndex V :=
  if enabled then
    { s with
      revision := s.revision + 1
      stack := { oldNextId := s.nextId, revision := s.revision + 1 } :: s.stack }
  else s

def undo : Except Fault (GenericIndex V) :=
  match s.stack with
  | [] => .ok s
  | head :: rest => do
      let t ← eraseNewIds (ascending head.newIds.val) s.indices
      let t ← restoreOldValues unique (orderedRows head.oldValues) t
      let t ← reinsertRemovedValues unique (orderedRows head.removedValues) t
      pure ⟨t, head.oldNextId, s.revision - 1, rest⟩

def squash : GenericIndex V :=
  match s.stack with
  | [] => s
  | [_] => { s with revision := s.revision - 1, stack := [] }
  | state :: prev :: rest =>
    { s with revision := s.revision - 1, stack := state.merge prev :: rest }

def commit (revision : ℤ) : GenericIndex V :=
  { s with stack := s.stack.rdropWhile fun state => state.revision ≤ revision }

def undoRounds : ℕ → GenericIndex V → Except Fault (GenericIndex V)
  | 0, s => .ok s
  | n + 1, s => do
      let s ← s.undo unique
      undoRounds n s

/-- `undo_all`: each round takes one state off the stack. -/
def undoAll : Except Fault (GenericIndex V) := undoRounds unique s.stack.length s

end GenericIndex

/-! ## Sequences of operations -/

inductive IndexOp (V : Type) where
  | emplace (v : V)
  | modify (id : ℕ) (m : V → V)
  | remove (id : ℕ)
  | startUndoSession (enabled : Bool)
  | squash
  | undo
  | commit (revision : ℤ)
  | undoAll

/-- One operation.  A thrown `logic_error` leaves the container as it was. -/
def GenericIndex.apply (s : GenericIndex V) : IndexOp V → Except Fault (GenericIndex V)
  | .emplace v =>
    match s.emplace unique v with
    | .error .logicError => .ok s
    | r => r
  | .modify id m => s.modify unique id m
  | .remove id => s.remove id
  | .startUndoSession enabled => .ok (s.startUndoSession enabled)
  | .squash => .ok s.squash
  | .undo => s.undo unique
  | .commit revision => .ok (s.commit revision)
  | .undoAll => s.undoAll unique

def GenericIndex.run (s : GenericIndex V) : List (IndexOp V) → Except Fault (GenericIndex V)
  | [] => .ok s
  | op :: ops => do
      let s ← s.apply unique op
      s.run ops

end Inery.Chainbase
