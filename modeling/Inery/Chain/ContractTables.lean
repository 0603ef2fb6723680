import Inery.Chain.Types
import Inery.Foundation.Format
import Inery.Foundation.OrderedTable

/-!
# Contract tables and their primary index (`apply_context.cpp`, `apply_context.hpp`)

Contracts keep rows in tables, each under a code, a scope and a table name.  The rows of all tables
are in one index, ordered by the id of the table and the primary key.  A table object is created
with the first row and removed with the last one.

A contract holds the `int` handles of an `iterator_cache`: from 0 on for rows, below -1 for the ends
of tables, and -1 for nothing.  The cache keeps pointers, each modelled by the key and the id of its
object; ids are not used twice, so following a pointer whose id is gone is undefined.  What an
operation charges for memory goes through `update_db_usage`, which is a parameter.
-/

namespace Inery.Chain

open Foundation

/-! ## Objects -/

structure TableKey where
  code : Name
  scope : Name
  table : Name
deriving DecidableEq, Repr

structure TableIdObject where
  id : ℕ
  payer : Name
  /-- The number of rows, a `uint32_t`. -/
  count : ℕ := 0
deriving DecidableEq, Repr

/-- The key of `by_scope_primary`: `t_id` and `primary_key`. -/
abbrev RowKey := ℕ ×ₗ ℕ

structure KeyValueObject where
  id : ℕ
  payer : Name
  value : Bytes
deriving DecidableEq, Repr

structure ContractTables where
  tableIds : Table TableKey TableIdObject := ∅
  nextTableId : ℕ := 0
  keyValues : Table RowKey KeyValueObject := ∅
  nextKeyValueId : ℕ := 0

structure TablePointer where
  key : TableKey
  id : ℕ
deriving DecidableEq, Repr

structure RowPointer where
  key : RowKey
  id : ℕ
deriving DecidableEq

/-! ## `iterator_cache` -/

structure IteratorCache where
  /-- By table id: the table and its end iterator. -/
  tableCache : Table ℕ (TablePointer × ℤ) := ∅
  endIteratorToTable : List TablePointer := []
  iteratorToObject : List (Option RowPointer) := []
  objectToIterator : Table ℕ ℤ := ∅

namespace IteratorCache

def endIteratorToIndex (ei : ℤ) : ℕ := (-ei - 2).toNat

def indexToEndIterator (indx : ℕ) : ℤ := -((indx : ℤ) + 2)

variable (c : IteratorCache)

def cacheTable (tobj : TablePointer) : ℤ × IteratorCache :=
  match c.tableCache.lookup tobj.id with
  | some (_, ei) => (ei, c)
  | none =>
    let ei := indexToEndIterator c.endIteratorToTable.length
    (ei, { c with
      endIteratorToTable := c.endIteratorToTable ++ [tobj]
      tableCache := c.tableCache.insert tobj.id (tobj, ei) })

def getTable (i : ℕ) : Result TablePointer :=
  match c.tableCache.lookup i with
  | some (tobj, _) => .ok tobj
  | none => .error ⟨.tableNotInCache, "an invariant was broken, table should be in cache"⟩

def getEndIteratorByTableId (i : ℕ) : Result ℤ :=
  match c.tableCache.lookup i with
  | some (_, ei) => .ok ei
  | none => .error ⟨.tableNotInCache, "an invariant was broken, table should be in cache"⟩

def findTableByEndIterator (ei : ℤ) : Result (Option TablePointer) := do
  ineAssert (ei < -1) .invalidTableIterator "not an end iterator"
  pure (c.endIteratorToTable[endIteratorToIndex ei]?)

def get (iterator : ℤ) : Result RowPointer := do
  ineAssert (iterator ≠ -1) .invalidTableIterator "invalid iterator"
  ineAssert (0 ≤ iterator) .tableOperationNotPermitted "dereference of end iterator"
  match c.iteratorToObject[iterator.toNat]? with
  | none => .error ⟨.invalidTableIterator, "iterator out of range"⟩
  | some none => .error ⟨.tableOperationNotPermitted, "dereference of deleted object"⟩
  | some (some result) => pure result

def remove (iterator : ℤ) : Result IteratorCache := do
  ineAssert (iterator ≠ -1) .invalidTableIterator "invalid iterator"
  ineAssert (0 ≤ iterator) .tableOperationNotPermitted "cannot call remove on end iterators"
  match c.iteratorToObject[iterator.toNat]? with
  | none => .error ⟨.invalidTableIterator, "iterator out of range"⟩
  | some none => pure c
  | some (some objPtr) =>
    pure { c with
      iteratorToObject := c.iteratorToObject.set iterator.toNat none
      objectToIterator := c.objectToIterator.erase objPtr.id }

def add (obj : RowPointer) : ℤ × IteratorCache :=
  match c.objectToIterator.lookup obj.id with
  | some iterator => (iterator, c)
  | none =>
    let iterator : ℤ := c.iteratorToObject.length
    (iterator, { c with
      iteratorToObject := c.iteratorToObject ++ [some obj]
      objectToIterator := c.objectToIterator.insert obj.id iterator })

end IteratorCache

/-! ## The state of an action -/

structure DbState (σ : Type) where
  tables : ContractTables := {}
  keyvalCache : IteratorCache := {}
  /-- What `update_db_usage` works on. -/
  usage : σ

/-- `update_db_usage`, in the context of a receiver: the payer and the change. -/
abbrev UpdateDbUsage (σ : Type) := Name → Name → ℤ → σ → Result σ

namespace Config

def billableTableId : ℤ := 112

def billableKeyValue : ℤ := 112

end Config

open Config

namespace DbState

variable {σ : Type} (updateDbUsage : UpdateDbUsage σ) (s : DbState σ)

abbrev removedTable : ChainException := ⟨.undefinedBehaviour, "use of a removed table_id_object"⟩

def derefTable (p : TablePointer) : Result TableIdObject :=
  match s.tables.tableIds.lookup p.key with
  | some obj => if obj.id = p.id then pure obj else .error removedTable
  | none => .error removedTable

def derefRow (p : RowPointer) : Result KeyValueObject :=
  match s.tables.keyValues.lookup p.key with
  | some obj =>
    if obj.id = p.id then pure obj
    else .error ⟨.undefinedBehaviour, "use of a removed key_value_object"⟩
  | none => .error ⟨.undefinedBehaviour, "use of a removed key_value_object"⟩

variable (iterator : ℤ)

/-- `keyval_cache.get`, and the object it returns. -/
def getObject : Result (RowPointer × KeyValueObject) := do
  let p ← s.keyvalCache.get iterator
  let obj ← s.derefRow p
  pure (p, obj)

def cacheTable (p : TablePointer) : ℤ × DbState σ :=
  ((s.keyvalCache.cacheTable p).1, { s with keyvalCache := (s.keyvalCache.cacheTable p).2 })

def addObject (p : RowPointer) : ℤ × DbState σ :=
  ((s.keyvalCache.add p).1, { s with keyvalCache := (s.keyvalCache.add p).2 })

/-- `keyval_cache.add( *itr )` for the row at a position of the index. -/
def addAt (key : RowKey) : Result (ℤ × DbState σ) :=
  match s.tables.keyValues.lookup key with
  | some obj => pure (s.addObject ⟨key, obj.id⟩)
  | none => .error ⟨.undefinedBehaviour, "dereference of an end position"⟩

/-- `update_db_usage`. -/
def charge (receiver payer : Name) (delta : ℤ) : Result (DbState σ) := do
  let usage ← updateDbUsage receiver payer delta s.usage
  pure { s with usage := usage }

variable (key : TableKey)

/-- `db.create<table_id_object>`. -/
def createTable (payer : Name) : TableIdObject × DbState σ :=
  let obj : TableIdObject := { id := s.tables.nextTableId, payer }
  (obj, { s with tables := { s.tables with
    tableIds := s.tables.tableIds.insert key obj
    nextTableId := s.tables.nextTableId + 1 } })

/-- `db.modify` of the count of a table. -/
def setCount (obj : TableIdObject) (count : ℕ) : DbState σ :=
  { s with tables := { s.tables with
    tableIds := s.tables.tableIds.insert key { obj with count := u32 count } } }

def eraseTable : DbState σ :=
  { s with tables := { s.tables with tableIds := s.tables.tableIds.erase key } }

/-- `db.create<key_value_object>`: a second row under one key violates the unique index. -/
def createRow (key : RowKey) (payer : Name) (value : Bytes) :
    Result (KeyValueObject × DbState σ) := do
  if s.tables.keyValues.lookup key ≠ none then
    .error ⟨.stdLogicError,
      "could not insert object, most likely a uniqueness constraint was violated"⟩
  else
    let obj : KeyValueObject := { id := s.tables.nextKeyValueId, payer, value }
    pure (obj, { s with tables := { s.tables with
      keyValues := s.tables.keyValues.insert key obj
      nextKeyValueId := s.tables.nextKeyValueId + 1 } })

/-- `db.modify` of a row. -/
def setRow (key : RowKey) (obj : KeyValueObject) : DbState σ :=
  { s with tables := { s.tables with keyValues := s.tables.keyValues.insert key obj } }

def eraseRow (key : RowKey) : DbState σ :=
  { s with tables := { s.tables with keyValues := s.tables.keyValues.erase key } }

/-! ## Tables -/

def findTable : Option TablePointer := (s.tables.tableIds.lookup key).map fun obj => ⟨key, obj.id⟩

variable (receiver : Name)

def findOrCreateTable (key : TableKey) (payer : Name) : Result (TableIdObject × DbState σ) :=
  match s.tables.tableIds.lookup key with
  | some existing => pure (existing, s)
  | none => do
      let s ← s.charge updateDbUsage receiver payer billableTableId
      pure (s.createTable key payer)

def removeTable (key : TableKey) (tid : TableIdObject) : Result (DbState σ) := do
  let s ← s.charge updateDbUsage receiver tid.payer (-billableTableId)
  pure (s.eraseTable key)

/-- The end of `db_remove_i64` and of `remove` of a secondary index. -/
def removeRow (key : TableKey) (p : RowPointer) (tid : TableIdObject) (iterator : ℤ) :
    Result (DbState σ) := do
  -- `--t.count` of an unsigned 32-bit count
  let count := u32 (tid.count + (2 ^ 32 - 1))
  let s := (s.setCount key tid count).eraseRow p.key
  let s ← if count = 0 then s.removeTable updateDbUsage receiver key tid else pure s
  let keyvalCache ← s.keyvalCache.remove iterator
  pure { s with keyvalCache }

/-! ## The calls -/

/-- The check of both ways to store. -/
def requirePayer (payer : Name) : Result Unit :=
  ineAssert (payer ≠ 0) .invalidTablePayer "must specify a valid account to pay for new record"

def dbStoreI64 (receiver scope table payer : Name) (id : ℕ) (buffer : Bytes) :
    Result (ℤ × DbState σ) := do
  let key : TableKey := ⟨receiver, scope, table⟩
  let (tab, s) ← s.findOrCreateTable updateDbUsage receiver key payer
  requirePayer payer
  let (obj, s) ← s.createRow (toLex (tab.id, id)) payer buffer
  let s := s.setCount key tab (tab.count + 1)
  let s ← s.charge updateDbUsage receiver payer (buffer.length + billableKeyValue)
  let (_, s) := s.cacheTable ⟨key, tab.id⟩
  pure (s.addObject ⟨toLex (tab.id, id), obj.id⟩)

/-- What `db_update_i64` charges and refunds, in order. -/
def updateCharges (obj : KeyValueObject) (payer : Name) (buffer : Bytes) : List (Name × ℤ) :=
  let oldSize : ℤ := obj.value.length + billableKeyValue
  let newSize : ℤ := buffer.length + billableKeyValue
  if obj.payer ≠ payer then [(obj.payer, -oldSize), (payer, newSize)]
  else if oldSize ≠ newSize then [(obj.payer, newSize - oldSize)]
  else []

def chargeAll (charges : List (Name × ℤ)) : Result (DbState σ) :=
  charges.foldlM (fun s c => s.charge updateDbUsage receiver c.1 c.2) s

def dbUpdateI64 (iterator : ℤ) (payer : Name) (buffer : Bytes) : Result (DbState σ) := do
  let (p, obj) ← s.getObject iterator
  let tableObj ← s.keyvalCache.getTable (ofLex p.key).1
  let _ ← s.derefTable tableObj
  ineAssert (tableObj.key.code = receiver) .tableAccessViolation "db access violation"
  let payer := if payer = 0 then obj.payer else payer
  let s ← s.chargeAll updateDbUsage receiver (updateCharges obj payer buffer)
  pure (s.setRow p.key { obj with payer, value := buffer })

def dbRemoveI64 (iterator : ℤ) : Result (DbState σ) := do
  let (p, obj) ← s.getObject iterator
  let tableObj ← s.keyvalCache.getTable (ofLex p.key).1
  let tid ← s.derefTable tableObj
  ineAssert (tableObj.key.code = receiver) .tableAccessViolation "db access violation"
  let s ← s.charge updateDbUsage receiver obj.payer (-(obj.value.length + billableKeyValue))
  s.removeRow updateDbUsage receiver tableObj.key p tid iterator

/-- `db_get_i64`: the result and what is copied. -/
def dbGetI64 (bufferSize : ℕ) : Result (ℤ × Bytes) := do
  let (_, obj) ← s.getObject iterator
  if bufferSize = 0 then pure (obj.value.length, [])
  else pure (min bufferSize obj.value.length, obj.value.take bufferSize)

/-- The end of `db_next_i64` and `next_secondary`: go to a position unless it left the table. -/
def stepForwardTo (tId : ℕ) (position : Option RowKey) : Result ((ℤ × Option ℕ) × DbState σ) :=
  match position with
  | none => do
      let ei ← s.keyvalCache.getEndIteratorByTableId tId
      pure ((ei, none), s)
  | some itr =>
    if (ofLex itr).1 ≠ tId then do
      let ei ← s.keyvalCache.getEndIteratorByTableId tId
      pure ((ei, none), s)
    else do
      let (h, s) ← s.addAt itr
      pure ((h, some (ofLex itr).2), s)

def dbNextI64 : Result ((ℤ × Option ℕ) × DbState σ) :=
  if iterator < -1 then pure ((-1, none), s) -- cannot increment past end iterator of table
  else do
    let (p, _) ← s.getObject iterator
    s.stepForwardTo (ofLex p.key).1 (s.tables.keyValues.upperBound p.key)

/-- The end of `db_previous_i64`: go to a position unless it left the table. -/
def stepBackTo (tId : ℕ) (position : Option RowKey) : Result ((ℤ × Option ℕ) × DbState σ) :=
  match position with
  | none => pure ((-1, none), s)
  | some itr =>
    if (ofLex itr).1 ≠ tId then pure ((-1, none), s)
    else do
      let (h, s) ← s.addAt itr
      pure ((h, some (ofLex itr).2), s)

def dbPreviousI64 : Result ((ℤ × Option ℕ) × DbState σ) := do
  if iterator < -1 then -- is end iterator
    match ← s.keyvalCache.findTableByEndIterator iterator with
    | none => .error ⟨.invalidTableIterator, "not a valid end iterator"⟩
    | some tab => do
        let tid ← s.derefTable tab
        s.stepBackTo tid.id (s.tables.keyValues.lastUpTo tid.id)
  else
    let (p, _) ← s.getObject iterator
    s.stepBackTo (ofLex p.key).1 (s.tables.keyValues.priorKey p.key)

/-- The search that `db_find_i64`, `db_lowerbound_i64` and `db_upperbound_i64` share: look
for a position in the table, from its id, and go there or to the end of the table. -/
def seek (position : ℕ → Option RowKey) : Result (ℤ × DbState σ) :=
  match s.findTable key with
  | none => pure (-1, s)
  | some tab =>
    let (tableEndItr, s) := s.cacheTable tab
    match position tab.id with
    | none => pure (tableEndItr, s)
    | some itr =>
      if (ofLex itr).1 ≠ tab.id then pure (tableEndItr, s) else s.addAt itr

def dbFindI64 (id : ℕ) : Result (ℤ × DbState σ) :=
  s.seek key fun tId =>
    if s.tables.keyValues.lookup (toLex (tId, id)) ≠ none then some (toLex (tId, id)) else none

def dbLowerboundI64 (id : ℕ) : Result (ℤ × DbState σ) :=
  s.seek key fun tId => s.tables.keyValues.lowerBound (toLex (tId, id))

def dbUpperboundI64 (id : ℕ) : Result (ℤ × DbState σ) :=
  s.seek key fun tId => s.tables.keyValues.upperBound (toLex (tId, id))

def dbEndI64 : ℤ × DbState σ :=
  match s.findTable key with
  | none => (-1, s)
  | some tab => s.cacheTable tab

/-! ## Sequences of calls -/

end DbState

/-- A call of the primary-index interface.  Notified accounts run in the context of the
action, with its handles, so the receiver belongs to the call. -/
inductive DbCall where
  | store (receiver scope table payer : Name) (id : ℕ) (buffer : Bytes)
  | update (receiver : Name) (iterator : ℤ) (payer : Name) (buffer : Bytes)
  | remove (receiver : Name) (iterator : ℤ)
  | get (iterator : ℤ) (bufferSize : ℕ)
  | next (iterator : ℤ)
  | previous (iterator : ℤ)
  | find (key : TableKey) (id : ℕ)
  | lowerbound (key : TableKey) (id : ℕ)
  | upperbound (key : TableKey) (id : ℕ)
  | «end» (key : TableKey)

inductive DbOutput where
  | done
  | handle (iterator : ℤ) (primary : Option ℕ)
  | data (size : ℤ) (copied : Bytes)
deriving DecidableEq

namespace DbState

variable {σ : Type} (updateDbUsage : UpdateDbUsage σ)

def call (s : DbState σ) : DbCall → Result (DbOutput × DbState σ)
  | .store receiver scope table payer id buffer => do
      let (h, s) ← s.dbStoreI64 updateDbUsage receiver scope table payer id buffer
      pure (.handle h none, s)
  | .update receiver iterator payer buffer => do
      let s ← s.dbUpdateI64 updateDbUsage receiver iterator payer buffer
      pure (.done, s)
  | .remove receiver iterator => do
      let s ← s.dbRemoveI64 updateDbUsage receiver iterator
      pure (.done, s)
  | .get iterator bufferSize => do
      let (size, copied) ← s.dbGetI64 iterator bufferSize
      pure (.data size copied, s)
  | .next iterator => do
      let ((h, primary), s) ← s.dbNextI64 iterator
      pure (.handle h primary, s)
  | .previous iterator => do
      let ((h, primary), s) ← s.dbPreviousI64 iterator
      pure (.handle h primary, s)
  | .find key id => do
      let (h, s) ← s.dbFindI64 key id
      pure (.handle h none, s)
  | .lowerbound key id => do
      let (h, s) ← s.dbLowerboundI64 key id
      pure (.handle h none, s)
  | .upperbound key id => do
      let (h, s) ← s.dbUpperboundI64 key id
      pure (.handle h none, s)
  | .«end» key => pure (.handle (s.dbEndI64 key).1 none, (s.dbEndI64 key).2)

end DbState

end Inery.Chain
