import Inery.Chain.ContractTables
import Inery.Foundation.Format

/-!
# Secondary indices of contract tables (`apply_context.hpp`)

A table may have rows in five secondary indices, each a container of its own that orders the rows of
a table by a secondary key.  They all count as rows of the table: its object is removed with the
last one, whichever index that is in.  The index objects are modelled as rows of the primary index,
with the bytes of the secondary key as the value.  Each index has an `iterator_cache` of its own.
-/

namespace Inery.Chain

open Foundation

/-- The members of `apply_context` of type `generic_index`. -/
inductive SecondaryIndex where
  | idx64
  | idx128
  | idx256
  | idxDouble
  | idxLongDouble
deriving DecidableEq, Repr

inductive ObjectType where
  | keyValue
  | secondary (index : SecondaryIndex)
deriving DecidableEq, Repr

instance : Fintype ObjectType where
  elems := {.keyValue, .secondary .idx64, .secondary .idx128, .secondary .idx256,
    .secondary .idxDouble, .secondary .idxLongDouble}
  complete
    | .keyValue => by decide
    | .secondary i => by cases i <;> decide

/-! ## Secondary keys -/

/-- The order of `f64_lt` and `f128_lt` on numbers: sign and magnitude. -/
def floatRank (width bits : ℕ) : ℤ :=
  if bits < 2 ^ width then bits else -((bits : ℤ) - 2 ^ width)

/-- A position of `by_secondary`: `t_id`, `secondary_key` and `primary_key`. -/
abbrev SecondaryPosition := ℕ ×ₗ (ℤ ×ₗ ℕ)

namespace SecondaryIndex

/-- Where `SecondaryKeyLess` puts a key. -/
def rank : SecondaryIndex → Bytes → ℤ
  | .idx64, key | .idx128, key => ofLeBytes key
  | .idx256, key => ofLeBytes (key.take 16) * 2 ^ 128 + ofLeBytes (key.drop 16)
  | .idxDouble, key => floatRank 63 (ofLeBytes key)
  | .idxLongDouble, key => floatRank 127 (ofLeBytes key)

def isNan : SecondaryIndex → Bytes → Bool
  | .idxDouble, key => 0x7ff * 2 ^ 52 < ofLeBytes key % 2 ^ 63
  | .idxLongDouble, key => 0x7fff * 2 ^ 112 < ofLeBytes key % 2 ^ 127
  | _, _ => false

/-- `billable_size_v` of the index objects. -/
def billableSize : SecondaryIndex → ℤ
  | .idx64 | .idxDouble => 128
  | .idx128 | .idxLongDouble => 144
  | .idx256 => 160

variable (i : SecondaryIndex)

def position (p : RowKey) (obj : KeyValueObject) : SecondaryPosition :=
  toLex ((ofLex p).1, toLex (i.rank obj.value, (ofLex p).2))

def rowKey (q : SecondaryPosition) : RowKey := toLex ((ofLex q).1, (ofLex (ofLex q).2).2)

/-- The table and the key of a position, which a search compares. -/
def searchKey (q : SecondaryPosition) : ℕ ×ₗ ℤ := toLex ((ofLex q).1, (ofLex (ofLex q).2).1)

variable (rows : Table RowKey KeyValueObject)

def positions : Finset SecondaryPosition :=
  (Table.collect rows fun p obj => i.position p obj).toFinset

def lowerBound (key : Bytes) (tId : ℕ) : Option RowKey :=
  (least ((i.positions rows).filter fun q => toLex (tId, i.rank key) ≤ searchKey q)).map rowKey

def upperBound (key : Bytes) (tId : ℕ) : Option RowKey :=
  (least ((i.positions rows).filter fun q => toLex (tId, i.rank key) < searchKey q)).map rowKey

/-- `db.find` by a table and a key: the first row with them. -/
def find (key : Bytes) (tId : ℕ) : Option RowKey :=
  (least ((i.positions rows).filter fun q => searchKey q = toLex (tId, i.rank key))).map rowKey

/-- `++itr`, from a row. -/
def following (p : RowKey) (obj : KeyValueObject) : Option RowKey :=
  (least ((i.positions rows).filter (i.position p obj < ·))).map rowKey

/-- `--itr`, from a row. -/
def preceding (p : RowKey) (obj : KeyValueObject) : Option RowKey :=
  (greatest ((i.positions rows).filter (· < i.position p obj))).map rowKey

/-- `--itr`, from `idx.upper_bound` of a table. -/
def lastUpTo (tId : ℕ) : Option RowKey :=
  (greatest ((i.positions rows).filter fun q => (ofLex q).1 ≤ tId)).map rowKey

end SecondaryIndex

/-! ## `generic_index` -/

namespace DbState

variable {σ : Type} (updateDbUsage : UpdateDbUsage σ) (i : SecondaryIndex)

variable (s : DbState σ)

def store (receiver scope table payer : Name) (id : ℕ) (secondary : Bytes) :
    Result (ℤ × DbState σ) := do
  requirePayer payer
  let key : TableKey := ⟨receiver, scope, table⟩
  let (tab, s) ← s.findOrCreateTable updateDbUsage receiver key payer
  let (obj, s) ← s.createRow (toLex (tab.id, id)) payer secondary
  let s := s.setCount key tab (tab.count + 1)
  let s ← s.charge updateDbUsage receiver payer i.billableSize
  let (_, s) := s.cacheTable ⟨key, tab.id⟩
  pure (s.addObject ⟨toLex (tab.id, id), obj.id⟩)

/-- `remove`, which refunds the payer before it looks at the table. -/
def remove (receiver : Name) (iterator : ℤ) : Result (DbState σ) := do
  let (p, obj) ← s.getObject iterator
  let s ← s.charge updateDbUsage receiver obj.payer (-i.billableSize)
  let tableObj ← s.keyvalCache.getTable (ofLex p.key).1
  let tid ← s.derefTable tableObj
  ineAssert (tableObj.key.code = receiver) .tableAccessViolation "db access violation"
  s.removeRow updateDbUsage receiver tableObj.key p tid iterator

/-- What `update` charges and refunds, in order. -/
def payerCharges (obj : KeyValueObject) (payer : Name) : List (Name × ℤ) :=
  if obj.payer ≠ payer then [(obj.payer, -i.billableSize), (payer, i.billableSize)] else []

def update (receiver : Name) (iterator : ℤ) (payer : Name) (secondary : Bytes) :
    Result (DbState σ) := do
  let (p, obj) ← s.getObject iterator
  let tableObj ← s.keyvalCache.getTable (ofLex p.key).1
  let _ ← s.derefTable tableObj
  ineAssert (tableObj.key.code = receiver) .tableAccessViolation "db access violation"
  let payer := if payer = 0 then obj.payer else payer
  let s ← s.chargeAll updateDbUsage receiver (payerCharges i obj payer)
  pure (s.setRow p.key { obj with payer, value := secondary })

variable (iterator : ℤ)

/-- The keys of the row of a handle, which a search that found it reports. -/
def keysAt : Option (ℕ × Bytes) :=
  (s.getObject iterator).toOption.map fun found => ((ofLex found.1.key).2, found.2.value)

variable (key : TableKey)

def findSecondary (secondary : Bytes) : Result (ℤ × DbState σ) :=
  s.seek key (i.find s.tables.keyValues secondary)

def lowerboundSecondary (secondary : Bytes) : Result (ℤ × DbState σ) :=
  s.seek key (i.lowerBound s.tables.keyValues secondary)

def upperboundSecondary (secondary : Bytes) : Result (ℤ × DbState σ) :=
  s.seek key (i.upperBound s.tables.keyValues secondary)

def endSecondary : ℤ × DbState σ := s.dbEndI64 key

def nextSecondary : Result ((ℤ × Option ℕ) × DbState σ) :=
  if iterator < -1 then pure ((-1, none), s) -- cannot increment past end iterator of index
  else do
    let (p, obj) ← s.getObject iterator
    s.stepForwardTo (ofLex p.key).1 (i.following s.tables.keyValues p.key obj)

def previousSecondary : Result ((ℤ × Option ℕ) × DbState σ) :=
  if iterator < -1 then do -- is end iterator
    match ← s.keyvalCache.findTableByEndIterator iterator with
    | none => .error ⟨.invalidTableIterator, "not a valid end iterator"⟩
    | some tab => do
        let tid ← s.derefTable tab
        s.stepBackTo tid.id (i.lastUpTo s.tables.keyValues tid.id)
  else do
    let (p, obj) ← s.getObject iterator
    s.stepBackTo (ofLex p.key).1 (i.preceding s.tables.keyValues p.key obj)

def findPrimary (primary : ℕ) : Result (ℤ × DbState σ) := s.dbFindI64 key primary

def lowerboundPrimary (primary : ℕ) : Result (ℤ × DbState σ) := s.dbLowerboundI64 key primary

/-- `upperbound_primary`.  It caches the table twice. -/
def upperboundPrimary (primary : ℕ) : Result (ℤ × DbState σ) := s.dbUpperboundI64 key primary

def nextPrimary : Result ((ℤ × Option ℕ) × DbState σ) := s.dbNextI64 iterator

def previousPrimary : Result ((ℤ × Option ℕ) × DbState σ) := s.dbPreviousI64 iterator

def getKeys : Result (ℕ × Bytes) := do
  let (p, obj) ← s.getObject iterator
  pure ((ofLex p.key).2, obj.value)

end DbState

/-! ## All indices of an action -/

inductive IndexCall where
  | store (receiver scope table payer : Name) (id : ℕ) (secondary : Bytes)
  | update (receiver : Name) (iterator : ℤ) (payer : Name) (secondary : Bytes)
  | remove (receiver : Name) (iterator : ℤ)
  | findSecondary (key : TableKey) (secondary : Bytes)
  | lowerboundSecondary (key : TableKey) (secondary : Bytes)
  | upperboundSecondary (key : TableKey) (secondary : Bytes)
  | endSecondary (key : TableKey)
  | nextSecondary (iterator : ℤ)
  | previousSecondary (iterator : ℤ)
  | findPrimary (key : TableKey) (primary : ℕ)
  | lowerboundPrimary (key : TableKey) (primary : ℕ)
  | upperboundPrimary (key : TableKey) (primary : ℕ)
  | nextPrimary (iterator : ℤ)
  | previousPrimary (iterator : ℤ)
  | get (iterator : ℤ)

inductive ContractCall where
  | primary (call : DbCall)
  | secondary (index : SecondaryIndex) (call : IndexCall)

/-- What a call returns: a search also reports the keys of the row that it found. -/
inductive ContractOutput where
  | primary (output : DbOutput)
  | done
  | handle (iterator : ℤ) (found : Option (ℕ × Bytes))
  | step (iterator : ℤ) (primary : Option ℕ)
  | keys (primary : ℕ) (secondary : Bytes)
deriving DecidableEq

namespace DbState

variable {σ : Type} (updateDbUsage : UpdateDbUsage σ) (i : SecondaryIndex)

/-- The check of the interface functions with a floating point key. -/
def checkKey (secondary : Bytes) : Result Unit :=
  ineAssert (i.isNan secondary = false) .transactionException
    "NaN is not an allowed value for a secondary key"

/-- A search, with the keys of the row that it found. -/
def reportKeys (found : Result (ℤ × DbState σ)) : Result (ContractOutput × DbState σ) := do
  let (h, s) ← found
  pure (.handle h (s.keysAt h), s)

def callIndex (s : DbState σ) : IndexCall → Result (ContractOutput × DbState σ)
  | .store receiver scope table payer id secondary => do
      checkKey i secondary
      let (h, s) ← s.store updateDbUsage i receiver scope table payer id secondary
      pure (.handle h none, s)
  | .update receiver iterator payer secondary => do
      checkKey i secondary
      let s ← s.update updateDbUsage i receiver iterator payer secondary
      pure (.done, s)
  | .remove receiver iterator => do
      let s ← s.remove updateDbUsage i receiver iterator
      pure (.done, s)
  | .findSecondary key secondary => do
      checkKey i secondary
      reportKeys (s.findSecondary i key secondary)
  | .lowerboundSecondary key secondary => do
      checkKey i secondary
      reportKeys (s.lowerboundSecondary i key secondary)
  | .upperboundSecondary key secondary => do
      checkKey i secondary
      reportKeys (s.upperboundSecondary i key secondary)
  | .endSecondary key => pure (.handle (s.endSecondary key).1 none, (s.endSecondary key).2)
  | .nextSecondary iterator => do
      let ((h, primary), s) ← s.nextSecondary i iterator
      pure (.step h primary, s)
  | .previousSecondary iterator => do
      let ((h, primary), s) ← s.previousSecondary i iterator
      pure (.step h primary, s)
  | .findPrimary key primary => reportKeys (s.findPrimary key primary)
  | .lowerboundPrimary key primary => reportKeys (s.lowerboundPrimary key primary)
  | .upperboundPrimary key primary => reportKeys (s.upperboundPrimary key primary)
  | .nextPrimary iterator => do
      let ((h, primary), s) ← s.nextPrimary iterator
      pure (.step h primary, s)
  | .previousPrimary iterator => do
      let ((h, primary), s) ← s.previousPrimary iterator
      pure (.step h primary, s)
  | .get iterator => do
      let (primary, secondary) ← s.getKeys iterator
      pure (.keys primary secondary, s)

end DbState

/-- What the calls of one action work on: the tables, and for each type of rows the rows and the
cache. -/
structure IndexedState (σ : Type) where
  tableIds : Table TableKey TableIdObject := ∅
  nextTableId : ℕ := 0
  rows : ObjectType → Table RowKey KeyValueObject := fun _ => ∅
  nextRowId : ObjectType → ℕ := fun _ => 0
  cache : ObjectType → IteratorCache := fun _ => {}
  usage : σ

namespace IndexedState

variable {σ : Type} (updateDbUsage : UpdateDbUsage σ)

/-- The part of the state that the calls for one type of rows work on. -/
def view (s : IndexedState σ) (ty : ObjectType) : DbState σ where
  tables :=
    { tableIds := s.tableIds
      nextTableId := s.nextTableId
      keyValues := s.rows ty
      nextKeyValueId := s.nextRowId ty }
  keyvalCache := s.cache ty
  usage := s.usage

def put (s : IndexedState σ) (ty : ObjectType) (d : DbState σ) : IndexedState σ where
  tableIds := d.tables.tableIds
  nextTableId := d.tables.nextTableId
  rows := Function.update s.rows ty d.tables.keyValues
  nextRowId := Function.update s.nextRowId ty d.tables.nextKeyValueId
  cache := Function.update s.cache ty d.keyvalCache
  usage := d.usage

def call (s : IndexedState σ) : ContractCall → Result (ContractOutput × IndexedState σ)
  | .primary c => do
      let (out, d) ← (s.view .keyValue).call updateDbUsage c
      pure (.primary out, s.put .keyValue d)
  | .secondary i c => do
      let (out, d) ← (s.view (.secondary i)).callIndex updateDbUsage i c
      pure (out, s.put (.secondary i) d)

end IndexedState

end Inery.Chain
