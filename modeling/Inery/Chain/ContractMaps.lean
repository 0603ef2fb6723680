import Inery.Chain.ContractTables

/-!
# The primary-index interface as ordered maps

What the interface is for: each table is one finite map from primary keys to rows, and a handle
stands for a row, the end of a table, or a row that was removed.  `Accepts` says what a call does to
the maps and returns, `Refuses` when it fails; `Agrees` compares a sequence of calls with that.
-/

namespace Inery.Chain

open Foundation Function

structure Row where
  payer : Name
  value : Bytes
deriving DecidableEq

def KeyValueObject.row (obj : KeyValueObject) : Row := ⟨obj.payer, obj.value⟩

abbrev ContractMaps := TableKey → Table ℕ Row

inductive Denotation where
  | row (table : TableKey) (key : ℕ)
  | removed
  | tableEnd (table : TableKey)
deriving DecidableEq

abbrev Handles := ℤ → Option Denotation

/-- A handle goes on standing for what it stood for. -/
def Handles.Extends (handles handles' : Handles) : Prop :=
  ∀ h d, handles h = some d → handles' h = some d

/-! ## What a call may do -/

section Specification

variable (maps maps' : ContractMaps) (handles handles' : Handles)

/-- A search in a table: -1 if it is empty, the handle of the row that was found, or the end. -/
def Searches (table : TableKey) (found : Option ℕ) (out : DbOutput) : Prop :=
  maps' = maps ∧ handles.Extends handles' ∧ ∃ h, out = .handle h none ∧
    (maps table = ∅ → h = -1) ∧
    (maps table ≠ ∅ → handles' h = some (match found with
      | some key => .row table key
      | none => .tableEnd table))

/-- A walk in a table: the handle and the key of a row, or what is beyond the last row. -/
def Walks (table : TableKey) (found : Option ℕ) (beyond : ℤ → Prop) (out : DbOutput) : Prop :=
  maps' = maps ∧ handles.Extends handles' ∧ ∃ h, out = .handle h found ∧
    match found with
    | some key => handles' h = some (.row table key)
    | none => beyond h

/-- The effect and the result of a successful call. -/
def Accepts (call : DbCall) (out : DbOutput) : Prop :=
  match call with
  | .store receiver scope table payer id buffer =>
    payer ≠ 0 ∧ id ∉ maps ⟨receiver, scope, table⟩ ∧
    maps' = update maps ⟨receiver, scope, table⟩
      ((maps ⟨receiver, scope, table⟩).insert id ⟨payer, buffer⟩) ∧
    handles.Extends handles' ∧
    ∃ h, out = .handle h none ∧ handles' h = some (.row ⟨receiver, scope, table⟩ id)
  | .update receiver iterator payer buffer =>
    out = .done ∧ handles' = handles ∧ ∃ table key row,
      handles iterator = some (.row table key) ∧ (maps table).lookup key = some row ∧
      table.code = receiver ∧
      maps' = update maps table
        ((maps table).insert key ⟨if payer = 0 then row.payer else payer, buffer⟩)
  | .remove receiver iterator =>
    out = .done ∧ handles' = update handles iterator (some .removed) ∧ ∃ table key,
      handles iterator = some (.row table key) ∧ table.code = receiver ∧
      maps' = update maps table ((maps table).erase key)
  | .get iterator bufferSize =>
    maps' = maps ∧ handles' = handles ∧ ∃ table key row,
      handles iterator = some (.row table key) ∧ (maps table).lookup key = some row ∧
      out = if bufferSize = 0 then .data row.value.length []
        else .data (min bufferSize row.value.length) (row.value.take bufferSize)
  | .next iterator =>
    if iterator < -1 then maps' = maps ∧ handles' = handles ∧ out = .handle (-1) none
    else ∃ table key, handles iterator = some (.row table key) ∧
      Walks maps maps' handles handles' table ((maps table).upperBound key)
        (fun h => handles' h = some (.tableEnd table)) out
  | .previous iterator =>
    (∃ table, handles iterator = some (.tableEnd table) ∧
      Walks maps maps' handles handles' table (maps table).lastKey (· = -1) out) ∨
    (∃ table key, handles iterator = some (.row table key) ∧
      Walks maps maps' handles handles' table ((maps table).priorKey key) (· = -1) out)
  | .find table id =>
    Searches maps maps' handles handles' table
      (((maps table).lookup id).map fun _ => id) out
  | .lowerbound table id =>
    Searches maps maps' handles handles' table ((maps table).lowerBound id) out
  | .upperbound table id =>
    Searches maps maps' handles handles' table ((maps table).upperBound id) out
  | .«end» table => Searches maps maps' handles handles' table none out

/-- A handle that does not stand for a row is rejected. -/
def Rejects (iterator : ℤ) (e : ChainException) : Prop :=
  (¬ ∃ table key, handles iterator = some (.row table key)) ∧
    (e.kind = .invalidTableIterator ∨ e.kind = .tableOperationNotPermitted)

def ChargeRefused {σ : Type} (bill : UpdateDbUsage σ) (receiver : Name)
    (e : ChainException) : Prop :=
  ∃ payer delta usage, bill receiver payer delta usage = .error e

def Refuses {σ : Type} (bill : UpdateDbUsage σ) (call : DbCall) (e : ChainException) : Prop :=
  match call with
  | .store receiver scope table payer id _ =>
    (payer = 0 ∧ e.kind = .invalidTablePayer) ∨
    (id ∈ maps ⟨receiver, scope, table⟩ ∧ e.kind = .stdLogicError) ∨
    ChargeRefused bill receiver e
  | .update receiver iterator _ _ | .remove receiver iterator =>
    Rejects handles iterator e ∨
    (∃ table key, handles iterator = some (.row table key) ∧ table.code ≠ receiver ∧
      e.kind = .tableAccessViolation) ∨
    ChargeRefused bill receiver e
  | .get iterator _ => Rejects handles iterator e
  | .next iterator => ¬ iterator < -1 ∧ Rejects handles iterator e
  | .previous iterator =>
    (¬ ∃ table, handles iterator = some (.tableEnd table)) ∧ Rejects handles iterator e
  | .find .. | .lowerbound .. | .upperbound .. | .«end» .. => False

end Specification

/-! ## Agreement -/

/-- What the cache makes of a handle. -/
def IteratorCache.denotes (c : IteratorCache) : Handles := fun h =>
  if 0 ≤ h then
    match c.iteratorToObject[h.toNat]? with
    | none => none
    | some none => some .removed
    | some (some p) =>
      (c.tableCache.lookup (ofLex p.key).1).map fun t => .row t.1.key (ofLex p.key).2
  else if h < -1 then
    (c.endIteratorToTable[IteratorCache.endIteratorToIndex h]?).map fun t => .tableEnd t.key
  else none

namespace DbState

variable {σ : Type} (bill : UpdateDbUsage σ)

def denotes (s : DbState σ) : Handles := s.keyvalCache.denotes

/-- A new row of a table, if it has a payer, an unused key and a charge that is accepted, fits
into the count of the table. -/
def RoomFor (s : DbState σ) (receiver scope table payer : Name) (id : ℕ) (bytes : ℤ) : Prop :=
  ∀ obj, s.tables.tableIds.lookup ⟨receiver, scope, table⟩ = some obj → payer ≠ 0 →
    s.tables.keyValues.lookup (toLex (obj.id, id)) = none →
    (∃ usage, bill receiver payer bytes s.usage = .ok usage) → obj.count + 1 < 2 ^ 32

/-- Where the interface keeps to the maps: `db_previous_i64` is not given the end of a table
whose object was removed, and `db_store_i64` adds no row to a table that already counts
`2 ^ 32 - 1` of them. -/
def Safe (s : DbState σ) (c : DbCall) : Prop :=
  match c with
  | .previous iterator => iterator < -1 →
      ∀ p ∈ s.keyvalCache.endIteratorToTable[IteratorCache.endIteratorToIndex iterator]?,
        ∃ obj, s.tables.tableIds.lookup p.key = some obj ∧ obj.id = p.id
  | .store receiver scope table payer id buffer =>
      s.RoomFor bill receiver scope table payer id (buffer.length + Config.billableKeyValue)
  | _ => True

end DbState

structure TablesHold (tables : ContractTables) (maps : ContractMaps) : Prop where
  absent : ∀ t, tables.tableIds.lookup t = none → maps t = ∅
  nonempty : ∀ t obj, tables.tableIds.lookup t = some obj → maps t ≠ ∅
  count : ∀ t obj, tables.tableIds.lookup t = some obj → obj.count = (maps t).keys.card
  count_lt : ∀ t obj, tables.tableIds.lookup t = some obj → obj.count < 2 ^ 32
  fiber : ∀ t obj, tables.tableIds.lookup t = some obj →
    Table.IsFiber tables.keyValues obj.id KeyValueObject.row (maps t)
  owned : ∀ p o, tables.keyValues.lookup p = some o →
    ∃ t obj, tables.tableIds.lookup t = some obj ∧ obj.id = (ofLex p).1
  tableId_lt : ∀ t obj, tables.tableIds.lookup t = some obj → obj.id < tables.nextTableId
  tableId_inj : ∀ t t' obj obj', tables.tableIds.lookup t = some obj →
    tables.tableIds.lookup t' = some obj' → obj.id = obj'.id → t = t'
  rowId_lt : ∀ p o, tables.keyValues.lookup p = some o → o.id < tables.nextKeyValueId
  rowId_inj : ∀ p p' o o', tables.keyValues.lookup p = some o →
    tables.keyValues.lookup p' = some o' → o.id = o'.id → p = p'

end Inery.Chain
