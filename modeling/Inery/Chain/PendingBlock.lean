import Inery.Chain.Types
import Inery.Foundation.Stateful
import Inery.Foundation.SnapshotStack

/-!
# The block under construction (`controller.cpp`)

A transaction works on the database, under an undo session of its own, and on the vectors of the
`building_block`, under a restore point.  Both are put back by destructors, unless the transaction
has squashed its session and cancelled the restore point.  Undo sessions are nested, so a session is
open exactly when the stack of the database is deeper than it was at the session's start.
-/

namespace Inery.Chain

open Foundation List Stateful Stateful.Keeps

inductive TransactionStatus where
  | executed
  | softFail
  | hardFail
  | delayed
  | expired
deriving DecidableEq

structure TransactionReceipt where
  trxId : Digest
  status : TransactionStatus
  cpuUsageUs : ℕ
  netUsageWords : ℕ
deriving DecidableEq

abbrev ActionReceipt := Digest

/-- The vectors of `building_block`; metadatas by the id of their transaction. -/
structure BuildingBlock where
  pendingTrxReceipts : List TransactionReceipt := []
  pendingTrxMetas : List Digest := []
  actions : List ActionReceipt := []
deriving DecidableEq

/-- What a transaction leaves in its trace: the receipt, the receipts of the
executed actions and the exception it failed with. -/
structure TransactionTrace where
  receipt : Option TransactionReceipt := none
  executed : List ActionReceipt := []
  except : Option ChainException := none
deriving DecidableEq

structure PendingBlock (σ : Type) where
  db : SnapshotStack σ
  block : BuildingBlock := {}
deriving DecidableEq

abbrev PendingM (σ α : Type) := Stateful ChainException (PendingBlock σ) α

namespace PendingM

variable {σ α : Type}

def onDatabase (f : Stateful ChainException σ α) : PendingM σ α := fun p =>
  ((f.run p.db.current).1, { p with db := { p.db with current := (f.run p.db.current).2 } })

def modifyBlock (f : BuildingBlock → BuildingBlock) : PendingM σ Unit :=
  modify fun p => { p with block := f p.block }

/-- `emit`: what a signal handler throws is swallowed, with three exceptions. -/
def emit (handler : Result Unit) : PendingM σ Unit :=
  match handler with
  | .ok _ => pure ()
  | .error e =>
    if e.kind = .stdBadAlloc ∨ e.kind = .interprocessBadAlloc ∨
        e.kind = .controllerEmitSignalException then
      throw e
    else pure ()

def pushReceipt (trxId : Digest) (status : TransactionStatus) (cpuUsageUs netUsage : ℕ) :
    PendingM σ TransactionReceipt := do
  lift (ineAssert (netUsage / 8 * 8 = netUsage) .transactionException
    "net_usage is not divisible by 8")
  let r : TransactionReceipt := ⟨trxId, status, u32 cpuUsageUs, u32 (netUsage / 8)⟩
  modifyBlock fun b => { b with pendingTrxReceipts := b.pendingTrxReceipts ++ [r] }
  pure r

def pushMeta (trxId : Digest) : PendingM σ Unit :=
  modifyBlock fun b => { b with pendingTrxMetas := b.pendingTrxMetas ++ [trxId] }

/-- `fc::move_append( _actions, executed )`. -/
def appendActions (executed : List ActionReceipt) : PendingM σ Unit :=
  modifyBlock fun b => { b with actions := b.actions ++ executed }

/-- The handlers around a transaction: two exceptions condemn the block and
pass, as do those of the standard library; any other is caught. -/
def catchTransaction (x : PendingM σ α) (handler : ChainException → PendingM σ α) : PendingM σ α :=
  tryCatch x fun e =>
    if e.kind = .disallowedTransactionExtensionsBadBlockException ∨
        e.kind = .protocolFeatureBadBlockException ∨ e.kind.isFc = false then
      throw e
    else handler e

def captureAndRethrow (x : PendingM σ α) : PendingM σ α := tryCatch x fun e => throw e.capture

/-! ## Sessions -/

/-- The destructor of a session opened at this depth. -/
def closeSession (depth : ℕ) (p : PendingBlock σ) : PendingBlock σ :=
  if depth < p.db.saved.length then { p with db := p.db.undo } else p

/-- The scope of an undo session, if sessions are in use. -/
def withSession (skipDbSessions : Bool) (x : PendingM σ α) : PendingM σ α := fun p =>
  if skipDbSessions then x.run p
  else
    ((x.run { p with db := p.db.push }).1,
      closeSession p.db.saved.length (x.run { p with db := p.db.push }).2)

def squashSession (skipDbSessions : Bool) (p : PendingBlock σ) : PendingBlock σ :=
  if skipDbSessions then p else { p with db := p.db.squash }

def undoSession (skipDbSessions : Bool) (p : PendingBlock σ) : PendingBlock σ :=
  if skipDbSessions then p else { p with db := p.db.undo }

/-- The callback of `make_block_restore_point`: the vectors are cut to the
sizes they had. -/
def restoreBlock (old : BuildingBlock) (p : PendingBlock σ) : PendingBlock σ :=
  { p with block :=
      { pendingTrxReceipts := p.block.pendingTrxReceipts.take old.pendingTrxReceipts.length
        pendingTrxMetas := p.block.pendingTrxMetas.take old.pendingTrxMetas.length
        actions := p.block.actions.take old.actions.length } }

/-- The scope of a restore point.  The flag that the body returns says whether
the restore point was cancelled; it never is when the body throws. -/
def withRestorePoint (x : PendingM σ (α × Bool)) : PendingM σ α := fun p =>
  match x.run p with
  | (.ok (a, true), p') => (.ok a, p')
  | (.ok (a, false), p') => (.ok a, restoreBlock p.block p')
  | (.error e, p') => (.error e, restoreBlock p.block p')

/-! ## What the scopes restore -/

variable {p q : PendingBlock σ}

/-- The session opened at `p` is still the newest one. -/
structure Within (p q : PendingBlock σ) : Prop where
  saved : q.db.saved = p.db.push.saved
  revision : q.db.revision = p.db.push.revision

theorem Within.undo (h : Within p q) : q.db.undo = p.db :=
  SnapshotStack.undo_of_saved h.saved h.revision

theorem Within.closeSession (h : Within p q) :
    closeSession p.db.saved.length q = { q with db := p.db } := by
  have hdeep : p.db.saved.length < q.db.saved.length := by
    rw [h.saved]
    exact Nat.lt_succ_self _
  rw [PendingM.closeSession, if_pos hdeep, h.undo]

theorem Within.squash (h : Within p q) : q.db.squash = { p.db with current := q.db.current } := by
  obtain ⟨⟨current, revision, saved⟩, block⟩ := q
  obtain ⟨hsaved, hrevision⟩ := h
  simp only at hsaved hrevision
  subst hsaved hrevision
  show (⟨current, p.db.revision + 1 - 1, p.db.saved⟩ : SnapshotStack σ) = _
  rw [add_sub_cancel_right]

structure Extends (old new : BuildingBlock) : Prop where
  receipts : old.pendingTrxReceipts <+: new.pendingTrxReceipts
  metas : old.pendingTrxMetas <+: new.pendingTrxMetas
  actions : old.actions <+: new.actions

theorem Extends.refl (b : BuildingBlock) : Extends b b := ⟨prefix_rfl, prefix_rfl, prefix_rfl⟩

theorem Extends.trans {a b c : BuildingBlock} (h : Extends a b) (h' : Extends b c) : Extends a c :=
  ⟨h.receipts.trans h'.receipts, h.metas.trans h'.metas, h.actions.trans h'.actions⟩

/-! ## What the statements of a transaction keep -/

variable {q' : PendingBlock σ}

variable {q : PendingBlock σ}

variable {x : PendingM σ α}

end PendingM

end Inery.Chain
