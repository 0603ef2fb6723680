import Inery.Chain.PendingBlock
import Inery.Chain.Controller

/-!
# Pushing a transaction (`controller_impl::push_transaction`)

A transaction is initialized, authorized, executed and finalized under an undo session; its receipt,
its metadata and its action receipts are pushed under a restore point.  What each stage does to the
database is a parameter, and so are the handlers of the two signals.  Whatever throws wherever, the
database and the block are then as they were before the call.
-/

namespace Inery.Chain

open Foundation PendingM Stateful Stateful.Keeps

variable {σ : Type}

/-- A transaction and what its stages do to the database. -/
structure InputTransaction (σ : Type) where
  id : Digest
  implicit : Bool := false
  /-- `trx->accepted` before the call -/
  accepted : Bool := false
  /-- whether `delay_sec` is positive -/
  delayed : Bool := false
  /-- `init_for_implicit_trx` or `init_for_input_trx` -/
  init : Stateful ChainException σ Unit
  checkAuthorization : Stateful ChainException σ Unit
  /-- `exec`; the receipts of the actions it executed -/
  exec : Stateful ChainException σ (List ActionReceipt)
  /-- `finalize`; the billed cpu time and the net usage -/
  finalize : Stateful ChainException σ (ℕ × ℕ)
  /-- the handlers of `accepted_transaction` and `applied_transaction` -/
  acceptedTransaction : Result Unit := .ok ()
  appliedTransaction : Result Unit := .ok ()
  /-- the same handlers when the transaction has failed -/
  acceptedTransactionFailed : Result Unit := .ok ()
  appliedTransactionFailed : Result Unit := .ok ()

/-- What `push_transaction` reads from the controller and its caller. -/
structure PushEnv where
  deadline : ℤ
  skipAuthCheck : Bool := false
  skipDbSessions : Bool := false
  readMode : ReadMode := .speculative
  blockStatus : BlockStatus := .incomplete

/-- Transactions pushed to a block that is only tried out are not kept. -/
def PushEnv.discards (env : PushEnv) : Bool :=
  env.readMode ≠ .speculative ∧ env.blockStatus = .incomplete

namespace InputTransaction

variable (trx : InputTransaction σ)

/-- The stages of a transaction. -/
def apply (checkAuth : Bool) : Stateful ChainException σ (List ActionReceipt × ℕ × ℕ) := do
  trx.init
  (if checkAuth then trx.checkAuthorization else pure ())
  let executed ← trx.exec
  let (cpuUsageUs, netUsage) ← trx.finalize
  pure (executed, cpuUsageUs, netUsage)

/-- The receipt: that of an implicit transaction is not part of the block. -/
def recordReceipt (cpuUsageUs netUsage : ℕ) : PendingM σ TransactionReceipt :=
  if trx.implicit then pure ⟨trx.id, .executed, u32 cpuUsageUs, u32 (netUsage / 8)⟩
  else do
    let r ← pushReceipt trx.id (if trx.delayed then .delayed else .executed) cpuUsageUs netUsage
    pushMeta trx.id
    pure r

/-- What is pushed to the block and announced, under the restore point. -/
def record (executed : List ActionReceipt) (cpuUsageUs netUsage : ℕ) :
    PendingM σ TransactionTrace := do
  let receipt ← trx.recordReceipt cpuUsageUs netUsage
  appendActions executed
  (if trx.accepted then pure () else emit trx.acceptedTransaction)
  emit trx.appliedTransaction
  pure { receipt, executed }

/-- The transaction itself, inside the handlers.  In the end its session is
undone or squashed; only then is the restore point cancelled. -/
def applyTransaction (env : PushEnv) (trx : InputTransaction σ) : PendingM σ TransactionTrace := do
  let (executed, cpuUsageUs, netUsage) ←
    onDatabase (trx.apply (!env.skipAuthCheck && !trx.implicit))
  withRestorePoint do
    let trace ← trx.record executed cpuUsageUs netUsage
    modify (if env.discards then undoSession env.skipDbSessions
      else squashSession env.skipDbSessions)
    pure (trace, !env.discards)

def announceFailed (e : ChainException) : PendingM σ TransactionTrace := do
  emit trx.acceptedTransactionFailed
  emit trx.appliedTransactionFailed
  pure { except := some e }

def pushTransaction (env : PushEnv) (trx : InputTransaction σ) : PendingM σ TransactionTrace := do
  lift (ineAssert (env.deadline ≠ 0) .transactionException
    "deadline cannot be uninitialized")
  captureAndRethrow (withSession env.skipDbSessions
    (catchTransaction (trx.applyTransaction env) trx.announceFailed))

/-! ## What the stages leave -/

variable {p q q' : PendingBlock σ} {trx : InputTransaction σ} {env : PushEnv}

/-- What a recorded transaction adds to the vectors of the block. -/
def recorded (trx : InputTransaction σ) (b : BuildingBlock) (t : TransactionTrace) :
    BuildingBlock where
  pendingTrxReceipts := b.pendingTrxReceipts ++ if trx.implicit then [] else t.receipt.toList
  pendingTrxMetas := b.pendingTrxMetas ++ if trx.implicit then [] else [trx.id]
  actions := b.actions ++ t.executed

variable {outcome : Except ChainException TransactionTrace}

end InputTransaction

end Inery.Chain
