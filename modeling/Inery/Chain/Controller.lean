import Inery.Chain.ForkBranches
import Inery.Foundation.SnapshotStack

/-!
# Applying and popping blocks (`controller.cpp`)

The controller over whole blocks: its head, the database with its undo stack, the fork database and
the head of the block log.  What executing a block does to the database is a parameter, `BlockEnv`,
and so are the signals, which may throw.  Around it stand the session of a pending block, who undoes
it on which exception, and the order in which the head, the undo stack and the fork database move.

The store of reversible blocks and the protocol feature manager are left out.
-/

namespace Inery.Chain

open Foundation Stateful ForkDatabase

inductive BlockStatus where
  | irreversible
  | validated
  | complete
  | incomplete
deriving DecidableEq

inductive ReadMode where
  | speculative
  | head
  | readOnly
  | irreversible
deriving DecidableEq

/-- What the controller calls on the way: the execution of blocks and signals. -/
structure BlockEnv (σ : Type) where
  readMode : ReadMode
  /-- `blog.first_block_num()`. -/
  firstBlockNum : ℕ
  /-- `emit( self.block_start, num )`. -/
  blockStart : ℕ → Result Unit
  /-- `start_block` on head `prev` once the session is open, up to the on-block
  transaction and the authorities of the producers. -/
  start : (prev b : BlockState) → BlockStatus → Stateful ChainException σ Unit
  /-- The transactions of the block, `finalize_block` and the comparison of ids. -/
  process : (prev b : BlockState) → BlockStatus → Stateful ChainException σ Unit
  /-- What `commit_block` does with an accepted block: it is stored as reversible
  and announced. -/
  accept : BlockState → Result Unit
  /-- `emit( self.irreversible_block, b )`. -/
  irreversible : BlockState → Result Unit
  /-- `blog.append( b )`. -/
  append : BlockState → Result Unit

/-- `controller_impl`.  While a block is pending, its session is the newest
snapshot of the database. -/
structure Controller (σ : Type) where
  forkDb : ForkDatabase
  head : BlockState
  db : SnapshotStack σ
  pending : Bool := false
  blogHead : Option (ℕ × BlockId) := none
deriving DecidableEq

abbrev ControllerM (σ α : Type) := Stateful ChainException (Controller σ) α

variable {σ α : Type}

/-- `catch( const fc::exception& )`. -/
def catchFc (x : ControllerM σ α) (handler : ChainException → ControllerM σ α) : ControllerM σ α :=
  tryCatch x fun e => if e.kind.isFc then handler e else throw e

/-- The `fc::exception` that `x` throws, if any. -/
def attempt (x : ControllerM σ Unit) : ControllerM σ (Option ChainException) :=
  catchFc (do x; pure none) fun e => pure (some e)

namespace Controller

def onForkDb (f : ForkM α) : ControllerM σ α := fun c =>
  ((f.run c.forkDb).1, { c with forkDb := (f.run c.forkDb).2 })

def onDatabase (f : Stateful ChainException σ α) : ControllerM σ α := fun c =>
  ((f.run c.db.current).1, { c with db := { c.db with current := (f.run c.db.current).2 } })

/-- `INE_ASSERT`. -/
def require (p : Prop) [Decidable p] (kind : ExceptionKind) (message : String) :
    ControllerM σ Unit :=
  lift (ineAssert p kind message)

def setHead (b : BlockState) : ControllerM σ Unit := modify fun c => { c with head := b }

/-- `pending.reset()`: the session of a pending block is undone. -/
def resetPending (c : Controller σ) : Controller σ :=
  if c.pending then { c with db := c.db.undo, pending := false } else c

def abortBlock : ControllerM σ Unit := modify resetPending

variable (env : BlockEnv σ) (b : BlockState) (s : BlockStatus)

/-- The part of `start_block` under `guard_pending`. -/
def openBlock : ControllerM σ Unit := do
  let c ← get
  require (c.db.revision = c.head.blockNum) .databaseException
    "db revision is not on par with head block"
  modify fun c => { c with db := c.db.push, pending := true }
  onDatabase (env.start c.head b s)

/-- `start_block`, for a block status that keeps undo sessions. -/
def startBlock : ControllerM σ Unit := do
  let c ← get
  require (c.pending = false) .blockValidateException "pending block already exists"
  lift (env.blockStart (c.head.blockNum + 1))
  tryCatch (openBlock env b s) fun e => do
    abortBlock
    throw e

/-- `commit_block( false )`.  Whatever is thrown before the session is pushed
aborts the block. -/
def commitBlock : ControllerM σ Unit := do
  tryCatch (lift (env.accept b)) fun e => do
    abortBlock
    throw e
  modify fun c => { c with pending := false }

def applyBody : ControllerM σ Unit := do
  let c ← get
  startBlock env b s
  onDatabase (env.process c.head b s)
  commitBlock env b

/-- `apply_block`.  The inner handler sees `fc::exception` only; the outer one
captures what is left. -/
def applyBlock : ControllerM σ Unit := tryCatch
    (catchFc (applyBody env b s) fun e => do
      abortBlock
      throw e)
    fun e => throw e.capture

def popBlock : ControllerM σ Unit := do
  let c ← get
  match c.forkDb.getBlock c.head.prev with
  | some prev => modify fun c => { c with head := prev, db := c.db.undo }
  | none => do
      require (c.forkDb.root.id = c.head.prev) .blockValidateException
        "attempt to pop beyond last irreversible block"
      modify fun c => { c with head := c.forkDb.root, db := c.db.undo }

def popBlocks : ℕ → ControllerM σ Unit
  | 0 => pure ()
  | n + 1 => do
      popBlock
      popBlocks n

/-! ## `log_irreversible` -/

/-- A block becomes irreversible; in irreversible mode it is applied only now. -/
def commitIrreversible : ControllerM σ Unit := do
  if env.readMode = .irreversible then
    applyBlock env b .complete
    setHead b
    onForkDb (markValid b)
  lift (env.irreversible b)
  modify fun c => { c with db := c.db.commit b.blockNum }

def appendToLog : ControllerM σ Unit := do
  lift (env.append b)
  modify fun c => { c with blogHead := some (b.blockNum, b.id) }

/-- The loop over the blocks that become irreversible: the new root and the
exception that ended the loop early. -/
def logBlocks : BlockId → List BlockState → ControllerM σ (BlockId × Option ChainException)
  | rootId, [] => pure (rootId, none)
  | rootId, b :: rest => do
      match ← attempt (commitIrreversible env b) with
      | some e => pure (rootId, some e)
      | none => do
          match ← attempt (appendToLog env b) with
          | some e => pure (b.id, some e)
          | none => logBlocks b.id rest

def logNum (c : Controller σ) : ℕ :=
  match c.blogHead with
  | some (num, _) => num
  | none => env.firstBlockNum - 1

def checkRoot (c : Controller σ) : ControllerM σ Unit :=
  match c.blogHead with
  | some (_, id) => require (c.forkDb.root.id = id) .forkDatabaseException
      "fork database root does not match block log head"
  | none => require (c.forkDb.root.blockNum = c.logNum env) .forkDatabaseException
      "empty block log expects the first appended block to build off a block that is not the fork database root"

def finishLog : BlockId × Option ChainException → ControllerM σ Unit
  | (rootId, except) => do
      let c ← get
      if rootId ≠ c.forkDb.root.id then onForkDb (advanceRoot rootId)
      match except with
      | some e => throw e
      | none => pure ()

def logIrreversible : ControllerM σ Unit := do
  let c ← get
  checkRoot env c
  let forkHead := if env.readMode = .irreversible then c.forkDb.pendingHead else c.forkDb.head
  if forkHead.dposIrreversibleBlocknum ≤ c.logNum env then pure ()
  else do
    let branch ← lift (c.forkDb.fetchBranch forkHead.id forkHead.dposIrreversibleBlocknum)
    let logged ← logBlocks env c.forkDb.root.id branch.reverse
    finishLog logged

/-! ## `maybe_switch_forks` -/

/-- Apply a block and make it the head.  The block is shared with the fork
database, so the head carries the flag that `mark_valid` sets. -/
def adoptBlock : ControllerM σ Unit := do
  applyBlock env b s
  onForkDb (markValid b)
  setHead { b with validated := true }

def switchStatus : BlockStatus := if b.validated then .validated else .complete

variable (second : List BlockState)

/-- The assertion that the head is where the old branch starts.  For an empty
old branch `branches.second.back()` is undefined. -/
def requireSync (message : String) : ControllerM σ Unit := do
  let c ← get
  match second.getLast? with
  | some b => require (c.head.id = b.prev) .forkDatabaseException message
  | none => throw ⟨.undefinedBehaviour, "back() of an empty vector"⟩

def reapply : List BlockState → ControllerM σ Unit
  | [] => pure ()
  | b :: rest => do
      applyBlock env b .validated
      setHead b
      reapply rest

/-- The end of a reversal: the old branch is applied again and the exception
that ended the switch is rethrown. -/
def resumeOldBranch (except : ChainException) : ControllerM σ Unit := do
  requireSync second "loss of sync between fork_db and chainbase during fork switch reversal"
  reapply env second.reverse
  throw except

/-- Go back to the old branch after `bad` could not be applied on top of
`applied` blocks of the new one. -/
def revertSwitch (bad : BlockState) (applied : ℕ)
    (except : ChainException) : ControllerM σ Unit := do
  onForkDb (remove bad.id)
  popBlocks applied
  resumeOldBranch env second except

def applyBranch : ℕ → List BlockState → ControllerM σ Unit
  | _, [] => pure ()
  | applied, b :: rest => do
      match ← attempt (adoptBlock env b (switchStatus b)) with
      | none => applyBranch (applied + 1) rest
      | some e => revertSwitch env second b applied e

variable (forkedBranchCb : List BlockState → Result Unit)

def popBranch (second : List BlockState) : ControllerM σ Unit :=
  match second with
  | [] => pure ()
  | b :: older => do
      popBlocks (b :: older).length
      requireSync (b :: older) "loss of sync between fork_db and chainbase during fork switch"
      lift (forkedBranchCb (b :: older))

def switchForks (newHead : BlockState) : ControllerM σ Unit := do
  let c ← get
  let (first, second) ← lift (c.forkDb.fetchBranchFrom newHead.id c.head.id)
  popBranch forkedBranchCb second
  applyBranch env second 0 first.reverse

def extendHead (newHead : BlockState) (s : BlockStatus) : ControllerM σ Unit :=
  catchFc (adoptBlock env newHead s) fun e => do
    onForkDb (remove newHead.id)
    throw e

def maybeSwitchForks (newHead : BlockState) (s : BlockStatus) : ControllerM σ Unit := do
  let c ← get
  if newHead.prev = c.head.id then do
    extendHead env newHead s
    logIrreversible env
  else if newHead.id ≠ c.head.id then do
    switchForks env forkedBranchCb newHead
    logIrreversible env
  else pure ()

end Controller

end Inery.Chain
