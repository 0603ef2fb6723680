import Inery.Chain.Types
import Mathlib.Data.List.TakeWhile

/-!
# Duplicate input transactions (`transaction_context.cpp`, `controller.cpp`)

A transaction that enters a block is recorded in the transaction index until it expires.  Three
comparisons of times decide what happens to it: the check on entry, the removal of expired rows when
a block starts, and the decision not to record it while old blocks are replayed.

`InputNode` is the node as far as input transactions go: the branch, the pending block, the index
with its undo states, the block log, and the states on disk from which a restart may begin.  The id
of a transaction stands for it; `expirationOf` reads its expiration.
-/

namespace Inery.Chain

open List Std

abbrev TimePointSec := UInt32

/-- The conversion of a `time_point_sec` to a `time_point`. -/
def expirationTime (e : TimePointSec) : TimePoint := e.toNat * 1000000

abbrev TransactionId := Digest

/-! ## The transaction index -/

structure TransactionObject where
  trxId : TransactionId
  expiration : TimePointSec
deriving DecidableEq

/-- The order of `by_expiration`, in which rows with equal expirations stand in
the order of their ids. -/
abbrev ByExpiration (rows : List TransactionObject) : Prop :=
  rows.Pairwise fun a b => a.expiration ≤ b.expiration

/-- The place of a new row: behind every row that does not expire later. -/
def insertByExpiration (rows : List TransactionObject) (t : TransactionObject) :
    List TransactionObject :=
  rows.takeWhile (·.expiration ≤ t.expiration) ++ t :: rows.dropWhile (·.expiration ≤ t.expiration)

variable {rows : List TransactionObject}

theorem mem_insertByExpiration {t r : TransactionObject} :
    r ∈ insertByExpiration rows t ↔ r = t ∨ r ∈ rows := by
  have hsplit : r ∈ rows ↔ r ∈ rows.takeWhile (·.expiration ≤ t.expiration) ∨
      r ∈ rows.dropWhile (·.expiration ≤ t.expiration) := by
    rw [← mem_append, takeWhile_append_dropWhile]
  simp only [insertByExpiration, mem_append, mem_cons, hsplit]
  tauto

/-- What is left behind the leading rows that do not expire later expires later. -/
theorem ByExpiration.lt_of_mem_dropWhile {e : TimePointSec} (h : ByExpiration rows)
    {r : TransactionObject} (hr : r ∈ rows.dropWhile (·.expiration ≤ e)) : e < r.expiration := by
  induction rows with
  | nil => cases hr
  | cons a rest ih =>
    obtain ⟨hfirst, hrest⟩ := pairwise_cons.mp h
    by_cases ha : a.expiration ≤ e
    · rw [dropWhile_cons_of_pos (by simpa using ha)] at hr
      exact ih hrest hr
    · rw [dropWhile_cons_of_neg (by simpa using ha)] at hr
      have hlt : e < a.expiration := not_le.mp ha
      rcases mem_cons.mp hr with rfl | hmem
      · exact hlt
      · exact lt_of_lt_of_le hlt (hfirst r hmem)

theorem ByExpiration.insert (h : ByExpiration rows) (t : TransactionObject) :
    ByExpiration (insertByExpiration rows t) := by
  have hkept : ByExpiration (rows.takeWhile (·.expiration ≤ t.expiration)) :=
    h.sublist (takeWhile_sublist _)
  have hrest : ByExpiration (rows.dropWhile (·.expiration ≤ t.expiration)) :=
    h.sublist (dropWhile_sublist _)
  refine pairwise_append.mpr ⟨hkept, pairwise_cons.mpr ⟨?_, hrest⟩, ?_⟩
  · intro r hr
    exact le_of_lt (h.lt_of_mem_dropWhile hr)
  · intro a ha b hb
    have hle : a.expiration ≤ t.expiration := by
      simpa using mem_takeWhile_imp ha
    rcases mem_cons.mp hb with rfl | hmem
    · exact hle
    · exact le_trans hle (le_of_lt (h.lt_of_mem_dropWhile hmem))

/-- The `transaction_multi_index`, in the order of `by_expiration`. -/
structure TransactionIndex where
  rows : List TransactionObject := []
  sorted : ByExpiration rows := by exact List.Pairwise.nil
deriving DecidableEq

namespace TransactionIndex

def recordTransaction (ix : TransactionIndex) (id : TransactionId) (expire : TimePointSec) :
    Result TransactionIndex := do
  ineAssert (∀ row ∈ ix.rows, row.trxId ≠ id) .txDuplicate "duplicate transaction ${id}"
  pure ⟨insertByExpiration ix.rows ⟨id, expire⟩, ix.sorted.insert _⟩

/-- `clear_expired_input_transactions`: the loop removes the first row while it is
expired. -/
def clearExpiredInputTransactions (ix : TransactionIndex) (now : TimePoint) : TransactionIndex :=
  ⟨ix.rows.dropWhile fun row => expirationTime row.expiration < now,
    ix.sorted.sublist (dropWhile_sublist _)⟩

end TransactionIndex

/-! ## Pushing a transaction -/

def validateExpiration (expiration : TimePointSec) (pendingBlockTime : TimePoint)
    (maxTransactionLifetime : ℕ) : Result Unit := do
  ineAssert (pendingBlockTime ≤ expirationTime expiration) .expiredTxException
    "transaction has expired, expiration is ${trx.expiration} and pending block time is ${pending_block_time}"
  ineAssert (expirationTime expiration ≤ pendingBlockTime + maxTransactionLifetime * 1000000)
    .txExpTooFarException
    "Transaction expiration is too far in the future relative to the reference time of ${reference_time}, expiration is ${trx.expiration} and the maximum transaction lifetime is ${max_til_exp} seconds"

/-- What a call of `push_transaction` meets: whether the checks of transactions are
skipped, the configured lifetime, and everything else that may fail. -/
structure PushConditions where
  skipTrxChecks : Bool
  maxTransactionLifetime : ℕ
  otherwise : Result Unit := .ok ()

variable (expirationOf : TransactionId → TimePointSec)

/-- The part of `init_for_input_trx` under `skip_trx_checks`. -/
def PushConditions.check (c : PushConditions) (pendingBlockTime : TimePoint)
    (id : TransactionId) : Result Unit :=
  if c.skipTrxChecks then pure ()
  else validateExpiration (expirationOf id) pendingBlockTime c.maxTransactionLifetime

def skipRecording (replayHeadTime : Option TimePoint) (id : TransactionId) : Bool :=
  replayHeadTime.any fun t => expirationTime (expirationOf id) ≤ t

/-- The end of `init_for_input_trx`. -/
def TransactionIndex.recordUnless (ix : TransactionIndex) (skipRecording : Bool)
    (id : TransactionId) : Result TransactionIndex :=
  if skipRecording then pure ix else ix.recordTransaction id (expirationOf id)

/-- `push_transaction` for an input transaction, as far as the index goes.  A failure
undoes the session of the transaction. -/
def TransactionIndex.pushTransaction (ix : TransactionIndex) (replayHeadTime : Option TimePoint)
    (pendingBlockTime : TimePoint) (c : PushConditions) (id : TransactionId) :
    Result TransactionIndex := do
  c.check expirationOf pendingBlockTime id
  let ix ← ix.recordUnless expirationOf (skipRecording expirationOf replayHeadTime id) id
  c.otherwise
  pure ix

/-! ## Blocks and nodes -/

/-- An input transaction of a block, and whether it was accepted with the checks of
transactions enabled. -/
structure AcceptedInput where
  id : TransactionId
  checked : Bool
deriving DecidableEq

/-- A block and its input transactions, newest first. -/
structure InputBlock where
  timestamp : Slot
  inputs : List AcceptedInput
deriving DecidableEq

open InputBlock

structure LoggedBlock where
  timestamp : Slot
  ids : List TransactionId
deriving DecidableEq

def InputBlock.logged (b : InputBlock) : LoggedBlock := ⟨b.timestamp, b.inputs.map (·.id)⟩

/-- The node.  All lists are newest first; `undo` are the states of the index before
each reversible block and before the pending one. -/
structure InputNode where
  branch : List InputBlock := []
  pending : Option InputBlock := none
  index : TransactionIndex := {}
  undo : List TransactionIndex := []
  blockLog : List LoggedBlock := []
  replayHeadTime : Option TimePoint := none
  /-- the states on disk: the branch and the index at a block boundary -/
  stored : List (List InputBlock × TransactionIndex) := [([], {})]

namespace InputNode

variable (n : InputNode)

def Replayed : Prop := n.blockLog <:+ n.branch.map logged

/-- `start_block`.  In a speculative block of a node that does not execute
speculatively nothing is cleared. -/
def startBlock (timestamp : Slot) (clears : Bool) : InputNode :=
  { n with
    pending := some ⟨timestamp, []⟩
    undo := n.index :: n.undo
    index := if clears then n.index.clearExpiredInputTransactions (toTimePoint timestamp)
      else n.index }

def pushTransaction (b : InputBlock) (c : PushConditions) (id : TransactionId) :
    Result InputNode := do
  let index ← n.index.pushTransaction expirationOf n.replayHeadTime (toTimePoint b.timestamp) c id
  pure { n with index, pending := some { b with inputs := ⟨id, !c.skipTrxChecks⟩ :: b.inputs } }

def undoSession : InputNode := { n with index := n.undo.headD n.index, undo := n.undo.tail }

def abortBlock : InputNode := { n.undoSession with pending := none }

def commitBlock (b : InputBlock) : InputNode := { n with branch := b :: n.branch, pending := none }

def popBlock : InputNode := { n.undoSession with branch := n.branch.tail }

/-- `log_irreversible`: the blocks below the newest `reversible` ones are logged and
their undo states dropped. -/
def logIrreversible (reversible : ℕ) : InputNode :=
  { n with
    blockLog := (n.branch.drop reversible).map logged
    undo := n.undo.take reversible }

def replayInputs (replayHeadTime : Option TimePoint) (now : TimePoint) :
    List (TransactionId × PushConditions) → TransactionIndex → Result TransactionIndex
  | [], ix => pure ix
  | (id, c) :: rest, ix => do
      let ix ← ix.pushTransaction expirationOf replayHeadTime now c id
      replayInputs replayHeadTime now rest ix

/-- `replay_push_block` of a logged block: the conditions under which each of its
transactions, oldest first, is pushed.  An irreversible block keeps no undo state. -/
def replayBlock (timestamp : Slot) (inputs : List (TransactionId × PushConditions)) :
    Result InputNode := do
  let index ← replayInputs expirationOf n.replayHeadTime (toTimePoint timestamp) inputs
    (n.index.clearExpiredInputTransactions (toTimePoint timestamp))
  let accepted := inputs.map fun i => (⟨i.1, !i.2.skipTrxChecks⟩ : AcceptedInput)
  pure { n with index, branch := ⟨timestamp, accepted.reverse⟩ :: n.branch }

def beginReplay (branch : List InputBlock) (index : TransactionIndex)
    (undo : List TransactionIndex) : InputNode :=
  { n with
    branch, index, undo
    pending := none
    replayHeadTime := n.blockLog.head?.map fun b => toTimePoint b.timestamp }

end InputNode

inductive InputStep : InputNode → InputNode → Prop
  | startBlock {n : InputNode} (timestamp : Slot) (clears : Bool) :
      n.pending = none → n.Replayed →
      (∀ b ∈ n.branch.head?, b.timestamp < timestamp) →
      InputStep n (n.startBlock timestamp clears)
  | pushTransaction {n n' : InputNode} {b : InputBlock} (c : PushConditions) (id : TransactionId) :
      n.pending = some b → n.pushTransaction expirationOf b c id = .ok n' → InputStep n n'
  | abortBlock {n : InputNode} {b : InputBlock} : n.pending = some b → InputStep n n.abortBlock
  | commitBlock {n : InputNode} {b : InputBlock} :
      n.pending = some b → InputStep n (n.commitBlock b)
  | popBlock {n : InputNode} :
      n.pending = none → n.blockLog.length < n.branch.length → n.Replayed →
      InputStep n n.popBlock
  | logIrreversible {n : InputNode} (reversible : ℕ) :
      n.pending = none → n.Replayed → reversible + n.blockLog.length ≤ n.branch.length →
      InputStep n (n.logIrreversible reversible)
  /-- a state is kept on disk, such as a snapshot -/
  | store {n : InputNode} : n.pending = none →
      InputStep n { n with stored := (n.branch, n.index) :: n.stored }
  /-- a restart on the state that was left, once what was pending is undone -/
  | restart {n : InputNode} : n.pending = none → InputStep n (n.beginReplay n.branch n.index n.undo)
  /-- a restart on a stored state whose head is irreversible -/
  | restartStored {n : InputNode} {branch : List InputBlock} {index : TransactionIndex} :
      (branch, index) ∈ n.stored → branch.map logged <:+ n.blockLog →
      InputStep n (n.beginReplay branch index [])
  | replayBlock {n n' : InputNode} {b : LoggedBlock}
      (inputs : List (TransactionId × PushConditions)) :
      n.pending = none → b :: n.branch.map logged <:+ n.blockLog →
      b.ids = (inputs.map (·.1)).reverse →
      n.replayBlock expirationOf b.timestamp inputs = .ok n' → InputStep n n'
  | finishReplay {n : InputNode} : n.Replayed → InputStep n { n with replayHeadTime := none }

inductive InputReached : InputNode → Prop
  | genesis : InputReached {}
  | step {n n' : InputNode} : InputReached n → InputStep expirationOf n n' → InputReached n'

end Inery.Chain
