import Inery.Chain.HeaderChain

/-!
# The producer plugin (`producer_plugin.cpp`)

The plugin as a state machine over the controller it drives: its mode, its watermarks, the pending
block and the one timer through which it wakes itself.  Every task of the application's queue is a
step, which brings the readings of the clock and how the controller fares with a block.  Handlers
that are already queued can no longer be cancelled, so the task of the timer may run until another
one replaces it.  The times at which timers expire are left out.
-/

namespace Inery.Chain

open Foundation

/-! ## The state -/

inductive PendingBlockMode where
  | producing
  | speculating
deriving DecidableEq

inductive StartBlockResult where
  | succeeded
  | failed
  | waitingForBlock
  | waitingForProduction
  | exhausted
deriving DecidableEq

inductive TimerTask where
  | scheduleProductionLoop
  | maybeProduceBlock
deriving DecidableEq

/-- `producer_watermark`: the highest number and the latest time of the blocks
seen from a producer. -/
structure ProducerWatermark where
  blockNum : ℕ
  timestamp : Slot
deriving DecidableEq

/-- `producer_plugin_impl` with the head and the pending block of its
controller.  `published` are the blocks announced by `accepted_block` out of
`produce_block`, newest first. -/
structure ProducerPlugin where
  producers : Finset Name
  signatureProviders : PublicKey → Option (Digest → Signature)
  acceptTransactions : Bool := true
  productionEnabled : Bool := false
  pauseProduction : Bool := false
  maxIrreversibleBlockAgeUs : ℤ := -1000000
  irreversibleBlockTime : TimePoint
  producerWatermarks : Table Name ProducerWatermark := ∅
  pendingBlockMode : PendingBlockMode := .speculating
  timer : Option TimerTask := none
  head : BlockHeaderState
  pending : Option PendingBlockHeaderState := none
  published : List BlockHeaderState := []

/-- What one call of `schedule_production_loop` meets: four readings of the
clock, whether `controller::start_block` throws for a reason outside the header
states, and how far the waiting transactions got. -/
structure LoopInput where
  /-- read by `start_block` -/
  now : TimePoint
  /-- read by `calculate_pending_block_time` -/
  baseNow : TimePoint
  /-- read by `get_irreversible_block_age` -/
  ageNow : TimePoint
  /-- read by `production_disabled_by_policy` -/
  policyNow : TimePoint
  startThrows : Bool := false
  quits : Bool := false
  exhausted : Bool := false
deriving DecidableEq

namespace ProducerPlugin

variable (crypto : HeaderCrypto) (p : ProducerPlugin)

/-! ## Watermarks -/

def getWatermark (producer : Name) : Option ProducerWatermark :=
  p.producerWatermarks.lookup producer

def considerNewWatermark (producer : Name) (blockNum : ℕ) (timestamp : Slot) : ProducerPlugin :=
  match p.getWatermark producer with
  | some w =>
    { p with
      producerWatermarks := p.producerWatermarks.insert producer
        ⟨max w.blockNum blockNum, max w.timestamp timestamp⟩ }
  | none =>
    if producer ∈ p.producers then
      { p with
        producerWatermarks := p.producerWatermarks.insert producer ⟨blockNum, timestamp⟩ }
    else p

def onBlockHeader (b : BlockHeaderState) : ProducerPlugin :=
  p.considerNewWatermark b.header.producer b.blockNum b.header.timestamp

/-- `on_irreversible_block`, for the last block that became irreversible. -/
def onIrreversibleBlock (lib : Option Slot) : ProducerPlugin :=
  { p with irreversibleBlockTime := (lib.map toTimePoint).getD p.irreversibleBlockTime }

/-! ## Starting a block -/

variable (now : TimePoint)

def calculatePendingBlockTime : TimePoint :=
  let base := max now (toTimePoint p.head.header.timestamp)
  base + (Config.blockIntervalUs - base.tmod Config.blockIntervalUs)

def getIrreversibleBlockAge : ℤ :=
  if now < p.irreversibleBlockTime then 0 else now - p.irreversibleBlockTime

/-- Whether the last irreversible block is too old to produce on. -/
def irreversibleTooOld : Bool :=
  0 ≤ p.maxIrreversibleBlockAgeUs ∧ p.maxIrreversibleBlockAgeUs ≤ p.getIrreversibleBlockAge now

def productionDisabledByPolicy : Bool :=
  !p.productionEnabled || p.pauseProduction || p.irreversibleTooOld now

/-- The signature providers for the keys of an authority. -/
def relevantProviders (a : BlockSigningAuthority) : List (Digest → Signature) :=
  a.keys.filterMap fun kw => p.signatureProviders kw.key

/-- Whether the watermark of a producer excludes it from the next block. -/
def watermarkExcludes (producer : Name) (timestamp : Slot) : Bool :=
  (p.getWatermark producer).any fun w =>
    p.head.blockNum < w.blockNum ∨ timestamp ≤ w.timestamp

/-- The mode `start_block` chooses for a block of `scheduled` at `timestamp`. -/
def chooseMode (scheduled : ProducerAuthority) (timestamp : Slot) (ageNow : TimePoint) :
    PendingBlockMode :=
  if !p.productionEnabled then .speculating
  else if scheduled.producerName ∉ p.producers then .speculating
  else if (p.relevantProviders scheduled.authority).length = 0 then .speculating
  else if p.pauseProduction then .speculating
  else if p.irreversibleTooOld ageNow then .speculating
  else if p.watermarkExcludes scheduled.producerName timestamp then .speculating
  else .producing

/-- How many blocks the watermark lets its producer confirm. -/
def confirmable : Option ProducerWatermark → ℕ
  | some w =>
    if w.blockNum < p.head.blockNum then min (2 ^ 16 - 1) (p.head.blockNum - w.blockNum) else 0
  | none => 0

/-- `blocks_to_confirm`; irreversible blocks are not confirmed again. -/
def blocksToConfirm (mode : PendingBlockMode) (producer : Name) : UInt16 :=
  match mode with
  | .speculating => 0
  | .producing => UInt16.ofNat (min (p.confirmable (p.getWatermark producer))
      (u32Sub p.head.blockNum p.head.dposIrreversibleBlocknum))

/-- Whether `calculate_producer_wake_up_time` finds a time: some local producer
is in the active schedule of the head. -/
def hasWakeUpTime : Bool :=
  p.head.activeSchedule.producers.any fun a => a.producerName ∈ p.producers

/-- `schedule_delayed_production_loop( calculate_producer_wake_up_time( … ) )`. -/
def scheduleDelayedProductionLoop : ProducerPlugin :=
  if p.hasWakeUpTime then { p with timer := some .scheduleProductionLoop } else p

def abortBlock : ProducerPlugin := { p with pending := none }

/-- The part of `start_block` that opens a block, in the mode already chosen. -/
def openBlock (scheduled : ProducerAuthority) (timestamp : Slot) (i : LoopInput) :
    StartBlockResult × ProducerPlugin :=
  let confirm := p.blocksToConfirm p.pendingBlockMode scheduled.producerName
  match if i.startThrows then none else (p.head.next crypto timestamp confirm).toOption with
  | none => (.failed, p.abortBlock)
  | some b =>
    let mode :=
      if p.pendingBlockMode = .producing ∧ b.validBlockSigningAuthority ≠ scheduled.authority
      then .speculating else p.pendingBlockMode
    (if i.quits then .failed else if i.exhausted then .exhausted else .succeeded,
      { p with pending := some b, pendingBlockMode := mode })

/-- `start_block`.  On an empty schedule the code divides by zero; the active
schedule of a chain is never empty. -/
def startBlock (i : LoopInput) : StartBlockResult × ProducerPlugin :=
  let blockTime := p.calculatePendingBlockTime i.baseNow
  let timestamp := blockTimestamp blockTime
  match if p.acceptTransactions then p.head.getScheduledProducer timestamp else none with
  | none => (.waitingForBlock, p)
  | some scheduled =>
    let mode := p.chooseMode scheduled timestamp i.ageNow
    let chosen : ProducerPlugin := { p with pendingBlockMode := mode }
    if mode = .speculating ∧ 5000000 < i.now - toTimePoint p.head.header.timestamp then
      (.waitingForBlock, chosen)
    else if mode = .producing ∧ i.now < blockTime - Config.blockIntervalUs then
      -- the block that is pending stays pending
      (.waitingForProduction, chosen.scheduleDelayedProductionLoop)
    else if mode = .speculating ∧ p.pendingBlockMode = .producing then
      (.waitingForProduction, { chosen with timer := some .scheduleProductionLoop })
    else chosen.openBlock crypto scheduled timestamp i

/-- `schedule_maybe_produce_block`, which throws when no block is pending. -/
def scheduleMaybeProduceBlock : ProducerPlugin :=
  match p.pending with
  | some _ => { p with timer := some .maybeProduceBlock }
  | none => p

/-- Whether the plugin sets a timer for the next turn of a local producer. -/
def awaitsTurn : Bool := p.producers ≠ ∅ && !p.productionDisabledByPolicy now

/-- What `schedule_production_loop` does with the result of `start_block`. -/
def schedule (i : LoopInput) : StartBlockResult → ProducerPlugin
  | .failed => { p with timer := some .scheduleProductionLoop }
  | .waitingForBlock =>
    if p.awaitsTurn i.policyNow then p.scheduleDelayedProductionLoop else p
  | .waitingForProduction => p
  | .succeeded | .exhausted =>
    if p.pendingBlockMode = .producing then p.scheduleMaybeProduceBlock
    else if p.awaitsTurn i.policyNow then p.scheduleDelayedProductionLoop else p

def scheduleProductionLoop (i : LoopInput) : ProducerPlugin :=
  let (result, p') := p.startBlock crypto i
  p'.schedule i result

end ProducerPlugin

/-! ## Producing a block -/

/-- How far `commit_block` gets with a block: `fork_db` refuses it; another block is the head after
it was added; it is the head but what follows throws; it is announced, whatever `log_irreversible`
does. -/
inductive CommitOutcome where
  | rejected
  | displaced (head : BlockHeaderState)
  | unannounced
  | announced (lib : Option Slot)
deriving DecidableEq

/-- What `produce_block` meets: the contents of the block, and how the
controller fares with it. -/
structure ProduceInput where
  transactionMroot : Digest := 0
  actionMroot : Digest := 0
  newProducers : Option ProducerAuthoritySchedule := none
  newProtocolFeatureActivations : List Digest := []
  finalizeThrows : Bool := false
  commit : CommitOutcome := .announced none
deriving DecidableEq

namespace ProducerPlugin

variable (crypto : HeaderCrypto) (p : ProducerPlugin)

def commitBlock (b : BlockHeaderState) : CommitOutcome → ProducerPlugin
  | .rejected => p.abortBlock
  | .displaced head => { (p.onBlockHeader b).abortBlock with head }
  | .unannounced => { (p.onBlockHeader b).abortBlock with head := b }
  | .announced lib =>
    { ((p.onBlockHeader b).onIrreversibleBlock lib).abortBlock with
      head := b, published := b :: p.published }

/-- `finalize_block` with the signatures of all relevant providers. -/
def finalizeBlock (b : PendingBlockHeaderState) (i : ProduceInput) : Option BlockHeaderState :=
  if i.finalizeThrows then none
  else Except.toOption do
    let h ← b.makeBlockHeader crypto i.transactionMroot i.actionMroot i.newProducers
      i.newProtocolFeatureActivations
    b.finishNextSigned crypto h fun d =>
      (p.relevantProviders b.validBlockSigningAuthority).map fun sign => sign d

/-- `maybe_produce_block` up to the scheduled restart of the loop: `produce_block`,
and `abort_block` when it throws. -/
def maybeProduceBlock (i : ProduceInput) : ProducerPlugin :=
  match p.pending with
  | none => p
  | some b =>
    if p.pendingBlockMode ≠ .producing then p.abortBlock
    else if (p.relevantProviders b.validBlockSigningAuthority).length = 0 then p.abortBlock
    else
      match p.finalizeBlock crypto b i with
      | none => p.abortBlock
      | some bsp => p.commitBlock bsp i.commit

end ProducerPlugin

/-! ## Tasks -/

/-- What `on_incoming_block` meets.  `accepted` is the block announced by
`accepted_block_header`; head and last irreversible block are those after
`push_block`, which may switch forks and may have thrown. -/
structure IncomingBlock where
  timestamp : Slot
  now : TimePoint
  known : Bool := false
  headerThrows : Bool := false
  accepted : Option BlockHeaderState
  head : BlockHeaderState
  lib : Option Slot := none
  pushThrows : Bool := false
  syncedNow : TimePoint
deriving DecidableEq

/-- The tasks of the application's queue that reach the plugin. -/
inductive ProducerTask where
  | timer (i : ProduceInput)
  | incomingBlock (i : IncomingBlock)
  /-- `exhausted`: the transaction did not fit and the block is full -/
  | incomingTransaction (exhausted : Bool)
  | pause
  | resume
  | setMaxIrreversibleBlockAge (us : ℤ)
  /-- `create_snapshot` and `get_integrity_hash` -/
  | createSnapshot
deriving DecidableEq

namespace ProducerPlugin

variable (crypto : HeaderCrypto) (p : ProducerPlugin)

/-- `_production_enabled` is set once the head is not behind the clock. -/
def markSynced (now : TimePoint) : ProducerPlugin :=
  if p.head.header.timestamp.toNat + 1 < 2 ^ 32 ∧ now ≤ toTimePoint (p.head.header.timestamp + 1)
  then { p with productionEnabled := true } else p

/-- The signal `accepted_block_header`, if `push_block` gets so far. -/
def onAcceptedHeader : Option BlockHeaderState → ProducerPlugin
  | some b => p.onBlockHeader b
  | none => p

/-- `push_block`, as far as the plugin sees it. -/
def pushBlock (i : IncomingBlock) : ProducerPlugin :=
  let pushed := { (p.onAcceptedHeader i.accepted).onIrreversibleBlock i.lib with head := i.head }
  if i.pushThrows then pushed else pushed.markSynced i.syncedNow

/-- `on_incoming_block`, and whether the production loop is restarted. -/
def onIncomingBlock (i : IncomingBlock) : ProducerPlugin × Bool :=
  if p.pendingBlockMode = .producing then (p, false)
  else if toTimePoint i.timestamp < i.now + 7000000 ∧ i.known = false ∧ i.headerThrows = false then
    (p.abortBlock.pushBlock i, true)
  else (p, false)

/-- Restart the loop after a change of policy, if the plugin is speculating. -/
def reconsider : ProducerPlugin × Bool :=
  if p.pendingBlockMode = .speculating then (p.abortBlock, true) else (p, false)

/-- A task up to the point where it calls `schedule_production_loop`, and whether
it does. -/
def begin : ProducerTask → ProducerPlugin × Bool
  | .timer i =>
    match p.timer with
    | none => (p, false)
    | some .scheduleProductionLoop => ({ p with timer := none }, true)
    | some .maybeProduceBlock => ({ p with timer := none }.maybeProduceBlock crypto i, true)
  | .incomingBlock i => p.onIncomingBlock i
  | .incomingTransaction exhausted =>
    if p.pending.isSome ∧ exhausted ∧ p.pendingBlockMode = .producing then
      (p.scheduleMaybeProduceBlock, false)
    else (p, false)
  | .pause => ({ p with pauseProduction := true }, false)
  | .resume => { p with pauseProduction := false }.reconsider
  | .setMaxIrreversibleBlockAge us => { p with maxIrreversibleBlockAgeUs := us }.reconsider
  | .createSnapshot => if p.pending.isSome then (p.abortBlock, true) else (p, false)

/-- One task, with what the production loop meets if the task restarts it. -/
def step (t : ProducerTask) (i : LoopInput) : ProducerPlugin :=
  let (p', restarts) := p.begin crypto t
  if restarts then p'.scheduleProductionLoop crypto i else p'

/-- The plugin before `plugin_startup` calls `schedule_production_loop`. -/
structure Initial : Prop where
  mode : p.pendingBlockMode = .speculating
  noWatermark : p.producerWatermarks = ∅
  noTimer : p.timer = none
  noPending : p.pending = none
  noPublished : p.published = []

end ProducerPlugin

/-- The states of a run without restart in which every call of
`schedule_production_loop` satisfies `Allowed` in the state it is made in. -/
inductive ProducerRun (crypto : HeaderCrypto) (Allowed : ProducerPlugin → LoopInput → Prop) :
    ProducerPlugin → Prop
  | startup {p : ProducerPlugin} (i : LoopInput) : p.Initial → Allowed p i →
      ProducerRun crypto Allowed (p.scheduleProductionLoop crypto i)
  | step {p : ProducerPlugin} (t : ProducerTask) (i : LoopInput) :
      ProducerRun crypto Allowed p → ((p.begin crypto t).2 → Allowed (p.begin crypto t).1 i) →
      ProducerRun crypto Allowed (p.step crypto t i)

end Inery.Chain
