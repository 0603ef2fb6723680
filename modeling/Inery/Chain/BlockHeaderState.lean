import Inery.Chain.BlockHeader

/-!
# Block header states (`block_header_state.cpp`)

`next` turns a header state into the pending state of its child and `finishNext` closes it with a
signed header.  The body of `next` is cut where the source has comments: the confirmation window,
the irreversible number, and the two producer maps.
-/

namespace Inery.Chain

open Foundation Config

/-! ## The states -/

structure ScheduleInfo where
  scheduleLibNum : ℕ := 0
  scheduleHash : Digest := 0
  schedule : ProducerAuthoritySchedule := {}
deriving DecidableEq

structure BlockHeaderStateCommon where
  blockNum : ℕ := 0
  dposProposedIrreversibleBlocknum : ℕ := 0
  dposIrreversibleBlocknum : ℕ := 0
  activeSchedule : ProducerAuthoritySchedule := {}
  blockrootMerkle : IncrementalMerkle := {}
  producerToLastProduced : Table Name ℕ := ∅
  producerToLastImpliedIrb : Table Name ℕ := ∅
  validBlockSigningAuthority : BlockSigningAuthority := {}
  confirmCount : List ℕ := []
deriving DecidableEq

structure PendingBlockHeaderState extends BlockHeaderStateCommon where
  prevActivatedProtocolFeatures : Finset Digest := ∅
  prevPendingSchedule : ScheduleInfo := {}
  wasPendingPromoted : Bool := false
  previous : BlockId := 0
  producer : Name := 0
  timestamp : Slot := 0
  activeScheduleVersion : ℕ := 0
  confirmed : UInt16 := 1
deriving DecidableEq

structure BlockHeaderState extends BlockHeaderStateCommon where
  id : BlockId := 0
  header : SignedBlockHeader := {}
  pendingSchedule : ScheduleInfo := {}
  activatedProtocolFeatures : Finset Digest := ∅
  additionalSignatures : List Signature := []
  headerExts : List BlockHeaderExtension := []
deriving DecidableEq

variable (crypto : HeaderCrypto)

def isBuiltinActivated (activated : Finset Digest) (feature : BuiltinProtocolFeature) : Bool :=
  match crypto.builtinDigest feature with
  | some digest => digest ∈ activated
  | none => false

/-! ## The confirmation window -/

/-- `required_confs` for a schedule of `n` producers. -/
def requiredConfs (n : ℕ) : ℕ := u32 (u32 (n * 2 / 3) + 1)

def growConfirmCount (confirmCount : List ℕ) (n : ℕ) : List ℕ :=
  if confirmCount.length < maximumTrackedDposConfirmations then
    confirmCount ++ [u8 (requiredConfs n)]
  else
    confirmCount.tail ++ [u8 (requiredConfs n)]

/-- The loop over the confirmed range, newest block first.  The first argument
is one past the index `i` of the source.  Returns the counts and the number
proposed as irreversible. -/
def confirmLoop (blockNum : ℕ) : ℕ → ℕ → List ℕ → ℕ → List ℕ × ℕ
  | 0, _, counts, proposed => (counts, proposed)
  | _ + 1, 0, counts, proposed => (counts, proposed)
  | i + 1, blocksToConfirm + 1, counts, proposed =>
    let count := u8Pred (counts.getD i 0)
    if count = 0 then
      (counts.drop (i + 1), u32Sub blockNum (counts.length - 1 - i))
    else
      confirmLoop blockNum i blocksToConfirm (counts.set i count) proposed

/-! ## The producer maps -/

/-- The loop by which a promotion rebuilds a producer map: the producer of the
block gets `own`, a producer known to the old map keeps its entry, a newcomer
gets the irreversible number. -/
def promotedMap (producers : List ProducerAuthority) (producer : Name)
    (own irreversible : ℕ) (old : Table Name ℕ) : Table Name ℕ :=
  Table.tabulate (producers.map (·.producerName)) fun name =>
    if name = producer then own else (old.lookup name).getD irreversible

namespace BlockHeaderState

variable (s : BlockHeaderState)

/-- `get_scheduled_producer`; `none` divides by the size of an empty schedule. -/
def getScheduledProducer (t : Slot) : Option ProducerAuthority :=
  let index := t.toNat % (s.activeSchedule.producers.length * producerRepetitions)
  s.activeSchedule.producers[index / producerRepetitions]?

/-- The numbers `calc_dpos_last_irreversible` selects from. -/
def impliedIrbs (producerOfNextBlock : Name) : Multiset ℕ :=
  Table.collect s.producerToLastImpliedIrb fun producer irb =>
    if producer = producerOfNextBlock then s.dposProposedIrreversibleBlocknum else irb

def calcDposLastIrreversible (producerOfNextBlock : Name) : ℕ :=
  let blocknums := s.impliedIrbs producerOfNextBlock
  if blocknums.card = 0 then 0 else nthElement blocknums ((blocknums.card - 1) / 3)

/-- Whether the child produced by `producer` promotes the pending schedule. -/
def promotes (producer : Name) : Bool :=
  s.pendingSchedule.schedule.producers.length ≠ 0 ∧
    s.pendingSchedule.scheduleLibNum ≤ s.calcDposLastIrreversible producer

def nextConfirmations (numPrevBlocksToConfirm : UInt16) : List ℕ × ℕ :=
  let counts := growConfirmCount s.confirmCount s.activeSchedule.producers.length
  confirmLoop (u32 (s.blockNum + 1)) counts.length (numPrevBlocksToConfirm.toNat + 1)
    counts s.dposProposedIrreversibleBlocknum

/-- The part of the child that both state types share. -/
def nextCommon (proauth : ProducerAuthority)
    (numPrevBlocksToConfirm : UInt16) (blockrootMerkle : IncrementalMerkle) :
    BlockHeaderStateCommon :=
  let blockNum := u32 (s.blockNum + 1)
  let (confirmCount, proposed) := s.nextConfirmations numPrevBlocksToConfirm
  let irreversible := s.calcDposLastIrreversible proauth.producerName
  let producers := s.pendingSchedule.schedule.producers
  { blockNum
    confirmCount
    blockrootMerkle
    dposProposedIrreversibleBlocknum := proposed
    dposIrreversibleBlocknum := irreversible
    validBlockSigningAuthority := proauth.authority
    activeSchedule :=
      if s.promotes proauth.producerName then s.pendingSchedule.schedule
      else s.activeSchedule
    producerToLastProduced :=
      if s.promotes proauth.producerName then
        (promotedMap producers proauth.producerName blockNum irreversible
          s.producerToLastProduced).insert proauth.producerName blockNum
      else s.producerToLastProduced.insert proauth.producerName blockNum
    producerToLastImpliedIrb :=
      -- the producer vouches for what was proposed before its own block
      if s.promotes proauth.producerName then
        promotedMap producers proauth.producerName
          s.dposProposedIrreversibleBlocknum irreversible s.producerToLastImpliedIrb
      else s.producerToLastImpliedIrb.insert proauth.producerName
        s.dposProposedIrreversibleBlocknum }

def next (when : Slot) (numPrevBlocksToConfirm : UInt16) : Result PendingBlockHeaderState := do
  ineAssert (when ≠ 0 → s.header.timestamp < when) .blockValidateException
    "next block must be in the future"
  let when := if when ≠ 0 then when else s.header.timestamp + 1
  match s.getScheduledProducer when with
  | none => .error ⟨.undefinedBehaviour, "get_scheduled_producer on an empty schedule"⟩
  | some proauth => do
    ineAssert (∀ lastProduced ∈ s.producerToLastProduced.lookup proauth.producerName,
        lastProduced < u32Sub (u32 (s.blockNum + 1)) numPrevBlocksToConfirm.toNat)
      .producerDoubleConfirm "producer ${prod} double-confirming known range"
    match s.blockrootMerkle.append crypto.hashPair s.id with
    | none => .error ⟨.undefinedBehaviour, "incremental_merkle reads past its active nodes"⟩
    | some blockrootMerkle =>
      pure
        { toBlockHeaderStateCommon := s.nextCommon proauth numPrevBlocksToConfirm blockrootMerkle
          previous := s.id
          timestamp := when
          confirmed := numPrevBlocksToConfirm
          activeScheduleVersion := s.activeSchedule.version
          prevActivatedProtocolFeatures := s.activatedProtocolFeatures
          producer := proauth.producerName
          prevPendingSchedule := s.pendingSchedule
          wasPendingPromoted := s.promotes proauth.producerName }

def sigDigest : Digest :=
  crypto.hashPair (crypto.hashPair (crypto.headerDigest s.header) s.blockrootMerkle.getRoot)
    s.pendingSchedule.scheduleHash

end BlockHeaderState

/-! ## Signatures -/

def BlockSigningAuthority.keysSatisfyAndRelevant (a : BlockSigningAuthority)
    (presentedKeys : Finset PublicKey) : Bool × ℕ :=
  let (totalWeight, numRelevantKeys) := a.keys.foldl (fun (totalWeight, numRelevantKeys) kw =>
    if kw.key ∈ presentedKeys then
      (if totalWeight < a.threshold then
          totalWeight + min (2 ^ 32 - 1 - totalWeight) kw.weight.toNat
        else totalWeight, numRelevantKeys + 1)
    else (totalWeight, numRelevantKeys)) (0, 0)
  (a.threshold ≤ totalWeight, numRelevantKeys)

/-- The set of keys behind the additional signatures, added to `keys`. -/
def recoverAdditionalKeys (digest : Digest) :
    List Signature → Finset PublicKey → Result (Finset PublicKey)
  | [], keys => pure keys
  | sig :: rest, keys => do
      let key ← crypto.recoverKey sig digest
      ineAssert (key ∉ keys) .wrongSigningKey "block signed by same key twice"
      recoverAdditionalKeys digest rest (insert key keys)

namespace BlockHeaderState

def verifySignee (s : BlockHeaderState) : Result Unit := do
  ineAssert (1 + s.additionalSignatures.length ≤ s.validBlockSigningAuthority.keys.length)
    .wrongSigningKey
    "number of block signatures (${num_block_signatures}) exceeds number of keys in block signing authority (${num_keys})"
  let digest := s.sigDigest crypto
  let key ← crypto.recoverKey s.header.producerSignature digest
  let keys ← recoverAdditionalKeys crypto digest s.additionalSignatures {key}
  let (isSatisfied, relevantSigCount) := s.validBlockSigningAuthority.keysSatisfyAndRelevant keys
  ineAssert (relevantSigCount = keys.card) .wrongSigningKey "block signed by unexpected key"
  ineAssert isSatisfied .wrongSigningKey
    "block signatures do not satisfy the block signing authority"

def sign (s : BlockHeaderState) (signer : Digest → List Signature) : Result BlockHeaderState := do
  let sigs := signer (s.sigDigest crypto)
  ineAssert (sigs ≠ []) .noBlockSignatures "Signer returned no signatures"
  let signed : BlockHeaderState :=
    { s with
      header := { s.header with producerSignature := sigs.getLastD 0 }
      additionalSignatures := sigs.dropLast }
  signed.verifySignee crypto
  pure signed

end BlockHeaderState

/-! ## Assembling a header -/

/-- `emplace_extension`: behind every extension whose id is not larger. -/
def emplaceExtension (exts : List BlockHeaderExtension) (e : BlockHeaderExtension) :
    List BlockHeaderExtension :=
  exts.takeWhile (·.extensionId ≤ e.extensionId) ++
    e :: exts.dropWhile (·.extensionId ≤ e.extensionId)

/-- The legacy form of a producer, which has exactly one key that suffices. -/
def ProducerAuthority.downgrade (p : ProducerAuthority) : Result ProducerKey :=
  match p.authority.keys with
  | [kw] => do
      ineAssert (kw.weight.toNat = p.authority.threshold) .producerScheduleException
        "multisig block signing present before enabled!"
      pure ⟨p.producerName, kw.key⟩
  | _ => .error ⟨.producerScheduleException, "multisig block signing present before enabled!"⟩

variable (p : PendingBlockHeaderState)

def PendingBlockHeaderState.makeBlockHeader (transactionMroot actionMroot : Digest)
    (newProducers : Option ProducerAuthoritySchedule)
    (newProtocolFeatureActivations : List Digest) : Result SignedBlockHeader := do
  let h : SignedBlockHeader :=
    { timestamp := p.timestamp
      producer := p.producer
      confirmed := p.confirmed
      previous := p.previous
      transactionMroot
      actionMroot
      scheduleVersion := p.activeScheduleVersion
      headerExtensions :=
        if newProtocolFeatureActivations.length > 0 then
          emplaceExtension [] (.protocolFeatureActivation newProtocolFeatureActivations)
        else [] }
  match newProducers with
  | none => pure h
  | some newProducers =>
    if isBuiltinActivated crypto p.prevActivatedProtocolFeatures .wtmsigBlockSignatures then
      pure { h with
        headerExtensions :=
          emplaceExtension h.headerExtensions (.producerScheduleChange newProducers) }
    else do
      let producers ← newProducers.producers.mapM ProducerAuthority.downgrade
      pure { h with newProducers := some ⟨newProducers.version, producers⟩ }

/-! ## Closing a pending state -/

/-- `protocol_feature_activation_set`: the union, which must be disjoint. -/
def addActivatedFeatures (prev : Finset Digest) (newFeatures : List Digest) :
    Result (Finset Digest) := do
  ineAssert (newFeatures.Nodup ∧ ∀ d ∈ newFeatures, d ∉ prev)
    .invalidBlockHeaderExtension "duplication of protocol feature digests"
  pure (prev ∪ newFeatures.toFinset)

namespace PendingBlockHeaderState

/-- The four assertions that guard a new schedule, whichever way the header
carries it. -/
def checkNewSchedule (allowed : Bool) (message : String) (version : ℕ) : Result Unit := do
  ineAssert allowed .producerScheduleException message
  ineAssert (!p.wasPendingPromoted) .producerScheduleException
    "cannot set pending producer schedule in the same block in which pending was promoted to active"
  ineAssert (version = u32 (p.activeSchedule.version + 1)) .producerScheduleException
    "wrong producer schedule version specified"
  ineAssert (p.prevPendingSchedule.schedule.producers = []) .producerScheduleException
    "cannot set new pending producers until last pending is confirmed"

def legacyProducerSchedule
    (h : SignedBlockHeader) : Result (Option (ProducerAuthoritySchedule × Digest)) :=
  match h.newProducers with
  | none => pure none
  | some newProducers => do
      p.checkNewSchedule
        (!isBuiltinActivated crypto p.prevActivatedProtocolFeatures .wtmsigBlockSignatures)
        "Block header contains legacy producer schedule outdated by activation of WTMsig Block Signatures"
        newProducers.version
      pure (some (newProducers.toAuthoritySchedule, crypto.hashLegacySchedule newProducers))

/-- The new schedule and its hash that a header announces.  The extension is
read after the legacy field and wins over it. -/
def newProducerSchedule (h : SignedBlockHeader) (exts : List BlockHeaderExtension) :
    Result (Option (ProducerAuthoritySchedule × Digest)) := do
  let legacy ← p.legacyProducerSchedule crypto h
  match scheduleChange? exts with
  | none => pure legacy
  | some newProducerSchedule => do
      p.checkNewSchedule
        (isBuiltinActivated crypto p.prevActivatedProtocolFeatures .wtmsigBlockSignatures)
        "Block header producer_schedule_change_extension before activation of WTMsig Block Signatures"
        newProducerSchedule.version
      pure (some (newProducerSchedule, crypto.hashSchedule newProducerSchedule))

def newActivatedProtocolFeatures (exts : List BlockHeaderExtension) : Result (Finset Digest) :=
  match featureActivation? exts with
  | none => pure p.prevActivatedProtocolFeatures
  | some features => do
      crypto.validator p.timestamp p.prevActivatedProtocolFeatures features
      addActivatedFeatures p.prevActivatedProtocolFeatures features

def finishPendingSchedule (new : Option (ProducerAuthoritySchedule × Digest)) : ScheduleInfo :=
  match new with
  | some (schedule, scheduleHash) => ⟨p.blockNum, scheduleHash, schedule⟩
  | none =>
    { p.prevPendingSchedule with
      schedule :=
        if p.wasPendingPromoted then ⟨p.prevPendingSchedule.schedule.version, []⟩
        else p.prevPendingSchedule.schedule }

def finishNextUnsigned (h : SignedBlockHeader) : Result BlockHeaderState := do
  ineAssert (h.timestamp = p.timestamp) .blockValidateException "timestamp mismatch"
  ineAssert (h.previous = p.previous) .unlinkableBlockException "previous mismatch"
  ineAssert (h.confirmed = p.confirmed) .blockValidateException "confirmed mismatch"
  ineAssert (h.producer = p.producer) .wrongProducer "wrong producer specified"
  ineAssert (h.scheduleVersion = p.activeScheduleVersion) .producerScheduleException
    "schedule_version in signed block is corrupted"
  let exts ← h.validateAndExtractHeaderExtensions
  let new ← p.newProducerSchedule crypto h exts
  let activated ← p.newActivatedProtocolFeatures crypto exts
  pure
    { toBlockHeaderStateCommon := p.toBlockHeaderStateCommon
      id := h.id crypto
      header := h
      headerExts := exts
      pendingSchedule := p.finishPendingSchedule new
      activatedProtocolFeatures := activated }

def finishNext (h : SignedBlockHeader)
    (additionalSignatures : List Signature) (skipValidateSignee : Bool) :
    Result BlockHeaderState := do
  ineAssert (additionalSignatures ≠ [] →
      isBuiltinActivated crypto p.prevActivatedProtocolFeatures .wtmsigBlockSignatures)
    .producerScheduleException
    "Block contains multiple signatures before WTMsig block signatures are enabled"
  let result ← p.finishNextUnsigned crypto h
  let result := { result with additionalSignatures }
  if skipValidateSignee then pure ()
  else result.verifySignee crypto
  pure result

def finishNextSigned (h : SignedBlockHeader) (signer : Digest → List Signature) :
    Result BlockHeaderState := do
  let result ← p.finishNextUnsigned crypto h
  let result ← result.sign crypto signer
  ineAssert (result.additionalSignatures ≠ [] →
      isBuiltinActivated crypto p.prevActivatedProtocolFeatures .wtmsigBlockSignatures)
    .producerScheduleException
    "Block was signed with multiple signatures before WTMsig block signatures are enabled"
  pure result

end PendingBlockHeaderState

namespace BlockHeaderState

/-- `next( h, … )`: the transition for a received header. -/
def nextHeader (s : BlockHeaderState) (h : SignedBlockHeader)
    (additionalSignatures : List Signature) (skipValidateSignee : Bool) :
    Result BlockHeaderState := do
  let pending ← s.next crypto h.timestamp h.confirmed
  pending.finishNext crypto h additionalSignatures skipValidateSignee

end BlockHeaderState

/-! ## Genesis -/

/-- The fields of `genesis_state` that `initialize_blockchain_state` reads. -/
structure GenesisState where
  initialKey : PublicKey
  initialTimestamp : Slot
  chainId : Digest
deriving DecidableEq

def genesisHeaderState (genesis : GenesisState) : BlockHeaderState :=
  let initialSchedule : ProducerAuthoritySchedule :=
    ⟨0, [⟨systemAccountName, ⟨1, [⟨genesis.initialKey, 1⟩]⟩⟩]⟩
  let initialLegacySchedule : LegacyProducerSchedule :=
    ⟨0, [⟨systemAccountName, genesis.initialKey⟩]⟩
  let header : SignedBlockHeader :=
    { timestamp := genesis.initialTimestamp, actionMroot := genesis.chainId }
  { activeSchedule := initialSchedule
    pendingSchedule := ⟨0, crypto.hashLegacySchedule initialLegacySchedule, initialSchedule⟩
    header
    id := header.id crypto
    blockNum := header.blockNum }

end Inery.Chain
