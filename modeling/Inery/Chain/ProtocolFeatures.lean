import Inery.Chain.BlockHeaderState
import Inery.Foundation.SnapshotStack
import Inery.Foundation.Stateful

/-!
# Protocol features (`protocol_feature_manager.cpp`, `controller.cpp`)

Activated protocol features are recorded three times: as a set in the header states, as a list in
the `protocol_state_object` of the database, and in the `protocol_feature_manager`, which keeps a
vector in the order of activation and a list through the entries of the builtin features.  The
controller is the real one as far as these go; what else may fail comes with each call.
-/

namespace Inery.Chain

open Foundation Stateful

/-! ## The manager -/

/-- The fields of `protocol_feature` that activation reads. -/
structure ProtocolFeature where
  builtinFeature : Option BuiltinProtocolFeature
  preactivationRequired : Bool := false
deriving DecidableEq

/-- `protocol_feature_set`: the recognized features by their digests. -/
structure ProtocolFeatureSet where
  find : Digest → Option ProtocolFeature

def ProtocolFeatureSet.builtinOf (pfs : ProtocolFeatureSet) (d : Digest) :
    Option BuiltinProtocolFeature :=
  (pfs.find d).bind (·.builtinFeature)

def notActive : ℕ := 2 ^ 32 - 1

structure BuiltinEntry where
  previous : Option BuiltinProtocolFeature := none
  activationBlockNum : ℕ := notActive
deriving DecidableEq

structure ProtocolFeatureManager where
  activatedProtocolFeatures : List (Digest × ℕ) := []
  builtinProtocolFeatures : BuiltinProtocolFeature → BuiltinEntry := fun _ => {}
  headOfBuiltinActivationList : Option BuiltinProtocolFeature := none

namespace ProtocolFeatureManager

variable (m : ProtocolFeatureManager)

def isBuiltinActivated (codename : BuiltinProtocolFeature) (currentBlockNum : ℕ) : Bool :=
  (m.builtinProtocolFeatures codename).activationBlockNum ≤ currentBlockNum

/-- The features from `cbegin` up to `upper_bound( block_num )`. -/
def reported (blockNum : ℕ) : List Digest :=
  (m.activatedProtocolFeatures.takeWhile (·.2 ≤ blockNum)).map (·.1)

/-- The end of `activate_feature`: the vector and the linked list grow. -/
def link (d : Digest) (codename : BuiltinProtocolFeature)
    (currentBlockNum : ℕ) : ProtocolFeatureManager where
  activatedProtocolFeatures := m.activatedProtocolFeatures ++ [(d, currentBlockNum)]
  builtinProtocolFeatures := Function.update m.builtinProtocolFeatures codename
    ⟨m.headOfBuiltinActivationList, currentBlockNum⟩
  headOfBuiltinActivationList := some codename

def activateFeature (pfs : ProtocolFeatureSet) (m : ProtocolFeatureManager) (d : Digest)
    (currentBlockNum : ℕ) : Result ProtocolFeatureManager :=
  match pfs.find d with
  | none => .error ⟨.protocolFeatureException, "unrecognized protocol feature digest: ${digest}"⟩
  | some f => do
      ineAssert (∀ last ∈ m.activatedProtocolFeatures.getLast?, last.2 ≤ currentBlockNum)
        .protocolFeatureException
        "last protocol feature activation block num is ${last_activation_block_num} yet attempting to activate protocol feature with a current block num of ${current_block_num}protocol features is ${last_activation_block_num}"
      match f.builtinFeature with
      | none => .error ⟨.protocolFeatureException,
          "invariant failure: encountered non-builtin protocol feature which is not yet supported"⟩
      | some codename => do
          ineAssert ((m.builtinProtocolFeatures codename).activationBlockNum = notActive)
            .protocolFeatureException
            "cannot activate already activated builtin feature with digest: ${digest}"
          pure (m.link d codename currentBlockNum)

/-- The first loop of `popped_blocks_to`, along the linked list.  The fuel is the
length of the list. -/
def popBuiltins (blockNum : ℕ) : ℕ → ProtocolFeatureManager → ProtocolFeatureManager
  | 0, m => m
  | fuel + 1, m =>
    match m.headOfBuiltinActivationList with
    | none => m
    | some codename =>
      let e := m.builtinProtocolFeatures codename
      if e.activationBlockNum ≤ blockNum then m
      else popBuiltins blockNum fuel
        { m with
          headOfBuiltinActivationList := e.previous
          builtinProtocolFeatures := Function.update m.builtinProtocolFeatures codename {} }

def poppedBlocksTo (blockNum : ℕ) : ProtocolFeatureManager :=
  let m := m.popBuiltins blockNum m.activatedProtocolFeatures.length
  { m with
    activatedProtocolFeatures :=
      m.activatedProtocolFeatures.rdropWhile fun e => blockNum < e.2 }

end ProtocolFeatureManager

/-! ## The controller -/

/-- The lists of features in the `protocol_state_object`. -/
structure ProtocolState where
  preactivatedProtocolFeatures : List Digest := []
  activatedProtocolFeatures : List (Digest × ℕ) := []
deriving DecidableEq

/-- A header state: its number and its set of activated features. -/
structure FeatureHead where
  blockNum : ℕ
  activatedProtocolFeatures : Finset Digest
deriving DecidableEq

/-- `building_block`: the features the block announces, how many of them have been
activated, and whether the block has an undo session. -/
structure PendingFeatures where
  newProtocolFeatureActivations : List Digest
  numActivated : ℕ
  session : Bool
deriving DecidableEq

/-- The controller.  `below` are the header states under the head, down to the root of
the fork database. -/
structure FeatureController where
  head : FeatureHead
  below : List FeatureHead := []
  db : SnapshotStack ProtocolState
  protocolFeatures : ProtocolFeatureManager := {}
  pending : Option PendingFeatures := none

/-- The state of the loop in `start_block`: the manager, the local map of features (a
preactivated one is `false` until it is activated) and the counter. -/
structure ActivationLoop where
  protocolFeatures : ProtocolFeatureManager
  activatedProtocolFeatures : Table Digest Bool
  numPreactivatedThatHaveActivated : ℕ := 0

/-- What a call of `start_block` meets: the features, whether the database is modified (speculative
read mode, or not a speculative block), whether there is an undo session, the activation handlers,
and what comes after the features. -/
structure StartInput where
  newProtocolFeatureActivations : List Digest
  modifies : Bool := true
  session : Bool := true
  handler : BuiltinProtocolFeature → Result Unit := fun _ => .ok ()
  later : Result Unit := .ok ()

/-- How far `commit_block` and the assignment of the head get. -/
inductive CommitProgress where
  | committed
  | threwBeforeHead
  | threwAfterHead
deriving DecidableEq

namespace FeatureController

variable (pfs : ProtocolFeatureSet)

/-- What the local map says about a feature that is to be activated. -/
def checkActivation (f : ProtocolFeature) (d : Digest) :
    Stateful ChainException ActivationLoop Unit := do
  let s ← get
  match s.activatedProtocolFeatures.lookup d with
  | none => do
      lift (ineAssert (!f.preactivationRequired) .protocolFeatureException
        "attempted to activate protocol feature without prior required preactivation: ${digest}")
      modify fun s =>
        { s with activatedProtocolFeatures := s.activatedProtocolFeatures.insert d true }
  | some done => do
      lift (ineAssert (!done) .blockValidateException
        "attempted duplicate activation within a single block: ${digest}")
      modify fun s =>
        { s with
          activatedProtocolFeatures := s.activatedProtocolFeatures.insert d true
          numPreactivatedThatHaveActivated := s.numPreactivatedThatHaveActivated + 1 }

def triggerActivationHandler (handler : BuiltinProtocolFeature → Result Unit)
    (f : ProtocolFeature) : Result Unit :=
  match f.builtinFeature with
  | some codename => handler codename
  | none => .ok ()

def activateOne (handler : BuiltinProtocolFeature → Result Unit) (blockNum : ℕ) (d : Digest) :
    Stateful ChainException ActivationLoop Unit :=
  match pfs.find d with
  | none => throw
      ⟨.protocolFeatureException, "unrecognized protocol feature with digest: ${digest}"⟩
  | some f => do
      checkActivation f d
      lift (triggerActivationHandler handler f)
      let s ← get
      let m ← lift (s.protocolFeatures.activateFeature pfs d blockNum)
      modify fun s => { s with protocolFeatures := m }

def activateAll (handler : BuiltinProtocolFeature → Result Unit) (blockNum : ℕ) :
    List Digest → Stateful ChainException ActivationLoop Unit
  | [] => pure ()
  | d :: rest => do
      activateOne pfs handler blockNum d
      activateAll handler blockNum rest

variable (c : FeatureController) (i : StartInput)

/-- The loop of `start_block`, from the state it begins in. -/
def activation : Result Unit × ActivationLoop :=
  (activateAll pfs i.handler (c.head.blockNum + 1) i.newProtocolFeatureActivations).run
    { protocolFeatures := c.protocolFeatures
      activatedProtocolFeatures :=
        Table.fill c.db.current.preactivatedProtocolFeatures.toFinset false }

/-- The loop succeeds and all preactivated features have been activated. -/
def activated : Bool := (c.activation pfs i).1.toOption.isSome &&
    (c.db.current.preactivatedProtocolFeatures.length = 0 ||
      0 < i.newProtocolFeatureActivations.length &&
        (c.activation pfs i).2.numPreactivatedThatHaveActivated =
          c.db.current.preactivatedProtocolFeatures.length)

/-- The change of the `protocol_state_object` in `start_block`. -/
def recordActivations (new : List Digest) (blockNum : ℕ) (ps : ProtocolState) : ProtocolState :=
  if 0 < new.length then
    { preactivatedProtocolFeatures := []
      activatedProtocolFeatures := ps.activatedProtocolFeatures ++ new.map fun d => (d, blockNum) }
  else ps

/-- The database when a block is started. -/
def openSession (session : Bool) : SnapshotStack ProtocolState :=
  if session then c.db.push else c.db

/-- The database when a pending block is dropped: only a session can be undone. -/
def closeSession (session : Bool) (db : SnapshotStack ProtocolState) :
    SnapshotStack ProtocolState :=
  if session then db.undo else db

/-- `guard_pending` of `start_block`, with the manager and the database it finds. -/
def guardPending (m : ProtocolFeatureManager) (session : Bool) (db : SnapshotStack ProtocolState) :
    FeatureController :=
  { c with
    protocolFeatures := m.poppedBlocksTo c.head.blockNum
    db := closeSession session db }

/-- `start_block`, under `guard_pending`. -/
def openBlock : FeatureController :=
  let db := c.openSession i.session
  if i.modifies = false then
    { c with db, pending := some ⟨i.newProtocolFeatureActivations, 0, i.session⟩ }
  else if c.activated pfs i then
    let db := db.update
      (recordActivations i.newProtocolFeatureActivations (c.head.blockNum + 1))
    match i.later with
    | .error _ => c.guardPending (c.activation pfs i).2.protocolFeatures i.session db
    | .ok _ =>
      { c with
        db
        protocolFeatures := (c.activation pfs i).2.protocolFeatures
        pending := some ⟨i.newProtocolFeatureActivations,
          i.newProtocolFeatureActivations.length, i.session⟩ }
  else c.guardPending (c.activation pfs i).2.protocolFeatures i.session db

def startBlock : FeatureController :=
  if c.pending.isSome then c
  else if i.session ∧ c.db.revision ≠ c.head.blockNum then
    { c with protocolFeatures := c.protocolFeatures.poppedBlocksTo c.head.blockNum }
  else c.openBlock pfs i

/-- `preactivate_feature`; `valid` stands for its assertions. -/
def preactivateFeature (d : Digest) (valid : Bool) : FeatureController :=
  if c.pending.isSome ∧ valid then
    { c with
      db := c.db.update fun ps =>
        { ps with preactivatedProtocolFeatures := ps.preactivatedProtocolFeatures ++ [d] } }
  else c

def abortBlock : FeatureController :=
  match c.pending with
  | none => c
  | some p =>
    { c with
      pending := none
      db := closeSession p.session c.db
      protocolFeatures := c.protocolFeatures.poppedBlocksTo c.head.blockNum }

/-- The database when a block is committed.  Without sessions `replay` sets the
revision, here with each block. -/
def keepSession (p : PendingFeatures) : SnapshotStack ProtocolState :=
  if p.session then c.db else { c.db with revision := c.head.blockNum + 1 }

/-- The pending block becomes the head.  A block without a session cannot be popped. -/
def moveHead (p : PendingFeatures) (activated : Finset Digest) : FeatureController :=
  { c with
    head := ⟨c.head.blockNum + 1, activated⟩
    below := if p.session then c.head :: c.below else [] }

/-- `finalize_block`, `commit_block` and the assignment of the head. -/
def commitBlock (progress : CommitProgress) : FeatureController :=
  match c.pending with
  | none => c
  | some p =>
    match addActivatedFeatures c.head.activatedProtocolFeatures
        p.newProtocolFeatureActivations with
    | .error _ => c.abortBlock
    | .ok activated =>
      match progress with
      | .committed => { c.moveHead p activated with db := c.keepSession p, pending := none }
      | .threwBeforeHead => c.abortBlock
      -- the head has moved when `abort_block` undoes the session
      | .threwAfterHead => (c.moveHead p activated).abortBlock

def popBlock : FeatureController :=
  match c.pending, c.below with
  | none, prev :: rest =>
    { c with
      head := prev
      below := rest
      db := c.db.undo
      protocolFeatures := c.protocolFeatures.poppedBlocksTo prev.blockNum }
  | _, _ => c

/-- Blocks up to a number become irreversible: the root of the fork database moves and
the undo states are dropped. -/
def commitIrreversible (blockNum : ℕ) : FeatureController :=
  match c.pending with
  | some _ => c
  | none =>
    { c with
      below := c.below.takeWhile (blockNum ≤ ·.blockNum)
      db := c.db.commit blockNum }

end FeatureController

inductive FeatureCall where
  | startBlock (i : StartInput)
  | preactivateFeature (d : Digest) (valid : Bool)
  | abortBlock
  | commitBlock (progress : CommitProgress)
  | popBlock
  | commitIrreversible (blockNum : ℕ)

/-- The controller after a call, whether it threw or not. -/
def FeatureController.call (pfs : ProtocolFeatureSet) (c : FeatureController) :
    FeatureCall → FeatureController
  | .startBlock i => c.startBlock pfs i
  | .preactivateFeature d valid => c.preactivateFeature d valid
  | .abortBlock => c.abortBlock
  | .commitBlock progress => c.commitBlock progress
  | .popBlock => c.popBlock
  | .commitIrreversible blockNum => c.commitIrreversible blockNum

def FeatureController.genesis : FeatureController where
  head := ⟨1, ∅⟩
  db := { current := {}, revision := 1 }

end Inery.Chain
