import Inery.Chain.HeaderChain

/-!
# Proposed producer schedules (`controller.cpp`)

A proposed schedule waits in the global properties until the block that proposed it is irreversible;
`start_block` then hands it to the header of the block it opens, where it becomes pending.
`ScheduleStep` is one block, from its opening, through the proposals made in it, to one of the two
`finish_next` overloads.
-/

namespace Inery.Chain

open Foundation

/-- The fields of `global_property_object` that hold a proposed schedule. -/
structure GlobalProperty where
  proposedScheduleBlockNum : Option ℕ := none
  proposedSchedule : ProducerAuthoritySchedule := {}
deriving DecidableEq

/-- The head block and the global properties of its database. -/
structure ScheduleState where
  head : BlockHeaderState
  gpo : GlobalProperty := {}
deriving DecidableEq

open ScheduleState

/-- The block under construction: the fields of `building_block` that the
schedules move through, and the global properties of the open session. -/
structure OpenBlock where
  pendingBlockHeaderState : PendingBlockHeaderState
  newPendingProducerSchedule : Option ProducerAuthoritySchedule
  gpo : GlobalProperty
deriving DecidableEq

/-- The part of `start_block` that promotes the proposed schedule to pending. -/
def promoteProposed (pbhs : PendingBlockHeaderState) (gpo : GlobalProperty) :
    Result (Option ProducerAuthoritySchedule × GlobalProperty) :=
  if gpo.proposedScheduleBlockNum.any (· ≤ pbhs.dposIrreversibleBlocknum) ∧
      pbhs.prevPendingSchedule.schedule.producers.length = 0 then do
    ineAssert (gpo.proposedSchedule.version = u32 (pbhs.activeScheduleVersion + 1))
      .producerScheduleException "wrong producer schedule version specified"
    pure (some gpo.proposedSchedule, {})
  else pure (none, gpo)

variable (crypto : HeaderCrypto) (c : ScheduleState)

/-- `start_block`, as far as the schedules go. -/
def ScheduleState.startBlock (when : Slot) (confirmBlockCount : UInt16) : Result OpenBlock := do
  let pbhs ← c.head.next crypto when confirmBlockCount
  let (newPending, gpo) ← promoteProposed pbhs c.gpo
  pure ⟨pbhs, newPending, gpo⟩

/-! ## Proposing a schedule -/

/-- The pending schedule, or the active one when nothing is pending. -/
def lastOf (pendingSch activeSch : ProducerAuthoritySchedule) : ProducerAuthoritySchedule :=
  if pendingSch.producers.length = 0 then activeSch else pendingSch

namespace OpenBlock

def activeProducers (b : OpenBlock) : ProducerAuthoritySchedule :=
  b.pendingBlockHeaderState.activeSchedule

/-- `pending_producers` while a block is built.  The schedule pending before
this block is still returned when the block has promoted it. -/
def pendingProducers (b : OpenBlock) : ProducerAuthoritySchedule :=
  b.newPendingProducerSchedule.getD b.pendingBlockHeaderState.prevPendingSchedule.schedule

/-- The schedule a proposal is compared with and numbered after. -/
def lastProducers (b : OpenBlock) : ProducerAuthoritySchedule :=
  lastOf b.pendingProducers b.activeProducers

/-- `set_proposed_producers`: the value returned and the block after the call. -/
def setProposedProducers (headBlockNum : ℕ) (disallowEmpty : Bool) (b : OpenBlock)
    (producers : List ProducerAuthority) : ℤ × OpenBlock :=
  let curBlockNum := u32 (headBlockNum + 1)
  if producers.length = 0 ∧ disallowEmpty then (-1, b)
  -- already proposed in a previous block, or unchanged within this one
  else if b.gpo.proposedScheduleBlockNum.any fun num =>
      num ≠ curBlockNum ∨ producers = b.gpo.proposedSchedule.producers then (-1, b)
  else if producers = b.lastProducers.producers then (-1, b)
  else
    let sch : ProducerAuthoritySchedule := ⟨u32 (b.lastProducers.version + 1), producers⟩
    (sch.version, { b with gpo := ⟨some curBlockNum, sch⟩ })

/-- The calls of `set_proposed_producers` in a block, in their order. -/
def propose (headBlockNum : ℕ) (disallowEmpty : Bool) (b : OpenBlock)
    (proposals : List (List ProducerAuthority)) : OpenBlock :=
  proposals.foldl (fun b producers =>
    (b.setProposedProducers headBlockNum disallowEmpty producers).2) b

end OpenBlock

/-! ## Blocks -/

structure BlockContents where
  when : Slot
  confirmBlockCount : UInt16
  transactionMroot : Digest := 0
  actionMroot : Digest := 0
  newProtocolFeatureActivations : List Digest := []
  proposals : List (List ProducerAuthority) := []
deriving DecidableEq

/-- How the header `h` assembled from `p` becomes a header state: it is signed here, or
`apply_block` has compared its id with that of the received header, which differs in the signature
only. -/
inductive Closes (crypto : HeaderCrypto) (p : PendingBlockHeaderState) (h : SignedBlockHeader)
    (s' : BlockHeaderState) : Prop
  | signed (signer : Digest → List Signature) :
      p.finishNextSigned crypto h signer = .ok s' → Closes crypto p h s'
  | received (signature : Signature) (additionalSignatures : List Signature)
      (skipValidateSignee : Bool) :
      p.finishNext crypto { h with producerSignature := signature } additionalSignatures
        skipValidateSignee = .ok s' → Closes crypto p h s'

/-- Whether empty schedules are refused in a block opened from `c`. -/
def ScheduleState.disallowEmpty (b : BlockContents) : Bool := isBuiltinActivated crypto
    (c.head.activatedProtocolFeatures ∪ b.newProtocolFeatureActivations.toFinset)
    .disallowEmptyProducerSchedule

/-- The header of the block and the global properties when it is assembled. -/
def ScheduleState.assemble (b : BlockContents) : Result (OpenBlock × SignedBlockHeader) := do
  let started ← c.startBlock crypto b.when b.confirmBlockCount
  let built := started.propose c.head.blockNum (c.disallowEmpty crypto b) b.proposals
  let h ← built.pendingBlockHeaderState.makeBlockHeader crypto b.transactionMroot b.actionMroot
    built.newPendingProducerSchedule b.newProtocolFeatureActivations
  pure (built, h)

def ScheduleStep (c c' : ScheduleState) : Prop :=
  ∃ contents built h, c.assemble crypto contents = .ok (built, h) ∧
    Closes crypto built.pendingBlockHeaderState h c'.head ∧ c'.gpo = built.gpo

/-- `past` are the states below `c`, newest first, down to genesis. -/
abbrev ScheduleChain (genesis : GenesisState) : ScheduleState → List ScheduleState → Prop :=
  History ⟨genesisHeaderState crypto genesis, {}⟩ (ScheduleStep crypto)

def ScheduleState.produce (b : BlockContents)
    (signer : Digest → List Signature) : Result ScheduleState := do
  let (built, h) ← c.assemble crypto b
  let head ← built.pendingBlockHeaderState.finishNextSigned crypto h signer
  pure ⟨head, built.gpo⟩

/-- Produce a list of blocks; returns the last state and the states below it. -/
def ScheduleState.produceAll (signer : Digest → List Signature) :
    List BlockContents → ScheduleState → List ScheduleState →
      Result (ScheduleState × List ScheduleState)
  | [], c, past => pure (c, past)
  | b :: bs, c, past => do
      let c' ← c.produce crypto b signer
      produceAll signer bs c' (c :: past)

section
variable {crypto : HeaderCrypto} {genesis : GenesisState} {c c' : ScheduleState}
  {past : List ScheduleState} {signer : Digest → List Signature}

theorem ScheduleStep.of_produce {b : BlockContents} (h : c.produce crypto b signer = .ok c') :
    ScheduleStep crypto c c' := by
  simp only [produce, bind_eq_ok] at h
  obtain ⟨⟨built, header⟩, hassemble, head, hsigned, hres⟩ := h
  cases hres
  exact ⟨b, built, header, hassemble, .signed signer hsigned, rfl⟩

theorem scheduleChain_produceAll {bs : List BlockContents}
    {r : ScheduleState × List ScheduleState} (hc : ScheduleChain crypto genesis c past)
    (h : produceAll crypto signer bs c past = .ok r) :
    ScheduleChain crypto genesis r.1 r.2 := by
  induction bs generalizing c past with
  | nil =>
    cases h
    exact hc
  | cons b bs ih =>
    simp only [produceAll, bind_eq_ok] at h
    obtain ⟨c', hb, hbs⟩ := h
    exact ih (.step hc (.of_produce hb)) hbs

end

end Inery.Chain
