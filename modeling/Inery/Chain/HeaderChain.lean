import Inery.Chain.BlockHeaderState
import Inery.Foundation.History

/-!
# Chains of header states

Each block after the genesis header state is one `next` closed by one of the two `finish_next`
overloads, with arbitrary arguments.  `HeaderStep.facts` says once what a block can do to a header
state; the invariants of the later modules are derived from it.
-/

namespace Inery.Chain

open Foundation PendingBlockHeaderState

variable {crypto : HeaderCrypto} {genesis : GenesisState} {s s' : BlockHeaderState}
  {ancestors : List BlockHeaderState}

/-- One block: `next` accepts the time and the confirmed count, and the
pending state is closed by a received header or by signing one. -/
inductive HeaderStep (crypto : HeaderCrypto) (s s' : BlockHeaderState) : Prop
  | received (when : Slot) (numPrevBlocksToConfirm : UInt16)
      (pending : PendingBlockHeaderState) (h : SignedBlockHeader)
      (additionalSignatures : List Signature) (skipValidateSignee : Bool) :
      s.next crypto when numPrevBlocksToConfirm = .ok pending →
      pending.finishNext crypto h additionalSignatures skipValidateSignee = .ok s' →
      HeaderStep crypto s s'
  | signed (when : Slot) (numPrevBlocksToConfirm : UInt16)
      (pending : PendingBlockHeaderState) (h : SignedBlockHeader)
      (signer : Digest → List Signature) :
      s.next crypto when numPrevBlocksToConfirm = .ok pending →
      pending.finishNextSigned crypto h signer = .ok s' →
      HeaderStep crypto s s'

/-- `ancestors` are the header states below `s`, newest first, down to genesis. -/
abbrev HeaderChain (crypto : HeaderCrypto) (genesis : GenesisState) :
    BlockHeaderState → List BlockHeaderState → Prop :=
  History (genesisHeaderState crypto genesis) (HeaderStep crypto)

/-! ## Producing blocks -/

structure BlockInput where
  when : Slot
  confirmed : UInt16
  newProducers : Option ProducerAuthoritySchedule
  signature : Signature
deriving DecidableEq

/-- Assemble and sign one block with empty contents. -/
def produceBlock (crypto : HeaderCrypto) (s : BlockHeaderState) (b : BlockInput) :
    Result BlockHeaderState := do
  let pending ← s.next crypto b.when b.confirmed
  let h ← pending.makeBlockHeader crypto 0 0 b.newProducers []
  pending.finishNextSigned crypto h fun _ => [b.signature]

/-- Produce a list of blocks; returns the head and the states below it. -/
def produceBlocks (crypto : HeaderCrypto) : List BlockInput → BlockHeaderState →
    List BlockHeaderState → Result (BlockHeaderState × List BlockHeaderState)
  | [], s, ancestors => pure (s, ancestors)
  | b :: bs, s, ancestors => do
      let s' ← produceBlock crypto s b
      produceBlocks crypto bs s' (s :: ancestors)

/-- A cryptography that can be run: every digest is `0` and a signature is the
key that made it. -/
def openCrypto : HeaderCrypto where
  headerDigest _ := 0
  hashPair _ _ := 0
  hashLegacySchedule _ := 0
  hashSchedule _ := 0
  recoverKey signature _ := .ok signature
  builtinDigest _ := none
  validator _ _ _ := .ok ()

def producerKeyOne (name : Name) : ProducerAuthority := ⟨name, ⟨1, [⟨1, 1⟩]⟩⟩

def genesisKeyOne : GenesisState := ⟨1, 0, 0⟩

abbrev produceChain (crypto : HeaderCrypto) (bs : List BlockInput) :
    Result (BlockHeaderState × List BlockHeaderState) :=
  produceBlocks crypto bs (genesisHeaderState crypto genesisKeyOne) []

/-- Producers `1` and `2` take over in block 4, and producer `1` makes block 5. -/
def twoProducers : List BlockInput :=
  [⟨1, 0, none, 1⟩, ⟨2, 0, some ⟨1, [2, 1].map producerKeyOne⟩, 1⟩, ⟨3, 0, none, 1⟩,
    ⟨5, 0, none, 1⟩]

theorem HeaderStep.of_produceBlock {b : BlockInput} (h : produceBlock crypto s b = .ok s') :
    HeaderStep crypto s s' := by
  simp only [produceBlock, bind_eq_ok] at h
  obtain ⟨pending, hnext, header, -, hfinish⟩ := h
  exact .signed _ _ pending header _ hnext hfinish

section ProduceBlocks

variable {init : BlockHeaderState} {step : BlockHeaderState → BlockHeaderState → Prop}
  {bs : List BlockInput} {r : BlockHeaderState × List BlockHeaderState}

theorem history_produceBlocks (hstep : ∀ s b s', produceBlock crypto s b = .ok s' → step s s')
    (hs : History init step s ancestors) (h : produceBlocks crypto bs s ancestors = .ok r) :
    History init step r.1 r.2 := by
  induction bs generalizing s ancestors with
  | nil =>
    cases h
    exact hs
  | cons b bs ih =>
    simp only [produceBlocks, bind_eq_ok] at h
    obtain ⟨s', hb, hbs⟩ := h
    exact ih (.step hs (hstep s b s' hb)) hbs

theorem headerChain_produceBlocks
    (h : produceBlocks crypto bs (genesisHeaderState crypto genesis) [] = .ok r) :
    HeaderChain crypto genesis r.1 r.2 :=
  history_produceBlocks (fun _ _ _ => .of_produceBlock) .start h

end ProduceBlocks

/-! ## What a block does -/

/-- Everything the later modules use about a block produced by `proauth`. -/
structure NextFacts (s s' : BlockHeaderState) (proauth : ProducerAuthority) : Prop where
  scheduled : proauth ∈ s.activeSchedule.producers
  producer : s'.header.producer = proauth.producerName
  common : ∃ merkle,
    s'.toBlockHeaderStateCommon = s.nextCommon proauth s'.header.confirmed merkle
  guard : ∀ lastProduced ∈ s.producerToLastProduced.lookup proauth.producerName,
    lastProduced < u32Sub (u32 (s.blockNum + 1)) s'.header.confirmed.toNat
  pendingCleared : s.promotes proauth.producerName → s'.pendingSchedule.schedule.producers = []
  pendingKept : s.promotes proauth.producerName = false →
    s'.pendingSchedule = s.pendingSchedule ∨
      s.pendingSchedule.schedule.producers = [] ∧
        s'.pendingSchedule.scheduleLibNum = u32 (s.blockNum + 1)

namespace NextFacts

variable {proauth : ProducerAuthority} (h : NextFacts s s' proauth)
include h

theorem blockNum_eq : s'.blockNum = u32 (s.blockNum + 1) := by
  obtain ⟨merkle, hc⟩ := h.common
  rw [hc]
  rfl

theorem irreversible_eq :
    s'.dposIrreversibleBlocknum = s.calcDposLastIrreversible proauth.producerName := by
  obtain ⟨merkle, hc⟩ := h.common
  rw [hc]
  rfl

theorem confirmCount_eq : s'.confirmCount = (s.nextConfirmations s'.header.confirmed).1 := by
  obtain ⟨merkle, hc⟩ := h.common
  rw [hc]
  rfl

theorem proposed_eq :
    s'.dposProposedIrreversibleBlocknum = (s.nextConfirmations s'.header.confirmed).2 := by
  obtain ⟨merkle, hc⟩ := h.common
  rw [hc]
  rfl

theorem activeSchedule_eq :
    s'.activeSchedule = if s.promotes proauth.producerName then s.pendingSchedule.schedule
      else s.activeSchedule := by
  obtain ⟨merkle, hc⟩ := h.common
  rw [hc]
  rfl

theorem lastProduced_eq :
    s'.producerToLastProduced =
      if s.promotes proauth.producerName then
        (promotedMap s.pendingSchedule.schedule.producers proauth.producerName s'.blockNum
          s'.dposIrreversibleBlocknum s.producerToLastProduced).insert
            proauth.producerName s'.blockNum
      else s.producerToLastProduced.insert proauth.producerName s'.blockNum := by
  rw [h.blockNum_eq, h.irreversible_eq]
  obtain ⟨merkle, hc⟩ := h.common
  rw [hc]
  rfl

theorem impliedIrb_eq :
    s'.producerToLastImpliedIrb =
      if s.promotes proauth.producerName then
        promotedMap s.pendingSchedule.schedule.producers proauth.producerName
          s.dposProposedIrreversibleBlocknum s'.dposIrreversibleBlocknum
          s.producerToLastImpliedIrb
      else s.producerToLastImpliedIrb.insert proauth.producerName
        s.dposProposedIrreversibleBlocknum := by
  rw [h.irreversible_eq]
  obtain ⟨merkle, hc⟩ := h.common
  rw [hc]
  rfl

end NextFacts

variable {p : PendingBlockHeaderState}

theorem BlockHeaderState.next_eq_ok {when : Slot} {n : UInt16} (h : s.next crypto when n = .ok p) :
    ∃ proauth ∈ s.activeSchedule.producers, ∃ merkle,
      p.toBlockHeaderStateCommon = s.nextCommon proauth n merkle ∧
      p.producer = proauth.producerName ∧ p.confirmed = n ∧
      p.prevPendingSchedule = s.pendingSchedule ∧
      p.wasPendingPromoted = s.promotes proauth.producerName ∧
      p.activeScheduleVersion = s.activeSchedule.version ∧
      ∀ lastProduced ∈ s.producerToLastProduced.lookup proauth.producerName,
        lastProduced < u32Sub (u32 (s.blockNum + 1)) n.toNat := by
  simp only [next, bind_eq_ok, ineAssert_eq_ok] at h
  obtain ⟨-, -, h⟩ := h
  split at h
  · cases h
  next proauth hsched =>
    simp only [bind_eq_ok, ineAssert_eq_ok] at h
    obtain ⟨-, hguard, h⟩ := h
    split at h
    · cases h
    next merkle _ =>
      cases h
      exact ⟨proauth, List.mem_of_getElem? hsched, merkle, rfl, rfl, rfl, rfl, rfl, rfl, hguard⟩

theorem PendingBlockHeaderState.checkNewSchedule_eq_ok {allowed : Bool} {message : String}
    {version : ℕ} {u : Unit} (h : p.checkNewSchedule allowed message version = .ok u) :
    p.wasPendingPromoted = false ∧ p.prevPendingSchedule.schedule.producers = [] := by
  simp only [checkNewSchedule, bind_eq_ok, ineAssert_eq_ok] at h
  obtain ⟨-, -, -, hpromoted, -, -, hempty⟩ := h
  exact ⟨by simpa using hpromoted, hempty⟩

theorem PendingBlockHeaderState.newProducerSchedule_eq_some {h : SignedBlockHeader}
    {exts : List BlockHeaderExtension} {new : ProducerAuthoritySchedule × Digest}
    (hnew : p.newProducerSchedule crypto h exts = .ok (some new)) :
    p.wasPendingPromoted = false ∧ p.prevPendingSchedule.schedule.producers = [] := by
  simp only [newProducerSchedule, bind_eq_ok] at hnew
  obtain ⟨legacy, hlegacy, hext⟩ := hnew
  cases hchange : scheduleChange? exts with
  | some schedule =>
    simp only [hchange, bind_eq_ok] at hext
    obtain ⟨_, hcheck, -⟩ := hext
    exact checkNewSchedule_eq_ok hcheck
  | none =>
    simp only [hchange, pure_eq_ok] at hext
    subst hext
    cases hfield : h.newProducers with
    | none => simp [legacyProducerSchedule, hfield, pure_eq_ok] at hlegacy
    | some schedule =>
      simp only [legacyProducerSchedule, hfield, bind_eq_ok] at hlegacy
      obtain ⟨_, hcheck, -⟩ := hlegacy
      exact checkNewSchedule_eq_ok hcheck

/-- `_finish_next` keeps the common part and the header fields it checked. -/
theorem PendingBlockHeaderState.finishNextUnsigned_eq_ok {h : SignedBlockHeader}
    (hf : p.finishNextUnsigned crypto h = .ok s') :
    s'.toBlockHeaderStateCommon = p.toBlockHeaderStateCommon ∧
      s'.header.producer = p.producer ∧ s'.header.confirmed = p.confirmed ∧
      ∃ new, s'.pendingSchedule = p.finishPendingSchedule new ∧
        (new ≠ none →
          p.wasPendingPromoted = false ∧ p.prevPendingSchedule.schedule.producers = []) := by
  simp only [finishNextUnsigned, bind_eq_ok, ineAssert_eq_ok] at hf
  obtain ⟨-, -, -, -, -, hconf, -, hprod, -, -, exts, -, new, hnew, activated, -, hres⟩ := hf
  cases hres
  refine ⟨rfl, hprod, hconf, new, rfl, ?_⟩
  intro hne
  obtain ⟨x, rfl⟩ := Option.ne_none_iff_exists'.mp hne
  exact newProducerSchedule_eq_some hnew

def BlockHeaderState.withSignatures (s : BlockHeaderState) (signature : Signature)
    (additionalSignatures : List Signature) : BlockHeaderState :=
  { s with
    header := { s.header with producerSignature := signature }
    additionalSignatures }

open BlockHeaderState

theorem BlockHeaderState.sign_eq_ok {signer : Digest → List Signature} {r : BlockHeaderState}
    (h : s.sign crypto signer = .ok r) : ∃ sig sigs, r = s.withSignatures sig sigs := by
  simp only [sign, bind_eq_ok, ineAssert_eq_ok] at h
  obtain ⟨-, -, -, -, h⟩ := h
  cases h
  exact ⟨_, _, rfl⟩

theorem PendingBlockHeaderState.finishNext_eq_ok {header : SignedBlockHeader}
    {additionalSignatures : List Signature} {skip : Bool}
    (h : p.finishNext crypto header additionalSignatures skip = .ok s') :
    ∃ r sig sigs, p.finishNextUnsigned crypto header = .ok r ∧ s' = r.withSignatures sig sigs := by
  simp only [finishNext, bind_eq_ok] at h
  obtain ⟨-, -, r, hr, hres⟩ := h
  refine ⟨r, r.header.producerSignature, additionalSignatures, hr, ?_⟩
  split at hres
  · exact (pure_eq_ok.mp hres).symm
  · simp only [bind_eq_ok, pure_eq_ok] at hres
    obtain ⟨-, -, heq⟩ := hres
    exact heq.symm

theorem PendingBlockHeaderState.finishNextSigned_eq_ok {header : SignedBlockHeader}
    {signer : Digest → List Signature} (h : p.finishNextSigned crypto header signer = .ok s') :
    ∃ r sig sigs, p.finishNextUnsigned crypto header = .ok r ∧ s' = r.withSignatures sig sigs := by
  simp only [finishNextSigned, bind_eq_ok] at h
  obtain ⟨r, hr, r', hsign, -, -, hres⟩ := h
  cases hres
  obtain ⟨sig, sigs, rfl⟩ := sign_eq_ok hsign
  exact ⟨r, sig, sigs, hr, rfl⟩

/-- Either overload of `finish_next` closes with `_finish_next` and signatures. -/
theorem HeaderStep.exists_unsigned (h : HeaderStep crypto s s') :
    ∃ when n p header r sig sigs, s.next crypto when n = .ok p ∧
      p.finishNextUnsigned crypto header = .ok r ∧ s' = r.withSignatures sig sigs := by
  cases h with
  | received when n p header _ _ hnext hfinish =>
    obtain ⟨r, sig, sigs, hr, hs'⟩ := finishNext_eq_ok hfinish
    exact ⟨when, n, p, header, r, sig, sigs, hnext, hr, hs'⟩
  | signed when n p header _ hnext hfinish =>
    obtain ⟨r, sig, sigs, hr, hs'⟩ := finishNextSigned_eq_ok hfinish
    exact ⟨when, n, p, header, r, sig, sigs, hnext, hr, hs'⟩

/-- **What a block does.** Every accepted block was produced by a scheduled
producer, and the child state is `nextCommon` with the pending schedule
promoted, kept or newly set. -/
theorem HeaderStep.facts (h : HeaderStep crypto s s') : ∃ proauth, NextFacts s s' proauth := by
  obtain ⟨when, n, p, header, r, sig, sigs, hnext, hr, hs'⟩ := h.exists_unsigned
  obtain ⟨proauth, hmem, merkle, hpc, hpp, hpn, hprev, hprom, -, hguard⟩ := next_eq_ok hnext
  obtain ⟨hrc, hrp, hrn, new, hsched, hnew⟩ := finishNextUnsigned_eq_ok hr
  have hcommon : s'.toBlockHeaderStateCommon = r.toBlockHeaderStateCommon := by rw [hs']; rfl
  have hprod : s'.header.producer = r.header.producer := by rw [hs']; rfl
  have hpend : s'.pendingSchedule = r.pendingSchedule := by rw [hs']; rfl
  have hn : s'.header.confirmed = n := by
    rw [hs']
    exact hrn.trans hpn
  have hnum : p.blockNum = u32 (s.blockNum + 1) := by rw [hpc]; rfl
  refine ⟨proauth, hmem, by rw [hprod, hrp, hpp], ⟨merkle, by rw [hcommon, hrc, hpc, hn]⟩,
    by rwa [hn], ?_, ?_⟩
  · intro hp
    cases new with
    | some x =>
      have := (hnew (by simp)).1
      rw [hprom, hp] at this
      cases this
    | none => simp [hpend, hsched, finishPendingSchedule, hprom, hp]
  · intro hp
    cases new with
    | some x =>
      right
      refine ⟨by rw [← hprev]; exact (hnew (by simp)).2, ?_⟩
      simp [hpend, hsched, finishPendingSchedule, hnum]
    | none =>
      left
      simp [hpend, hsched, finishPendingSchedule, hprom, hp, hprev]

theorem genesisHeaderState_blockNum : (genesisHeaderState crypto genesis).blockNum = 1 := by
  change u32 (numFromId 0 + 1) = 1
  decide

theorem HeaderChain.blockNum_eq (h : HeaderChain crypto genesis s ancestors)
    (hlen : ancestors.length + 1 < 2 ^ 32) : s.blockNum = ancestors.length + 1 := by
  induction h with
  | start => exact genesisHeaderState_blockNum
  | @step s s' past _ hstep ih =>
    obtain ⟨proauth, hfacts⟩ := hstep.facts
    rw [List.length_cons] at hlen ⊢
    rw [hfacts.blockNum_eq, ih (by omega), u32_of_lt hlen]

/-! ## Replaying a chain on another node -/

/-- A block whose signatures this node has checked: one that it signed, or one
that it received. -/
def CheckedStep (crypto : HeaderCrypto) (s s' : BlockHeaderState) : Prop :=
  ∃ when n p h, s.next crypto when n = .ok p ∧
    ((∃ signer, p.finishNextSigned crypto h signer = .ok s') ∨
      ∃ sigs, p.finishNext crypto h sigs false = .ok s')

theorem BlockHeaderState.next_default (n : UInt16) :
    s.next crypto (s.header.timestamp + 1) n = s.next crypto 0 n := by
  by_cases hwrap : s.header.timestamp + 1 = 0
  -- after the last slot comes 0, which asks for the default time
  · rw [hwrap]
  · have hlt : s.header.timestamp < s.header.timestamp + 1 :=
      UInt32.lt_add_one fun hlast => hwrap (by rw [hlast]; rfl)
    simp [next, hwrap, hlt]

/-- The time and the count of a pending state lead to it again. -/
theorem BlockHeaderState.next_again {when : Slot} {n : UInt16} (h : s.next crypto when n = .ok p) :
    s.next crypto p.timestamp p.confirmed = .ok p := by
  have hp : p.timestamp = (if when ≠ 0 then when else s.header.timestamp + 1) ∧
      p.confirmed = n := by
    simp only [next, bind_eq_ok] at h
    obtain ⟨-, -, h⟩ := h
    split at h
    · cases h
    simp only [bind_eq_ok] at h
    obtain ⟨-, -, h⟩ := h
    split at h <;> cases h
    exact ⟨rfl, rfl⟩
  rw [hp.1, hp.2]
  split
  · exact h
  next hw => rwa [next_default, ← not_not.mp hw]

theorem PendingBlockHeaderState.finishNextUnsigned_header {h : SignedBlockHeader}
    (hr : p.finishNextUnsigned crypto h = .ok s) :
    h.timestamp = p.timestamp ∧ h.confirmed = p.confirmed ∧ s.header = h := by
  simp only [finishNextUnsigned, bind_eq_ok, ineAssert_eq_ok, exists_const] at hr
  obtain ⟨htime, -, hconf, -, -, exts, -, new, -, activated, -, hres⟩ := hr
  cases hres
  exact ⟨htime, hconf, rfl⟩

/-- Either way to close a checked block comes to `_finish_next` and signatures
that were verified. -/
theorem CheckedStep.exists_verified (h : CheckedStep crypto s s') :
    ∃ when n p header r sig sigs, s.next crypto when n = .ok p ∧
      p.finishNextUnsigned crypto header = .ok r ∧ s' = r.withSignatures sig sigs ∧
      (sigs ≠ [] →
        isBuiltinActivated crypto p.prevActivatedProtocolFeatures .wtmsigBlockSignatures) ∧
      s'.verifySignee crypto = .ok () := by
  obtain ⟨when, n, p, header, hnext, ⟨signer, h⟩ | ⟨sigs, h⟩⟩ := h
  · simp only [finishNextSigned, sign, bind_eq_ok, ineAssert_eq_ok, exists_const] at h
    obtain ⟨r, hr, t, ⟨-, _, hverify, ht⟩, hmulti, hs'⟩ := h
    cases ht
    cases hs'
    exact ⟨when, n, p, header, r, _, _, hnext, hr, rfl, hmulti, hverify⟩
  · simp only [finishNext, bind_eq_ok, ineAssert_eq_ok, exists_const, Bool.false_eq_true,
      if_false] at h
    obtain ⟨hmulti, r, hr, _, hverify, hs'⟩ := h
    cases hs'
    exact ⟨when, n, p, header, r, _, sigs, hnext, hr, rfl, hmulti, hverify⟩

variable (hblind : ∀ h sig,
  crypto.headerDigest { h with producerSignature := sig } = crypto.headerDigest h)

include hblind

theorem PendingBlockHeaderState.finishNextUnsigned_signed {h : SignedBlockHeader}
    (hr : p.finishNextUnsigned crypto h = .ok s) (sig : Signature) :
    p.finishNextUnsigned crypto { h with producerSignature := sig } =
      .ok (s.withSignatures sig []) := by
  simp only [finishNextUnsigned, bind_eq_ok, ineAssert_eq_ok, exists_const] at hr ⊢
  obtain ⟨htime, hprev, hconf, hprod, hversion, exts, hexts, new, hnew, activated, hact, hres⟩ := hr
  refine ⟨htime, hprev, hconf, hprod, hversion, exts, hexts, new, hnew, activated, hact, ?_⟩
  cases hres
  simp only [SignedBlockHeader.id, hblind]
  rfl

/-- The header and the signatures of a checked block lead to its state. -/
theorem CheckedStep.nextHeader (h : CheckedStep crypto s s') (skip : Bool) :
    s.nextHeader crypto s'.header s'.additionalSignatures skip = .ok s' := by
  obtain ⟨when, n, p, header, r, sig, sigs, hnext, hr, rfl, hmulti, hverify⟩ := h.exists_verified
  obtain ⟨htime, hconf, rfl⟩ := finishNextUnsigned_header hr
  have hagain : s.next crypto r.header.timestamp r.header.confirmed = .ok p := by
    rw [htime, hconf]
    exact next_again hnext
  simp only [BlockHeaderState.nextHeader, finishNext, bind_eq_ok, ineAssert_eq_ok, exists_const]
  refine ⟨p, hagain, hmulti, _, finishNextUnsigned_signed hblind hr sig, ?_⟩
  split
  · rfl
  · exact bind_eq_ok.mpr ⟨(), hverify, rfl⟩

/-- **Replay.**  Another node on the same state that receives the blocks of a
chain in their order ends in the same state, with or without the check of the
signatures. -/
theorem replay_checkedSteps {past : List BlockHeaderState}
    (h : History init (CheckedStep crypto) s past) (skip : BlockHeaderState → Bool) :
    (s :: past).dropLast.foldrM (fun b t =>
      t.nextHeader crypto b.header b.additionalSignatures (skip b)) init = .ok s := by
  induction h with
  | start => rfl
  | step _ hstep ih =>
    rw [List.dropLast_cons_cons, List.foldrM_cons, ih]
    exact hstep.nextHeader hblind _

omit hblind

theorem CheckedStep.of_produceBlock {b : BlockInput} (h : produceBlock crypto s b = .ok s') :
    CheckedStep crypto s s' := by
  simp only [produceBlock, bind_eq_ok] at h
  obtain ⟨p, hnext, header, -, hsigned⟩ := h
  exact ⟨_, _, p, header, hnext, .inl ⟨_, hsigned⟩⟩

/-- The theorem at four blocks; the second sets the schedule that is active at the end. -/
theorem replay_checkedSteps_takeover :
    ∃ s past, History (genesisHeaderState openCrypto genesisKeyOne)
        (CheckedStep openCrypto) s past ∧
      s.blockNum = 5 ∧ s.activeSchedule.producers = [2, 1].map producerKeyOne ∧
      (s :: past).dropLast.foldrM (fun b t =>
        t.nextHeader openCrypto b.header b.additionalSignatures false)
          (genesisHeaderState openCrypto genesisKeyOne) = .ok s := by
  obtain ⟨⟨s, past⟩, hblocks, hnum, hschedule⟩ : ∃ r,
      produceChain openCrypto twoProducers = .ok r ∧
      r.1.blockNum = 5 ∧ r.1.activeSchedule.producers = [2, 1].map producerKeyOne := by
    decide +kernel
  have hhistory := history_produceBlocks (fun _ _ _ => CheckedStep.of_produceBlock) .start hblocks
  exact ⟨s, past, hhistory, hnum, hschedule,
    replay_checkedSteps (fun _ _ => rfl) hhistory fun _ => false⟩

end Inery.Chain
