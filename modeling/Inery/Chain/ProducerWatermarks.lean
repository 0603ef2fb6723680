import Inery.Chain.ProducerPlugin
import Mathlib.Order.CompletePartialOrder

/-!
# Watermarks keep a producer from equivocating

Every block the plugin has published for a local producer lies below the watermark of that producer,
and in producing mode the pending block lies above it, with all the blocks it confirms.  The second
fact needs care: `start_block` may enter producing mode and leave an older pending block in place
until the production window opens.
-/

namespace Inery.Chain

open Foundation List Std

/-! ## Equivocation -/

/-- The block numbers a block confirms, its own included. -/
def BlockHeaderState.confirmedRange (b : BlockHeaderState) : Set ℤ :=
  {n | (b.blockNum : ℤ) - b.header.confirmed.toNat ≤ n ∧ n ≤ b.blockNum}

open BlockHeaderState

/-- `newer` was made after `older` and confirms none of its blocks. -/
structure BlockHeaderState.Follows (newer older : BlockHeaderState) : Prop where
  timestamp : older.header.timestamp < newer.header.timestamp
  ranges : Disjoint older.confirmedRange newer.confirmedRange

/-- Of any two blocks published for a local producer, newest first in the list,
the later one follows the earlier one. -/
def NoEquivocation (producers : Finset Name) (published : List BlockHeaderState) : Prop :=
  published.Pairwise fun newer older =>
    newer.header.producer = older.header.producer → older.header.producer ∈ producers →
      newer.Follows older

variable {crypto : HeaderCrypto} {s : BlockHeaderState} {p p' : ProducerPlugin}

-- Slots have an order but no `LinearOrder`, which the library's lemmas on `max` ask for.
theorem slot_le_max_left (a b : Slot) : a ≤ max a b := by
  change a ≤ if a ≤ b then b else a
  split
  · assumption
  · exact le_refl a

theorem slot_le_max_right (a b : Slot) : b ≤ max a b := by
  change b ≤ if a ≤ b then b else a
  split
  · exact le_refl b
  · exact le_of_not_ge ‹_›

/-! ## What a block takes from the pending state -/

theorem BlockHeaderState.scheduled_of_next {when : Slot} {n : UInt16}
    {b : PendingBlockHeaderState} (h : s.next crypto when n = .ok b) :
    (when ≠ 0 → b.timestamp = when) ∧
      ∃ proauth, s.getScheduledProducer b.timestamp = some proauth ∧
        b.producer = proauth.producerName := by
  simp only [next, bind_eq_ok, ineAssert_eq_ok] at h
  obtain ⟨-, -, h⟩ := h
  split at h
  · cases h
  next proauth hsched =>
    simp only [bind_eq_ok, ineAssert_eq_ok] at h
    obtain ⟨-, -, h⟩ := h
    split at h
    · cases h
    · cases h
      refine ⟨fun hwhen => ?_, proauth, hsched, rfl⟩
      change (if when ≠ 0 then when else s.header.timestamp + 1) = when
      rw [if_pos hwhen]

theorem PendingBlockHeaderState.signed_fields {b : PendingBlockHeaderState}
    {h : SignedBlockHeader} {signer : Digest → List Signature} {bsp : BlockHeaderState}
    (hsigned : b.finishNextSigned crypto h signer = .ok bsp) :
    bsp.blockNum = b.blockNum ∧ bsp.header.producer = b.producer ∧
      bsp.header.confirmed = b.confirmed ∧ bsp.header.timestamp = b.timestamp := by
  obtain ⟨r, sig, sigs, hr, rfl⟩ := finishNextSigned_eq_ok hsigned
  obtain ⟨hcommon, hproducer, hconfirmed, -⟩ := finishNextUnsigned_eq_ok hr
  simp only [finishNextUnsigned, bind_eq_ok, ineAssert_eq_ok] at hr
  obtain ⟨-, htime, -, -, -, -, -, -, -, -, exts, -, new, -, activated, -, hres⟩ := hr
  cases hres
  exact ⟨congrArg (·.blockNum) hcommon, hproducer, hconfirmed, htime⟩

namespace ProducerPlugin

/-! ## Watermarks rise -/

/-- The watermark of `producer` is at least at the number and time given. -/
def Reaches (p : ProducerPlugin) (producer : Name) (blockNum : ℕ) (timestamp : Slot) : Prop :=
  ∃ w, p.getWatermark producer = some w ∧ blockNum ≤ w.blockNum ∧ timestamp ≤ w.timestamp

theorem onBlockHeader_frame (p : ProducerPlugin) (b : BlockHeaderState) :
    (p.onBlockHeader b).producers = p.producers ∧
      (p.onBlockHeader b).published = p.published ∧ (p.onBlockHeader b).pending = p.pending := by
  simp only [onBlockHeader, considerNewWatermark]
  split
  · exact ⟨rfl, rfl, rfl⟩
  · split
    · exact ⟨rfl, rfl, rfl⟩
    · exact ⟨rfl, rfl, rfl⟩

variable {producer : Name} {timestamp : Slot}

theorem Reaches.considerNewWatermark {q : Name} {n blockNum : ℕ} {t : Slot} (h : p.Reaches q n t) :
    (p.considerNewWatermark producer blockNum timestamp).Reaches q n t := by
  obtain ⟨w, hw, hnum, htime⟩ := h
  unfold ProducerPlugin.considerNewWatermark
  split
  next old hold =>
    by_cases hq : q = producer
    · subst hq
      have heq : w = old := Option.some.inj (hw.symm.trans hold)
      subst heq
      refine ⟨⟨max w.blockNum blockNum, max w.timestamp timestamp⟩, ?_,
        hnum.trans (le_max_left _ _), le_trans htime (slot_le_max_left _ _)⟩
      simp [getWatermark]
    · refine ⟨w, ?_, hnum, htime⟩
      simpa [getWatermark, Table.lookup_insert_ite, hq] using hw
  next hnone =>
    split
    · have hq : q ≠ producer := by
        rintro rfl
        rw [hnone] at hw
        cases hw
      refine ⟨w, ?_, hnum, htime⟩
      simpa [getWatermark, Table.lookup_insert_ite, hq] using hw
    · exact ⟨w, hw, hnum, htime⟩

theorem reaches_considered (hlocal : producer ∈ p.producers) (blockNum : ℕ) (timestamp : Slot) :
    (p.considerNewWatermark producer blockNum timestamp).Reaches producer blockNum timestamp := by
  unfold considerNewWatermark
  split
  next w _ =>
    refine ⟨⟨max w.blockNum blockNum, max w.timestamp timestamp⟩, ?_, le_max_right _ _,
      slot_le_max_right _ _⟩
    simp [getWatermark]
  · rw [if_pos hlocal]
    refine ⟨⟨blockNum, timestamp⟩, ?_, le_rfl, le_refl _⟩
    simp [getWatermark]

/-! ## The invariant -/

/-- What was published lies below the watermarks and does not equivocate. -/
structure Recorded (p : ProducerPlugin) : Prop where
  reached : ∀ b ∈ p.published, b.header.producer ∈ p.producers →
    p.Reaches b.header.producer b.blockNum b.header.timestamp
  apart : NoEquivocation p.producers p.published

open Recorded

/-- The pending block was opened on the head, and what it confirms lies above the
watermark of its producer. -/
def OpenedOn (crypto : HeaderCrypto) (p : ProducerPlugin) (b : PendingBlockHeaderState) : Prop :=
  ∃ when n, p.head.next crypto when n = .ok b ∧
    (n.toNat ≠ 0 → ∃ w, p.getWatermark b.producer = some w ∧
      w.blockNum + n.toNat ≤ p.head.blockNum)

/-- The watermark of its producer does not exclude the pending block. -/
structure Clears (p : ProducerPlugin) (b : PendingBlockHeaderState) : Prop where
  isLocal : b.producer ∈ p.producers
  fits : p.head.blockNum + 1 < 2 ^ 32
  above : ∀ w, p.getWatermark b.producer = some w →
    w.blockNum ≤ p.head.blockNum ∧ w.timestamp < b.timestamp

structure Guarded (crypto : HeaderCrypto) (p : ProducerPlugin) : Prop where
  recorded : p.Recorded
  opened : ∀ b, p.pending = some b → p.OpenedOn crypto b
  clears : p.pendingBlockMode = .producing → ∀ b, p.pending = some b → p.Clears b

/-- When a call of `start_block` in producing mode is safe: the slot is not the one `next` takes for
"no time given", the block number does not wrap, and if the call waits for its window, the block
left pending is for the slot it waits for. -/
abbrev Steady (p : ProducerPlugin) (i : LoopInput) : Prop := ∀ scheduled ∈
      p.head.getScheduledProducer (blockTimestamp (p.calculatePendingBlockTime i.baseNow)),
    p.chooseMode scheduled (blockTimestamp (p.calculatePendingBlockTime i.baseNow)) i.ageNow =
        .producing →
      blockTimestamp (p.calculatePendingBlockTime i.baseNow) ≠ 0 ∧
      p.head.blockNum + 1 < 2 ^ 32 ∧
      (i.now < p.calculatePendingBlockTime i.baseNow - Config.blockIntervalUs →
        ∀ b ∈ p.pending, b.timestamp = blockTimestamp (p.calculatePendingBlockTime i.baseNow))

theorem Recorded.onBlockHeader (h : p.Recorded) (b : BlockHeaderState) :
    (p.onBlockHeader b).Recorded := by
  obtain ⟨hproducers, hpublished, -⟩ := p.onBlockHeader_frame b
  refine ⟨?_, ?_⟩
  · intro older hmem hlocal
    rw [hpublished] at hmem
    rw [hproducers] at hlocal
    exact (h.reached older hmem hlocal).considerNewWatermark
  · rw [hpublished, hproducers]
    exact h.apart

/-- With no block pending, what was published is all there is to guard. -/
theorem Recorded.guarded (h : p.Recorded) (hpending : p.pending = none) : p.Guarded crypto := by
  refine ⟨h, ?_, ?_⟩
  · intro b hb
    rw [hpending] at hb
    cases hb
  · intro _ b hb
    rw [hpending] at hb
    cases hb

/-! ## Publishing a block -/

variable (h : p.Guarded crypto)
include h

/-- **The step that matters.** A block made from the pending state follows every
block published before for its producer. -/
theorem Guarded.follows (hmode : p.pendingBlockMode = .producing) {b : PendingBlockHeaderState}
    (hb : p.pending = some b) {bsp older : BlockHeaderState} (hnum : bsp.blockNum = b.blockNum)
    (hproducer : bsp.header.producer = b.producer)
    (hconfirmed : bsp.header.confirmed = b.confirmed) (htime : bsp.header.timestamp = b.timestamp)
    (holder : older ∈ p.published) (hsame : bsp.header.producer = older.header.producer) :
    bsp.Follows older := by
  have hclears := h.clears hmode b hb
  obtain ⟨when, n, hnext, hrange⟩ := h.opened b hb
  obtain ⟨proauth, -, merkle, hcommon, -, hn, -⟩ := next_eq_ok hnext
  have hblockNum : bsp.blockNum = p.head.blockNum + 1 := by
    rw [hnum, hcommon]
    exact u32_of_lt hclears.fits
  have hname : older.header.producer = b.producer := hsame.symm.trans hproducer
  obtain ⟨w, hw, hwnum, hwtime⟩ := h.recorded.reached older holder (hname ▸ hclears.isLocal)
  rw [hname] at hw
  obtain ⟨habove, hlater⟩ := hclears.above w hw
  -- the watermark separates the two ranges
  have hlow : w.blockNum + bsp.header.confirmed.toNat ≤ p.head.blockNum := by
    rw [hconfirmed, hn]
    by_cases hzero : n.toNat = 0
    · omega
    · obtain ⟨w', hw', hle⟩ := hrange hzero
      have heq : w' = w := Option.some.inj (hw'.symm.trans hw)
      rwa [heq] at hle
  refine ⟨?_, ?_⟩
  · rw [htime]
    exact lt_of_le_of_lt hwtime hlater
  · rw [Set.disjoint_left]
    intro k hk hk'
    have h1 : k ≤ older.blockNum := hk.2
    have h2 : (bsp.blockNum : ℤ) - bsp.header.confirmed.toNat ≤ k := hk'.1
    omega

omit h

theorem Recorded.commitBlock (h : p.Recorded) {b : BlockHeaderState}
    (hlocal : b.header.producer ∈ p.producers)
    (hfollows : ∀ older ∈ p.published, b.header.producer = older.header.producer →
      b.Follows older) (o : CommitOutcome) : (p.commitBlock b o).Guarded crypto := by
  obtain ⟨hproducers, hpublished, -⟩ := p.onBlockHeader_frame b
  have hheader : (p.onBlockHeader b).Recorded := h.onBlockHeader b
  cases o with
  | rejected => exact guarded ⟨h.reached, h.apart⟩ rfl
  | displaced head | unannounced => exact guarded ⟨hheader.reached, hheader.apart⟩ rfl
  | announced lib =>
    refine guarded ⟨?_, ?_⟩ rfl
    · intro b' hmem hlocal'
      rcases mem_cons.mp hmem with rfl | hold
      · exact reaches_considered hlocal b'.blockNum b'.header.timestamp
      · exact hheader.reached b' (hpublished ▸ hold) hlocal'
    · change NoEquivocation (p.onBlockHeader b).producers (b :: p.published)
      rw [hproducers]
      exact pairwise_cons.mpr
        ⟨fun older hold hsame _ => hfollows older hold hsame, h.apart⟩

include h

theorem Guarded.maybeProduceBlock (i : ProduceInput) :
    (p.maybeProduceBlock crypto i).Guarded crypto := by
  have haborted : p.abortBlock.Guarded crypto := guarded ⟨h.recorded.reached, h.recorded.apart⟩ rfl
  unfold ProducerPlugin.maybeProduceBlock
  split
  · exact h
  next b hb =>
    split
    · exact haborted
    next hmode =>
      split
      · exact haborted
      · split
        · exact haborted
        next bsp hbsp =>
          have hproducing : p.pendingBlockMode = .producing := not_not.mp hmode
          unfold finalizeBlock at hbsp
          split at hbsp
          · cases hbsp
          · obtain ⟨header, -, hsigned⟩ := bind_eq_ok.mp (toOption_eq_some.mp hbsp)
            obtain ⟨hnum, hproducer, hconfirmed, htime⟩ :=
              PendingBlockHeaderState.signed_fields hsigned
            refine h.recorded.commitBlock ?_ ?_ i.commit
            · rw [hproducer]
              exact (h.clears hproducing b hb).isLocal
            · intro older holder hsame
              exact h.follows hproducing hb hnum hproducer hconfirmed htime holder hsame

/-! ## Starting a block -/

omit h

/-- What a block in producing mode confirms lies above the watermark. -/
theorem le_of_blocksToConfirm {mode : PendingBlockMode}
    (h : (p.blocksToConfirm mode producer).toNat ≠ 0) :
    mode = .producing ∧ ∃ w, p.getWatermark producer = some w ∧
      w.blockNum + (p.blocksToConfirm mode producer).toNat ≤ p.head.blockNum := by
  cases mode with
  | speculating => exact absurd rfl h
  | producing =>
    refine ⟨rfl, ?_⟩
    cases hw : p.getWatermark producer with
    | none => simp [blocksToConfirm, confirmable, hw] at h
    | some w =>
      refine ⟨w, rfl, ?_⟩
      by_cases hlt : w.blockNum < p.head.blockNum
      · have hle : (p.blocksToConfirm .producing producer).toNat ≤
            p.head.blockNum - w.blockNum := by
          simp only [blocksToConfirm, confirmable, hw, if_pos hlt]
          rw [UInt16.toNat_ofNat']
          refine (Nat.mod_le _ _).trans ?_
          omega
        omega
      · simp [blocksToConfirm, confirmable, hw, hlt] at h

/-- The producer is local and its watermark does not exclude it from a block at
`timestamp`. -/
def Admits (p : ProducerPlugin) (producer : Name) (timestamp : Slot) : Prop :=
  producer ∈ p.producers ∧ ∀ w, p.getWatermark producer = some w →
    w.blockNum ≤ p.head.blockNum ∧ w.timestamp < timestamp

variable {scheduled : ProducerAuthority}

theorem admits_of_producing {ageNow : TimePoint}
    (h : p.chooseMode scheduled timestamp ageNow = .producing) :
    p.Admits scheduled.producerName timestamp := by
  simp only [chooseMode] at h
  split_ifs at h with _ hlocal _ _ _ hexcludes
  refine ⟨hlocal, ?_⟩
  intro w hw
  simpa [watermarkExcludes, hw] using hexcludes

/-- A block of a slot and producer that are admitted clears the watermark. -/
theorem clears_of_next {b : PendingBlockHeaderState} {when : Slot} {n : UInt16}
    (hnext : p.head.next crypto when n = .ok b)
    (hsched : p.head.getScheduledProducer b.timestamp = some scheduled)
    (hadmits : p.Admits scheduled.producerName b.timestamp) (hfits : p.head.blockNum + 1 < 2 ^ 32) :
    p.Clears b := by
  obtain ⟨-, proauth, hproauth, hproducer⟩ := scheduled_of_next hnext
  have heq : proauth = scheduled := Option.some.inj (hproauth.symm.trans hsched)
  subst heq
  obtain ⟨hlocal, habove⟩ := hadmits
  refine ⟨hproducer ▸ hlocal, hfits, ?_⟩
  intro w hw
  exact habove w (hproducer ▸ hw)

/-- The fields the invariant reads, the mode apart. -/
def core (p : ProducerPlugin) := (p.producers, p.producerWatermarks, p.head, p.pending, p.published)

include h

/-- A change of timer, policy or mode keeps the invariant if the mode is not set
to producing over a block that the watermark excludes. -/
theorem Guarded.of_core (hcore : p'.core = p.core)
    (hmode : p'.pendingBlockMode = .producing → ∀ b, p.pending = some b → p.Clears b) :
    p'.Guarded crypto := by
  simp only [core, Prod.mk.injEq] at hcore
  obtain ⟨hproducers, hmarks, hhead, hpending, hpublished⟩ := hcore
  have hwatermark : p'.getWatermark = p.getWatermark := by
    funext q
    simp only [getWatermark, hmarks]
  refine ⟨⟨?_, ?_⟩, ?_, ?_⟩
  · intro b hb hlocal
    rw [hpublished] at hb
    rw [hproducers] at hlocal
    simpa only [Reaches, hwatermark] using h.recorded.reached b hb hlocal
  · rw [hproducers, hpublished]
    exact h.recorded.apart
  · intro b hb
    rw [hpending] at hb
    simpa only [OpenedOn, hwatermark, hhead] using h.opened b hb
  · intro hm b hb
    rw [hpending] at hb
    obtain ⟨hlocal, hfits, habove⟩ := hmode hm b hb
    exact ⟨by rwa [hproducers], by rwa [hhead], by rwa [hwatermark, hhead]⟩

omit h

theorem scheduleDelayedProductionLoop_core (p : ProducerPlugin) :
    p.scheduleDelayedProductionLoop.core = p.core ∧
      p.scheduleDelayedProductionLoop.pendingBlockMode = p.pendingBlockMode := by
  unfold scheduleDelayedProductionLoop
  split
  · exact ⟨rfl, rfl⟩
  · exact ⟨rfl, rfl⟩

theorem scheduleMaybeProduceBlock_core (p : ProducerPlugin) :
    p.scheduleMaybeProduceBlock.core = p.core ∧
      p.scheduleMaybeProduceBlock.pendingBlockMode = p.pendingBlockMode := by
  unfold scheduleMaybeProduceBlock
  split
  · exact ⟨rfl, rfl⟩
  · exact ⟨rfl, rfl⟩

include h

theorem Guarded.of_timer (hsame : p'.core = p.core ∧ p'.pendingBlockMode = p.pendingBlockMode) :
    p'.Guarded crypto :=
  h.of_core hsame.1 fun hm => h.clears (hsame.2 ▸ hm)

omit h

variable {i : LoopInput}

theorem Recorded.openBlock (h : p.Recorded)
    (hsched : p.head.getScheduledProducer timestamp = some scheduled)
    (hchecked : p.pendingBlockMode = .producing → timestamp ≠ 0 ∧ p.head.blockNum + 1 < 2 ^ 32 ∧
      p.Admits scheduled.producerName timestamp) :
    (p.openBlock crypto scheduled timestamp i).2.Guarded crypto := by
  simp only [ProducerPlugin.openBlock]
  split
  · exact guarded ⟨h.reached, h.apart⟩ rfl
  next b hopened =>
    have hnext : p.head.next crypto timestamp
        (p.blocksToConfirm p.pendingBlockMode scheduled.producerName) = .ok b := by
      split at hopened
      · cases hopened
      · exact toOption_eq_some.mp hopened
    obtain ⟨htime, proauth, hproauth, hproducer⟩ := scheduled_of_next hnext
    -- in producing mode the block is for the slot and the producer that were checked
    have hslot : p.pendingBlockMode = .producing →
        b.timestamp = timestamp ∧ b.producer = scheduled.producerName := by
      intro hm
      have ht : b.timestamp = timestamp := htime (hchecked hm).1
      rw [ht, hsched] at hproauth
      exact ⟨ht, by rw [hproducer, Option.some.inj hproauth]⟩
    refine ⟨⟨h.reached, h.apart⟩, ?_, ?_⟩
    · rintro _ ⟨⟩
      refine ⟨timestamp, _, hnext, ?_⟩
      intro hne
      obtain ⟨hm, w, hw, hle⟩ := le_of_blocksToConfirm hne
      rw [← (hslot hm).2] at hw
      exact ⟨w, hw, hle⟩
    · intro hm
      have hproducing : p.pendingBlockMode = .producing := by
        by_contra hne
        simp [hne] at hm
      rintro _ ⟨⟩
      obtain ⟨-, hfits, hadmits⟩ := hchecked hproducing
      rw [← (hslot hproducing).1] at hsched hadmits
      obtain ⟨hlocal, hfits', habove⟩ := clears_of_next hnext hsched hadmits hfits
      exact ⟨hlocal, hfits', habove⟩

include h

/-- **One call of `start_block`** under the conditions above. -/
theorem Guarded.startBlock (hsteady : p.Steady i) : (p.startBlock crypto i).2.Guarded crypto := by
  simp only [ProducerPlugin.startBlock]
  split
  · exact h
  next scheduled hfound =>
    have hsched : p.head.getScheduledProducer
        (blockTimestamp (p.calculatePendingBlockTime i.baseNow)) = some scheduled := by
      split at hfound
      · exact hfound
      · cases hfound
    split_ifs with hstale hwaits hlast
    · exact h.of_core rfl fun hm => by simp [hstale.1] at hm
    · -- the call waits: the block that is pending is for the slot it waits for
      obtain ⟨-, hfits, hpending⟩ := hsteady scheduled hsched hwaits.1
      refine h.of_core (scheduleDelayedProductionLoop_core _).1 fun _ b hb => ?_
      obtain ⟨when, n, hnext, -⟩ := h.opened b hb
      have hslot := hpending hwaits.2 b hb
      exact clears_of_next hnext (hslot ▸ hsched) (hslot ▸ admits_of_producing hwaits.1) hfits
    · exact h.of_core rfl fun hm => by simp [hlast.1] at hm
    · apply Recorded.openBlock
      · exact ⟨h.recorded.reached, h.recorded.apart⟩
      · exact hsched
      · intro hm
        obtain ⟨hslot, hfits, -⟩ := hsteady scheduled hsched hm
        obtain ⟨hlocal, habove⟩ := admits_of_producing hm
        exact ⟨hslot, hfits, hlocal, habove⟩

theorem Guarded.schedule (i : LoopInput) (result : StartBlockResult) :
    (p.schedule i result).Guarded crypto := by
  have hdelayed : p.scheduleDelayedProductionLoop.Guarded crypto :=
    h.of_timer p.scheduleDelayedProductionLoop_core
  cases result with
  | failed => exact h.of_timer ⟨rfl, rfl⟩
  | waitingForBlock =>
    simp only [ProducerPlugin.schedule]
    split
    · exact hdelayed
    · exact h
  | waitingForProduction => exact h
  | succeeded | exhausted =>
    simp only [ProducerPlugin.schedule]
    split_ifs
    · exact h.of_timer p.scheduleMaybeProduceBlock_core
    · exact hdelayed
    · exact h

theorem Guarded.scheduleProductionLoop (hsteady : p.Steady i) :
    (p.scheduleProductionLoop crypto i).Guarded crypto :=
  (h.startBlock hsteady).schedule i _

/-! ## Tasks -/

omit h

/-- A received block raises watermarks and moves the head; nothing is pending then. -/
theorem Recorded.pushBlock (h : p.Recorded) (hpending : p.pending = none) (i : IncomingBlock) :
    (p.pushBlock i).Guarded crypto := by
  obtain ⟨hreached, hapart⟩ : (p.onAcceptedHeader i.accepted).Recorded := by
    cases i.accepted with
    | none => exact h
    | some b => exact h.onBlockHeader b
  have hnone : (p.onAcceptedHeader i.accepted).pending = none := by
    cases i.accepted with
    | none => exact hpending
    | some b => exact (p.onBlockHeader_frame b).2.2.trans hpending
  simp only [ProducerPlugin.pushBlock, markSynced]
  split_ifs
  all_goals exact guarded ⟨hreached, hapart⟩ hnone

include h

theorem Guarded.onIncomingBlock (i : IncomingBlock) : (p.onIncomingBlock i).1.Guarded crypto := by
  unfold ProducerPlugin.onIncomingBlock
  split_ifs
  · exact h
  · apply Recorded.pushBlock
    · exact ⟨h.recorded.reached, h.recorded.apart⟩
    · rfl
  · exact h

theorem Guarded.reconsider : p.reconsider.1.Guarded crypto := by
  unfold ProducerPlugin.reconsider
  split
  · exact guarded ⟨h.recorded.reached, h.recorded.apart⟩ rfl
  · exact h

theorem Guarded.begin (t : ProducerTask) : (p.begin crypto t).1.Guarded crypto := by
  cases t with
  | timer i =>
    simp only [ProducerPlugin.begin]
    split
    · exact h
    · exact h.of_timer ⟨rfl, rfl⟩
    · apply Guarded.maybeProduceBlock
      exact h.of_timer ⟨rfl, rfl⟩
  | incomingBlock i => exact h.onIncomingBlock i
  | incomingTransaction exhausted =>
    simp only [ProducerPlugin.begin]
    split
    · exact h.of_timer p.scheduleMaybeProduceBlock_core
    · exact h
  | pause => exact h.of_timer ⟨rfl, rfl⟩
  | resume | setMaxIrreversibleBlockAge us =>
    apply Guarded.reconsider
    exact h.of_timer ⟨rfl, rfl⟩
  | createSnapshot =>
    simp only [ProducerPlugin.begin]
    split
    · exact guarded ⟨h.recorded.reached, h.recorded.apart⟩ rfl
    · exact h

omit h

theorem Initial.guarded (h : p.Initial) : p.Guarded crypto := by
  refine Recorded.guarded ⟨?_, ?_⟩ h.noPending
  · intro b hb
    rw [h.noPublished] at hb
    cases hb
  · rw [h.noPublished]
    exact Pairwise.nil

end ProducerPlugin

theorem ProducerRun.guarded (h : ProducerRun crypto ProducerPlugin.Steady p) :
    p.Guarded crypto := by
  induction h with
  | startup i hinit hsteady => exact hinit.guarded.scheduleProductionLoop hsteady
  | @step p t i _ hsteady ih =>
    have hbegun := ih.begin t
    simp only [ProducerPlugin.step]
    split
    next hrestarts => exact hbegun.scheduleProductionLoop (hsteady hrestarts)
    · exact hbegun

/-- **A producing node does not equivocate** in a run whose calls of `start_block`
are steady: of two blocks it published for a local producer the later one has the
later time, and the ranges of block numbers they confirm are disjoint. -/
theorem published_without_equivocation (h : ProducerRun crypto ProducerPlugin.Steady p) :
    NoEquivocation p.producers p.published :=
  h.guarded.recorded.apart

/-! ## A run that equivocates -/

/-- `openCrypto` with headers told apart by their time. -/
def timedCrypto : HeaderCrypto :=
  { openCrypto with headerDigest := fun h => BitVec.ofNat 256 h.timestamp.toNat }

/-- Producers `1`, which signs with key `1`, and `2`, with key `2`, take over in
block 4, made at slot 3. -/
def takeoverBlocks : List BlockInput :=
  [⟨1, 0, none, 1⟩, ⟨2, 0, some ⟨1, [producerKeyOne 1, ⟨2, ⟨1, [⟨2, 1⟩]⟩⟩]⟩, 1⟩,
    ⟨3, 0, none, 1⟩]

/-- A node for producer `1`, about to start on `head`. -/
def nodeOfProducerOne (head : BlockHeaderState) : ProducerPlugin where
  producers := {1}
  signatureProviders key := if key = 1 then some fun _ => 1 else none
  productionEnabled := true
  irreversibleBlockTime := 0
  head

/-- `us` microseconds after the start of a slot. -/
def slotTime (slot : Slot) (us : ℤ) : TimePoint := toTimePoint slot + us

/-- A loop that reads one time throughout. -/
def loopAt (now : TimePoint) : LoopInput := ⟨now, now, now, now, false, false, false⟩

/-- A received block after which `head` is the head. -/
def receive (b head : BlockHeaderState) (now : TimePoint) : ProducerTask := .incomingBlock
    { timestamp := b.header.timestamp, now, accepted := some b, head, syncedNow := now }

/-- Producer `1` publishes a block at slot 8, a little early.  Two blocks of
producer `2` then arrive from another branch, and the node opens a speculative
block on them, again for slot 8. -/
def speculateOn (head b₁ b₂ : BlockHeaderState) : ProducerPlugin :=
  let p := (nodeOfProducerOne head).scheduleProductionLoop timedCrypto (loopAt (slotTime 7 100000))
  let p := p.step timedCrypto (.timer {}) (loopAt (slotTime 7 400000))
  let p := p.step timedCrypto (receive b₁ p.head (slotTime 7 420000)) (loopAt (slotTime 7 420000))
  p.step timedCrypto (receive b₂ b₂ (slotTime 7 450000)) (loopAt (slotTime 7 450000))

/-- The timer wakes the plugin late.  Slot 11 begins between the first and the
second reading of the clock. -/
def acrossSlots : LoopInput :=
  { now := slotTime 11 (-1), baseNow := slotTime 11 0, ageNow := slotTime 11 0,
    policyNow := slotTime 11 0 }

/-- The plugin waits for slot 12 in producing mode, with the block for slot 8
pending; a transaction that does not fit then has that block produced. -/
def equivocate (head b₁ b₂ : BlockHeaderState) : ProducerPlugin :=
  let p := (speculateOn head b₁ b₂).step timedCrypto (.timer {}) acrossSlots
  let p := p.step timedCrypto (.incomingTransaction true) acrossSlots
  p.step timedCrypto (.timer {}) acrossSlots

/-- The head on which producers `1` and `2` take over, and two blocks of producer `2`
on top of it. -/
def branchOfTwo : Result (BlockHeaderState × BlockHeaderState × BlockHeaderState) := do
  let (head, _) ← produceChain timedCrypto takeoverBlocks
  let b₁ ← produceBlock timedCrypto head ⟨5, 0, none, 2⟩
  let b₂ ← produceBlock timedCrypto b₁ ⟨7, 0, none, 2⟩
  pure (head, b₁, b₂)

/-- Producer, number and slot of the blocks a node has published. -/
def ProducerPlugin.slots (p : ProducerPlugin) : List (Name × ℕ × Slot) :=
  p.published.map fun b => (b.header.producer, b.blockNum, b.header.timestamp)

theorem ProducerRun.extend (h : ProducerRun crypto (fun _ _ => True) p) (t : ProducerTask)
    (i : LoopInput) : ProducerRun crypto (fun _ _ => True) (p.step crypto t i) :=
  .step t i h fun _ => trivial

theorem equivocate_run (head b₁ b₂ : BlockHeaderState) :
    ProducerRun timedCrypto (fun _ _ => True) (equivocate head b₁ b₂) := by
  have hinit : (nodeOfProducerOne head).Initial := ⟨rfl, rfl, rfl, rfl, rfl⟩
  have hstart : ProducerRun timedCrypto (fun _ _ => True)
      ((nodeOfProducerOne head).scheduleProductionLoop timedCrypto
        (loopAt (slotTime 7 100000))) := .startup _ hinit trivial
  have hspeculate : ProducerRun timedCrypto (fun _ _ => True) (speculateOn head b₁ b₂) := by
    unfold speculateOn
    exact ((hstart.extend _ _).extend _ _).extend _ _
  unfold equivocate
  exact ((hspeculate.extend _ _).extend _ _).extend _ _

/-- Producer `1` publishes blocks 5 and 7, both at slot 8. -/
theorem node_equivocates :
    ∃ head b₁ b₂ ancestors, HeaderChain timedCrypto genesisKeyOne head ancestors ∧
      HeaderStep timedCrypto head b₁ ∧ HeaderStep timedCrypto b₁ b₂ ∧
      ProducerRun timedCrypto (fun _ _ => True) (equivocate head b₁ b₂) ∧
      (equivocate head b₁ b₂).slots = [(1, 7, 8), (1, 5, 8)] ∧
      ¬ NoEquivocation (equivocate head b₁ b₂).producers (equivocate head b₁ b₂).published := by
  obtain ⟨⟨head, b₁, b₂⟩, hbranch, hpublished, hlocal⟩ : ∃ r, branchOfTwo = .ok r ∧
      (equivocate r.1 r.2.1 r.2.2).slots = [(1, 7, 8), (1, 5, 8)] ∧
      1 ∈ (equivocate r.1 r.2.1 r.2.2).producers := by
    decide +kernel
  simp only [branchOfTwo, bind_eq_ok, pure_eq_ok] at hbranch
  obtain ⟨⟨head', ancestors⟩, hhead, b₁', hb₁, b₂', hb₂, heq⟩ := hbranch
  simp only [Prod.mk.injEq] at heq
  obtain ⟨rfl, rfl, rfl⟩ := heq
  refine ⟨_, _, _, ancestors, headerChain_produceBlocks hhead, .of_produceBlock hb₁,
    .of_produceBlock hb₂, equivocate_run _ _ _, hpublished, ?_⟩
  intro hnone
  obtain ⟨newer, rest, hlist, hnewer, hrest⟩ := map_eq_cons_iff.mp hpublished
  obtain ⟨older, rest', rfl, holder, -⟩ := map_eq_cons_iff.mp hrest
  simp only [Prod.mk.injEq] at hnewer holder
  rw [NoEquivocation, hlist] at hnone
  have hfollows := (pairwise_cons.mp hnone).1 older mem_cons_self
    (hnewer.1.trans holder.1.symm) (holder.1 ▸ hlocal)
  have hlt := hfollows.timestamp
  rw [holder.2.2, hnewer.2.2] at hlt
  exact absurd hlt (by decide)

/-! ## A steady run -/

/-- Producer `1` publishes a block at slot 8 and one at slot 10. -/
def alternate (head : BlockHeaderState) : ProducerPlugin :=
  let p := (nodeOfProducerOne head).scheduleProductionLoop timedCrypto (loopAt (slotTime 7 100000))
  let p := p.step timedCrypto (.timer {}) (loopAt (slotTime 8 100000))
  let p := p.step timedCrypto (.timer {}) (loopAt (slotTime 9 100000))
  p.step timedCrypto (.timer {}) (loopAt (slotTime 10 100000))

/-- Each call of the run is steady; there is never a block to leave pending. -/
def alternateSteady (head : BlockHeaderState) : Bool :=
  let p := nodeOfProducerOne head
  let p₁ := p.scheduleProductionLoop timedCrypto (loopAt (slotTime 7 100000))
  let p₂ := p₁.step timedCrypto (.timer {}) (loopAt (slotTime 8 100000))
  let p₃ := p₂.step timedCrypto (.timer {}) (loopAt (slotTime 9 100000))
  p.Steady (loopAt (slotTime 7 100000)) ∧
    (p₁.begin timedCrypto (.timer {})).1.Steady (loopAt (slotTime 8 100000)) ∧
    (p₂.begin timedCrypto (.timer {})).1.Steady (loopAt (slotTime 9 100000)) ∧
    (p₃.begin timedCrypto (.timer {})).1.Steady (loopAt (slotTime 10 100000))

theorem published_without_equivocation_alternate :
    ∃ p, ProducerRun timedCrypto ProducerPlugin.Steady p ∧
      p.slots = [(1, 6, 10), (1, 5, 8)] ∧
      NoEquivocation p.producers p.published := by
  obtain ⟨⟨head, b₁, b₂⟩, -, hpublished, hsteady⟩ : ∃ r, branchOfTwo = .ok r ∧
      (alternate r.1).slots = [(1, 6, 10), (1, 5, 8)] ∧
      alternateSteady r.1 := by
    decide +kernel
  obtain ⟨h₀, h₁, h₂, h₃⟩ := of_decide_eq_true hsteady
  have hinit : (nodeOfProducerOne head).Initial := ⟨rfl, rfl, rfl, rfl, rfl⟩
  have halternate : ProducerRun timedCrypto ProducerPlugin.Steady (alternate head) :=
    .step _ _ (.step _ _ (.step _ _ (.startup _ hinit h₀) fun _ => h₁) fun _ => h₂) fun _ => h₃
  exact ⟨alternate head, halternate, hpublished, published_without_equivocation halternate⟩

end Inery.Chain
