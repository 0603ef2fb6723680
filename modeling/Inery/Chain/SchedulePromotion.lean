import Inery.Chain.ScheduleProposal

/-!
# Schedules from proposal to activation

A schedule is proposed, becomes pending in a header and is promoted to active,
and its version is fixed when it is proposed.  `SchedulesInv` relates the three
versions along every chain; from it no assertion about schedules can fire.
-/

namespace Inery.Chain

open Foundation List PendingBlockHeaderState

variable {crypto : HeaderCrypto} {genesis : GenesisState} {c c' : ScheduleState}
  {past : List ScheduleState} {p : PendingBlockHeaderState} {s' : BlockHeaderState}
  {new : Option ProducerAuthoritySchedule} {features : List Digest}
  {transactionMroot actionMroot : Digest} {h : SignedBlockHeader}

/-! ## Assembled headers -/

theorem length_of_mapM_downgrade {producers : List ProducerAuthority} {keys : List ProducerKey}
    (h : producers.mapM ProducerAuthority.downgrade = .ok keys) :
    keys.length = producers.length := by
  induction producers generalizing keys with
  | nil =>
    cases h
    rfl
  | cons a rest ih =>
    simp only [mapM_cons, bind_eq_ok] at h
    obtain ⟨key, -, keys, hrest, hres⟩ := h
    cases hres
    rw [length_cons, length_cons, ih hrest]

/-- What a header says about the schedule `new` it was assembled with: nothing,
the extension, or the legacy field. -/
inductive Carries (crypto : HeaderCrypto) (p : PendingBlockHeaderState) :
    Option ProducerAuthoritySchedule → Option LegacyProducerSchedule →
      Option ProducerAuthoritySchedule → Prop
  | nothing : Carries crypto p none none none
  | extension (schedule : ProducerAuthoritySchedule) :
      isBuiltinActivated crypto p.prevActivatedProtocolFeatures .wtmsigBlockSignatures = true →
      Carries crypto p (some schedule) none (some schedule)
  | legacy (schedule : ProducerAuthoritySchedule) (keys : List ProducerKey) :
      isBuiltinActivated crypto p.prevActivatedProtocolFeatures .wtmsigBlockSignatures = false →
      keys.length = schedule.producers.length →
      Carries crypto p (some schedule) (some ⟨schedule.version, keys⟩) none

/-- What `make_block_header` puts into a header, the signature apart. -/
structure MadeFrom (crypto : HeaderCrypto) (p : PendingBlockHeaderState)
    (new : Option ProducerAuthoritySchedule) (features : List Digest)
    (h : SignedBlockHeader) : Prop where
  timestamp : h.timestamp = p.timestamp
  previous : h.previous = p.previous
  confirmed : h.confirmed = p.confirmed
  producer : h.producer = p.producer
  scheduleVersion : h.scheduleVersion = p.activeScheduleVersion
  extensions : h.validateAndExtractHeaderExtensions = .ok h.headerExtensions
  activation : featureActivation? h.headerExtensions = if features = [] then none else some features
  schedule : Carries crypto p new h.newProducers (scheduleChange? h.headerExtensions)

/-- A made header has the activation first and the schedule behind it. -/
theorem madeFrom_makeBlockHeader
    (hmade : p.makeBlockHeader crypto transactionMroot actionMroot new features = .ok h) :
    MadeFrom crypto p new features h := by
  unfold makeBlockHeader at hmade
  cases new with
  | none =>
    cases hmade
    cases features with
    | nil | cons => exact ⟨rfl, rfl, rfl, rfl, rfl, rfl, rfl, .nothing⟩
  | some schedule =>
    by_cases hwtmsig :
        isBuiltinActivated crypto p.prevActivatedProtocolFeatures .wtmsigBlockSignatures = true
    · simp only [hwtmsig, if_true] at hmade
      cases hmade
      cases features with
      | nil | cons => exact ⟨rfl, rfl, rfl, rfl, rfl, rfl, rfl, .extension schedule hwtmsig⟩
    · rw [Bool.not_eq_true] at hwtmsig
      simp only [hwtmsig, Bool.false_eq_true, if_false, bind_eq_ok] at hmade
      obtain ⟨keys, hkeys, hres⟩ := hmade
      cases hres
      have hcarries := Carries.legacy schedule keys hwtmsig (length_of_mapM_downgrade hkeys)
      cases features with
      | nil | cons => exact ⟨rfl, rfl, rfl, rfl, rfl, rfl, rfl, hcarries⟩

variable (hmade : MadeFrom crypto p new features h)
include hmade

theorem MadeFrom.resign (signature : Signature) :
    MadeFrom crypto p new features { h with producerSignature := signature } :=
  { hmade with }

/-! ## Accepting an assembled header -/

omit hmade

structure Fits (p : PendingBlockHeaderState) (schedule : ProducerAuthoritySchedule) : Prop where
  notPromoted : p.wasPendingPromoted = false
  version : schedule.version = u32 (p.activeSchedule.version + 1)
  vacant : p.prevPendingSchedule.schedule.producers = []

theorem Fits.checkNewSchedule {schedule : ProducerAuthoritySchedule} (hfits : Fits p schedule)
    (message : String) : p.checkNewSchedule true message schedule.version = .ok () := by
  simp only [PendingBlockHeaderState.checkNewSchedule, bind_eq_ok, ineAssert_eq_ok]
  exact ⟨(), trivial, (), by simp [hfits.notPromoted], (), hfits.version, hfits.vacant⟩

def announcedSchedule (h : SignedBlockHeader) (exts : List BlockHeaderExtension) :
    Option ProducerAuthoritySchedule :=
  (scheduleChange? exts).or (h.newProducers.map (·.toAuthoritySchedule))

/-- The header state takes `accepted` for the schedule `new` it was assembled
with: the version and the number of producers stay, while the legacy field
forgets thresholds and weights. -/
def AcceptedFor (new : Option ProducerAuthoritySchedule)
    (accepted : Option (ProducerAuthoritySchedule × Digest)) : Prop :=
  Option.Rel (fun schedule taken => taken.1.version = schedule.version ∧
    taken.1.producers.length = schedule.producers.length) new accepted

include hmade

theorem MadeFrom.newProducerSchedule (hfits : ∀ schedule ∈ new, Fits p schedule) :
    ∃ accepted, p.newProducerSchedule crypto h h.headerExtensions = .ok accepted ∧
      AcceptedFor new accepted ∧
      announcedSchedule h h.headerExtensions = accepted.map Prod.fst := by
  have hcarries := hmade.schedule
  unfold PendingBlockHeaderState.newProducerSchedule
    legacyProducerSchedule announcedSchedule
  generalize h.newProducers = legacy at hcarries ⊢
  generalize scheduleChange? h.headerExtensions = change at hcarries ⊢
  cases hcarries with
  | nothing => exact ⟨none, rfl, .none, rfl⟩
  | extension schedule hwtmsig =>
    have hcheck := (hfits schedule rfl).checkNewSchedule
    simp only [hwtmsig, hcheck]
    exact ⟨_, rfl, .some ⟨rfl, rfl⟩, rfl⟩
  | legacy schedule keys hwtmsig hlength =>
    have hcheck := (hfits schedule rfl).checkNewSchedule
    simp only [hwtmsig, Bool.not_false, hcheck]
    exact ⟨_, rfl, .some ⟨rfl, by simpa [LegacyProducerSchedule.toAuthoritySchedule]⟩, rfl⟩

/-- `_finish_next` accepts an assembled header whose schedule fits, once its
protocol features are activated. -/
theorem MadeFrom.finishNextUnsigned (hfits : ∀ schedule ∈ new, Fits p schedule) :
    ∃ accepted, AcceptedFor new accepted ∧
      announcedSchedule h h.headerExtensions = accepted.map Prod.fst ∧
      p.finishNextUnsigned crypto h = (do
        let activated ← p.newActivatedProtocolFeatures crypto h.headerExtensions
        pure
          { toBlockHeaderStateCommon := p.toBlockHeaderStateCommon
            id := h.id crypto
            header := h
            headerExts := h.headerExtensions
            pendingSchedule := p.finishPendingSchedule accepted
            activatedProtocolFeatures := activated }) := by
  obtain ⟨accepted, hnew, haccepted, hannounced⟩ := hmade.newProducerSchedule hfits
  refine ⟨accepted, haccepted, hannounced, ?_⟩
  simp only [PendingBlockHeaderState.finishNextUnsigned, ineAssert, ensure_pos hmade.timestamp,
    ensure_pos hmade.previous, ensure_pos hmade.confirmed, ensure_pos hmade.producer,
    ensure_pos hmade.scheduleVersion, hmade.extensions, hnew, ok_bind]

/-! ## Opening and proposing -/

omit hmade

namespace OpenBlock

variable {b : OpenBlock}

/-- A proposal waiting in the global properties follows the last schedule. -/
def Numbered (b : OpenBlock) : Prop :=
  ∀ num ∈ b.gpo.proposedScheduleBlockNum,
    b.gpo.proposedSchedule.version = u32 (b.lastProducers.version + 1)

/-- `b'` is `b` with, possibly, another proposal. -/
structure Extends (b b' : OpenBlock) : Prop where
  pbhs : b'.pendingBlockHeaderState = b.pendingBlockHeaderState
  newPending : b'.newPendingProducerSchedule = b.newPendingProducerSchedule
  numbered : b.Numbered → b'.Numbered

theorem Extends.refl (b : OpenBlock) : Extends b b := ⟨rfl, rfl, id⟩

theorem Extends.trans {b' b'' : OpenBlock} (h : Extends b b') (h' : Extends b' b'') :
    Extends b b'' :=
  ⟨h'.pbhs.trans h.pbhs, h'.newPending.trans h.newPending, h'.numbered ∘ h.numbered⟩

theorem extends_setProposedProducers (headBlockNum : ℕ) (disallowEmpty : Bool) (b : OpenBlock)
    (producers : List ProducerAuthority) :
    Extends b (b.setProposedProducers headBlockNum disallowEmpty producers).2 := by
  simp only [setProposedProducers]
  split_ifs
  · exact .refl b
  · exact .refl b
  · exact .refl b
  · exact ⟨rfl, rfl, fun _ _ _ => rfl⟩

theorem extends_propose (headBlockNum : ℕ) (disallowEmpty : Bool) (b : OpenBlock)
    (proposals : List (List ProducerAuthority)) :
    Extends b (b.propose headBlockNum disallowEmpty proposals) := by
  induction proposals generalizing b with
  | nil => exact .refl b
  | cons producers rest ih =>
    exact (extends_setProposedProducers headBlockNum disallowEmpty b producers).trans (ih _)

end OpenBlock

open OpenBlock

/-- The schedule the next proposal follows. -/
def BlockHeaderState.lastSchedule (s : BlockHeaderState) : ProducerAuthoritySchedule :=
  lastOf s.pendingSchedule.schedule s.activeSchedule

open BlockHeaderState

/-- A proposal waiting in the global properties follows the last schedule. -/
def ScheduleState.Numbered (c : ScheduleState) : Prop :=
  ∀ num ∈ c.gpo.proposedScheduleBlockNum,
    c.gpo.proposedSchedule.version = u32 (c.head.lastSchedule.version + 1)

open ScheduleState

variable {s : BlockHeaderState}

theorem BlockHeaderState.promotes_of_vacant (q : Name)
    (h : s.pendingSchedule.schedule.producers = []) : s.promotes q = false := by
  simp [promotes, h]

variable {when : Slot} {n : UInt16}

/-- **`start_block` does not fail on a schedule.** Where `next` opens a block,
the version of a schedule that becomes pending is the expected one. -/
theorem ScheduleState.startBlock_of_next (hc : c.Numbered)
    (hnext : c.head.next crypto when n = .ok p) :
    ∃ b, c.startBlock crypto when n = .ok b ∧ b.pendingBlockHeaderState = p ∧ b.Numbered ∧
      ∀ schedule ∈ b.newPendingProducerSchedule, Fits p schedule := by
  obtain ⟨proauth, -, merkle, hcommon, -, -, hprev, hpromoted, hversion, -⟩ := next_eq_ok hnext
  have hactive : c.head.promotes proauth.producerName = false →
      p.activeSchedule = c.head.activeSchedule := by
    intro hkept
    rw [hcommon]
    exact if_neg (by simp [hkept])
  unfold startBlock promoteProposed
  rw [hnext, ok_bind]
  split_ifs with hdue
  · -- the proposal is due and there is room for it
    obtain ⟨hdue, hroom⟩ := hdue
    rw [length_eq_zero_iff] at hroom
    have hvacant : c.head.pendingSchedule.schedule.producers = [] := by rw [← hprev]; exact hroom
    have hkept := promotes_of_vacant proauth.producerName hvacant
    obtain ⟨num, hnum, -⟩ := (Option.any_eq_true _ _).mp hdue
    have hproposed := hc num hnum
    rw [lastSchedule, lastOf, if_pos (by rw [hvacant]; rfl)] at hproposed
    rw [ineAssert, ensure_pos (by rw [hproposed, hversion]), ok_bind]
    refine ⟨_, rfl, rfl, fun _ hnone => absurd hnone (Option.not_mem_none _), ?_⟩
    rintro schedule ⟨rfl⟩
    exact ⟨by rw [hpromoted, hkept], by rw [hproposed, hactive hkept], hroom⟩
  · refine ⟨_, rfl, rfl, ?_, fun _ hnone => absurd hnone (Option.not_mem_none _)⟩
    intro num hnum
    have hlast : lastProducers ⟨p, none, c.gpo⟩ = c.head.lastSchedule := by
      simp only [lastProducers, pendingProducers, Option.getD_none, hprev,
        activeProducers, lastSchedule, lastOf]
      split_ifs with hvacant
      · rw [length_eq_zero_iff] at hvacant
        exact hactive (promotes_of_vacant _ hvacant)
      · rfl
    rw [hlast]
    exact hc num hnum

/-! ## Closing a block -/

theorem BlockHeaderState.next_promoted (hnext : s.next crypto when n = .ok p)
    (hpromoted : p.wasPendingPromoted = true) :
    p.prevPendingSchedule.schedule.producers.length ≠ 0 ∧
      p.activeSchedule = p.prevPendingSchedule.schedule := by
  obtain ⟨proauth, -, merkle, hcommon, -, -, hprev, hprom, -, -⟩ := next_eq_ok hnext
  rw [hprom] at hpromoted
  rw [hprev, hcommon]
  refine ⟨?_, if_pos hpromoted⟩
  simp only [promotes, decide_eq_true_eq] at hpromoted
  exact hpromoted.1

theorem lastOf_version {a b active : ProducerAuthoritySchedule} (hversion : a.version = b.version)
    (hlength : a.producers.length = b.producers.length) :
    (lastOf a active).version = (lastOf b active).version := by
  unfold lastOf
  rw [hlength]
  split_ifs
  · rfl
  · exact hversion

theorem lastSchedule_version {b : OpenBlock}
    {accepted : Option (ProducerAuthoritySchedule × Digest)}
    (hnext : s.next crypto when n = .ok b.pendingBlockHeaderState)
    (haccepted : AcceptedFor b.newPendingProducerSchedule accepted)
    (hactive : s'.activeSchedule = b.pendingBlockHeaderState.activeSchedule)
    (hpending : s'.pendingSchedule = b.pendingBlockHeaderState.finishPendingSchedule accepted) :
    s'.lastSchedule.version = b.lastProducers.version := by
  obtain ⟨p, new, gpo⟩ := b
  rw [lastSchedule, hactive, hpending]
  cases haccepted with
  | none =>
    cases hpromoted : p.wasPendingPromoted with
    | false => simp [finishPendingSchedule, hpromoted,
        lastProducers, pendingProducers, activeProducers]
    | true =>
      -- the promoted schedule is empty in the new state and active in both
      obtain ⟨hfull, hactive⟩ := next_promoted hnext hpromoted
      calc (lastOf (p.finishPendingSchedule none).schedule p.activeSchedule).version
          = p.activeSchedule.version := by
            simp [finishPendingSchedule, hpromoted, lastOf]
        _ = p.prevPendingSchedule.schedule.version := congrArg _ hactive
        _ = (lastOf p.prevPendingSchedule.schedule p.activeSchedule).version := by
            rw [lastOf, if_neg hfull]
  | some htaken => exact lastOf_version htaken.1 htaken.2

/-- However an assembled header is closed, `_finish_next` has accepted it. -/
theorem Closes.exists_unsigned (hcloses : Closes crypto p h s')
    (hmade : MadeFrom crypto p new features h) :
    ∃ h' r sig sigs, MadeFrom crypto p new features h' ∧
      p.finishNextUnsigned crypto h' = .ok r ∧ s' = r.withSignatures sig sigs := by
  cases hcloses with
  | signed _ hfinish =>
    obtain ⟨r, sig, sigs, hr, hs'⟩ := finishNextSigned_eq_ok hfinish
    exact ⟨h, r, sig, sigs, hmade, hr, hs'⟩
  | received signature _ _ hfinish =>
    obtain ⟨r, sig, sigs, hr, hs'⟩ := finishNext_eq_ok hfinish
    exact ⟨_, r, sig, sigs, hmade.resign signature, hr, hs'⟩

theorem Closes.headerStep (hnext : s.next crypto when n = .ok p) (hcloses : Closes crypto p h s') :
    HeaderStep crypto s s' := by
  cases hcloses with
  | signed signer hfinish => exact .signed when n p h signer hnext hfinish
  | received _ sigs skip hfinish => exact .received when n p _ sigs skip hnext hfinish

/-- `s` is the block that made its pending schedule pending. -/
structure MakesPending (s : BlockHeaderState) : Prop where
  announced : announcedSchedule s.header s.headerExts = some s.pendingSchedule.schedule
  libNum : s.pendingSchedule.scheduleLibNum = s.blockNum
  version : s.pendingSchedule.schedule.version = u32 (s.activeSchedule.version + 1)

structure ScheduleFacts (c c' : ScheduleState) (proauth : ProducerAuthority) : Prop
    extends NextFacts c.head c'.head proauth where
  numbered : c'.Numbered
  pending : c'.head.pendingSchedule.schedule.producers ≠ [] → MakesPending c'.head ∨
    c.head.promotes proauth.producerName = false ∧ c'.head.pendingSchedule = c.head.pendingSchedule

/-- A closed block has made its pending schedule pending, or has kept it. -/
theorem pending_of_finish {accepted : Option (ProducerAuthoritySchedule × Digest)}
    (hnext : s.next crypto when n = .ok p) (hfits : ∀ schedule ∈ new, Fits p schedule)
    (haccepted : AcceptedFor new accepted)
    (hcommon : s'.toBlockHeaderStateCommon = p.toBlockHeaderStateCommon)
    (hpending : s'.pendingSchedule = p.finishPendingSchedule accepted)
    (hannounced : announcedSchedule s'.header s'.headerExts = accepted.map Prod.fst)
    (hfull : s'.pendingSchedule.schedule.producers ≠ []) :
    MakesPending s' ∨ s'.pendingSchedule = s.pendingSchedule := by
  cases haccepted with
  | @some schedule taken htaken =>
    left
    refine ⟨by rw [hannounced, hpending]; rfl, by rw [hpending, hcommon]; rfl, ?_⟩
    rw [hpending, hcommon, ← (hfits schedule rfl).version]
    exact htaken.1
  | none =>
    right
    obtain ⟨proauth, -, merkle, -, -, -, hprev, -, -, -⟩ := next_eq_ok hnext
    cases hpromoted : p.wasPendingPromoted with
    | true =>
      simp [hpending, finishPendingSchedule, hpromoted] at hfull
    | false =>
      simp [hpending, finishPendingSchedule, hpromoted, hprev]

/-- **What a block does to the schedules**, while proposals are numbered. -/
theorem ScheduleStep.facts (hstep : ScheduleStep crypto c c') (hc : c.Numbered) :
    ∃ proauth, ScheduleFacts c c' proauth := by
  obtain ⟨contents, built, h, hassemble, hcloses, hgpo⟩ := hstep
  simp only [assemble, bind_eq_ok] at hassemble
  obtain ⟨started, hstart, h', hmake, hres⟩ := hassemble
  cases hres
  -- the block that was started is the one `startBlock_of_next` describes
  have hnext : ∃ p, c.head.next crypto contents.when contents.confirmBlockCount = .ok p := by
    simp only [startBlock, bind_eq_ok] at hstart
    obtain ⟨p, hnext, -⟩ := hstart
    exact ⟨p, hnext⟩
  obtain ⟨p, hnext⟩ := hnext
  obtain ⟨b, hb, rfl, hnumbered, hfits⟩ := startBlock_of_next hc hnext
  obtain rfl : b = started := Except.ok.inj (hb.symm.trans hstart)
  have hext := extends_propose c.head.blockNum (c.disallowEmpty crypto contents) b
    contents.proposals
  rw [hext.pbhs, hext.newPending] at hmake
  rw [hext.pbhs] at hcloses
  obtain ⟨proauth, hfacts⟩ := (hcloses.headerStep hnext).facts
  obtain ⟨h', r, sig, sigs, hmade, hr, hhead⟩ :=
    hcloses.exists_unsigned (madeFrom_makeBlockHeader hmake)
  obtain ⟨accepted, haccepted, hannounced, hfinish⟩ := hmade.finishNextUnsigned hfits
  rw [hfinish, bind_eq_ok] at hr
  obtain ⟨activated, -, hres⟩ := hr
  cases hres
  have hcommon : c'.head.toBlockHeaderStateCommon =
      b.pendingBlockHeaderState.toBlockHeaderStateCommon := by rw [hhead]; rfl
  have hpending : c'.head.pendingSchedule =
      b.pendingBlockHeaderState.finishPendingSchedule accepted := by rw [hhead]; rfl
  refine ⟨proauth, hfacts, ?_, ?_⟩
  · intro num hnum
    rw [hgpo] at hnum ⊢
    have hlast : c'.head.lastSchedule.version = b.lastProducers.version :=
      lastSchedule_version hnext haccepted (by rw [hcommon]) hpending
    have hsame : (b.propose c.head.blockNum (c.disallowEmpty crypto contents)
        contents.proposals).lastProducers = b.lastProducers := by
      simp only [lastProducers, pendingProducers, activeProducers, hext.pbhs, hext.newPending]
    rw [hlast, ← hsame]
    exact hext.numbered hnumbered num hnum
  · intro hfull
    rcases pending_of_finish hnext hfits haccepted hcommon hpending
      (by rw [hhead]; exact hannounced) hfull with hmakes | hkept
    · exact .inl hmakes
    · refine .inr ⟨?_, hkept⟩
      rw [← Bool.not_eq_true]
      exact fun hprom => hfull (hfacts.pendingCleared hprom)

/-! ## Along a chain -/

/-- The versions of the three schedules, and where the pending one comes from.
The schedule pending at genesis is the initial one. -/
structure SchedulesInv (c : ScheduleState) (past : List ScheduleState) : Prop where
  numbered : c.Numbered
  version_le : c.head.activeSchedule.version ≤ past.length
  pending : past ≠ [] → c.head.pendingSchedule.schedule.producers ≠ [] →
    c.head.pendingSchedule.schedule.version = u32 (c.head.activeSchedule.version + 1) ∧
      ∃ m ∈ c :: past, MakesPending m.head ∧ m.head.pendingSchedule = c.head.pendingSchedule

theorem BlockHeaderState.pending_of_promotes {q : Name} (h : s.promotes q = true) :
    s.pendingSchedule.schedule.producers ≠ [] ∧
      s.pendingSchedule.scheduleLibNum ≤ s.calcDposLastIrreversible q := by
  simp only [promotes, decide_eq_true_eq] at h
  exact ⟨fun hvacant => h.1 (by rw [hvacant]; rfl), h.2⟩

theorem promotes_genesis (q : Name) : (genesisHeaderState crypto genesis).promotes q = true :=
  decide_eq_true ⟨Nat.one_ne_zero, Nat.zero_le _⟩

/-- A promotion numbers the active schedule one higher, except at genesis. -/
theorem ScheduleFacts.version_of_promotes {proauth : ProducerAuthority}
    (hfacts : ScheduleFacts c c' proauth) (hinv : SchedulesInv c past)
    (hprom : c.head.promotes proauth.producerName = true) (hpast : past ≠ []) :
    c'.head.activeSchedule.version = u32 (c.head.activeSchedule.version + 1) := by
  rw [hfacts.activeSchedule_eq, if_pos hprom]
  exact (hinv.pending hpast (pending_of_promotes hprom).1).1

theorem SchedulesInv.step (hchain : ScheduleChain crypto genesis c past)
    (hinv : SchedulesInv c past) (hstep : ScheduleStep crypto c c') :
    SchedulesInv c' (c :: past) := by
  obtain ⟨proauth, hfacts⟩ := hstep.facts hinv.numbered
  refine ⟨hfacts.numbered, ?_, ?_⟩
  · cases hprom : c.head.promotes proauth.producerName with
    | false =>
      rw [hfacts.activeSchedule_eq, if_neg (by simp [hprom]), length_cons]
      exact hinv.version_le.trans (Nat.le_succ _)
    | true =>
      cases hchain with
      | start =>
        rw [hfacts.activeSchedule_eq, if_pos hprom]
        exact Nat.zero_le _
      | step =>
        rw [hfacts.version_of_promotes hinv hprom (cons_ne_nil _ _), length_cons]
        exact (Nat.mod_le _ _).trans (Nat.succ_le_succ hinv.version_le)
  · intro _ hfull
    rcases hfacts.pending hfull with hmakes | ⟨hprom, hkept⟩
    · exact ⟨hmakes.version, c', mem_cons_self, hmakes, rfl⟩
    · cases hchain with
      | start => exact absurd (hprom.symm.trans (promotes_genesis _)) Bool.false_ne_true
      | step =>
        rw [hkept] at hfull ⊢
        rw [hfacts.activeSchedule_eq, if_neg (by simp [hprom])]
        obtain ⟨hversion, m, hm, hmakes, hsame⟩ := hinv.pending (cons_ne_nil _ _) hfull
        exact ⟨hversion, m, mem_cons_of_mem _ hm, hmakes, hsame⟩

theorem ScheduleChain.inv (hchain : ScheduleChain crypto genesis c past) : SchedulesInv c past := by
  refine History.invariant ?_ (fun _ _ _ hpast hinv hstep => hinv.step hpast hstep) hchain
  exact ⟨(fun _ hnone => nomatch hnone), Nat.zero_le _, fun hne => absurd rfl hne⟩

/-- **Schedules from proposal to activation.** Along every chain `start_block` opens every block
that `next` opens, and `_finish_next` accepts every header made for it unless the protocol features
it activates are refused.  A block that promotes nothing keeps the active schedule.  One that
promotes the pending schedule, the block after genesis apart, numbers the active schedule one
higher, and the block that announced the schedule is irreversible by then. -/
theorem schedules_promoted_in_order (hchain : ScheduleChain crypto genesis c past) :
    (∀ when n p, c.head.next crypto when n = .ok p →
      ∃ b, c.startBlock crypto when n = .ok b ∧ b.pendingBlockHeaderState = p ∧
        ∀ transactionMroot actionMroot features h,
          p.makeBlockHeader crypto transactionMroot actionMroot b.newPendingProducerSchedule
            features = .ok h →
          (∃ s', p.finishNextUnsigned crypto h = .ok s') ∨
            features ≠ [] ∧ ∃ e,
              p.newActivatedProtocolFeatures crypto h.headerExtensions = .error e ∧
                p.finishNextUnsigned crypto h = .error e) ∧
    (∀ c', ScheduleStep crypto c c' →
      (c.head.promotes c'.head.header.producer = false →
        c'.head.activeSchedule = c.head.activeSchedule) ∧
      (c.head.promotes c'.head.header.producer = true →
        c'.head.activeSchedule = c.head.pendingSchedule.schedule ∧
        (past = [] ∧ c'.head.activeSchedule.version = c.head.activeSchedule.version ∨
          c'.head.activeSchedule.version = u32 (c.head.activeSchedule.version + 1) ∧
          (past.length + 1 < 2 ^ 32 →
            c'.head.activeSchedule.version = c.head.activeSchedule.version + 1) ∧
          ∃ m ∈ c :: past, MakesPending m.head ∧
            m.head.pendingSchedule = c.head.pendingSchedule ∧
            m.head.blockNum ≤ c'.head.dposIrreversibleBlocknum))) := by
  have hinv := ScheduleChain.inv hchain
  constructor
  · intro when n p hnext
    obtain ⟨b, hb, hpbhs, -, hfits⟩ := startBlock_of_next hinv.numbered hnext
    refine ⟨b, hb, hpbhs, ?_⟩
    intro transactionMroot actionMroot features h hmake
    have hmade := madeFrom_makeBlockHeader hmake
    obtain ⟨accepted, -, -, hfinish⟩ := hmade.finishNextUnsigned hfits
    rw [hfinish]
    cases hactivated : p.newActivatedProtocolFeatures crypto h.headerExtensions with
    | ok activated => exact .inl ⟨_, rfl⟩
    | error e =>
      refine .inr ⟨?_, e, rfl, rfl⟩
      rintro rfl
      rw [newActivatedProtocolFeatures, hmade.activation] at hactivated
      cases hactivated
  · intro c' hstep
    obtain ⟨proauth, hfacts⟩ := hstep.facts hinv.numbered
    rw [hfacts.producer]
    refine ⟨fun hprom => by rw [hfacts.activeSchedule_eq, if_neg (by simp [hprom])], ?_⟩
    intro hprom
    have hactive : c'.head.activeSchedule = c.head.pendingSchedule.schedule := by
      rw [hfacts.activeSchedule_eq, if_pos hprom]
    refine ⟨hactive, ?_⟩
    by_cases hpast : past = []
    · left
      subst hpast
      cases hchain
      exact ⟨rfl, congrArg _ hactive⟩
    · right
      obtain ⟨hfull, hdue⟩ := pending_of_promotes hprom
      obtain ⟨-, m, hm, hmakes, hsame⟩ := hinv.pending hpast hfull
      have hversion := hfacts.version_of_promotes hinv hprom hpast
      refine ⟨hversion, ?_, m, hm, hmakes, hsame, ?_⟩
      · intro hlen
        have hle := hinv.version_le
        rw [hversion, u32_of_lt (by omega)]
      · rw [← hmakes.libNum, hsame, hfacts.irreversible_eq]
        exact hdue

/-- Block 2 proposes the schedule of producer `5`, which block 3 makes pending. -/
def proposingBlocks : List BlockContents :=
  [{ when := 1, confirmBlockCount := 0, proposals := [[producerKeyOne 5]] },
    { when := 2, confirmBlockCount := 0 }, { when := 3, confirmBlockCount := 0 }]

/-- The theorem at block 3, whose child promotes the schedule of block 2. -/
theorem schedules_promoted_in_order_block_four :
    ∃ c c' past, ScheduleChain openCrypto genesisKeyOne c past ∧
      ScheduleStep openCrypto c c' ∧ c.head.activeSchedule.version = 0 ∧
      c'.head.activeSchedule.version = 1 ∧
      ∃ m ∈ c :: past, MakesPending m.head ∧
        m.head.blockNum ≤ c'.head.dposIrreversibleBlocknum := by
  obtain ⟨⟨c', below⟩, hblocks, hafter, c, hhead, hbefore, hprom⟩ : ∃ r,
      produceAll openCrypto (fun _ => [1]) proposingBlocks
        ⟨genesisHeaderState openCrypto genesisKeyOne, {}⟩ [] = .ok r ∧
      r.1.head.activeSchedule.version = 1 ∧ ∃ c ∈ r.2.head?,
        c.head.activeSchedule.version = 0 ∧ c.head.promotes r.1.head.header.producer := by
    decide +kernel
  obtain ⟨past, rfl⟩ := head?_eq_some_iff.mp hhead
  obtain ⟨hchain, hstep⟩ := (scheduleChain_produceAll .start hblocks).of_cons
  obtain ⟨-, ⟨-, hsame⟩ | ⟨-, -, m, hm, hmakes, -, hirreversible⟩⟩ :=
    ((schedules_promoted_in_order hchain).2 c' hstep).2 hprom
  · rw [hafter, hbefore] at hsame
    cases hsame
  · exact ⟨c, c', past, hchain, hstep, hbefore, hafter, m, hm, hmakes, hirreversible⟩

/-- A block that activates one protocol feature twice. -/
def repeatedActivation : BlockContents :=
  { when := 1, confirmBlockCount := 0, newProtocolFeatureActivations := [1, 1] }

/-- The block after genesis promotes the initial schedule: the version stays and
no block is irreversible yet.  And a header that activates a feature twice is
refused. -/
theorem first_promotion_keeps_version :
    (∃ c c', ScheduleChain openCrypto genesisKeyOne c [] ∧
      ScheduleStep openCrypto c c' ∧
      c.head.promotes c'.head.header.producer = true ∧
      c'.head.activeSchedule.version = c.head.activeSchedule.version ∧
      c'.head.dposIrreversibleBlocknum < c.head.blockNum) ∧
    ∃ c built h e, ScheduleChain openCrypto genesisKeyOne c [] ∧
      c.assemble openCrypto repeatedActivation = .ok (built, h) ∧
      built.pendingBlockHeaderState.finishNextUnsigned openCrypto h = .error e := by
  constructor
  · obtain ⟨c', hblock, hversion, hnum⟩ : ∃ c',
        (mk (genesisHeaderState openCrypto genesisKeyOne) {}).produce
          openCrypto { when := 1, confirmBlockCount := 0 } (fun _ => [1]) = .ok c' ∧
        c'.head.activeSchedule.version = 0 ∧ c'.head.dposIrreversibleBlocknum < 1 := by
      decide +kernel
    exact ⟨_, c', .start, .of_produce hblock, promotes_genesis _, hversion, hnum⟩
  · obtain ⟨⟨built, h⟩, hmade, hrefused⟩ : ∃ r,
        (mk (genesisHeaderState openCrypto genesisKeyOne) {}).assemble
          openCrypto repeatedActivation = .ok r ∧
        (r.1.pendingBlockHeaderState.finishNextUnsigned openCrypto r.2).toOption.isNone := by
      decide +kernel
    cases hfinish : built.pendingBlockHeaderState.finishNextUnsigned openCrypto h with
    | ok s' => simp [hfinish, Except.toOption] at hrefused
    | error e => exact ⟨_, built, h, e, .start, hmade, hfinish⟩

end Inery.Chain
