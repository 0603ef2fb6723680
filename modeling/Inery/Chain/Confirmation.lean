import Inery.Chain.Irreversibility

/-!
# Confirmations are counted once

Every byte of the confirmation window is what its block still lacks for two thirds of the schedule
that signed it.  A producer's earlier blocks all lie at or below its entry in
`producer_to_last_produced`, and the guard of `next` keeps the confirmed range above that entry, so
each decrement is paid for by a new producer.  The guard is a subtraction of `uint32_t`: a confirmed
count above the number of the block itself wraps it around and passes.
-/

namespace Inery.Chain

open Foundation List Finmap Finset BlockHeaderState Table

variable {crypto : HeaderCrypto} {genesis : GenesisState} {s s' t : BlockHeaderState}
  {ancestors chain : List BlockHeaderState} {proauth : ProducerAuthority} {b c : ℕ}

/-! ## Confirmers -/

/-- The producers in the chain with a block at or above `b` whose confirmed
range reaches down to `b`. -/
def confirmers (chain : List BlockHeaderState) (b : ℕ) : Finset Name :=
  ((chain.filter fun t => b ≤ t.blockNum ∧ t.blockNum ≤ b + t.header.confirmed.toNat).map
    (·.header.producer)).toFinset

/-- Block `b` of the chain lacks at most `c` confirmers for more than two
thirds of the schedule that signed it, the active schedule of its parent. -/
def Owes (chain : List BlockHeaderState) (b c : ℕ) : Prop :=
  ∃ parent ∈ chain, parent.blockNum + 1 = b ∧
    parent.activeSchedule.producers.length * 2 / 3 + 1 ≤ c + (confirmers chain b).card

/-- More than two thirds of the schedule that signed `b` have confirmed it. -/
abbrev QuorumConfirmed (chain : List BlockHeaderState) (b : ℕ) : Prop := Owes chain b 0

instance : Decidable (Owes chain b c) :=
  inferInstanceAs (Decidable (∃ parent ∈ chain, parent.blockNum + 1 = b ∧
    parent.activeSchedule.producers.length * 2 / 3 + 1 ≤ c + (confirmers chain b).card))

theorem mem_confirmers {q : Name} : q ∈ confirmers chain b ↔
    ∃ t ∈ chain, (b ≤ t.blockNum ∧ t.blockNum ≤ b + t.header.confirmed.toNat) ∧
      t.header.producer = q := by
  simp [confirmers, and_assoc]

theorem confirmers_subset_cons : confirmers chain b ⊆ confirmers (t :: chain) b := by
  intro q hq
  obtain ⟨u, hu, hrange, hprod⟩ := mem_confirmers.mp hq
  exact mem_confirmers.mpr ⟨u, mem_cons_of_mem _ hu, hrange, hprod⟩

theorem Owes.cons (h : Owes chain b c) : Owes (t :: chain) b c := by
  obtain ⟨parent, hmem, hnum, hcount⟩ := h
  have hcard : (confirmers chain b).card ≤ (confirmers (t :: chain) b).card :=
    card_le_card confirmers_subset_cons
  exact ⟨parent, mem_cons_of_mem _ hmem, hnum, by omega⟩

theorem Owes.cons_confirming (h : Owes chain b (c + 1))
    (hrange : b ≤ t.blockNum ∧ t.blockNum ≤ b + t.header.confirmed.toNat)
    (hnew : t.header.producer ∉ confirmers chain b) : Owes (t :: chain) b c := by
  obtain ⟨parent, hmem, hnum, hcount⟩ := h
  have hsub : insert t.header.producer (confirmers chain b) ⊆ confirmers (t :: chain) b := by
    rw [insert_subset_iff]
    exact ⟨mem_confirmers.mpr ⟨t, mem_cons_self, hrange, rfl⟩, confirmers_subset_cons⟩
  have hcard := card_le_card hsub
  rw [card_insert_of_notMem hnew] at hcard
  exact ⟨parent, mem_cons_of_mem _ hmem, hnum, by omega⟩

/-! ## The window -/

theorem u8Pred_u8_requiredConfs {n : ℕ} (h : n * 2 / 3 + 1 ≤ 256) :
    u8Pred (u8 (requiredConfs n)) = n * 2 / 3 := by
  unfold u8Pred u8 requiredConfs u32
  omega

/-- Growing keeps the counts at their blocks, one block further from the end,
and appends the count of the new block. -/
theorem growConfirmCount_getD {counts grown : List ℕ} {n k : ℕ}
    (hgrown : growConfirmCount counts n = grown) (hk : k < grown.length) :
    (k + 1 = grown.length ∧ grown.getD k 0 = u8 (requiredConfs n)) ∨
    ∃ j < counts.length, grown.getD k 0 = counts.getD j 0 ∧
      grown.length - 1 - k = counts.length - 1 - j + 1 := by
  unfold growConfirmCount at hgrown
  split at hgrown
  next hlt =>
    subst hgrown
    simp only [length_append, length_singleton] at hk ⊢
    by_cases hlast : k < counts.length
    · right
      exact ⟨k, hlast, by rw [getD_append _ _ _ _ hlast], by omega⟩
    · left
      rw [getD_append_right _ _ _ _ (by omega)]
      obtain rfl : k = counts.length := by omega
      simp
  next hfull =>
    -- the oldest count falls out of the window
    subst hgrown
    simp only [length_append, length_singleton, length_tail] at hk ⊢
    by_cases hlast : k < counts.length - 1
    · right
      refine ⟨k + 1, by omega, ?_, by omega⟩
      rw [getD_append _ _ _ _ (by rwa [length_tail])]
      cases counts with
      | nil => simp at hlast
      | cons x xs => simp
    · left
      rw [getD_append_right _ _ _ _ (by rw [length_tail]; omega)]
      obtain rfl : k = counts.length - 1 := by omega
      simp

/-- **The loop against any per-block property.** `P b c` is to hold of every count that stays in the
window and of the block that leaves it with count `0`, provided it holds of each count as the loop
would leave it. -/
theorem confirmLoop_counts {P : ℕ → ℕ → Prop}
    {blockNum i blocksToConfirm proposed proposed' : ℕ} {counts counts' : List ℕ}
    (hrun : confirmLoop blockNum i blocksToConfirm counts proposed = (counts', proposed'))
    (hnum : blockNum < 2 ^ 32) (hi : i ≤ counts.length) (hlen : counts.length ≤ blockNum)
    (hrange : ∀ k < i, i ≤ k + blocksToConfirm →
      P (blockNum - (counts.length - 1 - k)) (u8Pred (counts.getD k 0)))
    (hrest : ∀ k < counts.length, i ≤ k ∨ k + blocksToConfirm < i →
      counts.getD k 0 ≠ 0 ∧ P (blockNum - (counts.length - 1 - k)) (counts.getD k 0)) :
    (∀ k < counts'.length, counts'.getD k 0 ≠ 0 ∧
      P (blockNum - (counts'.length - 1 - k)) (counts'.getD k 0)) ∧
    (proposed' = proposed ∨ P proposed' 0) := by
  induction i generalizing blocksToConfirm counts with
  | zero =>
    cases hrun
    exact ⟨fun k hk => hrest k hk (.inl (Nat.zero_le k)), .inl rfl⟩
  | succ i ih =>
    cases blocksToConfirm with
    | zero =>
      cases hrun
      exact ⟨fun k hk => hrest k hk (by omega), .inl rfl⟩
    | succ blocksToConfirm =>
      unfold confirmLoop at hrun
      dsimp only at hrun
      have hhere := hrange i (by omega) (by omega)
      split at hrun
      next hzero =>
        cases hrun
        rw [hzero] at hhere
        constructor
        · intro k hk
          rw [length_drop] at hk ⊢
          have hlater := hrest (i + 1 + k) (by omega) (.inl (by omega))
          have hget : (counts.drop (i + 1)).getD k 0 = counts.getD (i + 1 + k) 0 := by
            simp [getD_eq_getElem?_getD, List.getElem?_drop]
          rw [hget]
          refine ⟨hlater.1, ?_⟩
          convert hlater.2 using 1
          omega
        · right
          rwa [u32Sub_of_le hnum (by omega)]
      next hpos =>
        have hset : ∀ k, (counts.set i (u8Pred (counts.getD i 0))).getD k 0 =
            if k = i then u8Pred (counts.getD i 0) else counts.getD k 0 := by
          intro k
          have hlt : i < counts.length := hi
          simp only [getD_eq_getElem?_getD, List.getElem?_set, hlt, if_true, eq_comm (a := k),
            apply_ite (Option.getD · 0), Option.getD_some]
        apply ih hrun
        · rw [length_set]
          omega
        · rwa [length_set]
        · intro k hk hkr
          rw [length_set, hset, if_neg (by omega)]
          exact hrange k (by omega) (by omega)
        · intro k hk hkr
          rw [length_set] at hk ⊢
          rw [hset]
          by_cases hki : k = i
          · subst hki
            rw [if_pos rfl]
            exact ⟨hpos, hhere⟩
          · rw [if_neg hki]
            exact hrest k hk (by omega)

/-! ## The invariant -/

/-- The confirmed count of a block whose producer has an entry does not exceed
the number of the block, and the schedule is small enough for the 8-bit counts. -/
structure ConfirmsInRange (s s' : BlockHeaderState) : Prop where
  range : s'.header.producer ∈ s.producerToLastProduced → s'.header.confirmed.toNat ≤ s.blockNum + 1
  schedule : s.activeSchedule.producers.length * 2 / 3 + 1 ≤ 256

instance : Decidable (ConfirmsInRange s s') :=
  decidable_of_iff ((s'.header.producer ∈ s.producerToLastProduced →
      s'.header.confirmed.toNat ≤ s.blockNum + 1) ∧
    s.activeSchedule.producers.length * 2 / 3 + 1 ≤ 256)
    ⟨fun h => ⟨h.1, h.2⟩, fun h => ⟨h.1, h.2⟩⟩

abbrev GuardedChain (crypto : HeaderCrypto) (genesis : GenesisState) :
    BlockHeaderState → List BlockHeaderState → Prop :=
  History (genesisHeaderState crypto genesis) fun s s' =>
    HeaderStep crypto s s' ∧ ConfirmsInRange s s'

theorem GuardedChain.headerChain (h : GuardedChain crypto genesis s ancestors) :
    HeaderChain crypto genesis s ancestors :=
  h.mono fun _ _ hstep => hstep.1

/-- The entries of `producer_to_last_produced` cover all produced blocks.  A
producer without an entry may have blocks, but none above the block that set
the schedule now pending. -/
structure LastProducedInv (s : BlockHeaderState) (ancestors : List BlockHeaderState) : Prop where
  covered : ∀ t ∈ s :: ancestors, 1 < t.blockNum →
    ∀ last, s.producerToLastProduced.lookup t.header.producer = some last → t.blockNum ≤ last
  dropped : s.pendingSchedule.schedule.producers ≠ [] → ∀ t ∈ s :: ancestors, 1 < t.blockNum →
    s.producerToLastProduced.lookup t.header.producer = none →
      t.blockNum ≤ s.pendingSchedule.scheduleLibNum
  tracked : (∀ p ∈ s.activeSchedule.producers, p.producerName ∈ s.producerToLastProduced) ∨
    ancestors = [] ∧ ∀ q, s.promotes q

/-- Every count in the window is positive, fits a byte and covers what its
block owes; the proposed block owes nothing. -/
structure QuorumInv (s : BlockHeaderState) (ancestors : List BlockHeaderState) : Prop where
  counts : ∀ k < s.confirmCount.length, s.confirmCount.getD k 0 ≠ 0 ∧
    s.confirmCount.getD k 0 < 256 ∧
    Owes (s :: ancestors) (s.blockNum - (s.confirmCount.length - 1 - k)) (s.confirmCount.getD k 0)
  proposed : s.dposProposedIrreversibleBlocknum = 0 ∨
    QuorumConfirmed (s :: ancestors) s.dposProposedIrreversibleBlocknum

theorem HeaderChain.mem_blockNum (h : HeaderChain crypto genesis s ancestors)
    (hlen : ancestors.length + 1 < 2 ^ 32) (ht : t ∈ s :: ancestors) :
    1 ≤ t.blockNum ∧ t.blockNum ≤ s.blockNum := by
  induction h with
  | start =>
    obtain rfl : t = genesisHeaderState crypto genesis := by simpa using ht
    rw [genesisHeaderState_blockNum]
    exact ⟨le_rfl, le_rfl⟩
  | @step s s' past hpast hstep ih =>
    have hnum := HeaderChain.blockNum_eq (.step hpast hstep) hlen
    rw [length_cons] at hlen hnum
    have hprev := HeaderChain.blockNum_eq hpast (by omega)
    rcases mem_cons.mp ht with rfl | ht
    · omega
    · have := ih (by omega) ht
      omega

theorem BlockHeaderState.promotes_iff {q : Name} : s.promotes q = true ↔
    s.pendingSchedule.schedule.producers ≠ [] ∧
      s.pendingSchedule.scheduleLibNum ≤ s.calcDposLastIrreversible q := by
  simp [promotes, length_eq_zero_iff]

theorem LastProducedInv.next (hs : LastProducedInv s ancestors) (h : NextFacts s s' proauth)
    (hnums : ∀ t ∈ s :: ancestors, t.blockNum ≤ s'.blockNum) :
    LastProducedInv s' (s :: ancestors) := by
  have hlast := h.lastProduced_eq
  have hle : ∀ t ∈ s' :: s :: ancestors, t.blockNum ≤ s'.blockNum :=
    forall_mem_cons.mpr ⟨le_rfl, hnums⟩
  -- the producer of the block always gets an entry of its own
  have hown : s'.producerToLastProduced.lookup proauth.producerName = some s'.blockNum := by
    rw [hlast]
    split <;> rw [lookup_insert_ite, if_pos rfl]
  have hold : ∀ t ∈ s' :: s :: ancestors, t.header.producer ≠ proauth.producerName →
      t ∈ s :: ancestors := by
    intro t ht hne
    rcases mem_cons.mp ht with rfl | ht
    · exact absurd h.producer hne
    · exact ht
  refine ⟨?_, ?_, .inl ?_⟩
  · intro t ht hpos last hl
    by_cases hq : t.header.producer = proauth.producerName
    · rw [hq, hown] at hl
      cases hl
      exact hle t ht
    · have ht' := hold t ht hq
      rw [hlast] at hl
      split at hl
      next hprom =>
        rw [lookup_insert_ite, if_neg hq, lookup_promotedMap, if_neg hq] at hl
        split at hl
        · cases hentry : s.producerToLastProduced.lookup t.header.producer with
          | some v =>
            rw [hentry] at hl
            cases hl
            exact hs.covered t ht' hpos _ hentry
          | none =>
            -- a newcomer enters at the irreversible number, past its old blocks
            rw [hentry] at hl
            cases hl
            obtain ⟨hpending, hlib⟩ := promotes_iff.mp hprom
            have := hs.dropped hpending t ht' hpos hentry
            rw [Option.getD_none, h.irreversible_eq]
            omega
        · cases hl
      next =>
        rw [lookup_insert_ite, if_neg hq] at hl
        exact hs.covered t ht' hpos _ hl
  · intro hpending t ht hpos hnone
    have hq : t.header.producer ≠ proauth.producerName := by
      intro hq
      rw [hq, hown] at hnone
      cases hnone
    have ht' := hold t ht hq
    cases hprom : s.promotes proauth.producerName with
    | true => exact absurd (h.pendingCleared hprom) hpending
    | false =>
      rw [hlast, hprom, if_neg (by simp), lookup_insert_ite, if_neg hq] at hnone
      rcases h.pendingKept hprom with hsame | ⟨-, hlib⟩
      · rw [hsame] at hpending ⊢
        exact hs.dropped hpending t ht' hpos hnone
      · rw [hlib, ← h.blockNum_eq]
        exact hle t ht
  · intro p hp
    rw [h.activeSchedule_eq] at hp
    rw [← lookup_isSome, hlast]
    split at hp
    next hprom =>
      rw [if_pos hprom, lookup_insert_ite]
      split
      · rfl
      · rw [lookup_promotedMap, if_pos (mem_map_of_mem hp)]
        rfl
    next hprom =>
      rw [if_neg hprom, lookup_isSome]
      rcases hs.tracked with htracked | ⟨-, hall⟩
      · exact mem_insert.mpr (.inr (htracked p hp))
      · exact absurd (hall _) hprom

/-- **The guard works in range.** A producer has not confirmed before any
block of the range it confirms now. -/
theorem notMem_confirmers (hs : LastProducedInv s ancestors) (h : NextFacts s s' proauth)
    (hrange : ConfirmsInRange s s') (hnum : s.blockNum + 1 < 2 ^ 32)
    (hgenesis : ancestors = [] → s.blockNum = 1) (hb : 1 < b)
    (hconfirmed : s.blockNum + 1 ≤ b + s'.header.confirmed.toNat) :
    s'.header.producer ∉ confirmers (s :: ancestors) b := by
  intro hmem
  obtain ⟨t, ht, ⟨hbt, -⟩, hprod⟩ := mem_confirmers.mp hmem
  rcases hs.tracked with htracked | ⟨rfl, -⟩
  · have hin := htracked _ h.scheduled
    obtain ⟨last, hlast⟩ := mem_iff.mp hin
    have hguard := h.guard last hlast
    rw [← h.producer] at hin hlast
    have hcount := hrange.range hin
    have hcov := hs.covered t ht (by omega) last (by rwa [hprod])
    rw [u32_of_lt hnum, u32Sub_of_le hnum hcount] at hguard
    omega
  · -- only genesis is below the first block
    obtain rfl : t = s := by simpa using ht
    have := hgenesis rfl
    omega

theorem QuorumInv.next (hs : QuorumInv s ancestors) (hlast : LastProducedInv s ancestors)
    (hwindow : WindowInv s) (h : NextFacts s s' proauth) (hrange : ConfirmsInRange s s')
    (hnum : s.blockNum + 1 < 2 ^ 32) (hgenesis : ancestors = [] → s.blockNum = 1)
    (hnums : ∀ t ∈ s :: ancestors, 1 ≤ t.blockNum) : QuorumInv s' (s :: ancestors) := by
  have hblock : s'.blockNum = s.blockNum + 1 := by rw [h.blockNum_eq, u32_of_lt hnum]
  have hgrow := length_growConfirmCount s.confirmCount s.activeSchedule.producers.length
  have hlength := hwindow.length_le
  generalize hgrown : growConfirmCount s.confirmCount s.activeSchedule.producers.length = grown at *
  -- an old count sits at the same block in the grown window
  have hold : ∀ k j, j < s.confirmCount.length →
      grown.length - 1 - k = s.confirmCount.length - 1 - j + 1 →
      s'.blockNum - (grown.length - 1 - k) = s.blockNum - (s.confirmCount.length - 1 - j) := by
    intro k j hj hage
    omega
  have hloop := confirmLoop_counts (P := fun b c => c < 256 ∧ Owes (s' :: s :: ancestors) b c)
    (h.confirmLoop_eq hgrown) (by omega) le_rfl (by omega) ?_ ?_
  · refine ⟨hloop.1, ?_⟩
    rcases hloop.2 with hsame | ⟨-, howes⟩
    · rw [hsame]
      exact hs.proposed.imp_right Owes.cons
    · exact .inr howes
  · intro k hk hkrange
    rcases growConfirmCount_getD hgrown hk with ⟨hlastk, hval⟩ | ⟨j, hj, hval, hage⟩
    · -- the block confirms itself
      have hsched := hrange.schedule
      have hself : 0 < (confirmers (s' :: s :: ancestors) s'.blockNum).card := by
        rw [card_pos]
        refine ⟨s'.header.producer, mem_confirmers.mpr ⟨s', mem_cons_self, ?_, rfl⟩⟩
        omega
      rw [hval, u8Pred_u8_requiredConfs hsched]
      refine ⟨by omega, s, by simp, by omega, ?_⟩
      rw [show s'.blockNum - (grown.length - 1 - k) = s'.blockNum by omega]
      omega
    · obtain ⟨hne, hlt, howes⟩ := hs.counts j hj
      rw [hold k j hj hage, hval, u8Pred_of_pos (by omega) hlt]
      refine ⟨by omega, ?_⟩
      obtain ⟨parent, hparent, hparentnum, -⟩ := id howes
      have := hnums parent hparent
      apply Owes.cons_confirming
      · rwa [Nat.sub_add_cancel (by omega)]
      · omega
      · exact notMem_confirmers hlast h hrange hnum hgenesis (by omega) (by omega)
  · intro k hk hkrange
    rcases growConfirmCount_getD hgrown hk with ⟨hlastk, -⟩ | ⟨j, hj, hval, hage⟩
    · omega
    · obtain ⟨hne, hlt, howes⟩ := hs.counts j hj
      rw [hold k j hj hage, hval]
      exact ⟨hne, hlt, howes.cons⟩

theorem lastProducedInv_genesis : LastProducedInv (genesisHeaderState crypto genesis) [] := by
  have hnum : ∀ t ∈ [genesisHeaderState crypto genesis], ¬ 1 < t.blockNum := by
    intro t ht
    obtain rfl : t = genesisHeaderState crypto genesis := by simpa using ht
    rw [genesisHeaderState_blockNum]
    decide
  refine ⟨?_, ?_, .inr ⟨rfl, ?_⟩⟩
  · intro t ht hpos
    exact absurd hpos (hnum t ht)
  · intro _ t ht hpos
    exact absurd hpos (hnum t ht)
  · intro q
    simp [promotes, genesisHeaderState]

theorem quorumInv_genesis : QuorumInv (genesisHeaderState crypto genesis) [] :=
  ⟨fun k hk => absurd hk (Nat.not_lt_zero k), .inl rfl⟩

theorem GuardedChain.inv (h : GuardedChain crypto genesis s ancestors)
    (hlen : ancestors.length + 1 < 2 ^ 32) :
    LastProducedInv s ancestors ∧ QuorumInv s ancestors := by
  induction h with
  | start => exact ⟨lastProducedInv_genesis, quorumInv_genesis⟩
  | @step s s' past hpast hstep ih =>
    rw [length_cons] at hlen
    obtain ⟨hlast, hquorum⟩ := ih (by omega)
    have hchain := GuardedChain.headerChain hpast
    obtain ⟨proauth, hfacts⟩ := hstep.1.facts
    have hnum := HeaderChain.blockNum_eq hchain (by omega)
    have hblock : s'.blockNum = s.blockNum + 1 := by
      rw [hfacts.blockNum_eq, u32_of_lt (by omega)]
    have hmem := fun t ht => HeaderChain.mem_blockNum (t := t) hchain (by omega) ht
    refine ⟨hlast.next hfacts ?_, hquorum.next hlast (HeaderChain.inv hchain (by omega)).1
      hfacts hstep.2 (by omega) ?_ fun t ht => (hmem t ht).1⟩
    · intro t ht
      have := (hmem t ht).2
      omega
    · rintro rfl
      simpa using hnum

/-- **Every proposed block has its quorum.** In every chain of fewer than `2 ^ 32` blocks that all
confirm in range, a block number is proposed only when more than two thirds of the schedule that
signed the block, counted as distinct producers, have confirmed it. -/
theorem proposed_confirmed_by_quorum (hchain : GuardedChain crypto genesis s ancestors)
    (hlen : ancestors.length + 1 < 2 ^ 32) :
    s.dposProposedIrreversibleBlocknum = 0 ∨
      QuorumConfirmed (s :: ancestors) s.dposProposedIrreversibleBlocknum :=
  (GuardedChain.inv hchain hlen).2.proposed

/-- Producer `1` goes on with block 6, which claims to confirm seven blocks. -/
def wrappingBlocks : List BlockInput :=
  twoProducers ++ [⟨7, 7, none, 1⟩]

/-- Block 5 becomes proposed on the word of producer `1` alone. -/
theorem proposed_without_quorum :
    ∃ s parent older, HeaderChain openCrypto genesisKeyOne s (parent :: older) ∧
      s.dposProposedIrreversibleBlocknum = 5 ∧ parent.dposProposedIrreversibleBlocknum = 4 ∧
      confirmers (s :: parent :: older) 5 = {1} ∧
      ¬ QuorumConfirmed (s :: parent :: older) 5 := by
  obtain ⟨⟨s, below⟩, hblocks, hafter, ⟨parent, hhead, hbefore⟩, hconfirmers, hquorum⟩ : ∃ r,
      produceChain openCrypto wrappingBlocks = .ok r ∧
      r.1.dposProposedIrreversibleBlocknum = 5 ∧
      (∃ parent ∈ r.2.head?, parent.dposProposedIrreversibleBlocknum = 4) ∧
      confirmers (r.1 :: r.2) 5 = {1} ∧ ¬ QuorumConfirmed (r.1 :: r.2) 5 := by
    decide +kernel
  obtain ⟨older, rfl⟩ := List.head?_eq_some_iff.mp hhead
  exact ⟨s, parent, older, headerChain_produceBlocks hblocks, hafter, hbefore, hconfirmers, hquorum⟩

/-- The theorem where producer `1` makes blocks 5 and 6 and confirms nothing, and producer `2`
makes block 7 and confirms two blocks. -/
theorem proposed_confirmed_by_quorum_two_producers :
    ∃ s ancestors, GuardedChain openCrypto genesisKeyOne s ancestors ∧
      s.dposProposedIrreversibleBlocknum = 6 ∧ confirmers ancestors 6 = {1} ∧
      QuorumConfirmed (s :: ancestors) 6 := by
  obtain ⟨⟨s, ancestors⟩, hblocks, hlength, hproposed, hconfirmers, hguard⟩ : ∃ r,
      produceChain openCrypto (twoProducers ++ [⟨7, 0, none, 1⟩, ⟨8, 2, none, 1⟩]) = .ok r ∧
      r.2.length = 6 ∧
      r.1.dposProposedIrreversibleBlocknum = 6 ∧ confirmers r.2 6 = {1} ∧
      (r.1 :: r.2).IsChain fun s' s => ConfirmsInRange s s' := by
    decide +kernel
  have hchain : GuardedChain openCrypto genesisKeyOne s ancestors :=
    (headerChain_produceBlocks hblocks).and_of_isChain hguard
  have hquorum := proposed_confirmed_by_quorum hchain (by rw [hlength]; decide)
  rw [hproposed] at hquorum
  exact ⟨s, ancestors, hchain, hproposed, hconfirmers, hquorum.resolve_left (by decide)⟩

end Inery.Chain
