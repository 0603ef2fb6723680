import Inery.Chain.HeaderChain

/-!
# The irreversible block number of a chain

Along every chain of fewer than `2 ^ 32` blocks the irreversible number stays at or below the
proposed number, and that at or below the block number.  It is an order statistic of the producers'
implied numbers, so a block lowers it exactly when too many producers lag behind it.  Only a
promotion leaves such a lag, because it keeps the old entries of the producers it carries over.
-/

namespace Inery.Chain

open Foundation List Finmap Table Multiset HeaderChain

variable {crypto : HeaderCrypto} {genesis : GenesisState} {s s' : BlockHeaderState}
  {ancestors : List BlockHeaderState} {proauth : ProducerAuthority}

/-! ## The confirmation window -/

/-- The window never reaches down to the proposed number. -/
structure WindowInv (s : BlockHeaderState) : Prop where
  num_lt : s.blockNum < 2 ^ 32
  proposed_le : s.dposProposedIrreversibleBlocknum ≤ s.blockNum
  length_le : s.confirmCount.length ≤ s.blockNum - s.dposProposedIrreversibleBlocknum

theorem length_growConfirmCount (counts : List ℕ) (n : ℕ) :
    (growConfirmCount counts n).length ≤ counts.length + 1 := by
  unfold growConfirmCount
  split <;> simp

/-- The loop only ever raises the proposed number, to the number of a block in
the window, and drops the window up to that block. -/
theorem confirmLoop_window {blockNum i blocksToConfirm proposed proposed' : ℕ}
    {counts counts' : List ℕ}
    (hrun : confirmLoop blockNum i blocksToConfirm counts proposed = (counts', proposed'))
    (hi : i ≤ counts.length) (hnum : blockNum < 2 ^ 32) (hp : proposed ≤ blockNum)
    (hlen : counts.length ≤ blockNum - proposed) : proposed ≤ proposed' ∧ proposed' ≤ blockNum ∧
      counts'.length ≤ blockNum - proposed' := by
  fun_induction confirmLoop with
  | case1 | case2 =>
    cases hrun
    exact ⟨le_rfl, hp, hlen⟩
  | case3 =>
    -- the count reached zero: everything up to index `i` leaves the window
    cases hrun
    rw [u32Sub_of_le hnum (by omega), length_drop]
    omega
  | case4 _ _ _ _ _ _ ih => exact ih hrun (by rw [length_set]; omega) hp (by rwa [length_set])

theorem NextFacts.confirmLoop_eq (h : NextFacts s s' proauth) {grown : List ℕ}
    (hgrown : growConfirmCount s.confirmCount s.activeSchedule.producers.length = grown) :
    confirmLoop s'.blockNum grown.length (s'.header.confirmed.toNat + 1) grown
      s.dposProposedIrreversibleBlocknum =
        (s'.confirmCount, s'.dposProposedIrreversibleBlocknum) := by
  rw [h.blockNum_eq, h.confirmCount_eq, h.proposed_eq, ← hgrown]
  rfl

theorem WindowInv.next (hs : WindowInv s) (h : NextFacts s s' proauth)
    (hnum : s.blockNum + 1 < 2 ^ 32) :
    WindowInv s' ∧ s.dposProposedIrreversibleBlocknum ≤ s'.dposProposedIrreversibleBlocknum := by
  have hgrow := length_growConfirmCount s.confirmCount s.activeSchedule.producers.length
  have hproposed := hs.proposed_le
  have hlength := hs.length_le
  have hblock : s'.blockNum = s.blockNum + 1 := by rw [h.blockNum_eq, u32_of_lt hnum]
  have hwindow := confirmLoop_window (h.confirmLoop_eq rfl) le_rfl (by omega) (by omega) (by omega)
  exact ⟨⟨by omega, hwindow.2.1, hwindow.2.2⟩, hwindow.1⟩

/-! ## The producer map -/

theorem lookup_promotedMap (producers : List ProducerAuthority) (producer q : Name)
    (own irreversible : ℕ) (old : Table Name ℕ) :
    (promotedMap producers producer own irreversible old).lookup q =
      if q ∈ producers.map (·.producerName) then
        some (if q = producer then own else (old.lookup q).getD irreversible)
      else none :=
  lookup_tabulate _ _ _

/-- Every implied number is at most the proposed one, the irreversible number is `0` as long as
nobody has produced, and from then on every scheduled producer has an entry.  Before, every block
promotes. -/
structure ImpliedInv (s : BlockHeaderState) : Prop where
  irreversible_le : s.dposIrreversibleBlocknum ≤ s.dposProposedIrreversibleBlocknum
  implied_le : ∀ q irb, s.producerToLastImpliedIrb.lookup q = some irb →
    irb ≤ s.dposProposedIrreversibleBlocknum
  irreversible_of_empty : s.producerToLastImpliedIrb = ∅ → s.dposIrreversibleBlocknum = 0
  tracked : (∀ p ∈ s.activeSchedule.producers, p.producerName ∈ s.producerToLastImpliedIrb) ∨
    ∀ q, s.promotes q

theorem BlockHeaderState.card_impliedIrbs (s : BlockHeaderState) (q : Name) :
    (s.impliedIrbs q).card = s.producerToLastImpliedIrb.keys.card :=
  card_collect _ _

theorem BlockHeaderState.calcDposLastIrreversible_le {q : Name}
    (hs : ∀ q irb, s.producerToLastImpliedIrb.lookup q = some irb →
      irb ≤ s.dposProposedIrreversibleBlocknum) :
    s.calcDposLastIrreversible q ≤ s.dposProposedIrreversibleBlocknum := by
  unfold calcDposLastIrreversible
  dsimp only
  split
  · exact Nat.zero_le _
  · next hcard =>
    apply nthElement_le (by omega)
    intro x hx
    obtain ⟨k, v, hlook, rfl⟩ := mem_collect.mp hx
    split
    · exact le_rfl
    · exact hs k v hlook

theorem ImpliedInv.next (hs : ImpliedInv s) (h : NextFacts s s' proauth)
    (hmono : s.dposProposedIrreversibleBlocknum ≤ s'.dposProposedIrreversibleBlocknum) :
    ImpliedInv s' := by
  have hcalc : s'.dposIrreversibleBlocknum ≤ s.dposProposedIrreversibleBlocknum := by
    rw [h.irreversible_eq]
    exact BlockHeaderState.calcDposLastIrreversible_le hs.implied_le
  have hirb := h.impliedIrb_eq
  have hactive := h.activeSchedule_eq
  refine ⟨by omega, ?_, ?_, ?_⟩
  · intro q irb hq
    have hold : ∀ d ≤ s.dposProposedIrreversibleBlocknum,
        (s.producerToLastImpliedIrb.lookup q).getD d ≤ s.dposProposedIrreversibleBlocknum := by
      intro d hd
      cases hl : s.producerToLastImpliedIrb.lookup q with
      | none => exact hd
      | some v => exact hs.implied_le q v hl
    have hirb_le : irb ≤ s.dposProposedIrreversibleBlocknum := by
      rw [hirb] at hq
      split at hq
      · rw [lookup_promotedMap] at hq
        have := hold _ hcalc
        grind
      · rw [lookup_insert_ite] at hq
        have := hs.implied_le q
        grind
    omega
  · -- the map is never empty again after a block
    intro hempty
    exfalso
    have hnone : ∀ q, s'.producerToLastImpliedIrb.lookup q = none := by
      intro q
      rw [hempty, lookup_empty]
    rw [hirb] at hnone
    split at hnone
    next hprom =>
      have hne : s.pendingSchedule.schedule.producers ≠ [] := by
        intro hnil
        simp [BlockHeaderState.promotes, hnil] at hprom
      obtain ⟨p, hp⟩ := exists_mem_of_ne_nil _ hne
      have := hnone p.producerName
      rw [lookup_promotedMap, if_pos (mem_map_of_mem hp)] at this
      cases this
    next =>
      have := hnone proauth.producerName
      rw [lookup_insert_ite, if_pos rfl] at this
      cases this
  · left
    intro p hp
    rw [hirb]
    rw [hactive] at hp
    split at hp
    next hprom =>
      rw [if_pos hprom]
      rw [← lookup_isSome, lookup_promotedMap, if_pos (mem_map_of_mem hp)]
      rfl
    next hprom =>
      rw [if_neg hprom]
      rcases hs.tracked with htracked | hall
      · exact mem_insert.mpr (Or.inr (htracked p hp))
      · exact absurd (hall _) hprom

theorem windowInv_genesis : WindowInv (genesisHeaderState crypto genesis) := by
  refine ⟨?_, Nat.zero_le _, Nat.zero_le _⟩
  rw [genesisHeaderState_blockNum]
  decide

theorem impliedInv_genesis : ImpliedInv (genesisHeaderState crypto genesis) := by
  refine ⟨le_rfl, ?_, fun _ => rfl, Or.inr ?_⟩
  · intro q irb hq
    have : (∅ : Table Name ℕ).lookup q = some irb := hq
    rw [lookup_empty] at this
    cases this
  · intro q
    simp [BlockHeaderState.promotes, genesisHeaderState]

theorem HeaderChain.inv (h : HeaderChain crypto genesis s ancestors)
    (hlen : ancestors.length + 1 < 2 ^ 32) : WindowInv s ∧ ImpliedInv s := by
  induction h with
  | start => exact ⟨windowInv_genesis, impliedInv_genesis⟩
  | @step s s' past hpast hstep ih =>
    rw [length_cons] at hlen
    obtain ⟨hwindow, himplied⟩ := ih (by omega)
    obtain ⟨proauth, hfacts⟩ := hstep.facts
    have hnum := blockNum_eq hpast (by omega)
    obtain ⟨hwindow', hmono⟩ := hwindow.next hfacts (by omega)
    exact ⟨hwindow', himplied.next hfacts hmono⟩

/-! ## Monotonicity -/

/-- How many producers other than `producer` imply an irreversible number
below the current one. -/
def BlockHeaderState.laggards (s : BlockHeaderState) (producer : Name) : ℕ :=
  countBelow (collect (s.producerToLastImpliedIrb.erase producer) fun _ irb => irb)
    s.dposIrreversibleBlocknum

/-- The entry of the next producer is replaced by the proposed number, which
does not lag. -/
theorem BlockHeaderState.countBelow_impliedIrbs {q : Name}
    (hs : s.dposIrreversibleBlocknum ≤ s.dposProposedIrreversibleBlocknum) :
    countBelow (s.impliedIrbs q) s.dposIrreversibleBlocknum = s.laggards q := by
  have hrest : collect (s.producerToLastImpliedIrb.erase q) (fun producer irb =>
      if producer = q then s.dposProposedIrreversibleBlocknum else irb) =
      collect (s.producerToLastImpliedIrb.erase q) fun _ irb => irb := by
    apply collect_congr
    intro k v hk
    rw [if_neg (lookup_erase_eq_some.mp hk).1]
  unfold laggards impliedIrbs
  cases hq : s.producerToLastImpliedIrb.lookup q with
  | none =>
    rw [← hrest, erase_of_lookup_none hq]
  | some irb =>
    rw [collect_erase _ hq, if_pos rfl, hrest]
    exact countP_cons_of_neg _ (by omega)

/-- The child's irreversible number is not below the parent's exactly when at
most a third of the producers, rounded down, lag. -/
theorem BlockHeaderState.le_calcDposLastIrreversible_iff {q : Name} (hs : ImpliedInv s) :
    s.dposIrreversibleBlocknum ≤ s.calcDposLastIrreversible q ↔
      s.laggards q ≤ (s.producerToLastImpliedIrb.keys.card - 1) / 3 := by
  have hcard := s.card_impliedIrbs q
  have hcount := countBelow_impliedIrbs (q := q) hs.irreversible_le
  unfold calcDposLastIrreversible
  dsimp only
  split
  next hzero =>
    -- nobody has produced yet
    have hempty : s.producerToLastImpliedIrb = ∅ := eq_empty_of_card_keys (by omega)
    have hirr := hs.irreversible_of_empty hempty
    have hle : countBelow (s.impliedIrbs q) s.dposIrreversibleBlocknum ≤ (s.impliedIrbs q).card :=
      countP_le_card _ _
    omega
  next hpos => rw [le_nthElement_iff (by omega), hcount, hcard]

/-- After a block that promotes nothing, the map holds exactly the numbers the
irreversible number was selected from, so at most a third of them lag. -/
theorem laggards_le_of_not_promotes {q : Name} (hs : ImpliedInv s)
    (h : NextFacts s s' proauth) (hprom : s.promotes proauth.producerName = false) :
    s'.laggards q ≤ (s'.producerToLastImpliedIrb.keys.card - 1) / 3 := by
  have hmem : proauth.producerName ∈ s.producerToLastImpliedIrb := by
    rcases hs.tracked with htracked | hall
    · exact htracked _ h.scheduled
    · rw [hall] at hprom
      cases hprom
  have hmap := h.impliedIrb_eq
  rw [hprom, if_neg (by simp)] at hmap
  have hvalues : collect s'.producerToLastImpliedIrb (fun _ irb => irb) =
      s.impliedIrbs proauth.producerName := by
    rw [hmap, collect_insert_of_mem _ _ hmem]
    rfl
  have hcard : (s.impliedIrbs proauth.producerName).card =
      s'.producerToLastImpliedIrb.keys.card := by
    rw [← hvalues, card_collect]
  have hpos : 0 < (s.impliedIrbs proauth.producerName).card := by
    rw [s.card_impliedIrbs, Finset.card_pos]
    exact ⟨_, mem_keys.mpr hmem⟩
  have hirr : s'.dposIrreversibleBlocknum = nthElement (s.impliedIrbs proauth.producerName)
      (((s.impliedIrbs proauth.producerName).card - 1) / 3) := by
    rw [h.irreversible_eq]
    unfold BlockHeaderState.calcDposLastIrreversible
    rw [if_neg (by omega)]
  calc s'.laggards q
      ≤ countBelow (collect s'.producerToLastImpliedIrb fun _ irb => irb)
          s'.dposIrreversibleBlocknum := by
        unfold BlockHeaderState.laggards
        cases hq : s'.producerToLastImpliedIrb.lookup q with
        | none => rw [erase_of_lookup_none hq]
        | some irb =>
          rw [collect_erase (fun _ irb => irb) hq]
          exact countP_le_of_le _ (le_cons_self _ _)
    _ ≤ (s'.producerToLastImpliedIrb.keys.card - 1) / 3 := by
        rw [hvalues, ← hcard, ← le_nthElement_iff (by omega), hirr]

/-- **The irreversible number along a chain.** In every chain of fewer than `2 ^ 32` blocks it is at
most the proposed number, which is at most the block number.  A block does not lower it exactly when
at most a third of the producers with an entry lag behind it, its own producer apart, and no block
lowers it whose parent promoted no schedule. -/
theorem irreversible_bounds_and_monotone_iff
    (hchain : HeaderChain crypto genesis s ancestors) (hlen : ancestors.length + 1 < 2 ^ 32) :
    (s.dposIrreversibleBlocknum ≤ s.dposProposedIrreversibleBlocknum ∧
      s.dposProposedIrreversibleBlocknum ≤ s.blockNum) ∧
    (∀ s', HeaderStep crypto s s' →
      (s.dposIrreversibleBlocknum ≤ s'.dposIrreversibleBlocknum ↔
        s.laggards s'.header.producer ≤ (s.producerToLastImpliedIrb.keys.card - 1) / 3)) ∧
    (∀ parent older, ancestors = parent :: older → parent.promotes s.header.producer = false →
      ∀ s', HeaderStep crypto s s' →
        s.dposIrreversibleBlocknum ≤ s'.dposIrreversibleBlocknum) := by
  obtain ⟨hwindow, himplied⟩ := inv hchain hlen
  refine ⟨⟨himplied.irreversible_le, hwindow.proposed_le⟩,
    (and_iff_left_of_imp fun hiff => ?_).mpr fun s' hstep => ?_⟩
  · rintro parent older rfl hprom s' hstep
    obtain ⟨hparent, hlast⟩ := hchain.of_cons
    obtain ⟨proauth, hfacts⟩ := hlast.facts
    rw [length_cons] at hlen
    rw [hfacts.producer] at hprom
    exact (hiff s' hstep).mpr
      (laggards_le_of_not_promotes (inv hparent (by omega)).2 hfacts hprom)
  · obtain ⟨proauth, hfacts⟩ := hstep.facts
    rw [hfacts.irreversible_eq, hfacts.producer]
    exact BlockHeaderState.le_calcDposLastIrreversible_iff himplied

/-- Producers `1`, `2`, `3` and `4` are promoted in block 4, and `4` never produces.  Block 10
promotes the schedule of `4` and `1` that block 5 proposes, and block 11 is the first of that
schedule. -/
def laggardBlocks : List BlockInput :=
  [⟨1, 0, none, 1⟩, ⟨2, 0, some ⟨1, [1, 2, 3, 4].map producerKeyOne⟩, 1⟩, ⟨3, 0, none, 1⟩,
    ⟨4, 0, some ⟨2, [4, 1].map producerKeyOne⟩, 1⟩,
    ⟨5, 1, none, 1⟩, ⟨6, 2, none, 1⟩, ⟨8, 0, none, 1⟩, ⟨9, 0, none, 1⟩, ⟨10, 0, none, 1⟩,
    ⟨11, 0, none, 1⟩]

theorem laggard_chain :
    ∃ s s' ancestors, HeaderChain openCrypto genesisKeyOne s ancestors ∧
      HeaderStep openCrypto s s' ∧ ancestors.length = 9 ∧
      s.dposIrreversibleBlocknum = 5 ∧ s'.dposIrreversibleBlocknum = 3 := by
  obtain ⟨⟨s', below⟩, hblocks, hlength, hafter, s, hhead, hbefore⟩ : ∃ r,
      produceChain openCrypto laggardBlocks = .ok r ∧ r.2.length = 10 ∧
      r.1.dposIrreversibleBlocknum = 3 ∧ ∃ s ∈ r.2.head?, s.dposIrreversibleBlocknum = 5 := by
    decide +kernel
  obtain ⟨ancestors, rfl⟩ := List.head?_eq_some_iff.mp hhead
  obtain ⟨hchain, hstep⟩ := (headerChain_produceBlocks hblocks).of_cons
  exact ⟨s, s', ancestors, hchain, hstep, Nat.succ.inj hlength, hbefore, hafter⟩

/-- Block 11 falls back to block 3, the number producer `4` entered with. -/
theorem irreversible_decreases :
    ∃ s s' ancestors, HeaderChain openCrypto genesisKeyOne s ancestors ∧
      HeaderStep openCrypto s s' ∧
      s.dposIrreversibleBlocknum = 5 ∧ s'.dposIrreversibleBlocknum = 3 := by
  obtain ⟨s, s', ancestors, hchain, hstep, -, hbefore, hafter⟩ := laggard_chain
  exact ⟨s, s', ancestors, hchain, hstep, hbefore, hafter⟩

/-- The theorem at block 10 of that chain: too many producers lag behind it. -/
theorem irreversible_bounds_and_monotone_iff_laggards :
    ∃ s s' ancestors, HeaderChain openCrypto genesisKeyOne s ancestors ∧
      HeaderStep openCrypto s s' ∧ ancestors.length = 9 ∧
      5 ≤ s.dposProposedIrreversibleBlocknum ∧ s.dposProposedIrreversibleBlocknum ≤ s.blockNum ∧
      (s.producerToLastImpliedIrb.keys.card - 1) / 3 < s.laggards s'.header.producer := by
  obtain ⟨s, s', ancestors, hchain, hstep, hlength, hbefore, hafter⟩ := laggard_chain
  obtain ⟨⟨hirr, hproposed⟩, hiff, -⟩ :=
    irreversible_bounds_and_monotone_iff hchain (by rw [hlength]; decide)
  have hlag := (hiff s' hstep).not.mp (by rw [hbefore, hafter]; decide)
  exact ⟨s, s', ancestors, hchain, hstep, hlength, hbefore ▸ hirr, hproposed, not_le.mp hlag⟩

end Inery.Chain
