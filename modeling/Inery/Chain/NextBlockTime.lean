import Inery.Chain.ProducerWatermarks

/-!
# When a producer is next in turn (`calculate_next_block_time`)

The watermark of the producer gives the first slot at which `start_block` lets it produce, provided
that every slot until then has its block; from there on the next slot of the producer is found by
its distance in the schedule.
-/

namespace Inery.Chain

open Config Option

def u64Sub (a b : ℕ) : ℕ := u64 (a + (2 ^ 64 - b % 2 ^ 64))

namespace ProducerPlugin

variable (p : ProducerPlugin) (producer : Name) (current : Slot)

/-- The number of the last block once the block being built is there. -/
def currentBlockNum : ℕ :=
  if p.pending.isSome then u32 (p.head.blockNum + 1) else p.head.blockNum

def minimumOffset : ℕ :=
  match p.getWatermark producer with
  | none => 1
  | some watermark =>
    let offset :=
      if p.currentBlockNum < watermark.blockNum then
        u32 (watermark.blockNum - p.currentBlockNum + 1)
      else 1
    if current < watermark.timestamp then
      max offset (u32 (watermark.timestamp.toNat - current.toNat + 1))
    else offset

/-- `next_block_slot` for the producer at `producerIndex` of a schedule of `size`. -/
def nextBlockSlot (size producerIndex minimumSlot : ℕ) : ℕ :=
  let minimumSlotProducerIndex := minimumSlot % (size * producerRepetitions) / producerRepetitions
  if producerIndex = minimumSlotProducerIndex then minimumSlot
  else
    let producerDistance := u64Sub producerIndex minimumSlotProducerIndex
    -- the check for unsigned underflow
    let producerDistance :=
      if producerIndex < producerDistance then u64 (producerDistance + size) else producerDistance
    let firstMinimumProducerSlot := minimumSlot - minimumSlot % producerRepetitions
    u32 (firstMinimumProducerSlot + producerDistance * producerRepetitions)

def calculateNextBlockTime : Option TimePoint :=
  let activeSchedule := p.head.activeSchedule.producers
  (activeSchedule.findIdx? (·.producerName == producer)).map fun producerIndex =>
    let minimumSlot := u32 (current.toNat + p.minimumOffset producer current)
    toTimePoint (.ofNat (nextBlockSlot activeSchedule.length producerIndex minimumSlot))

/-- The plugin at slot `t` if every slot after `current` and before `t` had its block. -/
def withoutMiss (t : Slot) : ProducerPlugin :=
  { p with head :=
    { p.head with blockNum := p.currentBlockNum + (t.toNat - current.toNat - 1) } }

/-- The slots after `current` at which the watermark checks of `start_block` allow the
producer, if no block is missed until then. -/
def allowedSlots : Set Slot :=
  {t | current < t ∧ (p.withoutMiss current t).watermarkExcludes producer t = false}

/-- The slots from `first` on at which the schedule picks the producer. -/
def slotsOf (first : Slot) : Set Slot :=
  {s | first ≤ s ∧ (p.head.getScheduledProducer s).map (·.producerName) = some producer}

variable {p producer current}

/-- **The offset is that of the first slot the watermark allows.** -/
theorem minimumOffset_eq {t : Slot} (ht : IsLeast (p.allowedSlots producer current) t) :
    current.toNat + p.minimumOffset producer current = t.toNat := by
  obtain ⟨⟨hlt, hallowed⟩, hleast⟩ := ht
  have hlt' : current.toNat < t.toNat := hlt
  have htop := t.toNat_lt
  -- a slot before `t` that is allowed cannot be
  have hnone : ∀ n, current.toNat < n → n < t.toNat →
      (p.withoutMiss current (.ofNat n)).watermarkExcludes producer (.ofNat n) = true := by
    intro n hn hn'
    by_contra hfree
    have hnat : (UInt32.ofNat n).toNat = n := UInt32.toNat_ofNat_of_lt' (show n < 2 ^ 32 by omega)
    have hle : t.toNat ≤ (UInt32.ofNat n).toNat := hleast
      ⟨by rw [UInt32.lt_iff_toNat_lt, hnat]; exact hn, Bool.eq_false_iff.mpr hfree⟩
    omega
  simp only [watermarkExcludes, withoutMiss, getWatermark] at hallowed hnone
  rw [minimumOffset, getWatermark]
  cases hw : p.producerWatermarks.lookup producer with
  | none =>
    rw [hw] at hnone
    rcases Nat.lt_or_ge (current.toNat + 1) t.toNat with h | h
    · exact absurd (hnone (current.toNat + 1) (by omega) h) (by simp)
    · show current.toNat + 1 = t.toNat
      omega
  | some w =>
    simp only [hw, any_some, decide_eq_true_eq, decide_eq_false_iff_not, not_or, not_lt,
      not_le, UInt32.lt_iff_toNat_lt, UInt32.le_iff_toNat_le] at hallowed hnone ⊢
    obtain ⟨hnum, htime⟩ := hallowed
    have hlast := hnone (t.toNat - 1)
    rw [UInt32.toNat_ofNat_of_lt' (show t.toNat - 1 < 2 ^ 32 by omega)] at hlast
    unfold u32
    split <;> split <;> omega

/-! ## The distance -/

/-- The next number from `m` on that leaves `i`, for a remainder of `m` other than `i`. -/
theorem isLeast_mod {m n i d : ℕ} (hd : d < n) (hmod : (m + d) % n = i) :
    IsLeast {t | m ≤ t ∧ t % n = i} (m + d) := by
  refine ⟨⟨Nat.le_add_right m d, hmod⟩, ?_⟩
  rintro t ⟨hle, ht⟩
  by_contra hlt
  have hdvd : n ∣ m + d - t :=
    Nat.dvd_of_mod_eq_zero (Nat.sub_mod_eq_zero_of_mod_eq (hmod.trans ht.symm))
  have hbound := Nat.le_of_dvd (by omega) hdvd
  omega

theorem mod_mul_div (s n r : ℕ) : s % (n * r) / r = s / r % n := by
  rw [Nat.mul_comm, Nat.mod_mul_right_div_self]

/-- **The slot found is the first of the producer from the minimum on.** -/
theorem nextBlockSlot_eq {size index m s : ℕ} (hindex : index < size) (hs : s < 2 ^ 32)
    (hleast : IsLeast {s | m ≤ s ∧
      s % (size * producerRepetitions) / producerRepetitions = index} s) :
    nextBlockSlot size index m = s := by
  have hpos : 0 < producerRepetitions := by decide
  obtain ⟨⟨hle, hat⟩, hmin⟩ := hleast
  rw [mod_mul_div] at hat
  unfold nextBlockSlot
  simp only [mod_mul_div]
  split
  case isTrue heq =>
    exact le_antisymm (hmin ⟨le_refl m, by rw [mod_mul_div, ← heq]⟩ : s ≤ m) hle |>.symm
  case isFalse hne =>
    generalize producerRepetitions = r at hpos hat hmin hne ⊢
    have hm : m / r % size < size := Nat.mod_lt _ (by omega)
    have hmle : m / r % size ≤ m / r := Nat.mod_le _ _
    have hmr : m / r ≤ m := Nat.div_le_self m r
    -- the distance, and that it leads to the producer
    obtain ⟨d, hd, hdpos, hdlt, hdmod⟩ : ∃ d, (d = index - m / r % size ∧ m / r % size < index ∨
        d = index + size - m / r % size ∧ index < m / r % size) ∧
        0 < d ∧ d < size ∧ (m / r + d) % size = index := by
      rcases Nat.lt_or_gt_of_ne hne with h | h
      · refine ⟨_, .inr ⟨rfl, h⟩, by omega, by omega, ?_⟩
        rw [Nat.add_mod, show index + size - m / r % size = size - (m / r % size - index) by omega,
          Nat.mod_eq_of_lt (show size - (m / r % size - index) < size by omega),
          show m / r % size + (size - (m / r % size - index)) = index + size by omega,
          Nat.add_mod_right, Nat.mod_eq_of_lt hindex]
      · refine ⟨_, .inl ⟨rfl, h⟩, by omega, by omega, ?_⟩
        rw [Nat.add_mod, Nat.mod_eq_of_lt (show index - m / r % size < size by omega),
          show m / r % size + (index - m / r % size) = index by omega, Nat.mod_eq_of_lt hindex]
    have hquot := (isLeast_mod hdlt hdmod).2 ⟨Nat.div_le_div_right hle, hat⟩
    have hnext : (m / r + d) * r ≤ s :=
      (Nat.mul_le_mul_right r hquot).trans (Nat.div_mul_le_self s r)
    have hfirst : m < (m / r + d) * r := by
      calc m < (m / r + 1) * r := by
            rw [Nat.add_mul, Nat.one_mul]
            exact Nat.lt_div_mul_add hpos
        _ ≤ (m / r + d) * r := Nat.mul_le_mul_right r (by omega)
    have hs' : s = (m / r + d) * r := by
      refine le_antisymm (hmin ⟨hfirst.le, ?_⟩) hnext
      rw [mod_mul_div, Nat.mul_div_cancel _ hpos, hdmod]
    have hdr : d ≤ (m / r + d) * r := (Nat.le_add_left d _).trans (Nat.le_mul_of_pos_right _ hpos)
    have hdistance : (if index < u64Sub index (m / r % size) then
        u64 (u64Sub index (m / r % size) + size) else u64Sub index (m / r % size)) = d := by
      unfold u64Sub u64
      split <;> omega
    rw [hdistance, hs', show m - m % r = m / r * r by
      have := Nat.div_add_mod' m r
      omega, ← Nat.add_mul, u32_of_lt (by omega)]

/-! ## The time -/

/-- In a schedule of distinct producers the one at `index` is picked where the slot leads to
its index. -/
theorem scheduled_iff {l : List ProducerAuthority} (hdistinct : (l.map (·.producerName)).Nodup)
    {index i : ℕ} {a : ProducerAuthority} (ha : l[index]? = some a) :
    l[i]?.map (·.producerName) = some a.producerName ↔ i = index := by
  obtain ⟨hlt, -⟩ := List.getElem?_eq_some_iff.mp ha
  constructor
  · intro h
    rw [← List.getElem?_map] at h
    refine ((List.getElem?_inj (by simpa using hlt) hdistinct).mp ?_).symm
    rw [h, List.getElem?_map, ha, map_some]
  · rintro rfl
    rw [ha, map_some]

/-- **The time returned is that of the producer's first slot that its watermark allows.**  Let `t`
be the least slot after the current one at which, if no block is missed, the checks of `start_block`
pass, and `s` the least slot from `t` on that belongs to the producer.  The offset counts from the
current slot to `t`, and the time is that of `s`. -/
theorem next_block_time (hdistinct : (p.head.activeSchedule.producers.map (·.producerName)).Nodup)
    (hmem : producer ∈ p.head.activeSchedule.producers.map (·.producerName)) {t s : Slot}
    (ht : IsLeast (p.allowedSlots producer current) t) (hs : IsLeast (p.slotsOf producer t) s) :
    p.minimumOffset producer current = t.toNat - current.toNat ∧
      p.calculateNextBlockTime producer current = some (toTimePoint s) := by
  have hoffset := minimumOffset_eq ht
  refine ⟨by omega, ?_⟩
  have hfound : ∃ index, p.head.activeSchedule.producers.findIdx? (·.producerName == producer) =
      some index := by
    obtain ⟨a, ha, rfl⟩ := List.mem_map.mp hmem
    rw [← isSome_iff_exists, List.findIdx?_isSome, List.any_eq_true]
    exact ⟨a, ha, beq_self_eq_true _⟩
  obtain ⟨index, hindex⟩ := hfound
  obtain ⟨hlt, hname, -⟩ := List.findIdx?_eq_some_iff_getElem.mp hindex
  have hat := List.getElem?_eq_getElem hlt
  have hpicked := fun i => scheduled_iff hdistinct hat (i := i)
  rw [beq_iff_eq.mp hname] at hpicked
  have hslot : IsLeast {n : ℕ | t.toNat ≤ n ∧ n % (p.head.activeSchedule.producers.length *
      producerRepetitions) / producerRepetitions = index} s.toNat := by
    refine ⟨⟨hs.1.1, (hpicked _).mp hs.1.2⟩, ?_⟩
    rintro n ⟨hle, hn⟩
    rcases Nat.lt_or_ge n (2 ^ 32) with hfits | hfits
    · have hnat : (UInt32.ofNat n).toNat = n := UInt32.toNat_ofNat_of_lt' hfits
      have hleast : s ≤ UInt32.ofNat n := hs.2 ⟨by rw [UInt32.le_iff_toNat_le, hnat]; exact hle, by
        simp only [BlockHeaderState.getScheduledProducer, hnat]
        exact (hpicked _).mpr hn⟩
      rwa [UInt32.le_iff_toNat_le, hnat] at hleast
    · exact s.toNat_lt.le.trans hfits
  simp only [calculateNextBlockTime, hindex, map_some, hoffset]
  rw [u32_of_lt t.toNat_lt, nextBlockSlot_eq hlt s.toNat_lt hslot, UInt32.ofNat_toNat]

/-- Producers `1` and `2` take turns; `1` has signed a block of number 3 at slot 1. -/
def watermarkedNode : ProducerPlugin :=
  { nodeOfProducerOne { genesisHeaderState timedCrypto genesisKeyOne with
      activeSchedule := ⟨1, [producerKeyOne 1, producerKeyOne 2]⟩ } with
    producerWatermarks := Finmap.insert 1 ⟨3, 1⟩ ∅ }

/-- On block 1 at slot 0, it may produce from slot 3 on and is next in turn at slot 4. -/
theorem next_block_time_watermarked :
    watermarkedNode.calculateNextBlockTime 1 0 = some (toTimePoint 4) := by
  have hslots : ∀ n < 4, (n < 3 → UInt32.ofNat n ≤ 0 ∨ (watermarkedNode.withoutMiss 0
      (.ofNat n)).watermarkExcludes 1 (.ofNat n) = true) ∧ (n = 3 →
      (watermarkedNode.head.getScheduledProducer (.ofNat n)).map (·.producerName) ≠ some 1) := by
    decide +kernel
  have hallowed : IsLeast (watermarkedNode.allowedSlots 1 0) 3 := by
    refine ⟨⟨by decide, by decide +kernel⟩, ?_⟩
    rintro t ⟨hpos, hfree⟩
    by_contra hlt
    have hsmall : t.toNat < 3 := by simpa [UInt32.le_iff_toNat_le] using hlt
    have hcase := (hslots t.toNat (by omega)).1 hsmall
    rw [UInt32.ofNat_toNat, hfree] at hcase
    exact hcase.elim (fun h => absurd hpos (by simpa using h)) nofun
  have hturn : IsLeast (watermarkedNode.slotsOf 1 3) 4 := by
    refine ⟨⟨by decide, by decide +kernel⟩, ?_⟩
    rintro s ⟨hle, hpicked⟩
    by_contra hlt
    have hthree : s.toNat = 3 := by
      simp only [UInt32.le_iff_toNat_le, not_le] at hle hlt
      exact le_antisymm (Nat.le_of_lt_succ hlt) hle
    have hcase := (hslots s.toNat (by omega)).2 hthree
    rw [UInt32.ofNat_toNat] at hcase
    exact hcase hpicked
  exact (next_block_time (by decide +kernel) (by decide +kernel) hallowed hturn).2

end ProducerPlugin

end Inery.Chain
