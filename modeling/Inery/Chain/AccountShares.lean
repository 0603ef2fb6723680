import Inery.Chain.LimitTotals

/-!
# The casts of the account limits (`get_account_cpu_limit_ex`)

What an account may use in a window is its share of the capacity, computed in 128 bits and then cast
down with an assertion.  While the weight of the account is pending, it is not part of the total,
and the share is not bounded by the capacity.  What the account has used always fits.
-/

namespace Inery.Chain

open Foundation Finmap UsageAccumulator Config Resource

namespace ResourceLimitsManager

variable {m m' : ResourceLimitsManager} {a : Name}

/-! ## What the fields hold -/

/-- The 64-bit fields that the limits are computed from hold what they can hold, and every
account with a usage has limits. -/
structure Representable (m : ResourceLimitsManager) : Prop where
  total : ∀ r : Resource, r.totalWeight m.state < 2 ^ 64
  virtual : ∀ r : Resource, r.virtualLimit m.state < 2 ^ 64
  row : ∀ (r : Resource) (a : Name) (acc : UsageAccumulator), m.averageOf r a = some acc →
    acc.valueEx < 2 ^ 64 ∧ a ∈ m.limits

theorem valueEx_added_lt {acc : UsageAccumulator} {units ordinal windowSize : ℕ}
    (hw : 0 < windowSize) (h : acc.Headroom units windowSize) (hv : acc.valueEx < 2 ^ 64) :
    (acc.added units ordinal windowSize).valueEx < 2 ^ 64 := by
  have hdecay : decay windowSize (ordinal - acc.lastOrdinal) acc.valueEx ≤ acc.valueEx := decay_le
  have hvalue := h.value
  rw [valueEx_added hw]
  omega

variable (h : m.Representable)
include h

theorem Representable.initializeAccount (hcall : m.initializeAccount a = .ok m') :
    m'.Representable := by
  obtain ⟨-, rfl⟩ := initializeAccount_eq_ok.mp hcall
  refine ⟨h.total, h.virtual, fun r b acc hacc => ?_⟩
  obtain ⟨usage, husage, rfl⟩ := averageOf_eq_some.mp hacc
  simp only [Table.lookup_insert_ite] at husage
  split at husage
  · next hb =>
    subst hb
    cases husage
    exact ⟨by cases r <;> decide, mem_insert.mpr (.inl rfl)⟩
  · obtain ⟨hlt, hmem⟩ := h.row r b _ (averageOf_eq_some.mpr ⟨usage, husage, rfl⟩)
    exact ⟨hlt, mem_insert.mpr (.inr hmem)⟩

theorem Representable.updateAccountUsage {accounts : Finset Name} {slot : ℕ} (hopen : m.OpenBlock)
    (hcall : m.updateAccountUsage accounts slot = .ok m') : m'.Representable := by
  obtain ⟨usages, rfl, -⟩ := updateAccountUsage_spec hcall
  refine ⟨h.total, h.virtual, fun r a acc hacc => ?_⟩
  obtain ⟨-, hout, hin⟩ := averageOf_updateAccountUsage (a := a) (r := r) hcall
  by_cases ha : a ∈ accounts
  · obtain ⟨old, hold, -, hnew⟩ := hin ha
    obtain ⟨hlt, hmem⟩ := h.row r a old hold
    rw [hnew] at hacc
    cases hacc
    refine ⟨?_, hmem⟩
    -- nothing is added, so the value can only decay
    rw [valueEx_added (by rw [hopen.window]; decide), contribution_zero, Nat.add_zero]
    exact decay_le.trans_lt hlt
  · rw [hout ha] at hacc
    exact h.row r a acc hacc

theorem Representable.addTransactionUsage {accounts : Finset Name} {cpuUsage netUsage slot : ℕ}
    (hopen : m.OpenBlock) (hcall : m.addTransactionUsage accounts cpuUsage netUsage slot = .ok m') :
    m'.Representable := by
  obtain ⟨usages, rfl, -, hout, hin⟩ := addTransactionUsage_spec hcall
  refine ⟨forall.mpr ⟨h.total .net, h.total .cpu⟩, forall.mpr ⟨h.virtual .net, h.virtual .cpu⟩,
    fun r a acc hacc => ?_⟩
  obtain ⟨usage, husage, rfl⟩ := averageOf_eq_some.mp hacc
  by_cases ha : a ∈ accounts
  · obtain ⟨u, limits, hu, -, hc, hu'⟩ := hin a ha
    obtain ⟨hlt, hmem⟩ := h.row r a _ (averageOf_eq_some.mpr ⟨u, hu, rfl⟩)
    obtain rfl : usage = _ := Option.some.inj (husage.symm.trans hu')
    refine ⟨?_, hmem⟩
    rw [ResourceUsage.accumulator_charged]
    exact valueEx_added_lt (by rw [hopen.window]; decide) (hc.room r).toHeadroom hlt
  · exact h.row r a _ (averageOf_eq_some.mpr ⟨usage, (hout a ha).symm.trans husage, rfl⟩)

omit h

theorem updateStateAndValue_lt {total total' : ℕ} {value pendingValue : ℤ} (h : total < 2 ^ 64)
    (hok : updateStateAndValue total value pendingValue = .ok total') : total' < 2 ^ 64 := by
  simp only [updateStateAndValue, bind_eq_ok, ineAssert_eq_ok, pure_eq_ok, exists_const] at hok
  obtain ⟨-, hroom, rfl⟩ := hok
  have hleft : (if 0 < value then total - value.toNat else total) < 2 ^ 64 := by
    split <;> omega
  generalize (if 0 < value then total - value.toNat else total) = left at hroom hleft ⊢
  split <;> omega

include h

theorem Representable.processAccountLimitUpdates (hcall : m.processAccountLimitUpdates = .ok m') :
    m'.Representable := by
  refine (foldlM_invariant Representable ?_ h).1 m' hcall
  intro owner _ s s' hs hstep
  simp only [processAccountLimitUpdate, bind_eq_ok, pure_eq_ok] at hstep
  obtain ⟨_, -, _, -, _, -, cpu, hcpu, net, hnet, rfl⟩ := hstep
  refine ⟨forall.mpr ⟨?_, ?_⟩, forall.mpr ⟨hs.virtual .net, hs.virtual .cpu⟩,
    fun r a acc hacc => ?_⟩
  · exact updateStateAndValue_lt (hs.total .net) hnet
  · exact updateStateAndValue_lt (hs.total .cpu) hcpu
  · obtain ⟨hlt, hmem⟩ := hs.row r a acc hacc
    exact ⟨hlt, mem_insert.mpr (.inr hmem)⟩

theorem Representable.finalizeBlock {cfg : ChainConfig} {blockNum : ℕ}
    (hcall : m.finalizeBlock cfg blockNum = .ok m') : m'.Representable := by
  simp only [ResourceLimitsManager.finalizeBlock, setBlockParameters, processBlockUsage,
    updateElasticLimit, bind_eq_ok, pure_eq_ok] at hcall
  obtain ⟨s, hs, _, ⟨_, -, _, -, rfl⟩, _, -, _, ⟨_, -, rfl⟩, _, -, _, ⟨_, -, rfl⟩, rfl⟩ := hcall
  have hs' := h.processAccountLimitUpdates hs
  -- the virtual limit is at most a product in 64 bits
  have hcap : ∀ x n : ℕ, min x (u64 n) < 2 ^ 64 := fun x n =>
    (min_le_right _ _).trans_lt (Nat.mod_lt n (by decide))
  exact ⟨forall.mpr ⟨hs'.total .net, hs'.total .cpu⟩, forall.mpr ⟨hcap _ _, hcap _ _⟩, hs'.row⟩

omit h

theorem Reached.representable (h : m.Reached) : m.Representable := by
  induction h with
  | genesis =>
    refine ⟨fun r => by cases r <;> decide, fun r => by cases r <;> decide, fun r a acc hacc => ?_⟩
    obtain ⟨usage, husage, -⟩ := averageOf_eq_some.mp hacc
    cases husage
  | initializeAccount _ hcall ih => exact ih.initializeAccount hcall
  | updateAccountUsage hm hcall ih => exact ih.updateAccountUsage hm.openBlock hcall
  | addTransactionUsage hm hcall ih => exact ih.addTransactionUsage hm.openBlock hcall
  | addPendingMemUsage _ hcall ih =>
    obtain ⟨_, rfl⟩ := exists_of_rest (rest_addPendingMemUsage hcall)
    exact ⟨ih.total, ih.virtual, fun r a acc hacc =>
      ih.row r a acc ((averageOf_addPendingMemUsage hcall).symm.trans hacc)⟩
  | setAccountLimits _ hcall ih =>
    rw [eq_of_setAccountLimits hcall]
    exact ⟨ih.total, ih.virtual, ih.row⟩
  | finalizeBlock _ hcall ih => exact ih.finalizeBlock hcall

/-! ## The casts -/

def Limited (r : Resource) (m : ResourceLimitsManager) (limits : AccountLimits) : Prop :=
  0 ≤ r.weight limits ∧ r.totalWeight m.state ≠ 0

/-- The 128-bit products behind the limit of an account: the capacity, its product with the
weight, and what the account has used, scaled. -/
structure NoWrap (r : Resource) (m : ResourceLimitsManager) (virtualLimit : ℕ)
    (limits : AccountLimits) (usage : ResourceUsage) : Prop where
  capacity : virtualLimit * r.window m.config < 2 ^ 128
  share : virtualLimit * r.window m.config * (r.weight limits).toNat < 2 ^ 128
  used : (r.accumulator usage).valueEx * r.window m.config < 2 ^ 128

def ShareInRange (r : Resource) (m : ResourceLimitsManager) (virtualLimit : ℕ)
    (limits : AccountLimits) : Prop :=
  virtualLimit * r.window m.config * (r.weight limits).toNat < 2 ^ 63 * r.totalWeight m.state

include h

theorem greylistedVirtualLimit_lt (r : Resource) (greylistLimit : ℕ) :
    (m.greylistedVirtualLimit r greylistLimit).1 < 2 ^ 64 := by
  unfold greylistedVirtualLimit
  dsimp only
  split
  · exact Nat.mod_lt _ (by decide)
  · exact h.virtual r

omit h

theorem usedInWindow_lt {v w : ℕ} (hv : v < 2 ^ 64) (hw : w = accountUsageAverageWindow) :
    integerDivideCeil (v * w) rateLimitingPrecision < 2 ^ 63 := by
  have hlt : rateLimitingPrecision *
      integerDivideCeil (v * w) rateLimitingPrecision < v * w + rateLimitingPrecision :=
    mul_integerDivideCeil_lt (by decide)
  subst hw
  generalize integerDivideCeil _ rateLimitingPrecision = used at hlt ⊢
  simp only [rateLimitingPrecision, accountUsageAverageWindow] at hlt
  omega

theorem exists_getAccountLimits (ha : a ∈ m.limits) :
    ∃ limits, m.getAccountLimits a = .ok limits := by
  unfold getAccountLimits
  split
  · exact ⟨_, rfl⟩
  · obtain ⟨limits, hlimits⟩ := mem_iff.mp ha
    exact ⟨limits, getObject_eq_ok.mpr hlimits⟩

variable {r : Resource} {limits : AccountLimits}

theorem getAccountLimitEx_of_limited {usage : ResourceUsage} (greylistLimit : ℕ)
    (husage : m.usage.lookup a = some usage) (hlimits : m.getAccountLimits a = .ok limits)
    (hlimited : m.Limited r limits)
    (hused : integerDivideCeil
      ((r.accumulator usage).valueEx * r.window m.config) rateLimitingPrecision < 2 ^ 63) :
    (∃ x, m.getAccountLimitEx r a greylistLimit = .ok x) ↔
      m.maxUse r (m.greylistedVirtualLimit r greylistLimit).1 (r.weight limits) < 2 ^ 63 := by
  obtain ⟨hweight, htotal⟩ := hlimited
  simp only [getAccountLimitEx, getObject_eq_ok.mpr husage, hlimits, ok_bind]
  rw [if_neg (by omega)]
  simp only [downgradeCast, bind_eq_ok, ineAssert_eq_ok, pure_eq_ok, exists_const]
  constructor
  · rintro ⟨_, _, ⟨-, rfl⟩, _, ⟨-, rfl⟩, _, ⟨hmax, rfl⟩, rfl⟩
    omega
  · intro hmax
    exact ⟨_, _, ⟨by omega, rfl⟩, _, ⟨by omega, rfl⟩, _, ⟨by omega, rfl⟩, rfl⟩

theorem getAccountLimitEx_of_not_limited {usage : ResourceUsage} (greylistLimit : ℕ)
    (husage : m.usage.lookup a = some usage) (hlimits : m.getAccountLimits a = .ok limits)
    (hlimited : ¬ m.Limited r limits) :
    m.getAccountLimitEx r a greylistLimit = .ok (⟨-1, -1, -1⟩, false) := by
  have hfree : r.weight limits < 0 ∨ r.totalWeight m.state = 0 := by
    unfold Limited at hlimited
    omega
  simp only [getAccountLimitEx, getObject_eq_ok.mpr husage, hlimits, ok_bind]
  rw [if_pos hfree]
  rfl

include h

/-- A share below 2 to the 63 leaves room in 128 bits, as the total has 64. -/
theorem shareInRange_iff (hlimited : m.Limited r limits) (virtualLimit : ℕ) :
    m.ShareInRange r virtualLimit limits ↔
      virtualLimit * r.window m.config * (r.weight limits).toNat < 2 ^ 128 ∧
        m.maxUse r virtualLimit (r.weight limits) < 2 ^ 63 := by
  have htotal := h.total r
  have hpos : 0 < r.totalWeight m.state := Nat.pos_of_ne_zero hlimited.2
  unfold ShareInRange maxUse u128
  constructor
  · intro hshare
    have hfits : virtualLimit * r.window m.config * (r.weight limits).toNat < 2 ^ 128 := by
      omega
    rw [Nat.mod_eq_of_lt hfits, Nat.div_lt_iff_lt_mul hpos]
    exact ⟨hfits, hshare⟩
  · rintro ⟨hfits, hshare⟩
    rwa [Nat.mod_eq_of_lt hfits, Nat.div_lt_iff_lt_mul hpos] at hshare

omit h

/-- **When the account limits can be computed.** At every point of every chain, for every account,
resource and greylist limit, the two functions return without a wrapped 128-bit product exactly if
the account is not limited or its share of the capacity is less than 2 to the 63. -/
theorem account_limit_returns_iff (m : ResourceLimitsManager) (hreached : m.Reached) (a : Name)
    (ha : a ∈ m.usage) (r : Resource) (greylistLimit : ℕ) :
    ∃ usage limits, m.usage.lookup a = some usage ∧ m.getAccountLimits a = .ok limits ∧
      (((∃ x, m.getAccountLimitEx r a greylistLimit = .ok x) ∧
          (m.Limited r limits →
            m.NoWrap r (m.greylistedVirtualLimit r greylistLimit).1 limits usage)) ↔
        (m.Limited r limits →
          m.ShareInRange r (m.greylistedVirtualLimit r greylistLimit).1 limits)) := by
  have hrep := hreached.representable
  have hwindow := hreached.openBlock.window r
  obtain ⟨usage, husage⟩ := mem_iff.mp ha
  obtain ⟨hvalue, hmem⟩ := hrep.row r a _ (averageOf_eq_some.mpr ⟨usage, husage, rfl⟩)
  obtain ⟨limits, hlimits⟩ := exists_getAccountLimits hmem
  refine ⟨usage, limits, husage, hlimits, ?_⟩
  by_cases hlimited : m.Limited r limits
  · have hreturns := getAccountLimitEx_of_limited greylistLimit husage hlimits hlimited
      (usedInWindow_lt hvalue hwindow)
    have hshare := shareInRange_iff hrep hlimited (m.greylistedVirtualLimit r greylistLimit).1
    have hvirtual := greylistedVirtualLimit_lt hrep r greylistLimit
    constructor
    · rintro ⟨hok, hwrap⟩ -
      exact hshare.mpr ⟨(hwrap hlimited).share, hreturns.mp hok⟩
    · intro hrange
      obtain ⟨hfits, hmax⟩ := hshare.mp (hrange hlimited)
      refine ⟨hreturns.mpr hmax, fun _ => ⟨?_, hfits, ?_⟩⟩
      · rw [hwindow, accountUsageAverageWindow]
        omega
      · rw [hwindow, accountUsageAverageWindow]
        omega
  · have hok := getAccountLimitEx_of_not_limited greylistLimit husage hlimits hlimited
    constructor
    · exact fun _ h => absurd h hlimited
    · exact fun _ => ⟨⟨_, hok⟩, fun h => absurd h hlimited⟩

/-- The only weight in force is 1; in the same block the account is given the largest one. -/
theorem account_limit_throws :
    ∃ m : ResourceLimitsManager, reweighed (2 ^ 63 - 1) = .ok m ∧ m.Reached ∧
      m.getAccountLimitEx .cpu 1 maximumElasticResourceMultiplier =
        .error ⟨.rateLimitingStateInconsistent,
          "Casting a higher bit integer value ${v} to a lower bit integer value which cannot contain the value, valid range is [${min}, ${max}]"⟩ := by
  refine Exists.imp (p := fun m => reweighed (2 ^ 63 - 1) = .ok m ∧ _)
    (fun m ⟨hm, hthrows⟩ => ⟨hm, reached_reweighed _ hm, hthrows⟩) ?_
  decide +kernel

/-- The account keeps its weight: its share is the whole capacity. -/
theorem account_limit_returns_iff_reweighed :
    ∃ m : ResourceLimitsManager, m.Reached ∧
      ∃ x, m.getAccountLimitEx .cpu 1 maximumElasticResourceMultiplier = .ok x := by
  obtain ⟨m, hm, husage, hpending, htotal, hcapacity⟩ : ∃ m, reweighed 1 = .ok m ∧
      (m.usage.lookup 1).isSome ∧ m.pendingLimits.lookup 1 = some ⟨-1, 1, -1⟩ ∧
      m.state.totalCpuWeight = 1 ∧
      (m.greylistedVirtualLimit .cpu 1000).1 * cpu.window m.config < 2 ^ 63 := by
    decide +kernel
  have hreached := reached_reweighed 1 hm
  obtain ⟨usage, limits, -, hlimits, hiff⟩ := account_limit_returns_iff m hreached 1
    (lookup_isSome.mp husage) .cpu maximumElasticResourceMultiplier
  obtain rfl : limits = ⟨-1, 1, -1⟩ := by
    rw [getAccountLimits, hpending] at hlimits
    exact (Except.ok.inj hlimits).symm
  refine ⟨m, hreached, (hiff.mpr fun _ => ?_).1⟩
  show _ * _ * 1 < 2 ^ 63 * m.state.totalCpuWeight
  rw [htotal, Nat.mul_one, Nat.mul_one]
  exact hcapacity

end ResourceLimitsManager

end Inery.Chain
