import Inery.Chain.TransactionRun

/-!
# The billing that should never fail

`finalize` checks a transaction against every limit it knows of and then calls
`add_transaction_usage`, marked "Should never fail"; so does the hard-fail branch of
`push_scheduled_transaction`.  The checks do imply that the billed accounts stay within their share
of what they are billed for.  They do not look at the 32 bytes of memory that every billing adds,
nor at an account that is billed nothing while its average is above its share.
-/

namespace Inery.Chain

open Foundation UsageAccumulator TransactionContext Finmap

/-! ## The condition -/

namespace ResourceLimitsManager

variable {m : ResourceLimitsManager} {a : Name} {accounts : Finset Name}
  {checked : Bool} {cpuUsage netUsage slot : ℕ}

/-- The average of an account over its share, once a use has been added to it. -/
def OverShare (r : Resource) (m : ResourceLimitsManager) (limits : AccountLimits)
    (usage : ResourceUsage) (units : ℕ) : Prop :=
  ∃ most ∈ m.maxUserUseInWindow r limits, most <
    ((r.accumulator usage).valueEx + contribution units (r.window m.config)) *
      r.window m.config / Config.rateLimitingPrecision

/-- What the checks before the billing leave open, for one account: its memory and the 32 bytes that
the billing adds, its 64-bit counters, and its share of what it is not billed for.  `checked` says
whether the checks were made at all. -/
structure Covers (checked : Bool) (m : ResourceLimitsManager) (limits : AccountLimits)
    (usage : ResourceUsage) (cpuUsage netUsage : ℕ) : Prop where
  memBefore : 0 ≤ limits.memBytes → usage.memUsage ≤ limits.memBytes
  memAfter : 0 ≤ limits.memBytes →
    u64 (usage.memUsage + Config.transactionIdNetUsage) ≤ limits.memBytes
  headroom : ∀ r : Resource,
    (r.accumulator usage).Headroom (r.amount cpuUsage netUsage) (r.window m.config)
  share : ∀ r : Resource,
    checked = false ∨ r.amount cpuUsage netUsage = 0 ∨ ¬ m.ShareFits r limits →
      ¬ m.OverShare r limits usage (r.amount cpuUsage netUsage)

/-- What the checks before the billing leave open. -/
def BillingCovered (checked : Bool) (m : ResourceLimitsManager) (accounts : Finset Name)
    (cpuUsage netUsage : ℕ) : Prop :=
  (∀ a ∈ accounts, ∀ usage limits, m.usage.lookup a = some usage →
    m.getAccountLimits a = .ok limits → m.Covers checked limits usage cpuUsage netUsage) ∧
  (checked = false → ∀ r : Resource,
    u64 (r.pendingUsage m.state + r.amount cpuUsage netUsage) ≤ (r.parameters m.config).max)

structure Prechecked (checked : Bool) (m : ResourceLimitsManager) (accounts : Finset Name)
    (cpuUsage netUsage slot : ℕ) : Prop where
  updated : ∀ a ∈ accounts, ∀ r : Resource,
    ∃ acc, m.averageOf r a = some acc ∧ acc.lastOrdinal = slot
  pays : ∀ a ∈ accounts, ∃ greylistLimit, ∀ r : Resource, ∃ available greylisted,
    m.getAccountLimit r a greylistLimit = .ok (available, greylisted) ∧
    (checked = true → 0 ≤ available → (r.amount cpuUsage netUsage : ℤ) ≤ available)
  block : checked = true → ∀ r : Resource,
    r.pendingUsage m.state + r.amount cpuUsage netUsage ≤ (r.parameters m.config).max

theorem Prechecked.row (h : m.Prechecked checked accounts cpuUsage netUsage slot)
    (ha : a ∈ accounts) :
    ∃ usage limits, m.usage.lookup a = some usage ∧ m.getAccountLimits a = .ok limits := by
  obtain ⟨_, hacc, -⟩ := h.updated a ha .cpu
  obtain ⟨usage, husage, -⟩ := averageOf_eq_some.mp hacc
  obtain ⟨_, hpays⟩ := h.pays a ha
  obtain ⟨_, _, hget, -⟩ := hpays .cpu
  simp only [getAccountLimit, getAccountLimitEx, bind_eq_ok] at hget
  obtain ⟨_, ⟨_, -, limits, hlimits, -⟩, -⟩ := hget
  exact ⟨usage, limits, husage, hlimits⟩

/-- One account: it can be charged exactly when what is left open holds. -/
theorem Prechecked.chargeableAt_iff (hopen : m.OpenBlock)
    (h : m.Prechecked checked accounts cpuUsage netUsage slot) (ha : a ∈ accounts)
    {usage : ResourceUsage} {limits : AccountLimits} (husage : m.usage.lookup a = some usage)
    (hlimits : m.getAccountLimits a = .ok limits) :
    m.ChargeableAt limits usage cpuUsage netUsage slot ↔
      m.Covers checked limits usage cpuUsage netUsage := by
  have hlast : ∀ r : Resource, (r.accumulator usage).lastOrdinal = slot := by
    intro r
    obtain ⟨acc, hacc, hslot⟩ := h.updated a ha r
    obtain ⟨usage', husage', rfl⟩ := averageOf_eq_some.mp hacc
    rw [husage] at husage'
    cases husage'
    exact hslot
  constructor
  · intro hc
    refine ⟨hc.memBefore, hc.memAfter, fun r => (hc.room r).toHeadroom, ?_⟩
    rintro r - ⟨most, hmost, hover⟩
    have hused := hc.used r most hmost
    -- in the slot of the update the average only grows
    rw [valueEx_charged (hlast r)] at hused
    omega
  · intro hc
    refine ⟨hc.memBefore, ?_, ?_, hc.memAfter⟩
    · exact fun r => ⟨canAdvance_of_eq (hlast r), hc.headroom r⟩
    · intro r most hmost
      rw [valueEx_charged (hlast r)]
      by_cases hopenShare : checked = false ∨ r.amount cpuUsage netUsage = 0 ∨
          ¬ m.ShareFits r limits
      · by_contra hover
        exact hc.share r hopenShare ⟨most, hmost, by omega⟩
      · simp only [not_or, Bool.not_eq_false, not_not] at hopenShare
        obtain ⟨hchecked, hpos, hfits⟩ := hopenShare
        obtain ⟨greylistLimit, hpays⟩ := h.pays a ha
        obtain ⟨available, greylisted, hget, hle⟩ := hpays r
        exact used_le_of_getAccountLimit husage hlimits hopen hget (Or.inl hfits)
          (Nat.pos_of_ne_zero hpos) (hle hchecked) hmost

/-- **The billing succeeds exactly when what the checks leave open holds.** -/
theorem Prechecked.isOk_iff (hopen : m.OpenBlock)
    (h : m.Prechecked checked accounts cpuUsage netUsage slot) :
    (∃ m', m.addTransactionUsage accounts cpuUsage netUsage slot = .ok m') ↔
      m.BillingCovered checked accounts cpuUsage netUsage := by
  rw [addTransactionUsage_isOk_iff]
  constructor
  · rintro ⟨haccounts, hblock⟩
    refine ⟨?_, fun _ => hblock⟩
    intro a ha usage limits husage hlimits
    obtain ⟨usage', limits', husage', hlimits', hc⟩ := haccounts a ha
    rw [husage] at husage'
    rw [hlimits] at hlimits'
    cases husage'
    cases hlimits'
    exact (h.chargeableAt_iff hopen ha husage hlimits).mp hc
  · rintro ⟨hcovers, hunchecked⟩
    constructor
    · intro a ha
      obtain ⟨usage, limits, husage, hlimits⟩ := h.row ha
      exact ⟨usage, limits, husage, hlimits,
        (h.chargeableAt_iff hopen ha husage hlimits).mpr (hcovers a ha usage limits husage hlimits)⟩
    · cases hchecked : checked with
      | false => exact hunchecked hchecked
      | true =>
        intro r
        have hfit := h.block hchecked r
        exact (Nat.mod_le _ _).trans hfit

end ResourceLimitsManager

open ResourceLimitsManager

/-! ## The two billings -/

theorem i64_le (n : ℕ) : i64 n ≤ n := by
  have hmod : u64 n ≤ n := Nat.mod_le _ _
  unfold i64
  split <;> omega

theorem i64_of_lt {n : ℕ} (h : n < 2 ^ 63) : i64 n = n := by
  have hmod : u64 n = n := u64_of_lt (h.trans (by decide))
  rw [i64, hmod, if_pos h]

theorem castU64_of_lt {z : ℤ} (h₀ : 0 ≤ z) (h : z < 2 ^ 64) : (castU64 z : ℤ) = z := by
  rw [castU64, Int.emod_eq_of_lt h₀ h, Int.toNat_of_nonneg h₀]

namespace ContextM

variable {control : Control} {m₀ : ResourceLimitsManager} {s s' : TransactionState} {now : ℤ}

theorem prechecked_finalizeChecks (hopen : m₀.OpenBlock) (hstarted : Started control m₀ s)
    (h : (finalizeChecks control now).run s = (.ok (), s')) :
    s'.resources.OpenBlock ∧
    s'.resources.Prechecked (!control.skipTrxChecks) s'.context.billToAccounts
      (castU64 s'.context.billedCpuTimeUs) s'.context.netUsage control.pendingSlot := by
  obtain ⟨b, hb, hres, hlow, hchecks⟩ := finalizeChecks_spec h
  obtain ⟨hwithin, hrange⟩ := maxBandwidth_spec hb
  have hopen' : s.resources.OpenBlock := hopen.congr hstarted.config fun _ => by rw [hstarted.state]
  rw [hres, hlow.accounts]
  refine ⟨hopen', hstarted.updated, ?_, ?_⟩
  · intro a ha
    refine ⟨greylistLimitOf control false a, fun r => ?_⟩
    obtain ⟨available, greylisted, hget, hpays⟩ := hwithin a ha r
    refine ⟨available, greylisted, hget, fun hchecked hpos => ?_⟩
    obtain ⟨hnet, hlimit, hbilled, hcpu⟩ := hchecks (by simpa using hchecked)
    cases r with
    | cpu =>
      show (castU64 s'.context.billedCpuTimeUs : ℤ) ≤ available
      rcases hbilled.eq_or_lt with hzero | hposBilled
      · rw [← hzero]
        exact hpos
      · have hle := (hcpu hposBilled).1
        have hcast := castU64_of_lt hbilled (by
          have := (hrange .cpu).2
          have : b.cpu < 2 ^ 63 := this
          omega)
        rw [hcast]
        exact hle.trans (hpays hpos)
    | net =>
      show (s'.context.netUsage : ℤ) ≤ available
      have hcast := castU64_of_lt (hrange .net).1 ((hrange .net).2.trans (by decide))
      have hle : (s'.context.netUsage : ℤ) ≤ castU64 b.net := by exact_mod_cast hnet.trans hlimit
      exact (hle.trans hcast.le).trans (hpays hpos)
  · intro hchecked r
    obtain ⟨hnet, -, hbilled, hcpu⟩ := hchecks (by simpa using hchecked)
    have hblock := hopen.getBlockLimit_add r
    rw [hstarted.config, hstarted.state]
    cases r with
    | cpu =>
      show _ + castU64 s'.context.billedCpuTimeUs ≤ _
      rcases hbilled.eq_or_lt with hzero | hposBilled
      · rw [← hzero]
        exact hopen.pending .cpu
      · have hle : s'.context.billedCpuTimeUs ≤ m₀.getBlockLimit .cpu :=
          ((hcpu hposBilled).2.trans (hlow.cpu.trans hstarted.cpu)).trans (i64_le _)
        have hlt : m₀.getBlockLimit .cpu < 2 ^ 64 := Nat.mod_lt _ (by decide)
        have hcast := castU64_of_lt hbilled (by omega)
        omega
    | net =>
      show _ + s'.context.netUsage ≤ _
      have hle := hnet.trans (hlow.net.trans hstarted.net)
      omega

end ContextM

open ContextM

theorem prechecked_capHardFail {control : Control} {tc : TransactionContext}
    {m₀ m : ResourceLimitsManager} {cpuTimeToBillUs limited : ℕ} {explicit : Bool}
    (hopen : m₀.OpenBlock) (hnonneg : 0 ≤ tc.initialObjectiveDurationLimit)
    (hinitial : tc.initialObjectiveDurationLimit ≤ i64 (m₀.getBlockLimit .cpu))
    (h : capHardFail control tc m₀ cpuTimeToBillUs explicit = .ok (limited, m)) :
    m.OpenBlock ∧ m.Prechecked true tc.billToAccounts limited 0 control.pendingSlot := by
  simp only [capHardFail, bind_eq_ok, ineAssert_eq_ok, pure_eq_ok, exists_const, Prod.mk.injEq] at h
  obtain ⟨_, hm, b, hb, -, hlimited, rfl⟩ := h
  obtain ⟨_, rfl, -⟩ := updateAccountUsage_spec hm
  obtain ⟨hwithin, hrange⟩ := maxBandwidth_spec hb
  have hcpuNonneg : 0 ≤ b.cpu := (hrange .cpu).1
  have hblock := hopen.getBlockLimit_add .cpu
  have hmax := hopen.maxCpu
  have hle := hinitial.trans (i64_le _)
  -- the least of the three is neither negative nor too large for 32 bits
  have hmin : (limited : ℤ) =
      min (min (cpuTimeToBillUs : ℤ) b.cpu) tc.initialObjectiveDurationLimit := by
    have hcast := castU64_of_lt (z := min (min (cpuTimeToBillUs : ℤ) b.cpu)
      tc.initialObjectiveDurationLimit) (by omega) (by omega)
    have hsmall : castU64 (min (min (cpuTimeToBillUs : ℤ) b.cpu)
        tc.initialObjectiveDurationLimit) < 2 ^ 32 := by omega
    rw [← hlimited, u32_of_lt hsmall, hcast]
  refine ⟨hopen.congr rfl fun _ => rfl, ?_, ?_, ?_⟩
  · intro a ha r
    obtain ⟨acc, -, -, hacc⟩ := (averageOf_updateAccountUsage hm).2.2 ha
    exact ⟨_, hacc, lastOrdinal_added⟩
  · intro a ha
    refine ⟨greylistLimitOf control true a, fun r => ?_⟩
    obtain ⟨available, greylisted, hget, hpays⟩ := hwithin a ha r
    refine ⟨available, greylisted, hget, fun _ hpos => ?_⟩
    cases r with
    | cpu =>
      have hpaid : b.cpu ≤ available := hpays hpos
      show (limited : ℤ) ≤ available
      omega
    | net => exact hpos
  · intro _ r
    cases r with
    | cpu =>
      show Resource.cpu.pendingUsage m₀.state + limited ≤ (Resource.cpu.parameters m₀.config).max
      omega
    | net => exact hopen.pending .net

/-- **When the billing that should never fail succeeds.** Take a transaction that starts in any
reached state of the resource tables.  If it passes all checks of `finalize`, the last call of
`finalize` succeeds exactly when what the checks leave open holds.  And wherever the transaction
stopped, the call of the hard-fail branch, which has capped its cpu time, succeeds under the same
condition. -/
theorem billing_succeeds_iff (control : Control) (trx : Transaction)
    (start deadline leeway billedCpuTimeUs : ℤ) (explicit : Bool) (m : ResourceLimitsManager)
    (cfg : ChainConfig) (initialNetUsage : ℕ) (expired : Bool) (calls : List ExecutionCall)
    (now : ℤ) (hm : m.Reached) (s₀ : TransactionState)
    (hs₀ : s₀ = ⟨.create trx start deadline leeway billedCpuTimeUs explicit, m, cfg⟩) :
    (∀ s₁ s₂ s₃,
      (init control initialNetUsage expired).run s₀ = (.ok (), s₁) →
      (exec control calls).run s₁ = (.ok (), s₂) →
      (finalizeChecks control now).run s₂ = (.ok (), s₃) →
      ((∃ s₄, (billTransaction control).run s₃ = (.ok (), s₄)) ↔
        s₃.resources.BillingCovered (!control.skipTrxChecks) s₃.context.billToAccounts
          (castU64 s₃.context.billedCpuTimeUs) s₃.context.netUsage)) ∧
    (∀ tc cpuTimeToBillUs limited m',
      tc = ((applyTransaction control initialNetUsage expired calls now).run
        s₀).2.context →
      capHardFail control tc m cpuTimeToBillUs explicit = .ok (limited, m') →
      ((∃ m'', m'.addTransactionUsage tc.billToAccounts limited 0 control.pendingSlot = .ok m'') ↔
        m'.BillingCovered true tc.billToAccounts limited 0)) := by
  subst hs₀
  have hopen := hm.openBlock
  constructor
  · intro s₁ s₂ s₃ hinit hexec hchecks
    have hstarted := (stable_started.keeps_exec calls).of_run
      (started_init hinit) hexec
    obtain ⟨hopen₃, hpre⟩ := prechecked_finalizeChecks hopen hstarted hchecks
    rw [← hpre.isOk_iff hopen₃]
    simp only [billTransaction, run_modifyResources_eq_ok]
    constructor
    · rintro ⟨_, m', hm', -⟩
      exact ⟨m', hm'⟩
    · rintro ⟨m', hm'⟩
      exact ⟨_, m', hm', rfl⟩
  · intro tc cpuTimeToBillUs limited m' htc hcap
    have hblock : 0 ≤ i64 (m.getBlockLimit .cpu) := by
      have hmax := hopen.maxCpu
      have hadd := hopen.getBlockLimit_add .cpu
      rw [i64_of_lt (by omega)]
      exact Int.natCast_nonneg _
    obtain ⟨hnonneg, hle⟩ := initialWithin_applyTransaction control initialNetUsage
      expired calls now (s := ⟨.create trx start deadline leeway billedCpuTimeUs explicit, m, cfg⟩)
      hblock rfl
    rw [← htc] at hnonneg hle
    obtain ⟨hopen', hpre⟩ := prechecked_capHardFail hopen hnonneg hle hcap
    exact hpre.isOk_iff hopen'

def memLimited (memBytes : ℤ) : ResourceLimitsManager :=
  { initializeDatabase with
    limits := insert 1 {} ∅
    pendingLimits := insert 1 ⟨-1, -1, memBytes⟩ ∅
    usage := insert 1 {} ∅ }

theorem reached_memLimited (memBytes : ℤ) : (memLimited memBytes).Reached := by
  have hset : setAccountLimits
      { initializeDatabase with
        limits := insert 1 {} ∅, usage := insert 1 {} ∅ } 1 ⟨-1, -1, memBytes⟩ =
      .ok (decide (0 ≤ memBytes ∧ ((-1 : ℤ) < 0 ∨ memBytes < -1)), memLimited memBytes) := rfl
  exact .setAccountLimits (.initializeAccount .genesis rfl) hset

def producing : Control := { isProducingBlock := true, pendingSlot := 1 }

def idleTransaction (memBytes : ℤ) : TransactionState :=
  ⟨.create { actions := [⟨1, [⟨1, 2⟩]⟩] } 0 30000 31000 0 false, memLimited memBytes, {}⟩

/-- All checks pass and the call throws: the account has no room for the 32
bytes.  So it is after the cap of the hard-fail branch. -/
theorem billing_fails_memLimited :
    (memLimited 0).Reached ∧
    (∃ s₁ s₂ s₃ s₄,
      (init producing 96 false).run (idleTransaction 0) = (.ok (), s₁) ∧
      (exec producing []).run s₁ = (.ok (), s₂) ∧
      (finalizeChecks producing 200).run s₂ = (.ok (), s₃) ∧
      (billTransaction producing).run s₃ = (.error ⟨.memUsageExceeded,
        "account ${account} has insufficient mem; needs ${needs} bytes has ${available} bytes"⟩,
        s₄)) ∧
    ∃ tc m',
      ((applyTransaction producing 96 false [] 200).run (idleTransaction 0)).2.context =
        tc ∧
      capHardFail producing tc (memLimited 0) 200 false = .ok (200, m') ∧
      m'.addTransactionUsage tc.billToAccounts 200 0 1 = .error ⟨.memUsageExceeded,
        "account ${account} has insufficient mem; needs ${needs} bytes has ${available} bytes"⟩ :=
  ⟨reached_memLimited 0, ⟨_, _, _, _, rfl, rfl, rfl, rfl⟩, _, _, rfl, rfl, rfl⟩

/-- With room for the 32 bytes both billings go through. -/
theorem billing_succeeds_iff_memLimited :
    ∃ s₁ s₂ s₃,
      (init producing 96 false).run (idleTransaction 32) = (.ok (), s₁) ∧
      (exec producing []).run s₁ = (.ok (), s₂) ∧
      (finalizeChecks producing 200).run s₂ = (.ok (), s₃) ∧
      s₃.resources.BillingCovered true s₃.context.billToAccounts
        (castU64 s₃.context.billedCpuTimeUs) s₃.context.netUsage :=
  ⟨_, _, _, rfl, rfl, rfl,
    ((billing_succeeds_iff producing _ 0 30000 31000 0 false (memLimited 32) {} 96 false [] 200
      (reached_memLimited 32) (idleTransaction 32) rfl).1 _ _ _ rfl rfl rfl).mp ⟨_, rfl⟩⟩

end Inery.Chain
