import Inery.Chain.TransactionContext
import Inery.Chain.RateLimit

/-!
# Open blocks and what is available in them

While transactions are applied, what a block has used is within its limits.  In such a block a use
that fits in what `get_account_cpu_limit` or `get_account_net_limit` reports passes the check of
`add_transaction_usage`, although the first rounds the used part up and the second compares an
average that was rounded twice.
-/

namespace Inery.Chain

open Foundation UsageAccumulator Config Resource

/-! ## The configuration -/

namespace ChainConfig

variable (cfg : ChainConfig)

def validate : Result Unit := do
  ineAssert (cfg.targetBlockNetUsagePct.toNat ≤ 10000) .actionValidateException
    "target block net usage percentage cannot exceed 100%"
  ineAssert (100 / 10 ≤ cfg.targetBlockNetUsagePct.toNat) .actionValidateException
    "target block net usage percentage must be at least 0.1%"
  ineAssert (cfg.targetBlockCpuUsagePct.toNat ≤ 10000) .actionValidateException
    "target block cpu usage percentage cannot exceed 100%"
  ineAssert (100 / 10 ≤ cfg.targetBlockCpuUsagePct.toNat) .actionValidateException
    "target block cpu usage percentage must be at least 0.1%"
  ineAssert (cfg.maxTransactionNetUsage.toNat < cfg.maxBlockNetUsage.toNat)
    .actionValidateException "max transaction net usage must be less than max block net usage"
  ineAssert (cfg.maxTransactionCpuUsage < cfg.maxBlockCpuUsage) .actionValidateException
    "max transaction cpu usage must be less than max block cpu usage"
  ineAssert (cfg.basePerTransactionNetUsage < cfg.maxTransactionNetUsage)
    .actionValidateException
    "base net usage per transaction must be less than the max transaction net usage"
  ineAssert (10 * 1024 ≤ cfg.maxTransactionNetUsage - cfg.basePerTransactionNetUsage)
    .actionValidateException
    "max transaction net usage must be at least ${delta} bytes larger than base net usage per transaction"
  ineAssert (0 < cfg.contextFreeDiscountNetUsageDen) .actionValidateException
    "net usage discount ratio for context free data cannot have a 0 denominator"
  ineAssert (cfg.contextFreeDiscountNetUsageNum ≤ cfg.contextFreeDiscountNetUsageDen)
    .actionValidateException
    "net usage discount ratio for context free data cannot exceed 1"
  ineAssert (cfg.minTransactionCpuUsage ≤ cfg.maxTransactionCpuUsage) .actionValidateException
    "min transaction cpu usage cannot exceed max transaction cpu usage"
  ineAssert (cfg.maxTransactionCpuUsage < cfg.maxBlockCpuUsage - cfg.minTransactionCpuUsage)
    .actionValidateException
    "max transaction cpu usage must be at less than the difference between the max block cpu usage and the min transaction cpu usage"
  ineAssert (1 ≤ cfg.maxAuthorityDepth) .actionValidateException
    "max authority depth should be at least 1"

def maxBlockUsage : Resource → ℕ
  | .cpu => cfg.maxBlockCpuUsage.toNat
  | .net => cfg.maxBlockNetUsage.toNat

def targetBlockUsagePct : Resource → ℕ
  | .cpu => cfg.targetBlockCpuUsagePct.toNat
  | .net => cfg.targetBlockNetUsagePct.toNat

def elasticLimitParameters (r : Resource) : ElasticLimitParameters :=
  ⟨inePercent (cfg.maxBlockUsage r) (cfg.targetBlockUsagePct r), cfg.maxBlockUsage r,
    blockUsageAverageWindow, maximumElasticResourceMultiplier, ⟨99, 100⟩,
    ⟨1000, 999⟩⟩

end ChainConfig

/-! ## Open blocks -/

namespace ResourceLimitsManager

def finalizeBlock (m : ResourceLimitsManager) (cfg : ChainConfig) (blockNum : ℕ) :
    Result ResourceLimitsManager := do
  let m ← m.processAccountLimitUpdates
  let m ← m.setBlockParameters (cfg.elasticLimitParameters .cpu) (cfg.elasticLimitParameters .net)
  m.processBlockUsage blockNum

/-- The resource tables while transactions are applied: from the genesis of
the chain, through the calls of transactions and the ends of blocks. -/
inductive Reached : ResourceLimitsManager → Prop
  | genesis : Reached initializeDatabase
  | initializeAccount {m m' : ResourceLimitsManager} {a : Name} :
      Reached m → m.initializeAccount a = .ok m' → Reached m'
  | updateAccountUsage {m m' : ResourceLimitsManager} {accounts : Finset Name} {slot : ℕ} :
      Reached m → m.updateAccountUsage accounts slot = .ok m' → Reached m'
  | addTransactionUsage {m m' : ResourceLimitsManager} {accounts : Finset Name}
      {cpuUsage netUsage slot : ℕ} :
      Reached m → m.addTransactionUsage accounts cpuUsage netUsage slot = .ok m' → Reached m'
  | addPendingMemUsage {m m' : ResourceLimitsManager} {a : Name} {memDelta : ℤ} :
      Reached m → m.addPendingMemUsage a memDelta = .ok m' → Reached m'
  | setAccountLimits {m m' : ResourceLimitsManager} {a : Name} {limits : AccountLimits}
      {decreased : Bool} :
      Reached m → m.setAccountLimits a limits = .ok (decreased, m') → Reached m'
  | finalizeBlock {m m' : ResourceLimitsManager} {cfg : ChainConfig} {blockNum : ℕ} :
      Reached m → m.finalizeBlock cfg blockNum = .ok m' → Reached m'

structure OpenBlock (m : ResourceLimitsManager) : Prop where
  window : ∀ r : Resource, r.window m.config = accountUsageAverageWindow
  pending : ∀ r : Resource, r.pendingUsage m.state ≤ (r.parameters m.config).max
  maxCpu : (cpu.parameters m.config).max < 2 ^ 32
  maxNet : (net.parameters m.config).max < 2 ^ 64

theorem OpenBlock.congr {m m' : ResourceLimitsManager} (h : m.OpenBlock)
    (hconfig : m'.config = m.config)
    (hpending : ∀ r : Resource, r.pendingUsage m'.state = r.pendingUsage m.state) :
    m'.OpenBlock where
  window := by rw [hconfig]; exact h.window
  pending r := by rw [hconfig, hpending]; exact h.pending r
  maxCpu := by rw [hconfig]; exact h.maxCpu
  maxNet := by rw [hconfig]; exact h.maxNet

variable {m m' : ResourceLimitsManager} {a : Name}

variable {accounts : Finset Name} {slot : ℕ} {limits : AccountLimits} {cpuUsage netUsage : ℕ}

theorem OpenBlock.addTransactionUsage (h : m.OpenBlock)
    (hadd : m.addTransactionUsage accounts cpuUsage netUsage slot = .ok m') : m'.OpenBlock := by
  obtain ⟨usages, rfl, hblock, -⟩ := addTransactionUsage_spec hadd
  exact ⟨h.window, hblock, h.maxCpu, h.maxNet⟩

theorem OpenBlock.finalizeBlock {cfg : ChainConfig} {blockNum : ℕ} (h : m.OpenBlock)
    (hfin : m.finalizeBlock cfg blockNum = .ok m') : m'.OpenBlock := by
  simp only [ResourceLimitsManager.finalizeBlock, setBlockParameters, processBlockUsage, bind_eq_ok,
    pure_eq_ok] at hfin
  obtain ⟨s, hs, _, ⟨_, -, _, -, rfl⟩, _, -, _, -, _, -, _, -, rfl⟩ := hfin
  have hconfig : s.config = m.config :=
    congrArg (·.config) (unlimited_processAccountLimitUpdates hs)
  refine ⟨fun r => ?_, fun r => ?_, cfg.maxBlockCpuUsage.toNat_lt, cfg.maxBlockNetUsage.toNat_lt⟩
  · have hw := h.window r
    rw [← hconfig] at hw
    cases r <;> exact hw
  · cases r <;> exact Nat.zero_le _

/-- **Every transaction meets an open block.** -/
theorem Reached.openBlock (h : Reached m) : m.OpenBlock := by
  induction h with
  | genesis =>
    refine ⟨?_, ?_, by decide, by decide⟩
    · rintro (_ | _) <;> rfl
    · rintro (_ | _) <;> exact Nat.zero_le _
  | initializeAccount _ hcall ih =>
    obtain ⟨-, rfl⟩ := initializeAccount_eq_ok.mp hcall
    exact ih.congr rfl fun _ => rfl
  | updateAccountUsage _ hcall ih =>
    obtain ⟨_, rfl, -⟩ := updateAccountUsage_spec hcall
    exact ih.congr rfl fun _ => rfl
  | addTransactionUsage _ hcall ih => exact ih.addTransactionUsage hcall
  | addPendingMemUsage _ hcall ih =>
    obtain ⟨_, rfl⟩ := exists_of_rest (rest_addPendingMemUsage hcall)
    exact ih.congr rfl fun _ => rfl
  | setAccountLimits _ hcall ih =>
    rw [eq_of_setAccountLimits hcall]
    exact ih.congr rfl fun _ => rfl
  | finalizeBlock _ hcall ih => exact ih.finalizeBlock hcall

theorem OpenBlock.getBlockLimit_add (h : m.OpenBlock) (r : Resource) :
    m.getBlockLimit r + r.pendingUsage m.state = (r.parameters m.config).max := by
  have hpending := h.pending r
  have hmax : (r.parameters m.config).max < 2 ^ 64 := by
    cases r with
    | cpu => exact h.maxCpu.trans (by decide)
    | net => exact h.maxNet
  unfold getBlockLimit u64
  omega

/-! ## When the call succeeds -/

theorem addTransactionUsage_isOk_iff :
    (∃ m', m.addTransactionUsage accounts cpuUsage netUsage slot = .ok m') ↔
      (∀ a ∈ accounts, ∃ usage limits, m.usage.lookup a = some usage ∧
        m.getAccountLimits a = .ok limits ∧
        m.ChargeableAt limits usage cpuUsage netUsage slot) ∧
      ∀ r : Resource, u64 (r.pendingUsage m.state + r.amount cpuUsage netUsage) ≤
        (r.parameters m.config).max := by
  constructor
  · rintro ⟨m', hm'⟩
    obtain ⟨usages, -, hblock, -, haccounts⟩ := addTransactionUsage_spec hm'
    refine ⟨fun a ha => ?_, forall.mpr ⟨hblock .net, hblock .cpu⟩⟩
    obtain ⟨usage, limits, husage, hlimits, hc, -⟩ := haccounts a ha
    exact ⟨usage, limits, husage, hlimits, hc⟩
  · rintro ⟨haccounts, hblock⟩
    have hloop := rowStep_chargeAccount cpuUsage netUsage slot
    simp only [addTransactionUsage, chargeBlock, bind_eq_ok, ineAssert_eq_ok,
      pure_eq_ok, exists_const]
    obtain ⟨s, hs⟩ := (hloop.foldlM_isOk_iff (nodup_flatSet accounts) m).mpr (by
      intro a ha
      obtain ⟨usage, limits, husage, hlimits, hc⟩ := haccounts a (mem_flatSet.mp ha)
      exact ⟨usage, _, husage, charges_rest.mpr ⟨⟨limits, hlimits, hc⟩, rfl⟩⟩)
    obtain ⟨_, rfl⟩ := exists_of_rest (hloop.foldlM_frame hs).1
    exact ⟨_, _, hs, hblock .cpu, hblock .net, rfl⟩

/-! ## Availability implies the check -/

def ShareFits (r : Resource) (m : ResourceLimitsManager) (limits : AccountLimits) : Prop :=
  r.virtualLimit m.state * r.window m.config * (r.weight limits).toNat < 2 ^ 128

/-- Rounding: a use that fits in what is left of a share, with the used part rounded up, passes the
check on the average, rounded down.  The contribution's own rounding costs less than one unit, as
the window is no longer than the precision. -/
theorem used_le_of_le_available {v w units most : ℕ} (hw : 0 < w)
    (hprecision : w ≤ rateLimitingPrecision)
    (h : units + integerDivideCeil (v * w) rateLimitingPrecision ≤ most) :
    (v + contribution units w) * w / rateLimitingPrecision ≤ most := by
  have hP : 0 < rateLimitingPrecision := by decide
  have hused : v * w ≤ rateLimitingPrecision *
      integerDivideCeil (v * w) rateLimitingPrecision := le_mul_integerDivideCeil hP
  have hgrown : w * contribution units w <
      units * rateLimitingPrecision + w := mul_integerDivideCeil_lt hw
  have hmost := Nat.mul_le_mul_left rateLimitingPrecision h
  rw [← Nat.lt_succ_iff, Nat.div_lt_iff_lt_mul hP]
  calc (v + contribution units w) * w
      = v * w + w * contribution units w := by ring
    _ < rateLimitingPrecision *
          integerDivideCeil (v * w) rateLimitingPrecision +
        (units * rateLimitingPrecision + w) := by omega
    _ ≤ rateLimitingPrecision *
          (units + integerDivideCeil (v * w) rateLimitingPrecision) +
        rateLimitingPrecision := by rw [Nat.mul_add, Nat.mul_comm _ units]; omega
    _ ≤ (most + 1) * rateLimitingPrecision := by
        rw [Nat.succ_mul, Nat.mul_comm most]
        omega

variable {r : Resource}

/-- A greylisted account sees no more than its share, unless the share's
product wraps. -/
theorem maxUse_greylisted_le (greylistLimit : ℕ) (hfits : m.ShareFits r limits) :
    m.maxUse r (m.greylistedVirtualLimit r greylistLimit).1 (r.weight limits) ≤
      m.maxUse r (r.virtualLimit m.state) (r.weight limits) := by
  have hle : (m.greylistedVirtualLimit r greylistLimit).1 ≤ r.virtualLimit m.state := by
    unfold greylistedVirtualLimit
    dsimp only
    split
    next h => exact h.2.le
    next => exact le_rfl
  have hprod := Nat.mul_le_mul_right ((r.weight limits).toNat)
    (Nat.mul_le_mul_right (r.window m.config) hle)
  unfold maxUse u128
  rw [Nat.mod_eq_of_lt hfits, Nat.mod_eq_of_lt (hprod.trans_lt hfits)]
  exact Nat.div_le_div_right hprod

variable {usage : ResourceUsage} {available : ℤ} {greylisted : Bool}

section

variable (husage : m.usage.lookup a = some usage) (hlimits : m.getAccountLimits a = .ok limits)
include husage hlimits

theorem getAccountLimit_eq_ok {greylistLimit : ℕ}
    (h : m.getAccountLimit r a greylistLimit = .ok (available, greylisted)) :
    (m.maxUserUseInWindow r limits = none ∧ available = -1) ∨
    (m.maxUserUseInWindow r limits =
        some (m.maxUse r (r.virtualLimit m.state) (r.weight limits)) ∧
      available = (m.maxUse r (m.greylistedVirtualLimit r greylistLimit).1 (r.weight limits) -
        integerDivideCeil ((r.accumulator usage).valueEx * r.window m.config)
          rateLimitingPrecision : ℕ)) := by
  simp only [getAccountLimit, getAccountLimitEx, getObject_eq_ok.mpr husage, hlimits, ok_bind] at h
  unfold maxUserUseInWindow
  split at h
  next hfree =>
    left
    cases h
    exact ⟨if_neg (by omega), rfl⟩
  next hlimited =>
    right
    simp only [downgradeCast, bind_eq_ok, ineAssert_eq_ok, pure_eq_ok, exists_const,
      Prod.mk.injEq] at h
    obtain ⟨_, ⟨_, ⟨-, rfl⟩, _, ⟨-, rfl⟩, _, ⟨-, rfl⟩, rfl⟩, rfl, -⟩ := h
    exact ⟨if_pos (by omega), rfl⟩

/-- **Availability implies the check.** -/
theorem used_le_of_getAccountLimit {greylistLimit units most : ℕ} (hopen : m.OpenBlock)
    (h : m.getAccountLimit r a greylistLimit = .ok (available, greylisted))
    (hfits : m.ShareFits r limits ∨ maximumElasticResourceMultiplier ≤ greylistLimit)
    (hpos : 0 < units) (hunits : 0 ≤ available → (units : ℤ) ≤ available)
    (hmost : most ∈ m.maxUserUseInWindow r limits) :
    ((r.accumulator usage).valueEx + contribution units (r.window m.config)) *
      r.window m.config / rateLimitingPrecision ≤ most := by
  rcases getAccountLimit_eq_ok husage hlimits h with ⟨hnone, -⟩ | ⟨hsome, rfl⟩
  · rw [hnone] at hmost
    cases hmost
  · rw [hsome] at hmost
    cases hmost
    have hle : m.maxUse r (m.greylistedVirtualLimit r greylistLimit).1 (r.weight limits) ≤
        m.maxUse r (r.virtualLimit m.state) (r.weight limits) := by
      rcases hfits with hfits | hlimit
      · exact maxUse_greylisted_le greylistLimit hfits
      · rw [greylistedVirtualLimit, if_neg (by omega)]
    have hleft := hunits (Int.natCast_nonneg _)
    apply used_le_of_le_available
    · rw [hopen.window]
      decide
    · rw [hopen.window]
      decide
    · omega

theorem available_of_getAccountLimit
    (h : m.getAccountLimit r a maximumElasticResourceMultiplier = .ok (available, greylisted))
    (hlimited : 0 ≤ available) :
    ∃ most, m.maxUserUseInWindow r limits = some most ∧
      available = (most - integerDivideCeil ((r.accumulator usage).valueEx * r.window m.config)
        rateLimitingPrecision : ℕ) := by
  rcases getAccountLimit_eq_ok husage hlimits h with ⟨-, rfl⟩ | ⟨hsome, rfl⟩
  · cases hlimited
  · refine ⟨_, hsome, ?_⟩
    rw [greylistedVirtualLimit, if_neg (by simp)]

end

/-! ## What is available is what can be billed -/

/-- Rounding the other way: the used part rounded up is less than one unit above
what was used, and a contribution is never rounded down. -/
theorem lt_used_of_available_add_two_le {v w units most : ℕ} (hw : 0 < w)
    (h : most + 2 ≤ units + integerDivideCeil (v * w) rateLimitingPrecision) :
    most < (v + contribution units w) * w / rateLimitingPrecision := by
  have hP : 0 < rateLimitingPrecision := by decide
  have hused : rateLimitingPrecision *
      integerDivideCeil (v * w) rateLimitingPrecision <
        v * w + rateLimitingPrecision := mul_integerDivideCeil_lt hP
  have hgrown : units * rateLimitingPrecision ≤
      w * contribution units w := le_mul_integerDivideCeil hw
  have hmost := Nat.mul_le_mul_left rateLimitingPrecision h
  rw [Nat.mul_add, Nat.mul_add, Nat.mul_comm _ units] at hmost
  rw [← Nat.succ_le_iff, Nat.le_div_iff_mul_le hP]
  calc (most + 1) * rateLimitingPrecision
      = rateLimitingPrecision * most + rateLimitingPrecision := by ring
    _ ≤ v * w + w * contribution units w := by omega
    _ = (v + contribution units w) * w := by ring

theorem valueEx_charged (h : (r.accumulator usage).lastOrdinal = slot) :
    (r.accumulator (usage.charged m.config cpuUsage netUsage slot)).valueEx =
      (r.accumulator usage).valueEx +
        contribution (r.amount cpuUsage netUsage) (r.window m.config) := by
  rw [ResourceUsage.accumulator_charged, valueEx_added_of_eq h]

theorem row_of_updateAccountUsage (h : m.updateAccountUsage accounts slot = .ok m')
    (ha : a ∈ accounts) :
    ∃ usage, m'.usage.lookup a = some usage ∧
      ∀ r : Resource, (r.accumulator usage).lastOrdinal = slot := by
  obtain ⟨usages, rfl, -, hin⟩ := updateAccountUsage_spec h
  obtain ⟨u, -, -, hu'⟩ := hin a ha
  refine ⟨_, hu', fun r => ?_⟩
  rw [ResourceUsage.accumulator_added, lastOrdinal_added]

/-! ## Who refuses a billing -/

section Refusals

variable (acc : UsageAccumulator) (ordinal window : ℕ)

theorem ineAssert_ne_exceeded {c : Prop} [Decidable c] {kind : ExceptionKind} {message : String}
    (h : kind ≠ .txCpuUsageExceeded ∧ kind ≠ .txNetUsageExceeded := by decide) :
    ineAssert c kind message ≠ .error r.exceeded := by
  intro herror
  have hkind := congrArg ChainException.kind (ineAssert_eq_error.mp herror).2
  cases r with
  | cpu => exact h.1 hkind
  | net => exact h.2 hkind

theorem getObject_ne_exceeded {α : Type} (t : Table Name α) (a : Name) :
    getObject t a ≠ .error r.exceeded := by
  rw [getObject]
  cases r <;> split <;> nofun

theorem advance_ne_exceeded : acc.advance ordinal window ≠ .error r.exceeded := by
  rw [advance]
  split
  · refine bind_ne_error ineAssert_ne_exceeded fun _ _ => bind_pure_ne_error ?_
    rw [decayedValue]
    split
    · exact bind_pure_ne_error ineAssert_ne_exceeded
    · intro h
      cases h
  · intro h
    cases h

theorem add_ne_exceeded (units : ℕ) : acc.add units ordinal window ≠ .error r.exceeded :=
  bind_ne_error ineAssert_ne_exceeded fun _ _ =>
    bind_ne_error ineAssert_ne_exceeded fun _ _ =>
    bind_ne_error (bind_pure_ne_error ineAssert_ne_exceeded) fun _ _ =>
    bind_ne_error ineAssert_ne_exceeded fun _ _ =>
    bind_pure_ne_error (advance_ne_exceeded _ _ _)

theorem verifyAccountMemUsage_ne_exceeded (m : ResourceLimitsManager) (a : Name) :
    m.verifyAccountMemUsage a ≠ .error r.exceeded := by
  refine bind_ne_error ?_ fun _ _ => bind_ne_error (getObject_ne_exceeded _ _) fun _ _ =>
    ineAssert_ne_exceeded
  rw [getAccountLimits]
  split
  · nofun
  · exact getObject_ne_exceeded _ _

/-- Only the check of `r` reports `r` as exceeded. -/
theorem checkUsedInWindow_ne_exceeded (hcheck : m.checkUsedInWindow r limits usage = .ok ())
    (r' : Resource) : m.checkUsedInWindow r' limits usage ≠ .error r.exceeded := by
  intro herror
  have hsame := (ensure_eq_error.mp herror).2
  obtain rfl : r' = r := by cases r <;> cases r' <;> first | rfl | cases hsame
  rw [hcheck] at herror
  cases herror

theorem addTransactionUsage_ne_exceeded (husage : m.usage.lookup a = some usage)
    (hlimits : m.getAccountLimits a = .ok limits)
    (hcheck : m.checkUsedInWindow r limits (usage.charged m.config cpuUsage netUsage slot) =
      .ok ()) :
    m.addTransactionUsage {a} cpuUsage netUsage slot ≠ .error r.exceeded := by
  have hchecks := checkUsedInWindow_ne_exceeded hcheck
  have hloop : flatSet {a} = [a] := Multiset.coe_eq_singleton.mp (map_toNat_flatSet {a})
  simp only [addTransactionUsage, hloop, List.foldlM_cons, List.foldlM_nil, bind_pure,
    chargeAccount, getObject_eq_ok.mpr husage, ok_bind, hlimits]
  refine bind_ne_error ?_ fun _ _ => bind_ne_error ineAssert_ne_exceeded fun _ _ =>
    bind_pure_ne_error ineAssert_ne_exceeded
  refine bind_ne_error (verifyAccountMemUsage_ne_exceeded m a) fun _ _ => bind_ne_error ?_ ?_
  · exact bind_ne_error (add_ne_exceeded _ _ _ _) fun _ _ =>
      bind_pure_ne_error (add_ne_exceeded _ _ _ _)
  · intro _ hadd
    obtain ⟨-, rfl⟩ := addUsage_eq_ok.mp hadd
    exact bind_ne_error (hchecks .cpu) fun _ _ => bind_ne_error (hchecks .net) fun _ _ =>
      bind_pure_ne_error (verifyAccountMemUsage_ne_exceeded _ a)

end Refusals

/-- **What is advertised can be billed, and hardly more.** In any reached state, let
`update_account_usage` bring an account that is limited in a resource to a slot.  A positive amount
that is at most what is reported passes the account's check in that slot, so that
`add_transaction_usage` does not refuse the account for it; an amount that is at least two more
fails it, and no billing of such an amount to a set of accounts with this one succeeds. -/
theorem advertised_billable (m m₁ : ResourceLimitsManager) (accounts : Finset Name)
    (slot : ℕ) (a : Name) (r : Resource) (limits : AccountLimits) (available : ℤ)
    (greylisted : Bool) (hreached : m.Reached)
    (hupdate : m.updateAccountUsage accounts slot = .ok m₁) (ha : a ∈ accounts)
    (hlimits : m₁.getAccountLimits a = .ok limits)
    (havailable : m₁.getAccountLimit r a maximumElasticResourceMultiplier =
      .ok (available, greylisted)) (hlimited : 0 ≤ available) :
    ∃ usage, m₁.usage.lookup a = some usage ∧ ∀ cpuUsage netUsage : ℕ,
      (0 < r.amount cpuUsage netUsage → (r.amount cpuUsage netUsage : ℤ) ≤ available →
        m₁.checkUsedInWindow r limits (usage.charged m₁.config cpuUsage netUsage slot) =
          .ok () ∧
        m₁.addTransactionUsage {a} cpuUsage netUsage slot ≠ .error r.exceeded) ∧
      (available + 2 ≤ (r.amount cpuUsage netUsage : ℤ) →
        m₁.checkUsedInWindow r limits (usage.charged m₁.config cpuUsage netUsage slot) =
          .error r.exceeded ∧
        ∀ billed : Finset Name, a ∈ billed → ∀ m₂,
          m₁.addTransactionUsage billed cpuUsage netUsage slot ≠ .ok m₂) := by
  have hopen : m₁.OpenBlock := (hreached.updateAccountUsage hupdate).openBlock
  obtain ⟨usage, husage, hslot⟩ := row_of_updateAccountUsage hupdate ha
  obtain ⟨most, hmost, hleft⟩ := available_of_getAccountLimit husage hlimits havailable hlimited
  have hw : 0 < r.window m₁.config := by
    rw [hopen.window]
    decide
  refine ⟨usage, husage, fun cpuUsage netUsage => ⟨fun hpos hle => ?_, fun hge => ?_⟩⟩
  · have hcheck : m₁.checkUsedInWindow r limits
        (usage.charged m₁.config cpuUsage netUsage slot) = .ok () := by
      rw [checkUsedInWindow_eq_ok, valueEx_charged (hslot r)]
      intro most' hmost'
      exact used_le_of_getAccountLimit husage hlimits hopen havailable (Or.inr le_rfl) hpos
        (fun _ => hle) hmost'
    exact ⟨hcheck, addTransactionUsage_ne_exceeded husage hlimits hcheck⟩
  · have hover : most < (r.accumulator (usage.charged m₁.config cpuUsage netUsage slot)).valueEx *
        r.window m₁.config / rateLimitingPrecision := by
      rw [valueEx_charged (hslot r)]
      apply lt_used_of_available_add_two_le hw
      omega
    constructor
    · exact if_neg fun hall => (hall most hmost).not_gt hover
    · intro billed hbilled m₂ hm₂
      obtain ⟨usage', limits', husage', hlimits', hcharge⟩ :=
        (addTransactionUsage_isOk_iff.mp ⟨m₂, hm₂⟩).1 a hbilled
      obtain rfl : usage = usage' := Option.some.inj (husage.symm.trans husage')
      obtain rfl : limits = limits' := Except.ok.inj (hlimits.symm.trans hlimits')
      exact (hcharge.used r most hmost).not_gt hover

/-- An account with a share is billed for a transaction and is then given
another weight. -/
def reweighed (cpuWeight : ℤ) : Result ResourceLimitsManager := do
  let m ← initializeDatabase.initializeAccount 1
  let (_, m) ← m.setAccountLimits 1 ⟨-1, 1, -1⟩
  let m ← m.finalizeBlock {} 1
  let m ← m.updateAccountUsage {1} 10
  let m ← m.addTransactionUsage {1} 150000 0 10
  let (_, m) ← m.setAccountLimits 1 ⟨-1, cpuWeight, -1⟩
  pure m

theorem reached_reweighed {m : ResourceLimitsManager} (cpuWeight : ℤ)
    (h : reweighed cpuWeight = .ok m) : m.Reached := by
  simp only [reweighed, bind_eq_ok, pure_eq_ok] at h
  obtain ⟨_, hinit, ⟨_, _⟩, hset, _, hfin, _, hupdate, _, hadd, ⟨_, _⟩, hset', rfl⟩ := h
  exact .setAccountLimits (.addTransactionUsage (.updateAccountUsage (.finalizeBlock
    (.setAccountLimits (.initializeAccount .genesis hinit) hset) hfin) hupdate) hadd) hset'

theorem advertised_billable_reweighed :
    ∃ m m₁ : ResourceLimitsManager, m.Reached ∧ m.updateAccountUsage {1} 10 = .ok m₁ ∧
      ∃ usage, m₁.usage.lookup 1 = some usage ∧
        m₁.checkUsedInWindow .cpu ⟨-1, 1, -1⟩ (usage.charged m₁.config 50000 0 10) = .ok () ∧
        m₁.addTransactionUsage {1} 50000 0 10 ≠ .error cpu.exceeded := by
  obtain ⟨m, hm, m₁, hm₁, hpending, havailable⟩ : ∃ m, reweighed 1 = .ok m ∧
      ∃ m₁, m.updateAccountUsage {1} 10 = .ok m₁ ∧
        m₁.pendingLimits.lookup 1 = some ⟨-1, 1, -1⟩ ∧
        m₁.getAccountLimit .cpu 1 maximumElasticResourceMultiplier = .ok (34594409999, false) := by
    decide +kernel
  have hlimits : m₁.getAccountLimits 1 = .ok ⟨-1, 1, -1⟩ := by
    rw [getAccountLimits, hpending]
    rfl
  have hreached := reached_reweighed 1 hm
  obtain ⟨usage, husage, h⟩ := advertised_billable m m₁ {1} 10 1 .cpu ⟨-1, 1, -1⟩
    34594409999 false hreached hm₁ (by decide) hlimits havailable (by decide)
  exact ⟨m, m₁, hreached, hm₁, usage, husage, (h 50000 0).1 (by decide) (by decide)⟩

/-- The account has used more than its new share.  Nothing is reported as
available, and even nothing cannot be billed. -/
theorem advertised_zero_not_billable :
    ∃ m m₁ : ResourceLimitsManager, m.Reached ∧ m.updateAccountUsage {1} 10 = .ok m₁ ∧
      m₁.getAccountLimit .cpu 1 maximumElasticResourceMultiplier = .ok (0, false) ∧
      m₁.addTransactionUsage {1} 0 0 10 = .error cpu.exceeded :=
  ⟨_, _, reached_reweighed 0 rfl, rfl, rfl, rfl⟩

end ResourceLimitsManager

end Inery.Chain
