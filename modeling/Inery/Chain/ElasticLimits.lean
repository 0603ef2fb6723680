import Inery.Chain.LimitTotals

/-!
# Elastic limits (`process_block_usage`)

At the end of a block what it used goes into two moving averages, and the virtual limits of cpu and
net grow or shrink by a ratio, between the maximum of a block and a thousand times that.  All of it
is 64-bit arithmetic with an assertion before each multiplication, on a maximum that the
configuration bounds from below only.  This module finds which maxima, and which uses by a block,
are safe for every later block.
-/

namespace Inery.Chain

open Foundation List UsageAccumulator Config Ratio

/-! ## Chains of blocks -/

/-- The calls that transactions make; the others are made at the end of a block. -/
def ManagerCall.InTransaction : ManagerCall → Prop
  | .setBlockParameters _ _ | .processAccountLimitUpdates | .processBlockUsage _ => False
  | _ => True

namespace ResourceLimitsManager

/-- The tables between two blocks of a chain: after this many blocks, each with
its calls.  `ends` is asked of the configuration in force at the end of a block
and of the tables that its calls leave. -/
inductive BlocksThat (ends : ChainConfig → ResourceLimitsManager → Prop) :
    ℕ → ResourceLimitsManager → Prop
  | genesis : BlocksThat ends 1 initializeDatabase
  | block {num : ℕ} {m m₁ m' : ResourceLimitsManager} {calls : List ManagerCall}
      {cfg : ChainConfig} :
      BlocksThat ends num m → (∀ c ∈ calls, c.InTransaction) → m.run calls = .ok m₁ →
      ends cfg m₁ → num + 1 < 2 ^ 32 → m₁.finalizeBlock cfg (num + 1) = .ok m' →
      BlocksThat ends (num + 1) m'

/-- All configurations in force are out of `allowed`. -/
abbrev Blocks (allowed : Set ChainConfig) := BlocksThat fun cfg _ => cfg ∈ allowed

def WithinElastic (cfg : ChainConfig) (m : ResourceLimitsManager) : Prop :=
  ∀ r : Resource, cfg.maxBlockUsage r ≤ r.virtualLimit m.state ∧
    r.virtualLimit m.state ≤ 1000 * cfg.maxBlockUsage r ∧ 1000 * cfg.maxBlockUsage r < 2 ^ 64

end ResourceLimitsManager

/-! ## One block's update -/

def Resource.blockAverage : Resource → ResourceState → UsageAccumulator
  | .cpu => ResourceState.averageBlockCpuUsage
  | .net => ResourceState.averageBlockNetUsage

open Resource

/-- **What `process_block_usage` does**, resource by resource. -/
theorem ResourceLimitsManager.processBlockUsage_eq_ok {m m' : ResourceLimitsManager}
    {blockNum : ℕ} :
    m.processBlockUsage blockNum = .ok m' ↔
      ∃ average : Resource → UsageAccumulator, ∃ virtual : Resource → ℕ,
        (∀ r : Resource,
          (r.blockAverage m.state).add (r.pendingUsage m.state) blockNum
            (r.parameters m.config).periods = .ok (average r) ∧
          updateElasticLimit (r.virtualLimit m.state) (average r).average
            (r.parameters m.config) = .ok (virtual r)) ∧
        { m with state := { m.state with
            averageBlockCpuUsage := average .cpu
            virtualCpuLimit := virtual .cpu
            averageBlockNetUsage := average .net
            virtualNetLimit := virtual .net
            pendingCpuUsage := 0
            pendingNetUsage := 0 } } = m' := by
  simp only [processBlockUsage, bind_eq_ok, pure_eq_ok]
  constructor
  · rintro ⟨cpu, hcpu, vcpu, hvcpu, net, hnet, vnet, hvnet, rfl⟩
    refine ⟨fun r => match r with | .cpu => cpu | .net => net,
      fun r => match r with | .cpu => vcpu | .net => vnet, ?_, rfl⟩
    exact forall.mpr ⟨⟨hnet, hvnet⟩, hcpu, hvcpu⟩
  · rintro ⟨average, virtual, hr, rfl⟩
    exact ⟨_, (hr .cpu).1, _, (hr .cpu).2, _, (hr .net).1, _, (hr .net).2, rfl⟩

theorem Ratio.scale_of_le {value : ℕ} {r : Ratio} (h : value ≤ (2 ^ 64 - 1) / r.numerator) :
    scale value r = .ok (value * r.numerator / r.denominator) := by
  rw [scale, ineAssert, ensure_pos (.inr h)]
  rfl

theorem updateElasticLimit_spec {limit average : ℕ} {cfg : ChainConfig} {r : Resource}
    (hlimit : limit ≤ (2 ^ 64 - 1) / 1000) (hmax : 1000 * cfg.maxBlockUsage r < 2 ^ 64) :
    ∃ v, updateElasticLimit limit average (cfg.elasticLimitParameters r) = .ok v ∧
      cfg.maxBlockUsage r ≤ v ∧ v ≤ 1000 * cfg.maxBlockUsage r := by
  have hcap : u64 (cfg.maxBlockUsage r * maximumElasticResourceMultiplier) =
      1000 * cfg.maxBlockUsage r := by
    rw [Nat.mul_comm]
    exact u64_of_lt hmax
  have hscale : ∃ x, scale limit
      (if (cfg.elasticLimitParameters r).target < average
        then (cfg.elasticLimitParameters r).contractRate
        else (cfg.elasticLimitParameters r).expandRate) = .ok x := by
    split
    · refine ⟨_, scale_of_le (hlimit.trans ?_)⟩
      show (2 ^ 64 - 1) / 1000 ≤ (2 ^ 64 - 1) / 99
      decide
    · exact ⟨_, scale_of_le hlimit⟩
  obtain ⟨x, hx⟩ := hscale
  refine ⟨min (max x (cfg.maxBlockUsage r)) (1000 * cfg.maxBlockUsage r), ?_, ?_, min_le_right _ _⟩
  · rw [updateElasticLimit, hx, ← hcap]
    rfl
  · exact le_min (le_max_right _ _) (by omega)

/-! ## Which maximum is safe -/

/-- A block that uses no more net than this does not make the average outgrow 64 bits. -/
def safeMaxBlockNetUsage : ℕ := 155014656081

/-- What the average over blocks can hold when blocks keep to that. -/
structure AverageFits (acc : UsageAccumulator) : Prop where
  valueEx : acc.valueEx ≤ 155014656080999881
  consumed : acc.consumed ≤ 2 ^ 62

/-- One block more.  The value is a fixed point of the decay by one 120th and
the contribution of such a block, and still fits in 64 bits after the decay's
multiplication by 119. -/
theorem AverageFits.add {acc : UsageAccumulator} {units blockNum : ℕ} (h : AverageFits acc)
    (hunits : units ≤ safeMaxBlockNetUsage) (hlt : acc.lastOrdinal < blockNum) :
    ∃ acc', acc.add units blockNum blockUsageAverageWindow = .ok acc' ∧
      AverageFits acc' ∧ acc'.lastOrdinal = blockNum := by
  have hvalue := h.valueEx
  have hconsumed := h.consumed
  unfold safeMaxBlockNetUsage at hunits
  have hcontrib : contribution units blockUsageAverageWindow ≤ 1291788800675000 := by
    have hround : blockUsageAverageWindow *
        contribution units blockUsageAverageWindow <
          units * rateLimitingPrecision + blockUsageAverageWindow :=
      mul_integerDivideCeil_lt (by decide)
    simp only [blockUsageAverageWindow, rateLimitingPrecision] at hround ⊢
    omega
  set d := decay blockUsageAverageWindow (blockNum - acc.lastOrdinal) acc.valueEx with hd
  have hdecay : d ≤ acc.valueEx * 119 / 120 := by
    rw [hd, decay]
    split
    · exact Nat.div_le_div_right (Nat.mul_le_mul_left _ (by
        simp only [blockUsageAverageWindow]; omega))
    · exact Nat.zero_le _
  have hadvanced : acc.advanced blockNum blockUsageAverageWindow =
      ⟨blockNum, d, integerDivideCeil d rateLimitingPrecision⟩ := if_neg hlt.ne
  refine ⟨_, add_eq_ok.mpr ⟨⟨⟨hlt.le, ?_⟩, ⟨?_, ?_, ?_, ?_⟩⟩, rfl⟩, ⟨?_, ?_⟩, lastOrdinal_added⟩
  · intro _ hgap
    calc acc.valueEx ≤ (2 ^ 64 - 1) / 119 := by omega
      _ ≤ (2 ^ 64 - 1) / (blockUsageAverageWindow - (blockNum - acc.lastOrdinal)) :=
        Nat.div_le_div_left (by simp only [blockUsageAverageWindow]; omega) (by omega)
  · calc units ≤ 155014656081 := hunits
      _ ≤ maxRawValue := by decide
  · omega
  · omega
  · omega
  · rw [valueEx_added (by decide)]
    omega
  · have hceil : rateLimitingPrecision * integerDivideCeil d rateLimitingPrecision <
        d + rateLimitingPrecision := mul_integerDivideCeil_lt (by decide)
    rw [added, hadvanced]
    generalize integerDivideCeil _ rateLimitingPrecision = c at hceil ⊢
    show c + units ≤ _
    simp only [rateLimitingPrecision] at hceil
    omega

namespace ResourceLimitsManager

variable {m m' m₁ m₂ m₃ : ResourceLimitsManager} {c : ManagerCall} {allowed : Set ChainConfig}
  {num : ℕ}

/-- The configuration, the averages and the virtual limits are left alone; what becomes pending
fits in the block. -/
def FrameOf (m m' : ResourceLimitsManager) : Prop :=
  m'.config = m.config ∧
  ∀ r : Resource, r.blockAverage m'.state = r.blockAverage m.state ∧
    r.virtualLimit m'.state = r.virtualLimit m.state ∧
    (r.pendingUsage m'.state = r.pendingUsage m.state ∨
      r.pendingUsage m'.state ≤ (r.parameters m.config).max)

theorem inTransaction_frame (hc : c.InTransaction) (h : c.apply m = .ok m') : FrameOf m m' := by
  cases c with
  | initializeAccount account =>
    obtain ⟨-, rfl⟩ := initializeAccount_eq_ok.mp h
    exact ⟨rfl, fun r => ⟨rfl, rfl, .inl rfl⟩⟩
  | updateAccountUsage accounts timeSlot =>
    obtain ⟨_, rfl, -⟩ := updateAccountUsage_spec h
    exact ⟨rfl, fun r => ⟨rfl, rfl, .inl rfl⟩⟩
  | addPendingMemUsage account memDelta =>
    obtain ⟨_, rfl⟩ := exists_of_rest (rest_addPendingMemUsage h)
    exact ⟨rfl, fun r => ⟨rfl, rfl, .inl rfl⟩⟩
  | setAccountLimits account limits =>
    obtain ⟨_, hset, ⟨⟩⟩ := bind_eq_ok.mp h
    rw [eq_of_setAccountLimits hset]
    exact ⟨rfl, fun r => ⟨rfl, rfl, .inl rfl⟩⟩
  | addTransactionUsage accounts cpuUsage netUsage timeSlot =>
    obtain ⟨_, rfl, hblock, -⟩ := addTransactionUsage_spec h
    exact ⟨rfl, forall.mpr ⟨⟨rfl, rfl, .inr (hblock .net)⟩, rfl, rfl, .inr (hblock .cpu)⟩⟩
  | setBlockParameters cpu net | processAccountLimitUpdates | processBlockUsage blockNum =>
    exact hc.elim

/-- What holds in every block of a chain that stays in range. -/
structure Steady (num : ℕ) (m : ResourceLimitsManager) : Prop where
  average : ∀ r : Resource, AverageFits (r.blockAverage m.state)
  ordinal : ∀ r : Resource, (r.blockAverage m.state).lastOrdinal ≤ num
  virtual : ∀ r : Resource, r.virtualLimit m.state ≤ (2 ^ 64 - 1) / 1000
  pending : ∀ r : Resource, r.pendingUsage m.state ≤ (r.parameters m.config).max
  maxCpu : (cpu.parameters m.config).max ≤ safeMaxBlockNetUsage

theorem Steady.apply (h : Steady num m) (hc : c.InTransaction) (hcall : c.apply m = .ok m') :
    Steady num m' := by
  obtain ⟨hconfig, hframe⟩ := inTransaction_frame hc hcall
  refine ⟨fun r => ?_, fun r => ?_, fun r => ?_, fun r => ?_, ?_⟩
  · rw [(hframe r).1]
    exact h.average r
  · rw [(hframe r).1]
    exact h.ordinal r
  · rw [(hframe r).2.1]
    exact h.virtual r
  · rw [hconfig]
    rcases (hframe r).2.2 with hsame | hle
    · rw [hsame]
      exact h.pending r
    · exact hle
  · rw [hconfig]
    exact h.maxCpu

theorem Steady.run {calls : List ManagerCall} (h : Steady num m)
    (hcalls : ∀ c ∈ calls, c.InTransaction) (hrun : m.run calls = .ok m') : Steady num m' :=
  (foldlM_invariant (Steady num) (fun c hc _ _ hs => hs.apply (hcalls c hc)) h).1 m' hrun

theorem frame_processAccountLimitUpdates (h : m.processAccountLimitUpdates = .ok m') :
    m'.config = m.config ∧
    ∀ r : Resource, r.blockAverage m'.state = r.blockAverage m.state ∧
      r.virtualLimit m'.state = r.virtualLimit m.state ∧
      r.pendingUsage m'.state = r.pendingUsage m.state := by
  have hkept := unlimited_processAccountLimitUpdates h
  have hstate : m'.unlimited.state = m.unlimited.state := congrArg (·.state) hkept
  refine ⟨congrArg (·.config) hkept, forall.mpr ⟨⟨?_, ?_, ?_⟩, ?_, ?_, ?_⟩⟩
  · exact congrArg (·.averageBlockNetUsage) hstate
  · exact congrArg (·.virtualNetLimit) hstate
  · exact congrArg (·.pendingNetUsage) hstate
  · exact congrArg (·.averageBlockCpuUsage) hstate
  · exact congrArg (·.virtualCpuLimit) hstate
  · exact congrArg (·.pendingCpuUsage) hstate

variable {cfg : ChainConfig}

theorem parameters_setBlockParameters
    (h : m.setBlockParameters (cfg.elasticLimitParameters .cpu)
      (cfg.elasticLimitParameters .net) = .ok m') :
    m'.state = m.state ∧ ∀ r : Resource, r.parameters m'.config = cfg.elasticLimitParameters r := by
  simp only [setBlockParameters, bind_eq_ok, pure_eq_ok] at h
  obtain ⟨_, -, _, -, rfl⟩ := h
  exact ⟨rfl, forall.mpr ⟨rfl, rfl⟩⟩

/-- A thousand times the maximum of net can still be multiplied by 1000 in 64 bits, and the
block has used a safe amount of net. -/
def Modest (cfg : ChainConfig) (m : ResourceLimitsManager) : Prop :=
  cfg.maxBlockNetUsage.toNat ≤ 18446744073709 ∧ m.state.pendingNetUsage ≤ 155014656081

/-- **The end of a modest block.** -/
theorem Steady.finalize (h : Steady num m) (hmodest : Modest cfg m)
    (hlimits : m.processAccountLimitUpdates = .ok m₁)
    (hset : m₁.setBlockParameters (cfg.elasticLimitParameters .cpu)
      (cfg.elasticLimitParameters .net) = .ok m₂) :
    ∃ m', m₂.processBlockUsage (num + 1) = .ok m' ∧ m'.WithinElastic cfg ∧ Steady (num + 1) m' := by
  obtain ⟨-, hframe⟩ := frame_processAccountLimitUpdates hlimits
  obtain ⟨hstate, hparams⟩ := parameters_setBlockParameters hset
  have hcpu := cfg.maxBlockCpuUsage.toNat_lt
  have hmax : ∀ r : Resource, cfg.maxBlockUsage r ≤ 18446744073709 := by
    refine forall.mpr ⟨hmodest.1, ?_⟩
    show cfg.maxBlockCpuUsage.toNat ≤ 18446744073709
    omega
  have hlt : ∀ r : Resource, 1000 * cfg.maxBlockUsage r < 2 ^ 64 := by
    intro r
    have hr := hmax r
    omega
  have hused : ∀ r : Resource, r.pendingUsage m.state ≤ safeMaxBlockNetUsage :=
    forall.mpr ⟨hmodest.2, (h.pending .cpu).trans h.maxCpu⟩
  have haverage : ∀ r : Resource, ∃ acc,
      (r.blockAverage m₂.state).add (r.pendingUsage m₂.state) (num + 1)
        (r.parameters m₂.config).periods = .ok acc ∧ AverageFits acc ∧
        acc.lastOrdinal = num + 1 := by
    intro r
    rw [hparams r, hstate, (hframe r).1, (hframe r).2.2]
    exact (h.average r).add (hused r) (Nat.lt_succ_of_le (h.ordinal r))
  choose average hadd hfits hordinal using haverage
  have hvirtual : ∀ r : Resource, ∃ v,
      updateElasticLimit (r.virtualLimit m₂.state) (average r).average (r.parameters m₂.config) =
        .ok v ∧ cfg.maxBlockUsage r ≤ v ∧ v ≤ 1000 * cfg.maxBlockUsage r := by
    intro r
    rw [hparams r, hstate, (hframe r).2.1]
    exact updateElasticLimit_spec (h.virtual r) (hlt r)
  choose virtual hupdate hlow hhigh using hvirtual
  refine ⟨_, processBlockUsage_eq_ok.mpr ⟨average, virtual, fun r => ⟨hadd r, hupdate r⟩, rfl⟩,
    ?_, ?_⟩
  · exact forall.mpr ⟨⟨hlow .net, hhigh .net, hlt .net⟩, hlow .cpu, hhigh .cpu, hlt .cpu⟩
  · have hhigh' : ∀ r, virtual r ≤ (2 ^ 64 - 1) / 1000 := by
      intro r
      have hr := hmax r
      have hv := hhigh r
      omega
    refine ⟨?_, ?_, ?_, ?_, ?_⟩
    · exact forall.mpr ⟨hfits .net, hfits .cpu⟩
    · exact forall.mpr ⟨(hordinal .net).le, (hordinal .cpu).le⟩
    · exact forall.mpr ⟨hhigh' .net, hhigh' .cpu⟩
    · exact forall.mpr ⟨Nat.zero_le _, Nat.zero_le _⟩
    · show (cpu.parameters m₂.config).max ≤ 155014656081
      rw [hparams .cpu]
      show cfg.maxBlockCpuUsage.toNat ≤ 155014656081
      omega

theorem BlocksThat.steady (h : BlocksThat Modest num m) : Steady num m := by
  induction h with
  | genesis =>
    refine ⟨fun r => ⟨?_, ?_⟩, fun r => ?_, fun r => ?_, fun r => ?_, by decide⟩ <;>
      cases r <;> decide
  | block _ hcalls hrun hmodest _ hfin ih =>
    rw [finalizeBlock] at hfin
    simp only [bind_eq_ok] at hfin
    obtain ⟨m₂, hlimits, m₃, hset, husage⟩ := hfin
    obtain ⟨m', hm', -, hsteady⟩ := (ih.run hcalls hrun).finalize hmodest hlimits hset
    rw [husage] at hm'
    cases hm'
    exact hsteady

/-- A block uses no more net than the maximum that the last block has set. -/
theorem Steady.modest {calls : List ManagerCall} (h : Steady num m)
    (hmax : (net.parameters m.config).max ≤ safeMaxBlockNetUsage)
    (hcalls : ∀ c ∈ calls, c.InTransaction) (hrun : m.run calls = .ok m₁)
    (hcfg : cfg.maxBlockNetUsage.toNat ≤ safeMaxBlockNetUsage) : Modest cfg m₁ := by
  have hconfig : m₁.config = m.config :=
    (foldlM_invariant (fun s => s.config = m.config)
      (fun c hc _ _ hs hcall => (inTransaction_frame (hcalls c hc) hcall).1.trans hs) rfl).1 m₁ hrun
  have hpending := (h.run hcalls hrun).pending .net
  rw [hconfig] at hpending
  exact ⟨hcfg.trans (by decide), hpending.trans hmax⟩

theorem Blocks.modest (h : Blocks allowed num m)
    (hallowed : ∀ cfg ∈ allowed, cfg.maxBlockNetUsage.toNat ≤ safeMaxBlockNetUsage) :
    BlocksThat Modest num m ∧ (net.parameters m.config).max ≤ safeMaxBlockNetUsage := by
  induction h with
  | genesis => exact ⟨.genesis, by decide⟩
  | block _ hcalls hrun hcfg hnum hfin ih =>
    have hmodest := ih.1.steady.modest ih.2 hcalls hrun (hallowed _ hcfg)
    refine ⟨ih.1.block hcalls hrun hmodest hnum hfin, ?_⟩
    rw [finalizeBlock] at hfin
    simp only [bind_eq_ok] at hfin
    obtain ⟨m₂, -, m₃, hset, husage⟩ := hfin
    obtain ⟨_, _, -, rfl⟩ := processBlockUsage_eq_ok.mp husage
    show (net.parameters m₃.config).max ≤ safeMaxBlockNetUsage
    rw [(parameters_setBlockParameters hset).2 .net]
    exact hallowed _ hcfg

/-- **Chains that are not bricked.** In every chain of modest blocks, whatever is done
in them, `process_block_usage` returns at the end of every block with both virtual limits
between the maximum of the configuration and a thousand times that. -/
theorem never_bricked_of_modest {num : ℕ} {m m₁ m₂ m₃ : ResourceLimitsManager}
    {calls : List ManagerCall} {cfg : ChainConfig} (hm : BlocksThat Modest num m)
    (hcalls : ∀ c ∈ calls, c.InTransaction) (hrun : m.run calls = .ok m₁)
    (hmodest : Modest cfg m₁) (hlimits : m₁.processAccountLimitUpdates = .ok m₂)
    (hset : m₂.setBlockParameters (cfg.elasticLimitParameters .cpu)
      (cfg.elasticLimitParameters .net) = .ok m₃) :
    ∃ m', m₃.processBlockUsage (num + 1) = .ok m' ∧ m'.WithinElastic cfg := by
  obtain ⟨m', hm', hwithin, -⟩ := (hm.steady.run hcalls hrun).finalize hmodest hlimits hset
  exact ⟨m', hm', hwithin⟩

/-- The default configuration, and a block with a new account that is billed twice. -/
theorem never_bricked_of_modest_twoTransactions :
    ∃ m m₁ m', BlocksThat Modest 2 m ∧
      m.run (.initializeAccount 1 :: twoTransactions) = .ok m₁ ∧
      m₁.finalizeBlock {} 3 = .ok m' ∧ m'.WithinElastic {} := by
  obtain ⟨m, hm, m₁, hrun, hused, m', hfin, -⟩ :
      ∃ m, initializeDatabase.finalizeBlock {} 2 = .ok m ∧
      ∃ m₁, m.run (.initializeAccount 1 :: twoTransactions) = .ok m₁ ∧
        m₁.state.pendingNetUsage = 300 ∧ ∃ m', m₁.finalizeBlock {} 3 = .ok m' ∧ True := by
    decide +kernel
  have hblocks : BlocksThat Modest 2 m :=
    .block .genesis (fun c hc => absurd hc not_mem_nil) rfl ⟨by decide, by decide⟩ (by decide) hm
  have hparts := hfin
  simp only [finalizeBlock, bind_eq_ok] at hparts
  obtain ⟨m₂, hlimits, m₃, hset, husage⟩ := hparts
  obtain ⟨m'', hm'', hwithin⟩ := never_bricked_of_modest hblocks
    (by simp [twoTransactions, ManagerCall.InTransaction]) hrun
    ⟨by decide, hused.trans_le (by decide)⟩ hlimits hset
  cases husage.symm.trans hm''
  exact ⟨m, m₁, m', hblocks, hrun, hfin, hwithin⟩

def hugeConfig : ChainConfig := { maxBlockNetUsage := 0xffffffffffffffff }

/-- It is accepted.  The first block with it in force leaves a virtual limit
below the maximum, since a thousand times the maximum wraps around; every
block after that throws. -/
theorem hugeConfig_bricks :
    hugeConfig.validate = .ok () ∧
    ∃ m, Blocks {hugeConfig} 2 m ∧ ¬ m.WithinElastic hugeConfig ∧
      m.finalizeBlock hugeConfig 3 = .error ⟨.rateLimitingStateInconsistent,
        "Usage exceeds maximum value representable after extending for precision"⟩ := by
  refine ⟨by decide +kernel, Exists.imp (p := fun m =>
    initializeDatabase.finalizeBlock hugeConfig 2 = .ok m ∧
      m.state.virtualNetLimit = 2 ^ 64 - 1000 ∧ _) (fun m ⟨hm, hvirtual, herror⟩ =>
    ⟨.block .genesis (fun c hc => absurd hc not_mem_nil) rfl rfl (by decide) hm, ?_, herror⟩) ?_⟩
  swap
  · decide +kernel
  intro hwithin
  have hlow := (hwithin .net).1
  rw [show net.virtualLimit m.state = _ from hvirtual] at hlow
  exact absurd hlow (by decide +kernel)

end ResourceLimitsManager

end Inery.Chain
