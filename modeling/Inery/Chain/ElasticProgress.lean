import Inery.Chain.ElasticLimits

/-!
# Progress of the elastic limits (`update_elastic_limit`)

A virtual limit grows by a 999th of itself in a block whose average is not above the target and
shrinks by a hundredth in another.  The division rounds down: a limit below 999 does not grow at
all, and a maximum that small is accepted.
-/

namespace Inery.Chain

open Foundation List

namespace ChainConfig

/-- The limit moves the way the average asks for, from `limit` to `limit'`, unless it is
already at that end of its range. -/
structure Progress (cfg : ChainConfig) (r : Resource) (average limit limit' : ℕ) : Prop where
  expands : average ≤ (cfg.elasticLimitParameters r).target →
    limit < limit' ∨ limit = 1000 * cfg.maxBlockUsage r
  contracts : (cfg.elasticLimitParameters r).target < average →
    limit' < limit ∨ limit = cfg.maxBlockUsage r

/-- A limit that can: it is not beyond the end it moves to, and if it has to grow it is
large enough for a 999th, or below the range. -/
structure CanMove (cfg : ChainConfig) (r : Resource) (average limit : ℕ) : Prop where
  expands : average ≤ (cfg.elasticLimitParameters r).target → limit ≤ 1000 * cfg.maxBlockUsage r ∧
    (999 ≤ limit ∨ limit < cfg.maxBlockUsage r ∨ limit = 1000 * cfg.maxBlockUsage r)
  contracts : (cfg.elasticLimitParameters r).target < average → cfg.maxBlockUsage r ≤ limit

variable {cfg : ChainConfig} {r : Resource} {average limit limit' : ℕ}

/-- In range, growing is all that can fail. -/
theorem canMove_of_within (hlow : cfg.maxBlockUsage r ≤ limit)
    (hhigh : limit ≤ 1000 * cfg.maxBlockUsage r) :
    cfg.CanMove r average limit ↔
      ((cfg.elasticLimitParameters r).target < average ∨ 999 ≤ limit ∨
        limit = 1000 * cfg.maxBlockUsage r) := by
  constructor
  · intro h
    by_cases habove : (cfg.elasticLimitParameters r).target < average
    · exact .inl habove
    · obtain ⟨-, hlarge | hbelow | hcap⟩ := h.expands (not_lt.mp habove)
      · exact .inr (.inl hlarge)
      · omega
      · exact .inr (.inr hcap)
  · intro h
    refine ⟨fun hle => ⟨hhigh, ?_⟩, fun _ => hlow⟩
    rcases h with habove | hlarge | hcap
    · exact absurd habove hle.not_gt
    · exact .inl hlarge
    · exact .inr (.inr hcap)

/-- **One update.** -/
theorem progress_iff (hmax : 1000 * cfg.maxBlockUsage r < 2 ^ 64)
    (h : updateElasticLimit limit average (cfg.elasticLimitParameters r) = .ok limit') :
    cfg.Progress r average limit limit' ↔ cfg.CanMove r average limit := by
  have hcap : u64 (cfg.maxBlockUsage r * Config.maximumElasticResourceMultiplier) =
      1000 * cfg.maxBlockUsage r := by
    rw [Nat.mul_comm]
    exact u64_of_lt hmax
  simp only [updateElasticLimit, Ratio.scale, bind_eq_ok, ineAssert_eq_ok, pure_eq_ok,
    exists_const] at h
  obtain ⟨_, ⟨-, rfl⟩, hlimit⟩ := h
  have hlimit' : min (max (limit * (if (cfg.elasticLimitParameters r).target < average
        then (⟨99, 100⟩ : Ratio) else ⟨1000, 999⟩).numerator /
      (if (cfg.elasticLimitParameters r).target < average
        then (⟨99, 100⟩ : Ratio) else ⟨1000, 999⟩).denominator) (cfg.maxBlockUsage r))
      (1000 * cfg.maxBlockUsage r) = limit' := by
    rw [← hcap]
    exact hlimit
  by_cases habove : (cfg.elasticLimitParameters r).target < average
  · simp only [if_pos habove] at hlimit'
    have hle : ¬ average ≤ (cfg.elasticLimitParameters r).target := not_le.mpr habove
    constructor
    · intro hp
      refine ⟨fun h => absurd h hle, fun _ => ?_⟩
      rcases hp.contracts habove with hlt | heq <;> omega
    · intro hc
      have hlow := hc.contracts habove
      exact ⟨fun h => absurd h hle, fun _ => by omega⟩
  · simp only [if_neg habove] at hlimit'
    have hle : average ≤ (cfg.elasticLimitParameters r).target := not_lt.mp habove
    constructor
    · intro hp
      refine ⟨fun _ => ?_, fun h => absurd h habove⟩
      rcases hp.expands hle with hlt | heq <;> omega
    · intro hc
      obtain ⟨hhigh, hmoves⟩ := hc.expands hle
      exact ⟨fun _ => by omega, fun h => absurd h habove⟩

end ChainConfig

namespace ResourceLimitsManager

theorem virtualLimit_run {m m' : ResourceLimitsManager} {calls : List ManagerCall}
    (hcalls : ∀ c ∈ calls, c.InTransaction) (hrun : m.run calls = .ok m') (r : Resource) :
    r.virtualLimit m'.state = r.virtualLimit m.state := by
  refine (foldlM_invariant (fun s => r.virtualLimit s.state = r.virtualLimit m.state) ?_ rfl).1 m'
    hrun
  intro c hc s s' hs hcall
  exact ((inTransaction_frame (hcalls c hc) hcall).2 r).2.1.trans hs

theorem updateElasticLimit_of_finalizeBlock {m m' : ResourceLimitsManager} {cfg : ChainConfig}
    {blockNum : ℕ} (h : m.finalizeBlock cfg blockNum = .ok m') (r : Resource) :
    updateElasticLimit (r.virtualLimit m.state) (r.blockAverage m'.state).average
      (cfg.elasticLimitParameters r) = .ok (r.virtualLimit m'.state) := by
  rw [finalizeBlock] at h
  simp only [bind_eq_ok] at h
  obtain ⟨m₂, hlimits, m₃, hset, husage⟩ := h
  obtain ⟨-, hframe⟩ := frame_processAccountLimitUpdates hlimits
  obtain ⟨hstate, hparams⟩ := parameters_setBlockParameters hset
  obtain ⟨average, virtual, hr, rfl⟩ := processBlockUsage_eq_ok.mp husage
  have hupdate := (hr r).2
  rw [hparams r, hstate, (hframe r).2.1] at hupdate
  cases r <;> exact hupdate

/-- **Progress of the elastic limits.** Take any chain of blocks whose configurations keep the
arithmetic in range, and the end of one more block.  Each virtual limit moves the way the average
asks for exactly if it can: it lies in the range of the configuration in force, as it does after
every block with the same maximum, and if it has to grow it is at least 999, or at the end of its
range. -/
theorem elastic_progress_iff {allowed : Set ChainConfig} {num : ℕ} {m m₁ m' : ResourceLimitsManager}
    {calls : List ManagerCall} {cfg : ChainConfig} (hm : Blocks allowed num m)
    (hallowed : ∀ c ∈ allowed, c.maxBlockNetUsage.toNat ≤ safeMaxBlockNetUsage)
    (hcalls : ∀ c ∈ calls, c.InTransaction) (hrun : m.run calls = .ok m₁) (hcfg : cfg ∈ allowed)
    (hfin : m₁.finalizeBlock cfg (num + 1) = .ok m') (r : Resource) :
    (cfg.Progress r (r.blockAverage m'.state).average (r.virtualLimit m.state)
        (r.virtualLimit m'.state) ↔
      cfg.CanMove r (r.blockAverage m'.state).average (r.virtualLimit m.state)) ∧
    (m.WithinElastic cfg →
      (cfg.CanMove r (r.blockAverage m'.state).average (r.virtualLimit m.state) ↔
        (cfg.elasticLimitParameters r).target < (r.blockAverage m'.state).average ∨
          999 ≤ r.virtualLimit m.state ∨
          r.virtualLimit m.state = 1000 * cfg.maxBlockUsage r)) ∧
    m'.WithinElastic cfg := by
  have hwithin : m'.WithinElastic cfg := by
    have hend := hfin
    rw [finalizeBlock] at hend
    simp only [bind_eq_ok] at hend
    obtain ⟨m₂, hlimits, m₃, hset, husage⟩ := hend
    obtain ⟨hblocks, hmax⟩ := hm.modest hallowed
    have hsteady := hblocks.steady
    obtain ⟨m'', hm'', hwithin, -⟩ := (hsteady.run hcalls hrun).finalize
      (hsteady.modest hmax hcalls hrun (hallowed cfg hcfg)) hlimits hset
    rw [husage] at hm''
    cases hm''
    exact hwithin
  refine ⟨?_, fun hbefore => ChainConfig.canMove_of_within (hbefore r).1 (hbefore r).2.1, hwithin⟩
  have hupdate := updateElasticLimit_of_finalizeBlock hfin r
  rw [virtualLimit_run hcalls hrun r] at hupdate
  exact ChainConfig.progress_iff (hwithin r).2.2 hupdate

def tinyConfig (targetPct : UInt32) : ChainConfig :=
  { maxBlockCpuUsage := 1, maxTransactionCpuUsage := 0, minTransactionCpuUsage := 0
    targetBlockCpuUsagePct := targetPct }

def tinyBlocks : Result (ResourceLimitsManager × ResourceLimitsManager) := do
  let m ← initializeDatabase.finalizeBlock (tinyConfig 10) 2
  let m ← m.run [.addTransactionUsage ∅ 1 0 0]
  let m ← m.finalizeBlock (tinyConfig 10) 3
  let m' ← m.finalizeBlock (tinyConfig 10000) 4
  pure (m, m')

/-- Both configurations are accepted.  The limit is 990 of at most 1000, the average of the
third block is not above the target, and the limit stays where it is. -/
theorem small_limit_does_not_grow :
    (tinyConfig 10).validate = .ok () ∧ (tinyConfig 10000).validate = .ok () ∧
    ∃ m m', Blocks {tinyConfig 10, tinyConfig 10000} 3 m ∧
      m.finalizeBlock (tinyConfig 10000) 4 = .ok m' ∧
      m'.state.averageBlockCpuUsage.average ≤
        ((tinyConfig 10000).elasticLimitParameters .cpu).target ∧
      m.state.virtualCpuLimit = 990 ∧ m'.state.virtualCpuLimit = 990 ∧
      990 < 1000 * (tinyConfig 10000).maxBlockUsage .cpu := by
  refine ⟨by decide +kernel, by decide +kernel, ?_⟩
  obtain ⟨⟨m, m'⟩, hm, haverage, hbefore, hafter⟩ : ∃ x, tinyBlocks = .ok x ∧
      x.2.state.averageBlockCpuUsage.average = 1 ∧ x.1.state.virtualCpuLimit = 990 ∧
        x.2.state.virtualCpuLimit = 990 := by
    decide +kernel
  simp only [tinyBlocks, bind_eq_ok, pure_eq_ok] at hm
  obtain ⟨s₁, hs₁, s₂, hs₂, s₃, hs₃, s₄, hs₄, heq⟩ := hm
  obtain ⟨rfl, rfl⟩ := Prod.mk.inj heq
  have hblocks : Blocks {tinyConfig 10, tinyConfig 10000} 2 s₁ :=
    .block .genesis (fun c hc => absurd hc not_mem_nil) rfl (.inl rfl) (by decide) hs₁
  have hcalls : ∀ c ∈ [ManagerCall.addTransactionUsage ∅ 1 0 0], c.InTransaction := by
    simp [ManagerCall.InTransaction]
  refine ⟨s₃, s₄, .block hblocks hcalls hs₂ (.inl rfl) (by decide) hs₃, hs₄, ?_, hbefore, hafter,
    by decide⟩
  exact haverage.trans_le (by decide)

/-- The first block with the default configuration. -/
theorem elastic_progress_iff_genesis :
    ∃ m', initializeDatabase.finalizeBlock {} 2 = .ok m' ∧
      ChainConfig.Progress {} .cpu m'.state.averageBlockCpuUsage.average 200000
        m'.state.virtualCpuLimit := by
  obtain ⟨m', hm', -⟩ : ∃ m', initializeDatabase.finalizeBlock {} 2 = .ok m' ∧ True := by
    decide +kernel
  have hblocks : Blocks {({} : ChainConfig)} 1 initializeDatabase := .genesis
  have hallowed : ∀ c ∈ ({({} : ChainConfig)} : Set ChainConfig),
      c.maxBlockNetUsage.toNat ≤ safeMaxBlockNetUsage := by
    rintro c rfl
    decide
  obtain ⟨hprogress, -⟩ := elastic_progress_iff hblocks hallowed
    (fun c hc => absurd hc not_mem_nil) rfl rfl hm' .cpu
  exact ⟨m', hm', hprogress.mpr ⟨fun _ => ⟨by decide, .inl (by decide)⟩, fun _ => by decide⟩⟩

end ResourceLimitsManager

end Inery.Chain
