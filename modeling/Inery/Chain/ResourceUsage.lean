import Inery.Chain.ResourceLimits

/-!
# What billing does to an account

When the accumulator's `add` and the two loops of the manager succeed, and what they leave.  No
account's turn in a loop depends on another's, so a loop succeeds exactly when each account's turn
would by itself.
-/

namespace Inery.Chain

open Foundation Finmap Config

theorem le_mul_integerDivideCeil {num den : ℕ} (hden : 0 < den) :
    num ≤ den * integerDivideCeil num den := by
  have hdiv := Nat.div_add_mod num den
  have hmod := Nat.mod_lt num hden
  unfold integerDivideCeil
  split
  next => rw [Nat.mul_add]; omega
  next => rw [Nat.mul_add]; omega

theorem mul_integerDivideCeil_lt {num den : ℕ} (hden : 0 < den) :
    den * integerDivideCeil num den < num + den := by
  have hdiv := Nat.div_add_mod num den
  unfold integerDivideCeil
  split
  next => rw [Nat.mul_add]; omega
  next => rw [Nat.mul_add]; omega

theorem getObject_eq_ok {α : Type} {t : Table Name α} {a : Name} {v : α} :
    getObject t a = .ok v ↔ t.lookup a = some v := by
  unfold getObject
  cases t.lookup a <;> simp [pure, Except.pure]

/-! ## One accumulator -/

namespace UsageAccumulator

variable {acc acc' : UsageAccumulator} {units ordinal w : ℕ}

/-- What `add` grows the value by. -/
def contribution (units w : ℕ) : ℕ := integerDivideCeil (units * rateLimitingPrecision) w

@[simp] theorem contribution_zero : contribution 0 w = 0 := by
  simp [contribution, integerDivideCeil]

/-- The accumulator brought to an ordinal, its value decayed over the gap. -/
def advanced (acc : UsageAccumulator) (ordinal w : ℕ) : UsageAccumulator :=
  if acc.lastOrdinal = ordinal then acc
  else
    let value := decay w (ordinal - acc.lastOrdinal) acc.valueEx
    ⟨ordinal, value, integerDivideCeil value rateLimitingPrecision⟩

def added (acc : UsageAccumulator) (units ordinal w : ℕ) : UsageAccumulator :=
  let acc := acc.advanced ordinal w
  { acc with
    valueEx := acc.valueEx + contribution units w
    consumed := acc.consumed + units }

/-- Time does not go back, and the value survives the decay's multiplication. -/
structure CanAdvance (acc : UsageAccumulator) (ordinal w : ℕ) : Prop where
  order : acc.lastOrdinal ≤ ordinal
  scaled : acc.lastOrdinal < ordinal → ordinal < acc.lastOrdinal + w →
    acc.valueEx ≤ (2 ^ 64 - 1) / (w - (ordinal - acc.lastOrdinal))

/-- The accumulator's 64-bit counters do not overflow. -/
structure Headroom (acc : UsageAccumulator) (units w : ℕ) : Prop where
  raw : units ≤ maxRawValue
  consumed : units ≤ 2 ^ 64 - 1 - acc.consumed
  contribution_le : contribution units w ≤ 2 ^ 64 - 1
  value : contribution units w ≤ 2 ^ 64 - 1 - acc.valueEx

/-- The numerical limits that `add` checks. -/
structure Fits (acc : UsageAccumulator) (units ordinal w : ℕ) : Prop
    extends CanAdvance acc ordinal w, Headroom acc units w

theorem decayedValue_eq_ok (hlt : acc.lastOrdinal < ordinal) {v : ℕ} :
    acc.decayedValue ordinal w = .ok v ↔
      acc.CanAdvance ordinal w ∧
      decay w (ordinal - acc.lastOrdinal) acc.valueEx = v := by
  unfold decayedValue decay
  by_cases hin : ordinal < acc.lastOrdinal + w
  · have hgap : ordinal - acc.lastOrdinal < w := by omega
    rw [if_pos hin, if_pos hgap]
    simp only [Ratio.scale, bind_eq_ok, ineAssert_eq_ok, pure_eq_ok, exists_const]
    constructor
    · rintro ⟨hfits, rfl⟩
      exact ⟨⟨hlt.le, fun _ _ => hfits.resolve_left (by omega)⟩, rfl⟩
    · rintro ⟨hadv, rfl⟩
      exact ⟨Or.inr (hadv.scaled hlt hin), rfl⟩
  · have hgap : ¬ ordinal - acc.lastOrdinal < w := by omega
    rw [if_neg hin, if_neg hgap, pure_eq_ok]
    constructor
    · rintro rfl
      exact ⟨⟨hlt.le, fun _ h => absurd h hin⟩, rfl⟩
    · rintro ⟨-, rfl⟩
      rfl

theorem advance_eq_ok :
    acc.advance ordinal w = .ok acc' ↔
      acc.CanAdvance ordinal w ∧ acc.advanced ordinal w = acc' := by
  unfold advance advanced
  by_cases hord : acc.lastOrdinal = ordinal
  · subst hord
    rw [if_neg (not_not_intro rfl), if_pos rfl, pure_eq_ok]
    constructor
    · rintro rfl
      exact ⟨⟨le_rfl, fun h => absurd h (lt_irrefl _)⟩, rfl⟩
    · rintro ⟨-, rfl⟩
      rfl
  · rw [if_pos hord, if_neg hord]
    simp only [bind_eq_ok, ineAssert_eq_ok, pure_eq_ok, exists_const]
    constructor
    · rintro ⟨hlt, v, hv, rfl⟩
      obtain ⟨hadv, rfl⟩ := (decayedValue_eq_ok hlt).mp hv
      exact ⟨hadv, rfl⟩
    · rintro ⟨hadv, rfl⟩
      have hlt : acc.lastOrdinal < ordinal := lt_of_le_of_ne hadv.order hord
      exact ⟨hlt, _, (decayedValue_eq_ok hlt).mpr ⟨hadv, rfl⟩, rfl⟩

/-- **What `add` does.** -/
theorem add_eq_ok :
    acc.add units ordinal w = .ok acc' ↔
      acc.Fits units ordinal w ∧ acc.added units ordinal w = acc' := by
  simp only [add, downgradeCast, bind_eq_ok, ineAssert_eq_ok, pure_eq_ok, exists_const,
    advance_eq_ok]
  constructor
  · rintro ⟨hraw, hcons, _, ⟨hc, rfl⟩, hval, _, ⟨hadv, rfl⟩, rfl⟩
    exact ⟨⟨hadv, hraw, hcons, hc, hval⟩, rfl⟩
  · rintro ⟨hfits, rfl⟩
    exact ⟨hfits.raw, hfits.consumed, _, ⟨hfits.contribution_le, rfl⟩, hfits.value, _,
      ⟨hfits.toCanAdvance, rfl⟩, rfl⟩

@[simp] theorem lastOrdinal_added : (acc.added units ordinal w).lastOrdinal = ordinal := by
  unfold added advanced
  split
  next h => exact h
  next => rfl

theorem valueEx_added (hw : 0 < w) :
    (acc.added units ordinal w).valueEx = decay w (ordinal - acc.lastOrdinal) acc.valueEx +
        contribution units w := by
  unfold added advanced
  split
  next h => rw [h, Nat.sub_self, decay_zero hw]
  next => rfl

theorem valueEx_added_of_eq (h : acc.lastOrdinal = ordinal) :
    (acc.added units ordinal w).valueEx = acc.valueEx + contribution units w := by
  unfold added advanced
  rw [if_pos h]

theorem canAdvance_of_eq (h : acc.lastOrdinal = ordinal) : acc.CanAdvance ordinal w :=
  ⟨h.le, fun hlt => absurd h hlt.ne⟩

end UsageAccumulator

/-! ## One account -/

def Resource.amount (cpuUsage netUsage : ℕ) : Resource → ℕ
  | .cpu => cpuUsage
  | .net => netUsage

open Resource

theorem Resource.forall {P : Resource → Prop} : (∀ r, P r) ↔ P .net ∧ P .cpu :=
  ⟨fun h => ⟨h .net, h .cpu⟩, fun h r => by cases r; exacts [h.2, h.1]⟩

namespace ResourceUsage

variable (usage : ResourceUsage) (config : ResourceConfig) (cpuUsage netUsage slot : ℕ)

def added : ResourceUsage :=
  { usage with
    netUsage := usage.netUsage.added netUsage slot (net.window config)
    cpuUsage := usage.cpuUsage.added cpuUsage slot (cpu.window config) }

def charged : ResourceUsage :=
  { usage.added config cpuUsage netUsage slot with
    memUsage := u64 (usage.memUsage + transactionIdNetUsage) }

/-- The account pays for no more memory than it may. -/
def MemWithin (limits : AccountLimits) : Prop :=
  0 ≤ limits.memBytes → usage.memUsage ≤ limits.memBytes

theorem accumulator_charged (r : Resource) :
    r.accumulator (usage.charged config cpuUsage netUsage slot) =
      (r.accumulator usage).added (r.amount cpuUsage netUsage) slot (r.window config) := by
  cases r <;> rfl

theorem accumulator_added (slot : ℕ) (r : Resource) :
    r.accumulator (usage.added config 0 0 slot) =
      (r.accumulator usage).added 0 slot (r.window config) := by
  cases r <;> rfl

end ResourceUsage

/-- The block's own account, with the transaction in it. -/
def ResourceState.charged (state : ResourceState) (cpuUsage netUsage : ℕ) : ResourceState :=
  { state with
    pendingCpuUsage := u64 (state.pendingCpuUsage + cpuUsage)
    pendingNetUsage := u64 (state.pendingNetUsage + netUsage) }

namespace ResourceLimitsManager

variable {m m' : ResourceLimitsManager} {a : Name} {usage usage' : ResourceUsage}
  {limits : AccountLimits} {cpuUsage netUsage slot : ℕ}

def HasRoom (m : ResourceLimitsManager) (usage : ResourceUsage)
    (cpuUsage netUsage slot : ℕ) : Prop :=
  ∀ r : Resource,
    (r.accumulator usage).Fits (r.amount cpuUsage netUsage) slot (r.window m.config)

/-- The average that the limiter looks at is within the account's share. -/
def UsedWithin (m : ResourceLimitsManager) (limits : AccountLimits) (usage : ResourceUsage) :
    Prop :=
  ∀ r : Resource, ∀ most ∈ m.maxUserUseInWindow r limits,
    (r.accumulator usage).valueEx * r.window m.config / rateLimitingPrecision ≤ most

theorem addUsage_eq_ok :
    m.addUsage usage cpuUsage netUsage slot = .ok usage' ↔
      m.HasRoom usage cpuUsage netUsage slot ∧
      usage.added m.config cpuUsage netUsage slot = usage' := by
  simp only [addUsage, bind_eq_ok, pure_eq_ok, UsageAccumulator.add_eq_ok]
  constructor
  · rintro ⟨_, ⟨hnet, rfl⟩, _, ⟨hcpu, rfl⟩, rfl⟩
    exact ⟨forall.mpr ⟨hnet, hcpu⟩, rfl⟩
  · rintro ⟨hroom, rfl⟩
    exact ⟨_, ⟨hroom .net, rfl⟩, _, ⟨hroom .cpu, rfl⟩, rfl⟩

theorem verifyAccountMemUsage_eq_ok {u : Unit} (hlimits : m.getAccountLimits a = .ok limits)
    (husage : m.usage.lookup a = some usage) :
    m.verifyAccountMemUsage a = .ok u ↔ usage.MemWithin limits := by
  simp only [verifyAccountMemUsage, hlimits, getObject_eq_ok.mpr husage, ok_bind, ineAssert_eq_ok]
  rfl

theorem checkUsedInWindow_eq_ok {r : Resource} {u : Unit} :
    m.checkUsedInWindow r limits usage = .ok u ↔
      ∀ most ∈ m.maxUserUseInWindow r limits,
        (r.accumulator usage).valueEx * r.window m.config / rateLimitingPrecision ≤ most :=
  ensure_eq_ok

/-! ## The loops over accounts -/

/-- What the loops over accounts read and do not change. -/
def rest (m : ResourceLimitsManager) : ResourceLimitsManager := { m with usage := ∅ }

structure ChargeableAt (m : ResourceLimitsManager) (limits : AccountLimits)
    (usage : ResourceUsage) (cpuUsage netUsage slot : ℕ) : Prop where
  memBefore : usage.MemWithin limits
  room : m.HasRoom usage cpuUsage netUsage slot
  used : m.UsedWithin limits (usage.charged m.config cpuUsage netUsage slot)
  memAfter : (usage.charged m.config cpuUsage netUsage slot).MemWithin limits

/-- One account's turn in `add_transaction_usage`. -/
def Charges (cpuUsage netUsage slot : ℕ) (m : ResourceLimitsManager) (a : Name)
    (usage usage' : ResourceUsage) : Prop :=
  (∃ limits, m.getAccountLimits a = .ok limits ∧
    m.ChargeableAt limits usage cpuUsage netUsage slot) ∧
  usage.charged m.config cpuUsage netUsage slot = usage'

theorem chargeAccount_eq_ok :
    chargeAccount cpuUsage netUsage slot m a = .ok m' ↔
      ∃ usage usage', m.usage.lookup a = some usage ∧
        Charges cpuUsage netUsage slot m a usage usage' ∧ m' = m.setUsage a usage' := by
  simp only [chargeAccount, bind_eq_ok, pure_eq_ok, getObject_eq_ok, addUsage_eq_ok,
    checkUsedInWindow_eq_ok, exists_const]
  have hlook : ∀ usage', (m.setUsage a usage').usage.lookup a = some usage' := fun _ =>
    lookup_insert _
  have hkeep : ∀ usage', (m.setUsage a usage').getAccountLimits a = m.getAccountLimits a :=
    fun _ => rfl
  constructor
  · rintro ⟨usage, husage, limits, hlimits, _, hbefore, _, ⟨hroom, rfl⟩, hcpu, hnet, _, hafter,
      rfl⟩
    refine ⟨usage, _, husage, ⟨⟨limits, hlimits, ?_, hroom, ?_, ?_⟩, rfl⟩, rfl⟩
    · exact (verifyAccountMemUsage_eq_ok hlimits husage).mp hbefore
    · exact forall.mpr ⟨hnet, hcpu⟩
    · exact (verifyAccountMemUsage_eq_ok ((hkeep _).trans hlimits) (hlook _)).mp hafter
  · rintro ⟨usage, _, husage, ⟨⟨limits, hlimits, h⟩, rfl⟩, rfl⟩
    exact ⟨usage, husage, limits, hlimits, (),
      (verifyAccountMemUsage_eq_ok hlimits husage).mpr h.memBefore, _, ⟨h.room, rfl⟩,
      h.used .cpu, h.used .net, (),
      (verifyAccountMemUsage_eq_ok ((hkeep _).trans hlimits) (hlook _)).mpr h.memAfter, rfl⟩

theorem updateUsage_eq_ok :
    updateUsage slot m a = .ok m' ↔
      ∃ usage usage', m.usage.lookup a = some usage ∧
        (m.HasRoom usage 0 0 slot ∧ usage.added m.config 0 0 slot = usage') ∧
        m' = m.setUsage a usage' := by
  simp only [updateUsage, bind_eq_ok, pure_eq_ok, getObject_eq_ok, addUsage_eq_ok]
  constructor
  · rintro ⟨usage, husage, _, h, rfl⟩
    exact ⟨usage, _, husage, h, rfl⟩
  · rintro ⟨usage, _, husage, h, rfl⟩
    exact ⟨usage, husage, _, h, rfl⟩

/-- A step that replaces one account's usage, after a check that reads that
usage and the rest of the manager. -/
theorem rowStep_of_setUsage {step : ResourceLimitsManager → Name → Result ResourceLimitsManager}
    {R : ResourceLimitsManager → Name → ResourceUsage → ResourceUsage → Prop}
    (hstep : ∀ {m a m'}, step m a = .ok m' ↔ ∃ usage usage', m.usage.lookup a = some usage ∧
      R m.rest a usage usage' ∧ m' = m.setUsage a usage') :
    RowStep step rest (fun m a => m.usage.lookup a) R where
  before h := by
    obtain ⟨usage, usage', husage, hR, rfl⟩ := hstep.mp h
    exact ⟨usage, usage', husage, lookup_insert _, hR⟩
  other h hne := by
    obtain ⟨usage, usage', -, -, rfl⟩ := hstep.mp h
    exact lookup_insert_of_ne _ hne
  frame h := by
    obtain ⟨usage, usage', -, -, rfl⟩ := hstep.mp h
    rfl
  progress husage hR := ⟨_, hstep.mpr ⟨_, _, husage, hR, rfl⟩⟩

theorem charges_rest :
    Charges cpuUsage netUsage slot m.rest a usage usage' ↔
      Charges cpuUsage netUsage slot m a usage usage' := by
  constructor
  · rintro ⟨⟨limits, hlimits, h⟩, rfl⟩
    exact ⟨⟨limits, hlimits, h.memBefore, h.room, h.used, h.memAfter⟩, rfl⟩
  · rintro ⟨⟨limits, hlimits, h⟩, rfl⟩
    exact ⟨⟨limits, hlimits, h.memBefore, h.room, h.used, h.memAfter⟩, rfl⟩

theorem rowStep_chargeAccount (cpuUsage netUsage slot : ℕ) :
    RowStep (chargeAccount cpuUsage netUsage slot) rest (fun m a => m.usage.lookup a)
      (Charges cpuUsage netUsage slot) :=
  rowStep_of_setUsage (by
    intro m a m'
    simp only [charges_rest]
    exact chargeAccount_eq_ok)

theorem rowStep_updateUsage (slot : ℕ) :
    RowStep (updateUsage slot) rest (fun m a => m.usage.lookup a)
      (fun m _ usage usage' => m.HasRoom usage 0 0 slot ∧
        usage.added m.config 0 0 slot = usage') :=
  rowStep_of_setUsage updateUsage_eq_ok

/-! ## What the calls do -/

variable {accounts : Finset Name}

theorem exists_of_rest (h : m'.rest = m.rest) : ∃ usages, m' = { m with usage := usages } :=
  ⟨_, congrArg (fun x : ResourceLimitsManager => { x with usage := m'.usage }) h⟩

theorem initializeAccount_eq_ok :
    m.initializeAccount a = .ok m' ↔ (a ∉ m.limits ∧ a ∉ m.usage) ∧
      { m with limits := m.limits.insert a {}, usage := m.usage.insert a {} } = m' := by
  simp only [initializeAccount, bind_eq_ok, ineAssert_eq_ok, pure_eq_ok, exists_const]

theorem eq_of_setAccountLimits {decreased : Bool}
    (h : m.setAccountLimits a limits = .ok (decreased, m')) :
    m' = { m with pendingLimits := m.pendingLimits.insert a limits } := by
  simp only [setAccountLimits, bind_eq_ok, pure_eq_ok, Prod.mk.injEq] at h
  obtain ⟨_, -, -, rfl⟩ := h
  rfl

theorem updateAccountUsage_spec (h : m.updateAccountUsage accounts slot = .ok m') :
    ∃ usages, m' = { m with usage := usages } ∧
      (∀ a ∉ accounts, usages.lookup a = m.usage.lookup a) ∧
      ∀ a ∈ accounts, ∃ usage, m.usage.lookup a = some usage ∧ m.HasRoom usage 0 0 slot ∧
        usages.lookup a = some (usage.added m.config 0 0 slot) := by
  have hloop := rowStep_updateUsage slot
  obtain ⟨hrest, hrows⟩ := hloop.foldlM_frame h
  obtain ⟨usages, rfl⟩ := exists_of_rest hrest
  refine ⟨usages, rfl, fun a ha => hrows a (by rwa [mem_flatSet]), fun a ha => ?_⟩
  obtain ⟨usage, _, husage, hnew, hroom, rfl⟩ :=
    hloop.foldlM_row (nodup_flatSet accounts) h (mem_flatSet.mpr ha)
  exact ⟨usage, husage, hroom, hnew⟩

theorem addTransactionUsage_spec
    (h : m.addTransactionUsage accounts cpuUsage netUsage slot = .ok m') :
    ∃ usages, m' = { m with usage := usages, state := m.state.charged cpuUsage netUsage } ∧
      (∀ r : Resource, r.pendingUsage (m.state.charged cpuUsage netUsage) ≤
        (r.parameters m.config).max) ∧
      (∀ a ∉ accounts, usages.lookup a = m.usage.lookup a) ∧
      ∀ a ∈ accounts, ∃ usage limits, m.usage.lookup a = some usage ∧
        m.getAccountLimits a = .ok limits ∧
        m.ChargeableAt limits usage cpuUsage netUsage slot ∧
        usages.lookup a = some (usage.charged m.config cpuUsage netUsage slot) := by
  have hloop := rowStep_chargeAccount cpuUsage netUsage slot
  simp only [addTransactionUsage, chargeBlock, bind_eq_ok, ineAssert_eq_ok, pure_eq_ok,
    exists_const] at h
  obtain ⟨s, hs, hcpu, hnet, rfl⟩ := h
  obtain ⟨hrest, hrows⟩ := hloop.foldlM_frame hs
  obtain ⟨usages, rfl⟩ := exists_of_rest hrest
  refine ⟨usages, rfl, forall.mpr ⟨hnet, hcpu⟩, fun a ha => hrows a (by rwa [mem_flatSet]),
    fun a ha => ?_⟩
  obtain ⟨usage, _, husage, hnew, hcharges⟩ :=
    hloop.foldlM_row (nodup_flatSet accounts) hs (mem_flatSet.mpr ha)
  obtain ⟨⟨limits, hlimits, hc⟩, rfl⟩ := charges_rest.mp hcharges
  exact ⟨usage, limits, husage, hlimits, hc, hnew⟩

theorem addPendingMemUsage_cases {memDelta : ℤ} (h : m.addPendingMemUsage a memDelta = .ok m') :
    (memDelta = 0 ∧ m' = m) ∨
    ∃ usage, m.usage.lookup a = some usage ∧ 0 ≤ usage.memUsage + memDelta ∧
      m' = m.setUsage a { usage with memUsage := (usage.memUsage + memDelta).toNat } := by
  unfold addPendingMemUsage at h
  split at h
  · next hzero =>
    cases h
    exact .inl ⟨hzero, rfl⟩
  · simp only [bind_eq_ok, ineAssert_eq_ok, pure_eq_ok, getObject_eq_ok, exists_const] at h
    obtain ⟨usage, husage, -, hunder, rfl⟩ := h
    exact .inr ⟨usage, husage, by omega, rfl⟩

theorem rest_addPendingMemUsage {memDelta : ℤ} (h : m.addPendingMemUsage a memDelta = .ok m') :
    m'.rest = m.rest := by
  obtain ⟨-, rfl⟩ | ⟨u, -, -, rfl⟩ := addPendingMemUsage_cases h
  · rfl
  · rfl

/-- What the updates of the limits leave alone. -/
def unlimited (m : ResourceLimitsManager) : ResourceLimitsManager :=
  { m with
    limits := ∅
    pendingLimits := ∅
    state := { m.state with totalMemBytes := 0, totalCpuWeight := 0, totalNetWeight := 0 } }

theorem unlimited_processAccountLimitUpdates (h : m.processAccountLimitUpdates = .ok m') :
    m'.unlimited = m.unlimited := by
  refine foldlM_keeps unlimited ?_ h
  intro s owner s' hs
  simp only [processAccountLimitUpdate, bind_eq_ok, pure_eq_ok] at hs
  obtain ⟨_, -, _, -, _, -, _, -, _, -, rfl⟩ := hs
  rfl

end ResourceLimitsManager

end Inery.Chain
