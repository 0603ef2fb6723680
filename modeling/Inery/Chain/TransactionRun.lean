import Inery.Chain.Availability

/-!
# A transaction from `init` to `finalize`

The calls of a context only ever lower its limits, and between `init` and `finalize` they leave the
moving averages and the block's own account alone.  So what `init` found out about the block is
still good when `finalize` bills the accounts.
-/

namespace Inery.Chain

open Foundation ResourceLimitsManager TransactionContext

/-! ## What the billed accounts can pay -/

namespace TransactionContext

def Bandwidth.of (b : Bandwidth) : Resource → ℤ
  | .cpu => b.cpu
  | .net => b.net

variable {control : Control} {m : ResourceLimitsManager} {force : Bool}

/-- `b` is within what account `a` can pay. -/
def Bandwidth.Within (control : Control) (m : ResourceLimitsManager) (force : Bool)
    (b : Bandwidth) (a : Name) : Prop :=
  ∀ r : Resource, ∃ available greylisted,
    m.getAccountLimit r a (greylistLimitOf control force a) = .ok (available, greylisted) ∧
    (0 ≤ available → b.of r ≤ available)

variable {b : Bandwidth}

theorem lowerBandwidth_spec {b' : Bandwidth} {a : Name}
    (h : lowerBandwidth control m force b a = .ok b') :
    b'.Within control m force a ∧ (∀ r, b'.of r ≤ b.of r) ∧
      ((∀ r, 0 ≤ b.of r) → ∀ r, 0 ≤ b'.of r) := by
  simp only [lowerBandwidth, bind_eq_ok, pure_eq_ok] at h
  obtain ⟨⟨net, netGreylisted⟩, hnet, ⟨cpu, cpuGreylisted⟩, hcpu, rfl⟩ := h
  refine ⟨?_, ?_, ?_⟩
  · rintro (_ | _)
    · refine ⟨cpu, cpuGreylisted, hcpu, fun hpos => ?_⟩
      rw [if_pos hpos]
      exact min_le_right _ _
    · refine ⟨net, netGreylisted, hnet, fun hpos => ?_⟩
      rw [if_pos hpos]
      split
      next => exact min_le_right _ _
      next => exact min_le_right _ _
  · rintro (_ | _) <;> dsimp only <;> split_ifs <;> simp [Bandwidth.of]
  · intro hnonneg
    have hc := hnonneg .cpu
    have hn := hnonneg .net
    rintro (_ | _) <;> dsimp only <;> split_ifs <;> simp_all [Bandwidth.of]

theorem foldlM_lowerBandwidth {as : List Name} {b' : Bandwidth}
    (h : as.foldlM (lowerBandwidth control m force) b = .ok b') :
    (∀ a ∈ as, b'.Within control m force a) ∧ (∀ r, b'.of r ≤ b.of r) ∧
      ((∀ r, 0 ≤ b.of r) → ∀ r, 0 ≤ b'.of r) := by
  induction as generalizing b with
  | nil =>
    cases h
    exact ⟨nofun, fun _ => le_rfl, id⟩
  | cons a as ih =>
    rw [List.foldlM_cons, bind_eq_ok] at h
    obtain ⟨b₁, hb₁, h⟩ := h
    obtain ⟨hwithin₁, hle₁, hnonneg₁⟩ := lowerBandwidth_spec hb₁
    obtain ⟨hwithin, hle, hnonneg⟩ := ih h
    refine ⟨?_, fun r => (hle r).trans (hle₁ r), fun hb => hnonneg (hnonneg₁ hb)⟩
    intro x hx
    rcases List.mem_cons.mp hx with rfl | hx
    · intro r
      obtain ⟨available, greylisted, hget, hb⟩ := hwithin₁ r
      exact ⟨available, greylisted, hget, fun hpos => (hle r).trans (hb hpos)⟩
    · exact hwithin x hx

/-- **What the billed accounts can pay.** -/
theorem maxBandwidth_spec {tc : TransactionContext}
    (h : tc.maxBandwidthBilledAccountsCanPay control m force = .ok b) :
    (∀ a ∈ tc.billToAccounts, b.Within control m force a) ∧ ∀ r, 0 ≤ b.of r ∧ b.of r < 2 ^ 63 := by
  simp only [maxBandwidthBilledAccountsCanPay, bind_eq_ok, pure_eq_ok] at h
  obtain ⟨b', hb', _, -, rfl⟩ := h
  obtain ⟨hwithin, hle, hnonneg⟩ := foldlM_lowerBandwidth hb'
  refine ⟨fun a ha => hwithin a (mem_flatSet.mpr ha), fun r => ⟨hnonneg ?_ r, ?_⟩⟩
  · rintro (_ | _) <;> decide
  · refine lt_of_le_of_lt (hle r) ?_
    cases r <;> decide

/-! ## What the calls of a context keep -/

/-- A context that was only lowered: its limits did not rise, and the accounts
to bill and the first duration limit are the same. -/
structure Lowers (tc tc' : TransactionContext) : Prop where
  net : tc'.netLimit ≤ tc.netLimit
  cpu : tc'.objectiveDurationLimit ≤ tc.objectiveDurationLimit
  accounts : tc'.billToAccounts = tc.billToAccounts
  initial : tc'.initialObjectiveDurationLimit = tc.initialObjectiveDurationLimit

variable {tc tc' tc'' : TransactionContext}

theorem Lowers.trans (h : Lowers tc tc') (h' : Lowers tc' tc'') : Lowers tc tc'' :=
  ⟨h'.net.trans h.net, h'.cpu.trans h.cpu, h'.accounts.trans h.accounts, h'.initial.trans h.initial⟩

theorem Lowers.of_eq (hnet : tc'.netLimit = tc.netLimit)
    (hcpu : tc'.objectiveDurationLimit = tc.objectiveDurationLimit)
    (haccounts : tc'.billToAccounts = tc.billToAccounts)
    (hinitial : tc'.initialObjectiveDurationLimit = tc.initialObjectiveDurationLimit) :
    Lowers tc tc' :=
  ⟨hnet.le, hcpu.le, haccounts, hinitial⟩

theorem Lowers.ite {c : Prop} [Decidable c] (h : Lowers tc tc') :
    Lowers tc (if c then tc' else tc) := by
  split
  next => exact h
  next => exact .of_eq rfl rfl rfl rfl

theorem lowers_lowerNetLimit (limit : ℕ) : Lowers tc (tc.lowerNetLimit limit) := by
  unfold lowerNetLimit
  split
  next h => exact ⟨h, le_rfl, rfl, rfl⟩
  next => exact .of_eq rfl rfl rfl rfl

theorem lowers_lowerDuration (limit : ℤ) : Lowers tc (tc.lowerDuration limit) := by
  unfold lowerDuration
  split
  next h => exact ⟨le_rfl, h, rfl, rfl⟩
  next => exact .of_eq rfl rfl rfl rfl

theorem netLimit_lowerNetLimit_le (limit : ℕ) : (tc.lowerNetLimit limit).netLimit ≤ limit := by
  unfold lowerNetLimit
  split
  next => exact le_rfl
  next h => exact (not_le.mp h).le

variable (cfg : ChainConfig)

theorem lowers_withAccountLimits (b : Bandwidth) : Lowers tc (tc.withAccountLimits cfg b) := by
  unfold withAccountLimits withGreylisting
  dsimp only
  split_ifs <;> exact .of_eq rfl rfl rfl rfl

theorem lowers_withFinalLimits (b : Bandwidth) : Lowers tc (tc.withFinalLimits b) := by
  have hgrey : Lowers tc (tc.withGreylisting b) := .of_eq rfl rfl rfl rfl
  exact (hgrey.trans (lowers_lowerNetLimit _)).trans (lowers_lowerDuration _)

theorem netLimit_withFinalLimits_le (b : Bandwidth) :
    (tc.withFinalLimits b).netLimit ≤ castU64 b.net :=
  (lowers_lowerDuration b.cpu).net.trans (netLimit_lowerNetLimit_le _)

theorem lowers_roundNetUsage : Lowers tc tc.roundNetUsage := .of_eq rfl rfl rfl rfl

theorem updateBilledCpuTime_netUsage (tc : TransactionContext) (cfg : ChainConfig) (now : ℤ) :
    (tc.updateBilledCpuTime cfg now).netUsage = tc.netUsage ∧
    (tc.updateBilledCpuTime cfg now).netLimit = tc.netLimit := by
  unfold updateBilledCpuTime
  split <;> exact ⟨rfl, rfl⟩

theorem lowers_updateBilledCpuTime (now : ℤ) : Lowers tc (tc.updateBilledCpuTime cfg now) := by
  unfold updateBilledCpuTime
  split <;> exact .of_eq rfl rfl rfl rfl

theorem lowers_pauseBillingTimer (now : ℤ) : Lowers tc (tc.pauseBillingTimer now) := by
  unfold pauseBillingTimer
  split <;> exact .of_eq rfl rfl rfl rfl

theorem lowers_resumeBillingTimer (now : ℤ) : Lowers tc (tc.resumeBillingTimer now) := by
  unfold resumeBillingTimer
  dsimp only
  split_ifs <;> exact .of_eq rfl rfl rfl rfl

theorem lowers_insert_validateMemUsage {c : Prop} [Decidable c] (a : Name) :
    Lowers tc (if c then { tc with validateMemUsage := insert a tc.validateMemUsage } else tc) :=
  Lowers.ite (.of_eq rfl rfl rfl rfl)

theorem lowers_lowerToConfiguration : Lowers tc (tc.lowerToConfiguration cfg) :=
  (lowers_lowerNetLimit _).trans (lowers_lowerDuration _)

theorem lowers_lowerToHeader : Lowers tc tc.lowerToHeader :=
  (lowers_lowerNetLimit _).ite.trans (lowers_lowerDuration _).ite

theorem lowerDuration_nonneg {limit : ℤ} (htc : 0 ≤ tc.objectiveDurationLimit)
    (hlimit : 0 ≤ limit) : 0 ≤ (tc.lowerDuration limit).objectiveDurationLimit := by
  unfold lowerDuration
  split
  next => exact hlimit
  next => exact htc

theorem objectiveDurationLimit_lowerNetLimit (limit : ℕ) :
    (tc.lowerNetLimit limit).objectiveDurationLimit = tc.objectiveDurationLimit := by
  unfold lowerNetLimit
  split <;> rfl

theorem lowerToConfiguration_nonneg (htc : 0 ≤ tc.objectiveDurationLimit) :
    0 ≤ (tc.lowerToConfiguration cfg).objectiveDurationLimit := by
  apply lowerDuration_nonneg
  · rwa [objectiveDurationLimit_lowerNetLimit]
  · exact Int.natCast_nonneg _

theorem lowerToHeader_nonneg (htc : 0 ≤ tc.objectiveDurationLimit) :
    0 ≤ tc.lowerToHeader.objectiveDurationLimit := by
  unfold lowerToHeader
  extract_lets limit tc₁
  have htc₁ : 0 ≤ tc₁.objectiveDurationLimit := by
    unfold tc₁
    split
    next => rwa [objectiveDurationLimit_lowerNetLimit]
    next => exact htc
  split
  next => exact lowerDuration_nonneg htc₁ (by positivity)
  next => exact htc₁

/-- A positive amount that was validated is within the account's and the
transaction's limit. -/
theorem validateAccountCpuUsage_le {control : Control} {billedUs accountCpuLimit : ℤ} {u : Unit}
    (h : tc.validateAccountCpuUsage control billedUs accountCpuLimit = .ok u)
    (hskip : control.skipTrxChecks = false) (hpos : 0 < billedUs) :
    billedUs ≤ accountCpuLimit ∧ billedUs ≤ tc.objectiveDurationLimit := by
  rw [validateAccountCpuUsage, if_pos ⟨hpos, hskip⟩] at h
  dsimp only at h
  by_cases hlimited : accountCpuLimit ≤ tc.objectiveDurationLimit
  · simp only [hlimited, decide_true, not_true_eq_false, false_and, if_false, and_true,
      if_true] at h
    split at h <;> rw [ineAssert_eq_ok] at h <;> exact ⟨h, h.trans hlimited⟩
  · simp only [hlimited, decide_false, Bool.false_eq_true, not_false_eq_true, true_and, and_false,
      if_false] at h
    split at h <;> rw [ineAssert_eq_ok] at h <;> exact ⟨by omega, h⟩

theorem checkNetUsage_le {control : Control} {u : Unit} (h : tc.checkNetUsage control = .ok u)
    (hskip : control.skipTrxChecks = false) : tc.netUsage ≤ tc.eagerNetLimit := by
  unfold checkNetUsage at h
  split at h
  next hor => exact hor.resolve_left (by rw [hskip]; exact Bool.false_ne_true)
  next => split_ifs at h

theorem limits_withBilledAccounts (control : Control) (tc : TransactionContext) :
    (tc.withBilledAccounts control).netLimit = tc.netLimit ∧
    (tc.withBilledAccounts control).objectiveDurationLimit = tc.objectiveDurationLimit ∧
    (tc.withBilledAccounts control).initialObjectiveDurationLimit =
      tc.initialObjectiveDurationLimit :=
  ⟨rfl, rfl, rfl⟩

theorem withObjectiveLimits_le (m : ResourceLimitsManager) :
    (tc.withObjectiveLimits cfg m).netLimit ≤ m.getBlockLimit .net ∧
    (tc.withObjectiveLimits cfg m).objectiveDurationLimit ≤ i64 (m.getBlockLimit .cpu) ∧
    (tc.withObjectiveLimits cfg m).initialObjectiveDurationLimit ≤ i64 (m.getBlockLimit .cpu) ∧
    (0 ≤ i64 (m.getBlockLimit .cpu) →
      0 ≤ (tc.withObjectiveLimits cfg m).initialObjectiveDurationLimit) := by
  unfold withObjectiveLimits
  dsimp only
  generalize htc₀ : ({ tc with
    netLimit := m.getBlockLimit .net
    objectiveDurationLimit := i64 (m.getBlockLimit .cpu) } : TransactionContext) = tc₀
  have hnet₀ : tc₀.netLimit = m.getBlockLimit .net := by rw [← htc₀]
  have hcpu₀ : tc₀.objectiveDurationLimit = i64 (m.getBlockLimit .cpu) := by rw [← htc₀]
  have hlow : Lowers tc₀ (tc₀.lowerToConfiguration cfg).lowerToHeader :=
    (lowers_lowerToConfiguration cfg).trans lowers_lowerToHeader
  rw [← hnet₀, ← hcpu₀]
  refine ⟨hlow.net, hlow.cpu, hlow.cpu, fun hblock => ?_⟩
  exact lowerToHeader_nonneg (lowerToConfiguration_nonneg cfg hblock)

end TransactionContext

namespace ContextM

open Stateful

variable {control : Control} {s s' : TransactionState}

theorem run_check_eq_ok {α : Type} {f : TransactionState → Result α} {x : α} :
    (check f).run s = (.ok x, s') ↔ f s = .ok x ∧ s = s' := by
  show (f s, s) = (.ok x, s') ↔ _
  rw [Prod.mk.injEq]

theorem run_modifyContext_eq_ok {f : TransactionContext → TransactionContext} {u : Unit} :
    (modifyContext f).run s = (.ok u, s') ↔ { s with context := f s.context } = s' := by
  show ((.ok (), { s with context := f s.context }) : Except ChainException Unit × _) = _ ↔ _
  rw [Prod.mk.injEq]
  exact and_iff_right rfl

theorem run_modifyResources_eq_ok {f : TransactionState → Result ResourceLimitsManager} {u : Unit} :
    (modifyResources f).run s = (.ok u, s') ↔
      ∃ m, f s = .ok m ∧ { s with resources := m } = s' := by
  rw [modifyResources, run_bind_eq_ok]
  simp only [run_check_eq_ok, run_modify, Prod.mk.injEq]
  constructor
  · rintro ⟨m, _, ⟨hm, rfl⟩, -, rfl⟩
    exact ⟨m, hm, rfl⟩
  · rintro ⟨m, hm, rfl⟩
    exact ⟨m, s, ⟨hm, rfl⟩, trivial, rfl⟩

variable {I : TransactionState → Prop}

theorem keeps_check {α : Type} {f : TransactionState → Result α} : Keeps I (check f) :=
  fun _ hs => hs

theorem of_check_bind {α β : Type} {f : TransactionState → Result α} {g : α → ContextM β}
    (hs : I s) (h : ∀ x, f s = .ok x → I ((g x).run s).2) : I ((check f >>= g).run s).2 := by
  have hcheck : (check f).run s = (f s, s) := rfl
  cases hf : f s with
  | error e =>
    rw [hf] at hcheck
    rw [run_bind_error hcheck]
    exact hs
  | ok x =>
    rw [hf] at hcheck
    rw [run_bind_ok hcheck]
    exact h x hf

theorem keeps_modifyResources {f : TransactionState → Result ResourceLimitsManager}
    (h : ∀ {s m}, I s → f s = .ok m → I { s with resources := m }) :
    Keeps I (modifyResources f) :=
  fun _ hs => of_check_bind hs fun _ hf => h hs hf

/-- What the calls of a context keep, whatever else they do: it survives the
lowering of limits, the calls of the manager that touch no average, and a
change of the configuration. -/
structure Stable (I : TransactionState → Prop) : Prop where
  lower : ∀ {s tc}, I s → s.context.Lowers tc → I { s with context := tc }
  call : ∀ {s} {c : ManagerCall} {m}, I s → c.apply s.resources = .ok m →
    (∀ a, c.slotOf a = none) → m.config = s.resources.config → m.state = s.resources.state →
    I { s with resources := m }
  reconfigure : ∀ {s cfg}, I s → I { s with configuration := cfg }

namespace Stable

variable (hI : Stable I)
include hI

theorem keeps_modifyContext {f : TransactionContext → TransactionContext}
    (h : ∀ tc : TransactionContext, tc.Lowers (f tc)) : Keeps I (modifyContext f) :=
  fun _ hs => hI.lower hs (h _)

theorem keeps_addNetUsage (u : ℕ) : Keeps I (addNetUsage control u) := by
  refine Keeps.bind (hI.keeps_modifyContext ?_) fun _ => keeps_check
  exact fun _ => .of_eq rfl rfl rfl rfl

theorem keeps_addMemUsage (a : Name) (memDelta : ℤ) : Keeps I (addMemUsage a memDelta) := by
  refine Keeps.bind (keeps_modifyResources ?_) fun _ => hI.keeps_modifyContext fun _ =>
    lowers_insert_validateMemUsage a
  intro s m hs hm
  obtain ⟨_, rfl⟩ := exists_of_rest (rest_addPendingMemUsage hm)
  exact hI.call (c := .addPendingMemUsage a memDelta) hs hm (fun _ => rfl) rfl rfl

theorem keeps_setResourceLimits (a : Name) (limits : AccountLimits) :
    Keeps I (setResourceLimits a limits) := by
  refine Keeps.bind keeps_check fun _ => Keeps.bind keeps_check fun decreased =>
    Keeps.bind (keeps_modifyResources ?_) fun _ => hI.keeps_modifyContext fun _ =>
      lowers_insert_validateMemUsage a
  intro s m hs hm
  cases hset : s.resources.setAccountLimits a limits with
  | error e =>
    rw [hset] at hm
    cases hm
  | ok result =>
    rw [hset] at hm
    cases hm
    have heq := eq_of_setAccountLimits hset
    refine hI.call (c := .setAccountLimits a limits) hs ?_ (fun _ => rfl) (by rw [heq])
      (by rw [heq])
    rw [ManagerCall.apply, hset]
    rfl

theorem keeps_run (call : ExecutionCall) : Keeps I (call.run control) := by
  cases call with
  | addNetUsage u => exact hI.keeps_addNetUsage u
  | addMemUsage a memDelta => exact hI.keeps_addMemUsage a memDelta
  | setResourceLimits a limits => exact hI.keeps_setResourceLimits a limits
  | initializeAccount a =>
    refine keeps_modifyResources ?_
    intro s m hs hm
    obtain ⟨-, rfl⟩ := initializeAccount_eq_ok.mp hm
    exact hI.call (c := .initializeAccount a) hs hm (fun _ => rfl) rfl rfl
  | setBlockchainParameters configuration => exact fun _ hs => hI.reconfigure hs
  | pauseBillingTimer now =>
    exact hI.keeps_modifyContext fun _ => lowers_pauseBillingTimer now
  | resumeBillingTimer now =>
    exact hI.keeps_modifyContext fun _ => lowers_resumeBillingTimer now
  | checktime expired => exact keeps_check

theorem keeps_exec (calls : List ExecutionCall) : Keeps I (exec control calls) := by
  induction calls with
  | nil => exact Keeps.pure
  | cons call calls ih => exact Keeps.bind (hI.keeps_run call) fun _ => ih

theorem keeps_applyAccountLimits (initialNetUsage : ℕ) (expired : Bool) :
    Keeps I (applyAccountLimits control initialNetUsage expired) := by
  refine Keeps.bind keeps_check fun b => Keeps.get_bind fun s => ?_
  refine Keeps.bind (hI.keeps_modifyContext fun _ =>
    lowers_withAccountLimits s.configuration b) fun _ => ?_
  refine Keeps.bind keeps_check fun _ => Keeps.bind (hI.keeps_modifyContext ?_) fun _ => ?_
  · exact fun _ => .of_eq rfl rfl rfl rfl
  refine Keeps.bind ?_ fun _ => Keeps.bind keeps_check fun _ => hI.keeps_modifyContext ?_
  · split
    next => exact hI.keeps_addNetUsage initialNetUsage
    next => exact Keeps.pure
  · exact fun _ => .of_eq rfl rfl rfl rfl

theorem keeps_finalizeChecks (now : ℤ) : Keeps I (finalizeChecks control now) := by
  refine Keeps.bind keeps_check fun _ => Keeps.bind keeps_check fun _ =>
    Keeps.bind keeps_check fun b => ?_
  refine Keeps.bind (hI.keeps_modifyContext fun _ =>
    lowers_withFinalLimits b) fun _ => ?_
  refine Keeps.bind (hI.keeps_modifyContext fun _ =>
    lowers_roundNetUsage) fun _ => ?_
  refine Keeps.bind keeps_check fun _ => Keeps.get_bind fun s => ?_
  exact Keeps.bind (hI.keeps_modifyContext fun _ =>
    lowers_updateBilledCpuTime s.configuration now) fun _ => keeps_check

end Stable

/-! ## From `init` to `finalize` -/

/-- A transaction under way in a block whose tables were `m₀` when it started: its limits are within
those of the block, and the averages of the billed accounts have reached the slot of the block. -/
structure Started (control : Control) (m₀ : ResourceLimitsManager) (s : TransactionState) :
    Prop where
  config : s.resources.config = m₀.config
  state : s.resources.state = m₀.state
  net : s.context.netLimit ≤ m₀.getBlockLimit .net
  cpu : s.context.objectiveDurationLimit ≤ i64 (m₀.getBlockLimit .cpu)
  updated : ∀ a ∈ s.context.billToAccounts, ∀ r : Resource,
    ∃ acc, s.resources.averageOf r a = some acc ∧ acc.lastOrdinal = control.pendingSlot

variable {m₀ : ResourceLimitsManager}

theorem stable_started : Stable (Started control m₀) where
  lower := by
    intro s tc hs hlow
    refine ⟨hs.config, hs.state, hlow.net.trans hs.net, hlow.cpu.trans hs.cpu, ?_⟩
    intro a ha
    rw [hlow.accounts] at ha
    exact hs.updated a ha
  call := by
    intro s c m hs hcall hslot hconfig hstate
    refine ⟨hconfig.trans hs.config, hstate.trans hs.state, hs.net, hs.cpu, ?_⟩
    intro a ha r
    obtain ⟨acc, hacc, hlast⟩ := hs.updated a ha r
    exact ⟨acc, (ManagerCall.apply_keeps hcall a).2 (hslot a) acc hacc, hlast⟩
  reconfigure hs := ⟨hs.config, hs.state, hs.net, hs.cpu, hs.updated⟩

theorem started_init {initialNetUsage : ℕ} {expired : Bool}
    (h : (init control initialNetUsage expired).run s = (.ok (), s')) :
    Started control s.resources s' := by
  unfold init setObjectiveLimits recordBilledAccounts at h
  simp only [run_bind_eq_ok, run_get_bind, run_check_eq_ok, run_modifyContext_eq_ok,
    run_modifyResources_eq_ok] at h
  obtain ⟨_, s₁, ⟨_, _, ⟨-, rfl⟩, _, _, rfl, -, rfl⟩, _, s₂, ⟨_, _, rfl, m, hm, rfl⟩, h⟩ := h
  refine (stable_started.keeps_applyAccountLimits initialNetUsage expired).of_run ?_ h
  obtain ⟨hnet, hcpu, -, -⟩ := s.context.withObjectiveLimits_le s.configuration s.resources
  obtain ⟨hnet', hcpu', -⟩ := limits_withBilledAccounts control
    (s.context.withObjectiveLimits s.configuration s.resources)
  obtain ⟨_, rfl, -⟩ := updateAccountUsage_spec hm
  refine ⟨rfl, rfl, hnet'.le.trans hnet, hcpu'.le.trans hcpu, ?_⟩
  intro a ha r
  obtain ⟨acc, -, -, hacc⟩ := (averageOf_updateAccountUsage hm).2.2 ha
  exact ⟨_, hacc, UsageAccumulator.lastOrdinal_added⟩

/-- What `finalize` has established when it comes to the billing. -/
theorem finalizeChecks_spec {now : ℤ} (h : (finalizeChecks control now).run s = (.ok (), s')) :
    ∃ b : TransactionContext.Bandwidth,
      s.context.maxBandwidthBilledAccountsCanPay control s.resources false = .ok b ∧
      s'.resources = s.resources ∧ s.context.Lowers s'.context ∧
      (control.skipTrxChecks = false →
        s'.context.netUsage ≤ s'.context.netLimit ∧ s'.context.netLimit ≤ castU64 b.net ∧
        0 ≤ s'.context.billedCpuTimeUs ∧
        (0 < s'.context.billedCpuTimeUs → s'.context.billedCpuTimeUs ≤ b.cpu ∧
          s'.context.billedCpuTimeUs ≤ s'.context.objectiveDurationLimit)) := by
  unfold finalizeChecks at h
  simp only [run_bind_eq_ok, run_get_bind, run_check_eq_ok, run_modifyContext_eq_ok] at h
  obtain ⟨_, _, ⟨-, rfl⟩, _, _, ⟨-, rfl⟩, b, _, ⟨hb, rfl⟩, _, _, rfl, _, _, rfl, _, _, ⟨hnet, rfl⟩,
    _, _, rfl, hcpu, rfl⟩ := h
  refine ⟨b, hb, rfl, ?_, ?_⟩
  · exact ((lowers_withFinalLimits b).trans
      lowers_roundNetUsage).trans
        (lowers_updateBilledCpuTime s.configuration now)
  · intro hskip
    obtain ⟨husage, hlimit⟩ := updateBilledCpuTime_netUsage
      (s.context.withFinalLimits b).roundNetUsage s.configuration now
    simp only [validateCpuUsageToBill, hskip, Bool.false_eq_true, if_false,
      bind_eq_ok, ineAssert_eq_ok, exists_const, forall_const] at hcpu
    obtain ⟨hmin, hcpu⟩ := hcpu
    refine ⟨?_, ?_, (Int.natCast_nonneg _).trans hmin, ?_⟩
    · rw [husage, hlimit]
      exact checkNetUsage_le hnet hskip
    · rw [hlimit]
      exact netLimit_withFinalLimits_le b
    · exact validateAccountCpuUsage_le hcpu hskip

/-! ## The first duration limit -/

/-- The duration limit that the transaction started with is within the
billable time of the block. -/
def InitialWithin (m₀ : ResourceLimitsManager) (s : TransactionState) : Prop :=
  0 ≤ s.context.initialObjectiveDurationLimit ∧
    s.context.initialObjectiveDurationLimit ≤ i64 (m₀.getBlockLimit .cpu)

theorem stable_initialWithin : Stable (InitialWithin m₀) where
  lower := by
    intro s tc hs hlow
    unfold InitialWithin
    rw [hlow.initial]
    exact hs
  call := fun hs _ _ _ _ => hs
  reconfigure := fun hs => hs

theorem initialWithin_setObjectiveLimits (hblock : 0 ≤ i64 (s.resources.getBlockLimit .cpu))
    (hnew : s.context.initialObjectiveDurationLimit = 0) :
    InitialWithin s.resources ((setObjectiveLimits control).run s).2 := by
  have hfirst : InitialWithin s.resources s := by
    unfold InitialWithin
    rw [hnew]
    exact ⟨le_rfl, hblock⟩
  refine of_check_bind hfirst fun _ _ => ?_
  rw [run_get_bind]
  refine Keeps.of_bind ?_ fun _ => keeps_check
  obtain ⟨-, -, hle, hnonneg⟩ := s.context.withObjectiveLimits_le s.configuration s.resources
  exact ⟨hnonneg hblock, hle⟩

/-- However far the transaction came, its first duration limit is within the
block's. -/
theorem initialWithin_applyTransaction (control : Control) (initialNetUsage : ℕ)
    (expired : Bool) (calls : List ExecutionCall) (now : ℤ)
    (hblock : 0 ≤ i64 (s.resources.getBlockLimit .cpu))
    (hnew : s.context.initialObjectiveDurationLimit = 0) :
    InitialWithin s.resources
      ((applyTransaction control initialNetUsage expired calls now).run s).2 := by
  have hstable : Stable (InitialWithin s.resources) := stable_initialWithin
  have hrecord : Keeps (InitialWithin s.resources) (recordBilledAccounts control) := by
    refine Keeps.bind (fun t ht => ?_) fun _ => keeps_modifyResources fun ht _ => ht
    obtain ⟨-, -, hinitial⟩ := limits_withBilledAccounts control t.context
    show InitialWithin s.resources { t with context := t.context.withBilledAccounts control }
    unfold InitialWithin
    rw [hinitial]
    exact ht
  have hbill : Keeps (InitialWithin s.resources) (billTransaction control) :=
    keeps_modifyResources fun ht _ => ht
  refine Keeps.of_bind ?_ fun _ => Keeps.bind (hstable.keeps_exec calls) fun _ =>
    Keeps.bind (hstable.keeps_finalizeChecks now) fun _ => hbill
  exact Keeps.of_bind (initialWithin_setObjectiveLimits hblock hnew) fun _ =>
    Keeps.bind hrecord fun _ => hstable.keeps_applyAccountLimits initialNetUsage expired

end ContextM

end Inery.Chain
