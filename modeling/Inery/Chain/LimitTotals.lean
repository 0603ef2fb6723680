import Inery.Chain.Availability

/-!
# The totals of the limits (`process_account_limit_updates`)

The totals of the weights are kept by differences, while the limits that change wait in a table of
their own until the end of the block.  The totals are nevertheless the sums of what is in force, so
the assertion that guards the subtraction never fails.
-/

namespace Inery.Chain

open Foundation Finmap Table AccountLimits

namespace ResourceLimitsManager

/-- What a field of the limits in force adds up to; a negative value stands for
no limit and counts for nothing. -/
def positiveSum (m : ResourceLimitsManager) (value : AccountLimits → ℤ) : ℕ :=
  m.limits.total fun _ limits => (value limits).toNat

structure TotalsMatch (m : ResourceLimitsManager) : Prop where
  mem : m.state.totalMemBytes = m.positiveSum memBytes
  cpu : m.state.totalCpuWeight = m.positiveSum cpuWeight
  net : m.state.totalNetWeight = m.positiveSum netWeight

variable {m m' : ResourceLimitsManager} {a : Name}

/-! ## One update -/

/-- The exception of a total that is less than a value in it. -/
def underflow : ChainException :=
  ⟨.rateLimitingStateInconsistent, "underflow when reverting old value to ${which}"⟩

theorem getObject_ne_underflow {α : Type} {t : Table Name α} :
    getObject t a ≠ .error underflow := by
  intro h
  unfold getObject at h
  split at h <;> cases h

/-- A value in the total is replaced, and nothing else can go wrong than an
overflow. -/
theorem updateStateAndValue_spec {total : ℕ} {value : ℤ} (pendingValue : ℤ)
    (h : value.toNat ≤ total) :
    (∀ total', updateStateAndValue total value pendingValue = .ok total' →
      total' + value.toNat = total + pendingValue.toNat) ∧
    updateStateAndValue total value pendingValue ≠ .error underflow := by
  -- a value that is not positive is neither taken off nor put on
  have hoff : (if 0 < value then total - value.toNat else total) = total - value.toNat := by
    split
    next => rfl
    next hneg => rw [Int.toNat_of_nonpos (by omega), Nat.sub_zero]
  have hon : ∀ n, (if 0 < pendingValue then n + pendingValue.toNat else n) =
      n + pendingValue.toNat := by
    intro n
    split
    next => rfl
    next hneg => rw [Int.toNat_of_nonpos (by omega), Nat.add_zero]
  simp only [updateStateAndValue, hoff, hon]
  constructor
  · intro total' hok
    simp only [bind_eq_ok, ineAssert_eq_ok, pure_eq_ok, exists_const] at hok
    obtain ⟨-, -, rfl⟩ := hok
    omega
  · intro herror
    simp only [bind_eq_error, ineAssert_eq_error, ineAssert_eq_ok] at herror
    rcases herror with ⟨hlow, -⟩ | ⟨_, -, ⟨-, heq⟩ | ⟨_, -, hpure⟩⟩
    · exact hlow fun hpos => by omega
    · exact absurd (congrArg ChainException.message heq) (by decide)
    · cases hpure

theorem updateStateAndValue_sum {actual pending : AccountLimits} (value : AccountLimits → ℤ)
    (h : m.limits.lookup a = some actual) :
    (∀ total', updateStateAndValue (m.positiveSum value) (value actual) (value pending) =
        .ok total' →
      total' = total (m.limits.insert a pending) fun _ limits => (value limits).toNat) ∧
    updateStateAndValue (m.positiveSum value) (value actual) (value pending) ≠
      .error underflow := by
  have hle : (value actual).toNat ≤ m.positiveSum value :=
    le_total (fun _ limits => (value limits).toNat) h
  obtain ⟨hok, herror⟩ := updateStateAndValue_spec (value pending) hle
  refine ⟨fun total' htotal => ?_, herror⟩
  have hreplaced := hok total' htotal
  have hsum := total_insert_of_some (w := pending)
    (fun _ limits => (value limits).toNat) h
  unfold positiveSum at hreplaced
  omega

variable (h : m.TotalsMatch)
include h

theorem processAccountLimitUpdate_spec :
    (∀ m', processAccountLimitUpdate m a = .ok m' →
      m'.TotalsMatch ∧ m'.pendingLimits = m.pendingLimits.erase a) ∧
    processAccountLimitUpdate m a ≠ .error underflow := by
  constructor
  · intro m' hok
    simp only [processAccountLimitUpdate, bind_eq_ok, getObject_eq_ok, pure_eq_ok] at hok
    obtain ⟨pending, -, actual, hactual, mem, hmem, cpu, hcpu, net, hnet, rfl⟩ := hok
    rw [h.mem] at hmem
    rw [h.cpu] at hcpu
    rw [h.net] at hnet
    exact ⟨⟨(updateStateAndValue_sum memBytes hactual).1 mem hmem,
      (updateStateAndValue_sum cpuWeight hactual).1 cpu hcpu,
      (updateStateAndValue_sum netWeight hactual).1 net hnet⟩, rfl⟩
  · refine bind_ne_error getObject_ne_underflow fun pending _ =>
      bind_ne_error getObject_ne_underflow fun actual hactual => ?_
    have hactual := getObject_eq_ok.mp hactual
    rw [h.mem, h.cpu, h.net]
    exact bind_ne_error (updateStateAndValue_sum memBytes hactual).2 fun _ _ =>
      bind_ne_error (updateStateAndValue_sum cpuWeight hactual).2 fun _ _ =>
      bind_pure_ne_error (updateStateAndValue_sum netWeight hactual).2

/-! ## The whole loop -/

theorem lookup_pendingLimits_foldlM {owners : List Name}
    (hrun : owners.foldlM processAccountLimitUpdate m = .ok m') (a : Name) :
    m'.pendingLimits.lookup a = if a ∈ owners then none else m.pendingLimits.lookup a := by
  induction owners generalizing m with
  | nil =>
    cases hrun
    rfl
  | cons owner owners ih =>
    rw [List.foldlM_cons, bind_eq_ok] at hrun
    obtain ⟨s, hs, hrun⟩ := hrun
    obtain ⟨hmatch, hpending⟩ := (processAccountLimitUpdate_spec h).1 s hs
    rw [ih hmatch hrun, hpending, lookup_erase_ite]
    by_cases hmem : a ∈ owners
    · rw [if_pos hmem, if_pos (List.mem_cons_of_mem owner hmem)]
    · rw [if_neg hmem]
      simp only [List.mem_cons, hmem, or_false]

/-- **All pending limits come into force.** -/
theorem processAccountLimitUpdates_spec :
    (∀ m', m.processAccountLimitUpdates = .ok m' → m'.TotalsMatch ∧ m'.pendingLimits = ∅) ∧
    m.processAccountLimitUpdates ≠ .error underflow := by
  obtain ⟨hok, herror⟩ := foldlM_invariant TotalsMatch
    (fun _ _ _ _ hs hstep => ((processAccountLimitUpdate_spec hs).1 _ hstep).1) h
  constructor
  · intro m' hm'
    refine ⟨hok m' hm', ext_lookup fun a => ?_⟩
    rw [lookup_pendingLimits_foldlM h hm', lookup_empty]
    split
    next => rfl
    next hkey => rwa [mem_flatSet, mem_keys, ← lookup_eq_none] at hkey
  · intro hthrown
    obtain ⟨s, owner, hs, hstep⟩ := herror underflow hthrown
    exact (processAccountLimitUpdate_spec hs).2 hstep

/-! ## From block to block -/

theorem TotalsMatch.initializeAccount (hcall : m.initializeAccount a = .ok m') :
    m'.TotalsMatch := by
  obtain ⟨⟨hfresh, -⟩, rfl⟩ := initializeAccount_eq_ok.mp hcall
  -- a new account has no limits, so it adds nothing
  have hsum : ∀ value : AccountLimits → ℤ, (value {}).toNat = 0 →
      total (m.limits.insert a {}) (fun _ limits => (value limits).toNat) =
        m.positiveSum value := by
    intro value hvalue
    rw [total_insert_of_none _ _ (lookup_eq_none.mpr hfresh), hvalue]
    rfl
  exact ⟨h.mem.trans (hsum _ rfl).symm, h.cpu.trans (hsum _ rfl).symm,
    h.net.trans (hsum _ rfl).symm⟩

theorem TotalsMatch.finalizeBlock {cfg : ChainConfig} {blockNum : ℕ}
    (hcall : m.finalizeBlock cfg blockNum = .ok m') : m'.TotalsMatch := by
  simp only [ResourceLimitsManager.finalizeBlock, setBlockParameters, processBlockUsage, bind_eq_ok,
    pure_eq_ok] at hcall
  obtain ⟨s, hs, _, ⟨_, -, _, -, rfl⟩, _, -, _, -, _, -, _, -, rfl⟩ := hcall
  have hmatch := ((processAccountLimitUpdates_spec h).1 s hs).1
  exact ⟨hmatch.mem, hmatch.cpu, hmatch.net⟩

omit h

theorem Reached.totalsMatch (h : Reached m) : m.TotalsMatch := by
  induction h with
  | genesis => exact ⟨rfl, rfl, rfl⟩
  | initializeAccount _ hcall ih => exact ih.initializeAccount hcall
  | updateAccountUsage _ hcall ih =>
    obtain ⟨_, rfl, -⟩ := updateAccountUsage_spec hcall
    exact ⟨ih.mem, ih.cpu, ih.net⟩
  | addTransactionUsage _ hcall ih =>
    obtain ⟨_, rfl, -⟩ := addTransactionUsage_spec hcall
    exact ⟨ih.mem, ih.cpu, ih.net⟩
  | addPendingMemUsage _ hcall ih =>
    obtain ⟨_, rfl⟩ := exists_of_rest (rest_addPendingMemUsage hcall)
    exact ⟨ih.mem, ih.cpu, ih.net⟩
  | setAccountLimits _ hcall ih =>
    rw [eq_of_setAccountLimits hcall]
    exact ⟨ih.mem, ih.cpu, ih.net⟩
  | finalizeBlock _ hcall ih => exact ih.finalizeBlock hcall

/-- What is pending in the block is within the maximum of each resource, so the
subtraction that gives the block limit does not wrap. -/
def WithinBlockLimits (m : ResourceLimitsManager) : Prop :=
  ∀ r : Resource, r.pendingUsage m.state ≤ (r.parameters m.config).max ∧
    m.getBlockLimit r = (r.parameters m.config).max - r.pendingUsage m.state

theorem OpenBlock.withinBlockLimits (h : m.OpenBlock) : m.WithinBlockLimits :=
  fun r => ⟨h.pending r, Nat.eq_sub_of_add_eq (h.getBlockLimit_add r)⟩

/-- The updates of limits change neither the block's account nor its maxima. -/
theorem OpenBlock.processAccountLimitUpdates (h : m.OpenBlock)
    (hcall : m.processAccountLimitUpdates = .ok m') : m'.OpenBlock := by
  have hkept := unlimited_processAccountLimitUpdates hcall
  refine h.congr (congrArg (·.config) hkept) fun r => ?_
  cases r with
  | cpu => exact congrArg (·.state.pendingCpuUsage) hkept
  | net => exact congrArg (·.state.pendingNetUsage) hkept

/-- **The totals and the block limits are right.** At every point of every chain, the three totals
are the sums of the positive values over the limits in force.  After `process_account_limit_updates`
this is still so and no pending limits are left; it never throws the exception of an underflow.  The
block limits hold up to and after that call. -/
theorem totals_and_block_limits (m : ResourceLimitsManager) (h : m.Reached) :
    m.TotalsMatch ∧
    m.WithinBlockLimits ∧
    (∀ m', m.processAccountLimitUpdates = .ok m' →
      m'.TotalsMatch ∧ m'.pendingLimits = ∅ ∧ m'.WithinBlockLimits) ∧
    m.processAccountLimitUpdates ≠ .error underflow := by
  obtain ⟨hok, herror⟩ := processAccountLimitUpdates_spec h.totalsMatch
  refine ⟨h.totalsMatch, h.openBlock.withinBlockLimits, fun m' hm' => ?_, herror⟩
  obtain ⟨htotals, hpending⟩ := hok m' hm'
  exact ⟨htotals, hpending, (h.openBlock.processAccountLimitUpdates hm').withinBlockLimits⟩

theorem totals_and_block_limits_reweighed :
    ∃ m, reweighed 0 = .ok m ∧ m.state.totalCpuWeight = m.positiveSum cpuWeight ∧
      m.getBlockLimit .cpu = (Resource.cpu.parameters m.config).max - m.state.pendingCpuUsage := by
  obtain ⟨m, hm, -⟩ : ∃ m, reweighed 0 = .ok m ∧ True := by decide +kernel
  obtain ⟨htotals, hblock, -⟩ := totals_and_block_limits m (reached_reweighed 0 hm)
  exact ⟨m, hm, htotals.cpu, (hblock .cpu).2⟩

def smallBlocks : ChainConfig := { maxBlockCpuUsage := 100000, maxTransactionCpuUsage := 50000 }

/-- A block has used 150000 of cpu when the maximum becomes 100000 at its end.  Until
`process_block_usage` has taken the use into the averages, the block limit wraps. -/
theorem block_limit_wraps_before_usage :
    smallBlocks.validate = .ok () ∧
    ∃ m m₁ m₂ : ResourceLimitsManager, m.Reached ∧ m.processAccountLimitUpdates = .ok m₁ ∧
      m₁.setBlockParameters (smallBlocks.elasticLimitParameters .cpu)
        (smallBlocks.elasticLimitParameters .net) = .ok m₂ ∧
      m₂.state.pendingCpuUsage = 150000 ∧ (Resource.cpu.parameters m₂.config).max = 100000 ∧
      m₂.getBlockLimit .cpu = 2 ^ 64 - 50000 := by
  refine ⟨by decide +kernel,
    Exists.imp (p := fun m => reweighed 1 = .ok m ∧ ∃ m₁, _ ∧ ∃ m₂, _ ∧ _)
      (fun m ⟨hm, m₁, h₁, m₂, h₂, hwraps⟩ =>
        ⟨m₁, m₂, reached_reweighed 1 hm, h₁, h₂, hwraps⟩) ?_⟩
  decide +kernel

end ResourceLimitsManager

end Inery.Chain
