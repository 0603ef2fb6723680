import Inery.Chain.ResourceLimits
import Inery.Foundation.Stateful

/-!
# The transaction context (`transaction_context.cpp`)

A context carries a transaction from `init` through execution to `finalize`.  It works out how much
cpu and net the transaction may use, from the block, the configuration, the transaction's header and
the accounts that pay, and bills those accounts in the end.  What the context asks the controller
for is the `Control` record; the clock and the timer are inputs of each call.
-/

namespace Inery.Chain

open Foundation

/-- A value stored in an `int64_t`. -/
def i64 (n : ℕ) : ℤ := if u64 n < 2 ^ 63 then u64 n else u64 n - 2 ^ 64

def castU64 (z : ℤ) : ℕ := (z % 2 ^ 64).toNat

structure PermissionLevel where
  actor : Name
  permission : Name
deriving DecidableEq

/-- `action`: the account and the authorizations. -/
structure Action where
  account : Name
  authorization : List PermissionLevel := []
deriving DecidableEq

/-- `transaction`: the fields of its header that limit its usage, and its actions. -/
structure Transaction where
  maxNetUsageWords : UInt32 := 0
  maxCpuUsageMs : UInt8 := 0
  actions : List Action := []
deriving DecidableEq

namespace Transaction

def authorizations (trx : Transaction) : List PermissionLevel :=
  trx.actions.flatMap Action.authorization

/-- `first_authorizer`: the empty name when there is none. -/
def firstAuthorizer (trx : Transaction) : Name :=
  (trx.authorizations.head?.map PermissionLevel.actor).getD 0

end Transaction

/-- `chain_config`: the limits on blocks, transactions and authorities, with the
defaults of `config.hpp`. -/
structure ChainConfig where
  maxBlockNetUsage : UInt64 := 1024 * 1024
  targetBlockNetUsagePct : UInt32 := 1000
  maxTransactionNetUsage : UInt32 := 1024 * 1024 / 2
  basePerTransactionNetUsage : UInt32 := 12
  netUsageLeeway : UInt32 := 500
  contextFreeDiscountNetUsageNum : UInt32 := 20
  contextFreeDiscountNetUsageDen : UInt32 := 100
  maxBlockCpuUsage : UInt32 := 200000
  targetBlockCpuUsagePct : UInt32 := 1000
  maxTransactionCpuUsage : UInt32 := 3 * 200000 / 4
  minTransactionCpuUsage : UInt32 := 100
  deferredTrxExpirationWindow : UInt32 := 10 * 60
  maxTransactionDelay : UInt32 := 45 * 24 * 3600
  maxAuthorityDepth : UInt16 := 6
deriving DecidableEq

structure Control where
  skipTrxChecks : Bool := false
  isProducingBlock : Bool := false
  onlyBillFirstAuthorizer : Bool := false
  greylistLimit : ℕ := Config.maximumElasticResourceMultiplier
  resourceGreylist : Finset Name := ∅
  /-- the slot of the pending block's time -/
  pendingSlot : ℕ

/-- The fields of `transaction_context`; times and durations in microseconds.
`activeDeadline` is the source's `_deadline`. -/
structure TransactionContext where
  trx : Transaction
  start : ℤ := 0
  billToAccounts : Finset Name := ∅
  validateMemUsage : Finset Name := ∅
  deadline : ℤ := 2 ^ 63 - 1
  leeway : ℤ := 31000
  billedCpuTimeUs : ℤ := 0
  explicitBilledCpuTime : Bool := false
  isInitialized : Bool := false
  netLimit : ℕ := 0
  netLimitDueToBlock : Bool := true
  netLimitDueToGreylist : Bool := false
  eagerNetLimit : ℕ := 0
  netUsage : ℕ := 0
  cpuLimitDueToGreylist : Bool := false
  initialObjectiveDurationLimit : ℤ := 0
  objectiveDurationLimit : ℤ := 0
  activeDeadline : ℤ := 2 ^ 63 - 1
  deadlineExceptionCode : ExceptionKind := .blockCpuUsageExceeded
  billingTimerExceptionCode : ExceptionKind := .blockCpuUsageExceeded
  /-- `fc::time_point()` while the timer is paused -/
  pseudoStart : ℤ := start
  billedTime : ℤ := 0
  billingTimerDurationLimit : ℤ := 0

namespace TransactionContext

def create (trx : Transaction) (start deadline leeway billedCpuTimeUs : ℤ)
    (explicitBilledCpuTime : Bool) : TransactionContext :=
  { trx, start, deadline, leeway, billedCpuTimeUs, explicitBilledCpuTime }

/-! ## Checks -/

variable (control : Control) (tc : TransactionContext)

def checkNetUsage : Result Unit :=
  if control.skipTrxChecks ∨ tc.netUsage ≤ tc.eagerNetLimit then pure ()
  else if tc.netLimitDueToBlock then
    .error ⟨.blockNetUsageExceeded, "not enough space left in block: ${net_usage} > ${net_limit}"⟩
  else if tc.netLimitDueToGreylist then
    .error ⟨.greylistNetUsageExceeded,
      "greylisted transaction net usage is too high: ${net_usage} > ${net_limit}"⟩
  else
    .error ⟨.txNetUsageExceeded, "transaction net usage is too high: ${net_usage} > ${net_limit}"⟩

def checktime (expired : Bool) (tc : TransactionContext) : Result Unit :=
  if !expired then pure ()
  else if tc.explicitBilledCpuTime ∨ tc.deadlineExceptionCode = .deadlineException then
    .error ⟨.deadlineException, "deadline exceeded ${billing_timer}us"⟩
  else match tc.deadlineExceptionCode with
  | .blockCpuUsageExceeded => .error ⟨.blockCpuUsageExceeded,
      "not enough time left in block to complete executing transaction ${billing_timer}us"⟩
  | .txCpuUsageExceeded =>
    if tc.cpuLimitDueToGreylist then
      .error ⟨.greylistCpuUsageExceeded,
        "greylisted transaction was executing for too long ${billing_timer}us"⟩
    else
      .error ⟨.txCpuUsageExceeded, "transaction was executing for too long ${billing_timer}us"⟩
  | .leewayDeadlineException => .error ⟨.leewayDeadlineException,
      "the transaction was unable to complete by deadline, but it is possible it could have succeeded if it were allowed to run to completion ${billing_timer}"⟩
  | _ => .error ⟨.transactionException, "unexpected deadline exception code ${code}"⟩

def validateAccountCpuUsage (billedUs accountCpuLimit : ℤ) : Result Unit :=
  if 0 < billedUs ∧ control.skipTrxChecks = false then
    let cpuLimitedByAccount := decide (accountCpuLimit ≤ tc.objectiveDurationLimit)
    if ¬ cpuLimitedByAccount ∧ tc.billingTimerExceptionCode = .blockCpuUsageExceeded then
      ineAssert (billedUs ≤ tc.objectiveDurationLimit) .blockCpuUsageExceeded
        "${desc} CPU time (${billed} us) is greater than the billable CPU time left in the block (${billable} us)"
    else if tc.cpuLimitDueToGreylist ∧ cpuLimitedByAccount then
      ineAssert (billedUs ≤ accountCpuLimit) .greylistCpuUsageExceeded
        "${desc} CPU time (${billed} us) is greater than the maximum greylisted billable CPU time for the transaction (${billable} us)"
    else
      ineAssert (billedUs ≤ if cpuLimitedByAccount then accountCpuLimit
          else tc.objectiveDurationLimit) .txCpuUsageExceeded
        "${desc} CPU time (${billed} us) is greater than the maximum billable CPU time for the transaction (${billable} us)"
  else pure ()

variable (cfg : ChainConfig)

def validateCpuUsageToBill (tc : TransactionContext)
    (billedUs accountCpuLimit : ℤ) (checkMinimum : Bool) : Result Unit :=
  if control.skipTrxChecks then pure ()
  else do
    ineAssert (checkMinimum → cfg.minTransactionCpuUsage.toNat ≤ billedUs) .transactionException
      "cannot bill CPU time less than the minimum of ${min_billable} us"
    tc.validateAccountCpuUsage control billedUs accountCpuLimit

/-! ## What the billed accounts can pay -/

/-- The result of `max_bandwidth_billed_accounts_can_pay`. -/
structure Bandwidth where
  net : ℤ := (2 ^ 63 - 1) / 2
  cpu : ℤ := (2 ^ 63 - 1) / 2
  greylistedNet : Bool := false
  greylistedCpu : Bool := false
deriving DecidableEq

def greylistLimitOf (forceElasticLimits : Bool) (a : Name) : ℕ :=
  if !forceElasticLimits && control.isProducingBlock then
    if a ∈ control.resourceGreylist then 1 else control.greylistLimit
  else Config.maximumElasticResourceMultiplier

variable (m : ResourceLimitsManager)

/-- One account in the loop of `max_bandwidth_billed_accounts_can_pay`. -/
def lowerBandwidth (forceElasticLimits : Bool) (b : Bandwidth) (a : Name) : Result Bandwidth := do
  let greylistLimit := greylistLimitOf control forceElasticLimits a
  let (net, netGreylisted) ← m.getAccountLimit .net a greylistLimit
  let b := if 0 ≤ net then
    { b with net := min b.net net, greylistedNet := b.greylistedNet || netGreylisted } else b
  let (cpu, cpuGreylisted) ← m.getAccountLimit .cpu a greylistLimit
  pure (if 0 ≤ cpu then
    { b with cpu := min b.cpu cpu, greylistedCpu := b.greylistedCpu || cpuGreylisted } else b)

def maxBandwidthBilledAccountsCanPay
    (tc : TransactionContext) (forceElasticLimits : Bool) : Result Bandwidth := do
  let b ← (flatSet tc.billToAccounts).foldlM (lowerBandwidth control m forceElasticLimits) {}
  ineAssert ((¬ forceElasticLimits ∧ control.isProducingBlock) ∨
      (¬ b.greylistedCpu ∧ ¬ b.greylistedNet)) .transactionException
    "greylisted when not producing block"
  pure b

/-! ## Limits -/

def lowerNetLimit (limit : ℕ) : TransactionContext :=
  if limit ≤ tc.netLimit then { tc with netLimit := limit, netLimitDueToBlock := false } else tc

/-- Possibly lower `objective_duration_limit`. -/
def lowerDuration (limit : ℤ) : TransactionContext :=
  if limit ≤ tc.objectiveDurationLimit then
    { tc with objectiveDurationLimit := limit, billingTimerExceptionCode := .txCpuUsageExceeded }
  else tc

/-- Possibly lower the limits to what any transaction may be billed. -/
def lowerToConfiguration (tc : TransactionContext) : TransactionContext :=
  (tc.lowerNetLimit cfg.maxTransactionNetUsage.toNat).lowerDuration
    cfg.maxTransactionCpuUsage.toNat

/-- Possibly lower the limits to those set in the transaction header. -/
def lowerToHeader : TransactionContext :=
  let trxSpecifiedNetUsageLimit := tc.trx.maxNetUsageWords.toNat * 8
  let tc := if 0 < trxSpecifiedNetUsageLimit then tc.lowerNetLimit trxSpecifiedNetUsageLimit else tc
  if 0 < tc.trx.maxCpuUsageMs then tc.lowerDuration (tc.trx.maxCpuUsageMs.toNat * 1000) else tc

/-- The limits that come from the block, the configuration and the
transaction's header. -/
def withObjectiveLimits (tc : TransactionContext) : TransactionContext :=
  let tc := { tc with
    netLimit := m.getBlockLimit .net, objectiveDurationLimit := i64 (m.getBlockLimit .cpu) }
  let tc := (tc.lowerToConfiguration cfg).lowerToHeader
  { tc with
    activeDeadline := tc.start + tc.objectiveDurationLimit
    initialObjectiveDurationLimit := tc.objectiveDurationLimit }

def withBilledAccounts : TransactionContext :=
  { tc with billToAccounts := tc.billToAccounts ∪
      if control.onlyBillFirstAuthorizer then {tc.trx.firstAuthorizer}
      else (tc.trx.authorizations.map PermissionLevel.actor).toFinset }

/-- The greylist flags only ever go up. -/
def withGreylisting (b : Bandwidth) : TransactionContext :=
  { tc with
    netLimitDueToGreylist := tc.netLimitDueToGreylist || b.greylistedNet
    cpuLimitDueToGreylist := tc.cpuLimitDueToGreylist || b.greylistedCpu }

/-- The eager net limit and the deadline, from what the accounts can pay. -/
def withAccountLimits (tc : TransactionContext) (b : Bandwidth) : TransactionContext :=
  let tc := tc.withGreylisting b
  let tc := { tc with eagerNetLimit := tc.netLimit }
  let newEagerNetLimit := min tc.eagerNetLimit (b.net + cfg.netUsageLeeway.toNat).toNat
  let tc := if newEagerNetLimit < tc.eagerNetLimit then
    { tc with eagerNetLimit := newEagerNetLimit, netLimitDueToBlock := false } else tc
  let tc := if b.cpu + tc.leeway ≤ tc.activeDeadline - tc.start then
    { tc with
      activeDeadline := tc.start + b.cpu + tc.leeway
      billingTimerExceptionCode := .leewayDeadlineException } else tc
  let tc := { tc with billingTimerDurationLimit := tc.activeDeadline - tc.start }
  if tc.explicitBilledCpuTime ∨ tc.deadline < tc.activeDeadline then
    { tc with activeDeadline := tc.deadline, deadlineExceptionCode := .deadlineException }
  else { tc with deadlineExceptionCode := tc.billingTimerExceptionCode }

/-- The limits of `finalize`: possibly lowered to what the accounts can pay. -/
def withFinalLimits (b : Bandwidth) : TransactionContext :=
  ((tc.withGreylisting b).lowerNetLimit (castU64 b.net)).lowerDuration b.cpu

/-- Net usage rounded up to the nearest multiple of the word size, to be
checked against the limit itself. -/
def roundNetUsage : TransactionContext :=
  { tc with netUsage := u64 (tc.netUsage + 7) / 8 * 8, eagerNetLimit := tc.netLimit }

def updateBilledCpuTime (now : ℤ) (tc : TransactionContext) : TransactionContext :=
  if tc.explicitBilledCpuTime then tc
  else { tc with billedCpuTimeUs := max (now - tc.pseudoStart) cfg.minTransactionCpuUsage.toNat }

def pauseBillingTimer (now : ℤ) (tc : TransactionContext) : TransactionContext :=
  if tc.explicitBilledCpuTime ∨ tc.pseudoStart = 0 then tc
  else { tc with
    billedTime := now - tc.pseudoStart
    deadlineExceptionCode := .deadlineException
    pseudoStart := 0 }

def resumeBillingTimer (now : ℤ) (tc : TransactionContext) : TransactionContext :=
  if tc.explicitBilledCpuTime ∨ tc.pseudoStart ≠ 0 then tc
  else
    let pseudoStart := now - tc.billedTime
    if pseudoStart + tc.billingTimerDurationLimit ≤ tc.deadline then
      { tc with
        pseudoStart
        activeDeadline := pseudoStart + tc.billingTimerDurationLimit
        deadlineExceptionCode := tc.billingTimerExceptionCode }
    else
      { tc with
        pseudoStart
        activeDeadline := tc.deadline
        deadlineExceptionCode := .deadlineException }

end TransactionContext

open TransactionContext

/-! ## The calls of a context -/

structure TransactionState where
  context : TransactionContext
  resources : ResourceLimitsManager
  configuration : ChainConfig

abbrev ContextM := Stateful ChainException TransactionState

namespace ContextM

open Stateful

def check {α : Type} (f : TransactionState → Result α) : ContextM α := do
  let s ← get
  lift (f s)

def modifyContext (f : TransactionContext → TransactionContext) : ContextM Unit :=
  modify fun s => { s with context := f s.context }

def modifyResources (f : TransactionState → Result ResourceLimitsManager) : ContextM Unit := do
  let resources ← check f
  modify fun s => { s with resources }

variable (control : Control)

def addNetUsage (u : ℕ) : ContextM Unit := do
  modifyContext fun tc => { tc with netUsage := u64 (tc.netUsage + u) }
  check fun s => s.context.checkNetUsage control

def addMemUsage (account : Name) (memDelta : ℤ) : ContextM Unit := do
  modifyResources fun s => s.resources.addPendingMemUsage account memDelta
  modifyContext fun tc => if 0 < memDelta then
    { tc with validateMemUsage := insert account tc.validateMemUsage } else tc

/-- The intrinsic `set_resource_limits`: a lowered memory limit is verified in the end. -/
def setResourceLimits (account : Name) (limits : AccountLimits) : ContextM Unit := do
  check fun _ => do
    ineAssert (-1 ≤ limits.memBytes) .wasmExecutionError
      "invalid value for ram resource limit expected [-1,INT64_MAX]"
    ineAssert (-1 ≤ limits.netWeight) .wasmExecutionError
      "invalid value for net resource weight expected [-1,INT64_MAX]"
    ineAssert (-1 ≤ limits.cpuWeight) .wasmExecutionError
      "invalid value for cpu resource weight expected [-1,INT64_MAX]"
  let decreased ← check fun s => (s.resources.setAccountLimits account limits).map Prod.fst
  modifyResources fun s => (s.resources.setAccountLimits account limits).map Prod.snd
  modifyContext fun tc => if decreased then
    { tc with validateMemUsage := insert account tc.validateMemUsage } else tc

/-- The first part of `init`: the objective limits. -/
def setObjectiveLimits : ContextM Unit := do
  check fun s => ineAssert (¬ s.context.isInitialized) .transactionException
    "cannot initialize twice"
  let s ← get
  modifyContext (withObjectiveLimits s.configuration s.resources)
  -- fail early if the amount to be billed is too high
  check fun s => if s.context.explicitBilledCpuTime then
      s.context.validateCpuUsageToBill control s.configuration s.context.billedCpuTimeUs
        (2 ^ 63 - 1) false
    else pure ()

/-- The second part of `init`: the accounts to be billed, brought up to the
time of the block. -/
def recordBilledAccounts : ContextM Unit := do
  modifyContext (withBilledAccounts control)
  modifyResources fun s =>
    s.resources.updateAccountUsage s.context.billToAccounts control.pendingSlot

/-- The last part of `init`: what the accounts can pay, and the usage that the
transaction starts with. -/
def applyAccountLimits (initialNetUsage : ℕ) (expired : Bool) : ContextM Unit := do
  let b ← check fun s => s.context.maxBandwidthBilledAccountsCanPay control s.resources false
  let s ← get
  modifyContext (·.withAccountLimits s.configuration b)
  -- if account no longer has enough cpu to exec trx, don't try
  check fun s => if s.context.explicitBilledCpuTime then pure ()
    else s.context.validateAccountCpuUsage control s.context.billedCpuTimeUs b.cpu
  modifyContext fun tc => { tc with eagerNetLimit := tc.eagerNetLimit / 8 * 8 }
  (if 0 < initialNetUsage then addNetUsage control initialNetUsage else pure ())
  check fun s => s.context.checktime expired
  modifyContext fun tc => { tc with isInitialized := true }

def init (initialNetUsage : ℕ) (expired : Bool) : ContextM Unit := do
  setObjectiveLimits control
  recordBilledAccounts control
  applyAccountLimits control initialNetUsage expired

/-- `finalize` up to its last call: what it checks and works out. -/
def finalizeChecks (now : ℤ) : ContextM Unit := do
  check fun s => ineAssert s.context.isInitialized .transactionException "must first initialize"
  check fun s => (flatSet s.context.validateMemUsage).forM s.resources.verifyAccountMemUsage
  let b ← check fun s => s.context.maxBandwidthBilledAccountsCanPay control s.resources false
  modifyContext (·.withFinalLimits b)
  modifyContext roundNetUsage
  check fun s => s.context.checkNetUsage control
  let s ← get
  modifyContext (updateBilledCpuTime s.configuration now)
  check fun s => s.context.validateCpuUsageToBill control s.configuration
    s.context.billedCpuTimeUs b.cpu true

/-- The call of `finalize` that should never fail. -/
def billTransaction : ContextM Unit :=
  modifyResources fun s => s.resources.addTransactionUsage s.context.billToAccounts
    (castU64 s.context.billedCpuTimeUs) s.context.netUsage control.pendingSlot

def finalize (now : ℤ) : ContextM Unit := do
  finalizeChecks control now
  billTransaction control

end ContextM

/-- What the execution of actions does to a transaction's state, one call at a
time. -/
inductive ExecutionCall where
  | addNetUsage (u : ℕ)
  | addMemUsage (account : Name) (memDelta : ℤ)
  | setResourceLimits (account : Name) (limits : AccountLimits)
  | initializeAccount (account : Name)
  | setBlockchainParameters (configuration : ChainConfig)
  | pauseBillingTimer (now : ℤ)
  | resumeBillingTimer (now : ℤ)
  | checktime (expired : Bool)

namespace ExecutionCall

open ContextM

def run (control : Control) : ExecutionCall → ContextM Unit
  | addNetUsage u => ContextM.addNetUsage control u
  | addMemUsage account memDelta => ContextM.addMemUsage account memDelta
  | setResourceLimits account limits => ContextM.setResourceLimits account limits
  | initializeAccount account => modifyResources fun s => s.resources.initializeAccount account
  | setBlockchainParameters configuration => Stateful.modify fun s => { s with configuration }
  | pauseBillingTimer now => modifyContext (TransactionContext.pauseBillingTimer now)
  | resumeBillingTimer now => modifyContext (TransactionContext.resumeBillingTimer now)
  | checktime expired => check fun s => s.context.checktime expired

end ExecutionCall

def ContextM.exec (control : Control) (calls : List ExecutionCall) : ContextM Unit :=
  calls.forM (ExecutionCall.run control)

/-- A transaction from its start to its billing. -/
def ContextM.applyTransaction (control : Control) (initialNetUsage : ℕ) (expired : Bool)
    (calls : List ExecutionCall) (now : ℤ) : ContextM Unit := do
  init control initialNetUsage expired
  exec control calls
  finalize control now

/-- The hard-fail branch of `push_scheduled_transaction` when producing, up to
its last call: cpu is capped to what the accounts can pay and to the limit the
transaction started with. -/
def capHardFail (control : Control) (tc : TransactionContext) (m : ResourceLimitsManager)
    (cpuTimeToBillUs : ℕ) (explicitBilledCpuTime : Bool) :
    Result (ℕ × ResourceLimitsManager) := do
  let m ← m.updateAccountUsage tc.billToAccounts control.pendingSlot
  let b ← tc.maxBandwidthBilledAccountsCanPay control m true
  let limited := u32 (castU64 (min (min cpuTimeToBillUs b.cpu) tc.initialObjectiveDurationLimit))
  ineAssert (¬ explicitBilledCpuTime ∨ cpuTimeToBillUs = limited) .transactionException
    "cpu to bill ${cpu} != limited ${limit}"
  pure (limited, m)

end Inery.Chain
