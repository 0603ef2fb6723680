import Inery.Chain.Types
import Inery.Foundation.Metering
import Inery.Foundation.RowLoop

/-!
# Resource limits (`resource_limits.cpp`, `resource_limits_private.hpp`)

Every account that authorizes a transaction is billed for cpu time and net size through a moving
average, and pays for its memory by the byte.  The code treats cpu and net alike, line by line; here
one definition takes the resource as an argument, and the functions of the source are its two cases.
An account without its two objects makes a lookup throw `out_of_range`.
-/

namespace Inery.Chain

open Foundation Multiset

def u128 (n : ℕ) : ℕ := n % 2 ^ 128

/-- The elements of a `flat_set` of names, in ascending order. -/
def flatSet (s : Finset Name) : List Name := (ascending (s.val.map UInt64.toNat)).map UInt64.ofNat

theorem map_toNat_flatSet (s : Finset Name) :
    ((flatSet s : List Name) : Multiset Name) = s.val := by
  have hback : ∀ n : Name, UInt64.ofNat n.toNat = n := fun n => UInt64.ofNat_toNat
  rw [flatSet, ← map_coe, coe_ascending, map_map]
  simp [hback]

theorem mem_flatSet {s : Finset Name} {a : Name} : a ∈ flatSet s ↔ a ∈ s := by
  rw [← mem_coe, map_toNat_flatSet, Finset.mem_val]

theorem nodup_flatSet (s : Finset Name) : (flatSet s).Nodup := by
  rw [← coe_nodup, map_toNat_flatSet]
  exact s.nodup

namespace Config

def rateLimitingPrecision : ℕ := 1000 * 1000

def maximumElasticResourceMultiplier : ℕ := 1000

def transactionIdNetUsage : ℕ := 32

/-- `account_cpu_usage_average_window_ms / block_interval_ms`, one day. -/
def accountUsageAverageWindow : ℕ := 24 * 60 * 60 * 1000 / 500

/-- `block_cpu_usage_average_window_ms / block_interval_ms`, one minute. -/
def blockUsageAverageWindow : ℕ := 60 * 1000 / 500

end Config

open Config

/-! ## The accumulator -/

def integerDivideCeil (num den : ℕ) : ℕ := num / den + if 0 < num % den then 1 else 0

/-- `downgrade_cast` to an unsigned or signed 64-bit type with this maximum. -/
def downgradeCast (max val : ℕ) : Result ℕ := do
  ineAssert (val ≤ max) .rateLimitingStateInconsistent
    "Casting a higher bit integer value ${v} to a lower bit integer value which cannot contain the value, valid range is [${min}, ${max}]"
  pure val

structure Ratio where
  numerator : ℕ
  denominator : ℕ
deriving DecidableEq

/-- `operator*` of a value and a ratio. -/
def Ratio.scale (value : ℕ) (r : Ratio) : Result ℕ := do
  ineAssert (r.numerator = 0 ∨ value ≤ (2 ^ 64 - 1) / r.numerator) .rateLimitingStateInconsistent
    "Usage exceeds maximum value representable after extending for precision"
  pure (value * r.numerator / r.denominator)

/-- `exponential_moving_average_accumulator`. -/
structure UsageAccumulator where
  lastOrdinal : ℕ := 0
  valueEx : ℕ := 0
  consumed : ℕ := 0
deriving DecidableEq

namespace UsageAccumulator

def maxRawValue : ℕ := (2 ^ 64 - 1) / rateLimitingPrecision

variable (acc : UsageAccumulator)

def average : ℕ := integerDivideCeil acc.valueEx rateLimitingPrecision

/-- The decay of the value when a new ordinal is reached. -/
def decayedValue (ordinal windowSize : ℕ) : Result ℕ :=
  if ordinal < acc.lastOrdinal + windowSize then
    Ratio.scale acc.valueEx ⟨windowSize - (ordinal - acc.lastOrdinal), windowSize⟩
  else pure 0

def advance (ordinal windowSize : ℕ) : Result UsageAccumulator :=
  if acc.lastOrdinal ≠ ordinal then do
    ineAssert (acc.lastOrdinal < ordinal) .resourceLimitException
      "new ordinal cannot be less than the previous ordinal"
    let valueEx ← acc.decayedValue ordinal windowSize
    pure ⟨ordinal, valueEx, integerDivideCeil valueEx rateLimitingPrecision⟩
  else pure acc

def add (units ordinal windowSize : ℕ) : Result UsageAccumulator := do
  ineAssert (units ≤ maxRawValue) .rateLimitingStateInconsistent
    "Usage exceeds maximum value representable after extending for precision"
  ineAssert (units ≤ 2 ^ 64 - 1 - acc.consumed) .rateLimitingStateInconsistent
    "Overflow in tracked usage when adding usage!"
  let contrib ← downgradeCast (2 ^ 64 - 1)
    (integerDivideCeil (units * rateLimitingPrecision) windowSize)
  ineAssert (contrib ≤ 2 ^ 64 - 1 - acc.valueEx) .rateLimitingStateInconsistent
    "Overflow in accumulated value when adding usage!"
  let acc ← acc.advance ordinal windowSize
  pure { acc with valueEx := acc.valueEx + contrib, consumed := acc.consumed + units }

end UsageAccumulator

/-! ## The objects -/

structure ElasticLimitParameters where
  target : ℕ
  max : ℕ
  periods : ℕ
  maxMultiplier : ℕ
  contractRate : Ratio
  expandRate : Ratio
deriving DecidableEq

/-- `resource_limits_object`; negative is unlimited. -/
structure AccountLimits where
  netWeight : ℤ := -1
  cpuWeight : ℤ := -1
  memBytes : ℤ := -1
deriving DecidableEq

structure ResourceUsage where
  netUsage : UsageAccumulator := {}
  cpuUsage : UsageAccumulator := {}
  memUsage : ℕ := 0
deriving DecidableEq

/-- `INE_PERCENT` of the default maximum, in hundredths of a percent. -/
def inePercent (value percentage : ℕ) : ℕ := u64 (value * percentage) / 10000

structure ResourceConfig where
  cpuLimitParameters : ElasticLimitParameters :=
    ⟨inePercent 200000 1000, 200000, blockUsageAverageWindow, 1000, ⟨99, 100⟩, ⟨1000, 999⟩⟩
  netLimitParameters : ElasticLimitParameters :=
    ⟨inePercent (1024 * 1024) 1000, 1024 * 1024, blockUsageAverageWindow, 1000,
      ⟨99, 100⟩, ⟨1000, 999⟩⟩
  accountCpuUsageAverageWindow : ℕ := accountUsageAverageWindow
  accountNetUsageAverageWindow : ℕ := accountUsageAverageWindow
deriving DecidableEq

open ResourceConfig

structure ResourceState where
  averageBlockNetUsage : UsageAccumulator := {}
  averageBlockCpuUsage : UsageAccumulator := {}
  pendingNetUsage : ℕ := 0
  pendingCpuUsage : ℕ := 0
  totalNetWeight : ℕ := 0
  totalCpuWeight : ℕ := 0
  totalMemBytes : ℕ := 0
  virtualNetLimit : ℕ := 0
  virtualCpuLimit : ℕ := 0
deriving DecidableEq

open ResourceState

/-- The tables that `resource_limits_manager` works on.  The limits are keyed
by owner, those not yet in force in a table of their own. -/
structure ResourceLimitsManager where
  limits : Table Name AccountLimits := ∅
  pendingLimits : Table Name AccountLimits := ∅
  usage : Table Name ResourceUsage := ∅
  config : ResourceConfig := {}
  state : ResourceState := {}
deriving DecidableEq

/-- `_db.get`: the object with this key. -/
def getObject {α : Type} (t : Table Name α) (a : Name) : Result α :=
  match t.lookup a with
  | some v => pure v
  | none => .error ⟨.stdOutOfRange, "unknown key"⟩

/-! ## The two billed resources -/

/-- What the moving averages are kept for. -/
inductive Resource where
  | cpu
  | net
deriving DecidableEq

namespace Resource

def accumulator : Resource → ResourceUsage → UsageAccumulator
  | .cpu => ResourceUsage.cpuUsage
  | .net => ResourceUsage.netUsage

def weight : Resource → AccountLimits → ℤ
  | .cpu => AccountLimits.cpuWeight
  | .net => AccountLimits.netWeight

def totalWeight : Resource → ResourceState → ℕ
  | .cpu => totalCpuWeight
  | .net => totalNetWeight

def virtualLimit : Resource → ResourceState → ℕ
  | .cpu => virtualCpuLimit
  | .net => virtualNetLimit

def pendingUsage : Resource → ResourceState → ℕ
  | .cpu => pendingCpuUsage
  | .net => pendingNetUsage

def window : Resource → ResourceConfig → ℕ
  | .cpu => accountCpuUsageAverageWindow
  | .net => accountNetUsageAverageWindow

def parameters : Resource → ResourceConfig → ElasticLimitParameters
  | .cpu => cpuLimitParameters
  | .net => netLimitParameters

def exceeded : Resource → ChainException
  | .cpu => ⟨.txCpuUsageExceeded,
      "authorizing account '${n}' has insufficient cpu resources for this transaction"⟩
  | .net => ⟨.txNetUsageExceeded,
      "authorizing account '${n}' has insufficient net resources for this transaction"⟩

def exhausted : Resource → String
  | .cpu => "Block has insufficient cpu resources"
  | .net => "Block has insufficient net resources"

end Resource

/-! ## Elastic limits -/

def updateElasticLimit (currentLimit averageUsage : ℕ) (params : ElasticLimitParameters) :
    Result ℕ := do
  let result ← Ratio.scale currentLimit
    (if params.target < averageUsage then params.contractRate else params.expandRate)
  pure (min (max result params.max) (u64 (params.max * params.maxMultiplier)))

def ElasticLimitParameters.validate (params : ElasticLimitParameters) : Result Unit := do
  ineAssert (0 < params.periods) .resourceLimitException
    "elastic limit parameter 'periods' cannot be zero"
  ineAssert (0 < params.contractRate.denominator) .resourceLimitException
    "elastic limit parameter 'contract_rate' is not a well-defined ratio"
  ineAssert (0 < params.expandRate.denominator) .resourceLimitException
    "elastic limit parameter 'expand_rate' is not a well-defined ratio"

namespace ResourceLimitsManager

def initializeDatabase : ResourceLimitsManager :=
  let config : ResourceConfig := {}
  { config
    state := { virtualCpuLimit := config.cpuLimitParameters.max
               virtualNetLimit := config.netLimitParameters.max } }

variable (m : ResourceLimitsManager) (account : Name)

/-- `initialize_account`: both creations fail on an owner that is present. -/
def initializeAccount : Result ResourceLimitsManager := do
  ineAssert (account ∉ m.limits ∧ account ∉ m.usage) .stdLogicError
    "could not insert object, most likely a uniqueness constraint was violated"
  pure { m with limits := m.limits.insert account {}, usage := m.usage.insert account {} }

def setBlockParameters (cpuLimitParameters netLimitParameters : ElasticLimitParameters) :
    Result ResourceLimitsManager := do
  cpuLimitParameters.validate
  netLimitParameters.validate
  pure { m with config := { m.config with cpuLimitParameters, netLimitParameters } }

/-! ## Limits of an account -/

/-- `get_account_limits`: the pending limits when there are any. -/
def getAccountLimits : Result AccountLimits :=
  match m.pendingLimits.lookup account with
  | some limits => pure limits
  | none => getObject m.limits account

/-- `set_account_limits`: also tells whether the memory limit went down. -/
def setAccountLimits (new : AccountLimits) : Result (Bool × ResourceLimitsManager) := do
  let limits ← m.getAccountLimits account
  pure (0 ≤ new.memBytes ∧ (limits.memBytes < 0 ∨ new.memBytes < limits.memBytes),
    { m with pendingLimits := m.pendingLimits.insert account new })

/-- `update_state_and_value`: the total after one value in it is replaced. -/
def updateStateAndValue (total : ℕ) (value pendingValue : ℤ) : Result ℕ := do
  ineAssert (0 < value → value ≤ total) .rateLimitingStateInconsistent
    "underflow when reverting old value to ${which}"
  let total := if 0 < value then total - value.toNat else total
  ineAssert (0 < pendingValue → pendingValue ≤ 2 ^ 64 - 1 - total) .rateLimitingStateInconsistent
    "overflow when applying new value to ${which}"
  pure (if 0 < pendingValue then total + pendingValue.toNat else total)

def processAccountLimitUpdate (owner : Name) : Result ResourceLimitsManager := do
  let pending ← getObject m.pendingLimits owner
  let actual ← getObject m.limits owner
  let totalMemBytes ← updateStateAndValue m.state.totalMemBytes actual.memBytes pending.memBytes
  let totalCpuWeight ←
    updateStateAndValue m.state.totalCpuWeight actual.cpuWeight pending.cpuWeight
  let totalNetWeight ←
    updateStateAndValue m.state.totalNetWeight actual.netWeight pending.netWeight
  pure { m with
    limits := m.limits.insert owner pending
    pendingLimits := m.pendingLimits.erase owner
    state := { m.state with totalMemBytes, totalCpuWeight, totalNetWeight } }

def processAccountLimitUpdates : Result ResourceLimitsManager :=
  (flatSet m.pendingLimits.keys).foldlM processAccountLimitUpdate m

/-! ## Usage of an account -/

def setUsage (usage : ResourceUsage) : ResourceLimitsManager :=
  { m with usage := m.usage.insert account usage }

def addUsage (usage : ResourceUsage) (cpuUsage netUsage timeSlot : ℕ) : Result ResourceUsage := do
  let net ← usage.netUsage.add netUsage timeSlot m.config.accountNetUsageAverageWindow
  let cpu ← usage.cpuUsage.add cpuUsage timeSlot m.config.accountCpuUsageAverageWindow
  pure { usage with netUsage := net, cpuUsage := cpu }

def updateUsage (timeSlot : ℕ) (m : ResourceLimitsManager) (account : Name) :
    Result ResourceLimitsManager := do
  let usage ← getObject m.usage account
  let usage ← m.addUsage usage 0 0 timeSlot
  pure (m.setUsage account usage)

def updateAccountUsage (accounts : Finset Name) (timeSlot : ℕ) : Result ResourceLimitsManager :=
  (flatSet accounts).foldlM (updateUsage timeSlot) m

def verifyAccountMemUsage : Result Unit := do
  let limits ← m.getAccountLimits account
  let usage ← getObject m.usage account
  ineAssert (0 ≤ limits.memBytes → usage.memUsage ≤ limits.memBytes) .memUsageExceeded
    "account ${account} has insufficient mem; needs ${needs} bytes has ${available} bytes"

def addPendingMemUsage (memDelta : ℤ) : Result ResourceLimitsManager :=
  if memDelta = 0 then pure m
  else do
    let usage ← getObject m.usage account
    ineAssert (memDelta ≤ 0 ∨ memDelta ≤ 2 ^ 64 - 1 - usage.memUsage) .transactionException
      "Mem usage delta would overflow UINT64_MAX"
    ineAssert (0 ≤ memDelta ∨ -memDelta ≤ usage.memUsage) .transactionException
      "Mem usage delta would underflow UINT64_MAX"
    pure (m.setUsage account { usage with memUsage := (usage.memUsage + memDelta).toNat })

/-! ## What an account may use -/

variable (r : Resource)

/-- `max_user_use_in_window` at a virtual limit.  The capacity of the window
fits in 96 bits; its product with the weight is taken in 128. -/
def maxUse (m : ResourceLimitsManager) (virtualLimit : ℕ) (weight : ℤ) : ℕ :=
  u128 (virtualLimit * r.window m.config * weight.toNat) / r.totalWeight m.state

/-- The `max_user_use_in_window` that `add_transaction_usage` computes for an
account with these limits; an account without a weight is not limited. -/
def maxUserUseInWindow (m : ResourceLimitsManager) (limits : AccountLimits) : Option ℕ :=
  if 0 ≤ r.weight limits ∧ 0 < r.totalWeight m.state then
    some (m.maxUse r (r.virtualLimit m.state) (r.weight limits))
  else none

/-- The check of `add_transaction_usage` on an account's average. -/
def checkUsedInWindow (m : ResourceLimitsManager) (limits : AccountLimits)
    (usage : ResourceUsage) : Result Unit :=
  let usedInWindow := (r.accumulator usage).valueEx * r.window m.config / rateLimitingPrecision
  ensure (∀ most ∈ m.maxUserUseInWindow r limits, usedInWindow ≤ most) r.exceeded

def chargeAccount (cpuUsage netUsage timeSlot : ℕ) (m : ResourceLimitsManager) (account : Name) :
    Result ResourceLimitsManager := do
  let usage ← getObject m.usage account
  let limits ← m.getAccountLimits account
  m.verifyAccountMemUsage account
  let charged ← m.addUsage usage cpuUsage netUsage timeSlot
  let charged := { charged with memUsage := u64 (charged.memUsage + transactionIdNetUsage) }
  let m := m.setUsage account charged
  m.checkUsedInWindow .cpu limits charged
  m.checkUsedInWindow .net limits charged
  m.verifyAccountMemUsage account
  pure m

/-- The block's own account of the transaction. -/
def chargeBlock (cpuUsage netUsage : ℕ) : Result ResourceLimitsManager := do
  let m := { m with state := { m.state with
    pendingCpuUsage := u64 (m.state.pendingCpuUsage + cpuUsage)
    pendingNetUsage := u64 (m.state.pendingNetUsage + netUsage) } }
  ineAssert (m.state.pendingCpuUsage ≤ m.config.cpuLimitParameters.max) .blockResourceExhausted
    Resource.cpu.exhausted
  ineAssert (m.state.pendingNetUsage ≤ m.config.netLimitParameters.max) .blockResourceExhausted
    Resource.net.exhausted
  pure m

def addTransactionUsage (accounts : Finset Name)
    (cpuUsage netUsage timeSlot : ℕ) : Result ResourceLimitsManager := do
  let m ← (flatSet accounts).foldlM (chargeAccount cpuUsage netUsage timeSlot) m
  m.chargeBlock cpuUsage netUsage

/-! ## Limits of the block -/

def processBlockUsage (blockNum : ℕ) : Result ResourceLimitsManager := do
  let s := m.state
  let averageBlockCpuUsage ←
    s.averageBlockCpuUsage.add s.pendingCpuUsage blockNum m.config.cpuLimitParameters.periods
  let virtualCpuLimit ← updateElasticLimit s.virtualCpuLimit averageBlockCpuUsage.average
    m.config.cpuLimitParameters
  let averageBlockNetUsage ←
    s.averageBlockNetUsage.add s.pendingNetUsage blockNum m.config.netLimitParameters.periods
  let virtualNetLimit ← updateElasticLimit s.virtualNetLimit averageBlockNetUsage.average
    m.config.netLimitParameters
  pure { m with state := { s with
    averageBlockCpuUsage, virtualCpuLimit, averageBlockNetUsage, virtualNetLimit
    pendingCpuUsage := 0, pendingNetUsage := 0 } }

/-- `get_block_cpu_limit` and `get_block_net_limit`: a difference of two
`uint64_t` values. -/
def getBlockLimit (m : ResourceLimitsManager) : ℕ :=
  u64 ((r.parameters m.config).max + (2 ^ 64 - r.pendingUsage m.state % 2 ^ 64))

structure AccountResourceLimit where
  used : ℤ
  available : ℤ
  max : ℤ
deriving DecidableEq

/-- The virtual limit that a greylisted account sees, and whether it is less
than the one of the block. -/
def greylistedVirtualLimit (m : ResourceLimitsManager) (greylistLimit : ℕ) : ℕ × Bool :=
  let greylisted := u64 ((r.parameters m.config).max * greylistLimit)
  if greylistLimit < maximumElasticResourceMultiplier ∧ greylisted < r.virtualLimit m.state then
    (greylisted, true)
  else (r.virtualLimit m.state, false)

def getAccountLimitEx (m : ResourceLimitsManager) (account : Name)
    (greylistLimit : ℕ) : Result (AccountResourceLimit × Bool) := do
  let usage ← getObject m.usage account
  let limits ← m.getAccountLimits account
  if r.weight limits < 0 ∨ r.totalWeight m.state = 0 then
    pure (⟨-1, -1, -1⟩, false)
  else do
    let (virtualLimit, greylisted) := m.greylistedVirtualLimit r greylistLimit
    let maxUserUseInWindow := m.maxUse r virtualLimit (r.weight limits)
    let usedInWindow := integerDivideCeil
      ((r.accumulator usage).valueEx * r.window m.config) rateLimitingPrecision
    let available ← downgradeCast (2 ^ 63 - 1) (maxUserUseInWindow - usedInWindow)
    let used ← downgradeCast (2 ^ 63 - 1) usedInWindow
    let max ← downgradeCast (2 ^ 63 - 1) maxUserUseInWindow
    pure (⟨used, available, max⟩, greylisted)

def getAccountLimit (m : ResourceLimitsManager) (account : Name)
    (greylistLimit : ℕ) : Result (ℤ × Bool) := do
  let (arl, greylisted) ← m.getAccountLimitEx r account greylistLimit
  pure (arl.available, greylisted)

end ResourceLimitsManager

end Inery.Chain
