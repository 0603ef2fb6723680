import Inery.Foundation.Outcome
import Inery.Foundation.Table

/-!
# Chain types, exceptions and configuration

Names and digests, the exception classes that the modelled code throws, and the constants of
`config.hpp` it reads.  Machine integers are natural numbers with an explicit reduction wherever the
code can wrap: `u8`, `u32` and `u64` below.
-/

namespace Inery.Chain

open Foundation

/-! ## Machine arithmetic -/

/-- A value stored in a `uint8_t`. -/
def u8 (n : ℕ) : ℕ := n % 2 ^ 8

/-- A value stored in a `uint32_t`. -/
def u32 (n : ℕ) : ℕ := n % 2 ^ 32

/-- A value stored in a `uint64_t`. -/
def u64 (n : ℕ) : ℕ := n % 2 ^ 64

/-- Subtraction of two `uint32_t` values. -/
def u32Sub (a b : ℕ) : ℕ := u32 (a + (2 ^ 32 - b % 2 ^ 32))

/-- Predecessor of a `uint8_t`. -/
def u8Pred (n : ℕ) : ℕ := u8 (n + 255)

theorem u32_of_lt {n : ℕ} (h : n < 2 ^ 32) : u32 n = n := Nat.mod_eq_of_lt h

theorem u64_of_lt {n : ℕ} (h : n < 2 ^ 64) : u64 n = n := Nat.mod_eq_of_lt h

theorem u32_lt (n : ℕ) : u32 n < 2 ^ 32 := Nat.mod_lt _ (by decide)

theorem u32Sub_of_le {a b : ℕ} (ha : a < 2 ^ 32) (h : b ≤ a) : u32Sub a b = a - b := by
  unfold u32Sub u32
  omega

theorem u8Pred_of_pos {n : ℕ} (hn : 0 < n) (h : n < 2 ^ 8) : u8Pred n = n - 1 := by
  unfold u8Pred u8
  omega

/-! ## Names and digests -/

/-- `account_name`, `permission_name` and the other 64-bit names. -/
abbrev Name := UInt64

def Name.empty (n : Name) : Bool := n == 0

/-- `digest_type`, `checksum256_type`, `block_id_type`: 256 bits, word 0 lowest. -/
abbrev Digest := BitVec 256

abbrev BlockId := Digest

/-- Named, so that membership of ids is decided by one instance everywhere. -/
instance instLawfulBEqDigest : LawfulBEq Digest := inferInstance

/-! ## Times -/

/-- The slot of a `block_timestamp_type`. -/
abbrev Slot := UInt32

/-- `fc::time_point`, in microseconds. -/
abbrev TimePoint := ℤ

def Config.blockIntervalUs : ℤ := 500000

def Config.blockTimestampEpoch : ℤ := 946684800000

/-- The conversion of a `time_point` to a `block_timestamp`: an unsigned
difference of 64 bits, then a slot of 32 bits. -/
def blockTimestamp (t : TimePoint) : Slot :=
  UInt32.ofNat (((t.tdiv 1000 - Config.blockTimestampEpoch) % 2 ^ 64).toNat / 500)

def toTimePoint (slot : Slot) : TimePoint := (slot.toNat * 500 + Config.blockTimestampEpoch) * 1000

theorem toTimePoint_lt {s t : Slot} (h : s < t) : toTimePoint s < toTimePoint t := by
  have hnat : s.toNat < t.toNat := h
  change ((s.toNat : ℤ) * 500 + Config.blockTimestampEpoch) * 1000 <
    ((t.toNat : ℤ) * 500 + Config.blockTimestampEpoch) * 1000
  omega

/-! ## Exceptions -/

/-- The exception classes thrown by the modelled code.  `undefinedBehaviour` is not one of the
source: it marks a step that C++ leaves undefined, such as reading the last element of an empty
vector. -/
inductive ExceptionKind where
  | blockValidateException
  | unlinkableBlockException
  | producerDoubleConfirm
  | producerScheduleException
  | wrongProducer
  | wrongSigningKey
  | noBlockSignatures
  | invalidBlockHeaderExtension
  | forkDatabaseException
  | forkDbBlockNotFound
  | blockResourceExhausted
  | transactionException
  | txDuplicate
  | invalidRefBlockException
  | deferredTxDuplicate
  | disallowedTransactionExtensionsBadBlockException
  | protocolFeatureException
  | protocolFeatureBadBlockException
  | subjectiveBlockProductionException
  | actionValidateException
  | wasmExecutionError
  | accountNameExistsException
  | unauthorizedMemUsageIncrease
  | inlineActionTooBigNonprivileged
  | missingAuthException
  | permissionQueryException
  | accountQueryException
  | invalidPermission
  | irrelevantAuthException
  | unsatisfiedAuthorization
  | txIrrelevantSig
  | txNotFound
  | txTooBig
  | expiredTxException
  | txExpTooFarException
  | unlinkableMinPermissionAction
  | unactivatedKeyType
  | setExactCode
  | invalidContractVmType
  | invalidContractVmVersion
  | invalidTablePayer
  | invalidTableIterator
  | tableAccessViolation
  | tableOperationNotPermitted
  | tableNotInCache
  | resourceLimitException
  | rateLimitingStateInconsistent
  | memUsageExceeded
  | txNetUsageExceeded
  | blockNetUsageExceeded
  | greylistNetUsageExceeded
  | txCpuUsageExceeded
  | blockCpuUsageExceeded
  | greylistCpuUsageExceeded
  | deadlineException
  | leewayDeadlineException
  | actorWhitelistException
  | actorBlacklistException
  | databaseException
  | blockLogException
  | blockLogUnsupportedVersion
  | blockLogAppendFail
  | snapshotException
  | controllerEmitSignalException
  | symbolTypeException
  | pluginException
  | otherChainException
  | parseErrorException
  | fcStdException
  | stdLogicError
  | stdOutOfRange
  | stdBadAlloc
  | interprocessBadAlloc
  | undefinedBehaviour
deriving DecidableEq, Repr

structure ChainException where
  kind : ExceptionKind
  message : String
deriving DecidableEq, Repr

/-- `catch( const fc::exception& )` catches every class but those of the
standard library. -/
def ExceptionKind.isFc : ExceptionKind → Bool
  | .stdLogicError | .stdOutOfRange | .stdBadAlloc | .interprocessBadAlloc
  | .undefinedBehaviour => false
  | _ => true

/-- `FC_CAPTURE_AND_RETHROW`: an exception of the standard library becomes an
`fc::exception`; exhausted shared memory is passed on as it is. -/
def ChainException.capture (e : ChainException) : ChainException :=
  match e.kind with
  | .stdLogicError | .stdOutOfRange | .stdBadAlloc => ⟨.fcStdException, e.message⟩
  | _ => e

/-- `INE_RETHROW_EXCEPTIONS`: a chain exception and exhausted memory are passed on, anything else
becomes the given exception. -/
def ChainException.rethrow (e new : ChainException) : ChainException :=
  match e.kind with
  | .parseErrorException | .fcStdException | .stdLogicError | .stdOutOfRange => new
  | _ => e

abbrev Result (α : Type) := Except ChainException α

/-- `INE_ASSERT( c, kind, message )`. -/
def ineAssert (c : Prop) [Decidable c] (kind : ExceptionKind) (message : String) : Result Unit :=
  ensure c ⟨kind, message⟩

@[simp] theorem ineAssert_eq_ok {c : Prop} [Decidable c] {kind : ExceptionKind}
    {message : String} {u : Unit} :
    ineAssert c kind message = .ok u ↔ c := ensure_eq_ok

@[simp] theorem ineAssert_eq_error {c : Prop} [Decidable c]
    {kind : ExceptionKind} {message : String} {e : ChainException} :
    ineAssert c kind message = .error e ↔ ¬ c ∧ ⟨kind, message⟩ = e :=
  ensure_eq_error

/-! ## `config.hpp` -/

namespace Config

/-- The number of sequential blocks produced by a single producer. -/
def producerRepetitions : ℕ := 1

def maxProducers : ℕ := 102

def maximumTrackedDposConfirmations : ℕ := 1024

/-- `config::system_account_name`, the name `inery`. -/
def systemAccountName : Name := 0x74d57f0000000000

def activeName : Name := 0x3232eda800000000

def ineryAnyName : Name := 0x74d57f00d3f00000

end Config

end Inery.Chain
