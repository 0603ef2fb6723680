import Inery.Chain.Merkle

/-!
# Producer schedules and block headers (`producer_schedule.hpp`, `block_header.hpp`)

Hashing and signature recovery live outside the development: they are the
fields of `HeaderCrypto`.  A block id is the header digest with the block
number written over its first four bytes.
-/

namespace Inery.Chain

abbrev PublicKey := ℕ

abbrev Signature := ℕ

structure KeyWeight where
  key : PublicKey
  weight : UInt16
deriving DecidableEq, Repr

structure BlockSigningAuthority where
  threshold : ℕ := 0
  keys : List KeyWeight := []
deriving DecidableEq, Repr

structure ProducerAuthority where
  producerName : Name
  authority : BlockSigningAuthority
deriving DecidableEq, Repr

structure ProducerAuthoritySchedule where
  version : ℕ := 0
  producers : List ProducerAuthority := []
deriving DecidableEq, Repr

structure ProducerKey where
  producerName : Name
  blockSigningKey : PublicKey
deriving DecidableEq, Repr

structure LegacyProducerSchedule where
  version : ℕ := 0
  producers : List ProducerKey := []
deriving DecidableEq, Repr

def LegacyProducerSchedule.toAuthoritySchedule (old : LegacyProducerSchedule) :
    ProducerAuthoritySchedule where
  version := old.version
  producers := old.producers.map fun p =>
    ⟨p.producerName, ⟨1, [⟨p.blockSigningKey, 1⟩]⟩⟩

/-- A header extension as it decodes: the two alternatives of
`block_header_extension`, or an id that nothing decodes. -/
inductive BlockHeaderExtension where
  | protocolFeatureActivation (protocolFeatures : List Digest)
  | producerScheduleChange (schedule : ProducerAuthoritySchedule)
  | unsupported (id : ℕ)
deriving DecidableEq, Repr

def BlockHeaderExtension.extensionId : BlockHeaderExtension → ℕ
  | .protocolFeatureActivation _ => 0
  | .producerScheduleChange _ => 1
  | .unsupported id => id

/-- Whether `decompose_t::extract` finds a type for the extension. -/
def BlockHeaderExtension.matched : BlockHeaderExtension → Bool
  | .unsupported _ => false
  | _ => true

/-- `signed_block_header`.  The extensions are kept decoded, in file order. -/
structure SignedBlockHeader where
  timestamp : Slot := 0
  producer : Name := 0
  confirmed : UInt16 := 1
  previous : BlockId := 0
  transactionMroot : Digest := 0
  actionMroot : Digest := 0
  scheduleVersion : ℕ := 0
  newProducers : Option LegacyProducerSchedule := none
  headerExtensions : List BlockHeaderExtension := []
  producerSignature : Signature := 0
deriving DecidableEq, Repr

inductive BuiltinProtocolFeature where
  | preactivateFeature
  | onlyLinkToExistingPermission
  | replaceDeferred
  | noDuplicateDeferredId
  | fixLinkauthRestriction
  | disallowEmptyProducerSchedule
  | restrictActionToSelf
  | onlyBillFirstAuthorizer
  | forwardSetcode
  | getSender
  | memRestrictions
  | webauthnKey
  | wtmsigBlockSignatures
deriving DecidableEq, Repr

/-- A check of activated protocol features against those a block adds at its time. -/
abbrev FeatureValidator := Slot → Finset Digest → List Digest → Result Unit

/-- What the header code takes from hashing, signature recovery and the
configured protocol feature set. -/
structure HeaderCrypto where
  /-- `block_header::digest()`, which does not see the signature. -/
  headerDigest : SignedBlockHeader → Digest
  hashPair : Digest → Digest → Digest
  hashLegacySchedule : LegacyProducerSchedule → Digest
  hashSchedule : ProducerAuthoritySchedule → Digest
  recoverKey : Signature → Digest → Result PublicKey
  /-- `protocol_feature_set::get_builtin_digest`. -/
  builtinDigest : BuiltinProtocolFeature → Option Digest
  /-- The protocol feature validator handed to `finish_next`. -/
  validator : FeatureValidator

def endianReverseU32 (x : BitVec 32) : BitVec 32 :=
  x.extractLsb' 0 8 ++ x.extractLsb' 8 8 ++ x.extractLsb' 16 8 ++ x.extractLsb' 24 8

def numFromId (id : BlockId) : ℕ := (endianReverseU32 (id.extractLsb' 0 32)).toNat

theorem endianReverseU32_endianReverseU32 (x : BitVec 32) :
    endianReverseU32 (endianReverseU32 x) = x := by
  apply BitVec.eq_of_getLsbD_eq
  intro i hi
  simp only [endianReverseU32, BitVec.getLsbD_append, BitVec.getLsbD_extractLsb']
  grind

theorem numFromId_append (upper : BitVec 224) (n : ℕ) :
    numFromId (upper ++ endianReverseU32 (BitVec.ofNat 32 n)) = u32 n := by
  have hlow : (upper ++ endianReverseU32 (BitVec.ofNat 32 n)).extractLsb' 0 32 =
      endianReverseU32 (BitVec.ofNat 32 n) := by
    rw [BitVec.extractLsb'_append_eq_right]
  rw [numFromId, hlow, endianReverseU32_endianReverseU32, BitVec.toNat_ofNat]
  rfl

def SignedBlockHeader.blockNum (h : SignedBlockHeader) : ℕ := u32 (numFromId h.previous + 1)

def SignedBlockHeader.id (crypto : HeaderCrypto) (h : SignedBlockHeader) : BlockId :=
  (crypto.headerDigest h &&& ~~~(0xffffffff#256)) +
    (endianReverseU32 (BitVec.ofNat 32 h.blockNum)).zeroExtend 256

/-- The loop of `validate_and_extract_header_extensions`.  `lowerBound` is
`none` at the first extension.  Both supported types enforce uniqueness. -/
def extractHeaderExtensions : Option ℕ → List BlockHeaderExtension →
    Result (List BlockHeaderExtension)
  | _, [] => pure []
  | lowerBound, e :: rest => do
      ineAssert (lowerBound.getD 0 ≤ e.extensionId) .invalidBlockHeaderExtension
        "Block header extensions are not in the correct order (ascending id types required)"
      ineAssert e.matched .invalidBlockHeaderExtension
        "Block header extension with id type ${id} is not supported"
      ineAssert (∀ bound ∈ lowerBound, bound < e.extensionId) .invalidBlockHeaderExtension
        "Block header extension with id type ${id} is not allowed to repeat"
      let results ← extractHeaderExtensions (some e.extensionId) rest
      pure (e :: results)

def SignedBlockHeader.validateAndExtractHeaderExtensions (h : SignedBlockHeader) :
    Result (List BlockHeaderExtension) :=
  extractHeaderExtensions none h.headerExtensions

def scheduleChange? : List BlockHeaderExtension → Option ProducerAuthoritySchedule
  | [] => none
  | .producerScheduleChange schedule :: _ => some schedule
  | _ :: rest => scheduleChange? rest

def featureActivation? : List BlockHeaderExtension → Option (List Digest)
  | [] => none
  | .protocolFeatureActivation features :: _ => some features
  | _ :: rest => featureActivation? rest

end Inery.Chain
