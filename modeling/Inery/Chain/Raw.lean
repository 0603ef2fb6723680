import Inery.Chain.BlockHeaderState
import Inery.Foundation.Format

/-!
# The layout of header states (`raw.hpp`, `block_header_state.hpp`)

`fc::raw` writes a reflected type field by field, bases first.  How keys and signatures are written
is a parameter.  The header extensions of a header are kept decoded; in the file each is its id and
its own bytes.  One that nothing decodes is never written: its block state does not come into being.
-/

namespace Inery.Chain

open Foundation List

namespace Config

def maxNumArrayElements : ℕ := 1024 * 1024

def maxSizeOfByteArrays : ℕ := 20 * 1024 * 1024

end Config

open Config

/-- `fc::raw` for `std::vector<T>`. -/
def vectorFormat {α : Type} (f : Format α) : Format (List α) := .list maxNumArrayElements f

/-- `fc::raw` for `std::vector<char>`. -/
def bytesFormat : Format Bytes := .bytes maxSizeOfByteArrays

theorem digest_toNat_lt (d : Digest) : d.toNat < 256 ^ 32 := by
  have hpow : 256 ^ 32 = 2 ^ 256 := by decide
  rw [hpow]
  exact d.isLt

/-- The 32 bytes of a `sha256`. -/
def digestFormat : Format Digest :=
  .record BitVec.toNat (BitVec.ofNat 256) (fun d => BitVec.ofNat_toNat 256 d) (.uint 32)

theorem leBytes_digest_inj {d d' : Digest} (h : leBytes 32 d.toNat = leBytes 32 d'.toNat) :
    d = d' := by
  apply BitVec.eq_of_toNat_eq
  rw [← ofLeBytes_leBytes (digest_toNat_lt d), h, ofLeBytes_leBytes (digest_toNat_lt d')]

/-- The order of `memcmp`: the first byte counts most. -/
def digestKey (d : Digest) : ℕ := ofLeBytes (leBytes 32 d.toNat).reverse

theorem digestKey_injective : Function.Injective digestKey := by
  intro d d' h
  have hbytes : ∀ d : Digest, leBytes 32 (digestKey d) = (leBytes 32 d.toNat).reverse := by
    intro d
    have hall := leBytes_ofLeBytes (leBytes 32 d.toNat).reverse
    rw [length_reverse, length_leBytes] at hall
    exact hall
  apply leBytes_digest_inj
  rw [← reverse_inj, ← hbytes d, h, hbytes d']

/-- How keys and signatures are written. -/
structure KeyFormats where
  publicKey : Format PublicKey
  signature : Format Signature

namespace KeyFormats

variable (keys : KeyFormats)

def keyWeight : Format KeyWeight :=
  .record (fun k => (k.key, k.weight)) (fun p => ⟨p.1, p.2⟩) (fun _ => rfl)
    (.prod keys.publicKey .uint16)

/-- `block_signing_authority`, a `static_variant` with one alternative. -/
def blockSigningAuthority : Format BlockSigningAuthority :=
  .tagged 0 (.record (fun a => (a.threshold, a.keys)) (fun p => ⟨p.1, p.2⟩) (fun _ => rfl)
    (.prod (.uint 4) (vectorFormat keys.keyWeight)))

def producerAuthoritySchedule : Format ProducerAuthoritySchedule :=
  .record (fun s => (s.version, s.producers)) (fun p => ⟨p.1, p.2⟩) (fun _ => rfl)
    (.prod (.uint 4) (vectorFormat
      (.record (fun p => (p.producerName, p.authority)) (fun p => ⟨p.1, p.2⟩) (fun _ => rfl)
        (.prod .uint64 keys.blockSigningAuthority))))

def legacyProducerSchedule : Format LegacyProducerSchedule :=
  .record (fun s => (s.version, s.producers)) (fun p => ⟨p.1, p.2⟩) (fun _ => rfl)
    (.prod (.uint 4) (vectorFormat
      (.record (fun p => (p.producerName, p.blockSigningKey)) (fun p => ⟨p.1, p.2⟩) (fun _ => rfl)
        (.prod .uint64 keys.publicKey))))

def extensionBytes : BlockHeaderExtension → Option (UInt16 × Bytes)
  | .protocolFeatureActivation features => ((vectorFormat digestFormat).pack features).map (0, ·)
  | .producerScheduleChange schedule => (keys.producerAuthoritySchedule.pack schedule).map (1, ·)
  | .unsupported _ => none

/-- `decompose_t::extract`. -/
def extractExtension (r : Reader ℕ) (e : UInt16 × Bytes) : Option BlockHeaderExtension :=
  if e.1 = 0 then
    ((vectorFormat digestFormat).unpack r e.2).map fun p => .protocolFeatureActivation p.1
  else if e.1 = 1 then
    (keys.producerAuthoritySchedule.unpack r e.2).map fun p => .producerScheduleChange p.1
  else some (.unsupported e.1.toNat)

theorem extract_extensionBytes {r : Reader ℕ} (hr : ReadsVarints r) {e : BlockHeaderExtension}
    {p : UInt16 × Bytes} (h : keys.extensionBytes e = some p) :
    keys.extractExtension r p = some e := by
  cases e with
  | protocolFeatureActivation features =>
    obtain ⟨w, hw, rfl⟩ := Option.map_eq_some_iff.mp h
    have hread := (vectorFormat digestFormat).unpack_pack hr hw []
    rw [append_nil] at hread
    rw [extractExtension, if_pos rfl, hread]
    rfl
  | producerScheduleChange schedule =>
    obtain ⟨w, hw, rfl⟩ := Option.map_eq_some_iff.mp h
    have hread := keys.producerAuthoritySchedule.unpack_pack hr hw []
    rw [append_nil] at hread
    rw [extractExtension, if_neg (show (1 : UInt16) ≠ 0 by decide), if_pos rfl, hread]
    rfl
  | unsupported id => cases h

def headerExtension : Format BlockHeaderExtension where
  pack e := do
    let p ← keys.extensionBytes e
    (Format.prod .uint16 bytesFormat).pack p
  unpack r := do
    let p ← (Format.prod .uint16 bytesFormat).unpack r
    match keys.extractExtension r p with
    | some e => pure e
    | none => failure
  unpack_pack := by
    intro r hr e bs h rest
    obtain ⟨p, hp, h⟩ := Option.bind_eq_some_iff.mp h
    rw [Reader.bind_of_some ((Format.prod .uint16 bytesFormat).unpack_pack hr h rest),
      keys.extract_extensionBytes hr hp]
    rfl

def signedBlockHeader : Format SignedBlockHeader := .record
    (fun h => (h.timestamp, h.producer, h.confirmed, h.previous, h.transactionMroot, h.actionMroot,
      h.scheduleVersion, h.newProducers, h.headerExtensions, h.producerSignature))
    (fun p => ⟨p.1, p.2.1, p.2.2.1, p.2.2.2.1, p.2.2.2.2.1, p.2.2.2.2.2.1, p.2.2.2.2.2.2.1,
      p.2.2.2.2.2.2.2.1, p.2.2.2.2.2.2.2.2.1, p.2.2.2.2.2.2.2.2.2⟩)
    (fun _ => rfl)
    (.prod .uint32 (.prod .uint64 (.prod .uint16 (.prod digestFormat (.prod digestFormat
      (.prod digestFormat (.prod (.uint 4) (.prod (.option keys.legacyProducerSchedule)
        (.prod (vectorFormat keys.headerExtension) keys.signature)))))))))

/-- `flat_map<account_name, uint32_t>`. -/
def producerMap : Format (Table Name ℕ) :=
  .flatMap UInt64.toNat (fun _ _ h => UInt64.toNat_inj.mp h) maxNumArrayElements .uint64
    (.uint 4)

def blockHeaderStateCommon : Format BlockHeaderStateCommon := .record
    (fun s => (s.blockNum, s.dposProposedIrreversibleBlocknum, s.dposIrreversibleBlocknum,
      s.activeSchedule, (s.blockrootMerkle.activeNodes, s.blockrootMerkle.nodeCount),
      s.producerToLastProduced, s.producerToLastImpliedIrb, s.validBlockSigningAuthority,
      s.confirmCount))
    (fun p => ⟨p.1, p.2.1, p.2.2.1, p.2.2.2.1, ⟨p.2.2.2.2.1.2, p.2.2.2.2.1.1⟩, p.2.2.2.2.2.1,
      p.2.2.2.2.2.2.1, p.2.2.2.2.2.2.2.1, p.2.2.2.2.2.2.2.2⟩)
    (fun _ => rfl)
    (.prod (.uint 4) (.prod (.uint 4) (.prod (.uint 4) (.prod keys.producerAuthoritySchedule
      (.prod (.prod (vectorFormat digestFormat) .uint64) (.prod producerMap (.prod producerMap
        (.prod keys.blockSigningAuthority (vectorFormat (.uint 1))))))))))

def scheduleInfo : Format ScheduleInfo :=
  .record (fun s => (s.scheduleLibNum, s.scheduleHash, s.schedule))
    (fun p => ⟨p.1, p.2.1, p.2.2⟩) (fun _ => rfl)
    (.prod (.uint 4) (.prod digestFormat keys.producerAuthoritySchedule))

/-- The shared pointer to the activated protocol features, which is never null. -/
def activatedProtocolFeatures : Format (Finset Digest) :=
  .record some (fun o => o.getD ∅) (fun _ => rfl)
    (.option (.flatSet digestKey digestKey_injective maxNumArrayElements digestFormat))

end KeyFormats

/-- A header state without what is not written, the decoded extensions. -/
def BlockHeaderState.reflected (s : BlockHeaderState) : BlockHeaderState :=
  { s with headerExts := [] }

/-- The header states that are written as they are. -/
abbrev ReflectedState := { s : BlockHeaderState // s.headerExts = [] }

def BlockHeaderState.reflect (s : BlockHeaderState) : ReflectedState := ⟨s.reflected, rfl⟩

def KeyFormats.blockHeaderState (keys : KeyFormats) : Format ReflectedState := .record
    (fun s => (s.1.toBlockHeaderStateCommon, s.1.id, s.1.header, s.1.pendingSchedule,
      s.1.activatedProtocolFeatures, s.1.additionalSignatures))
    (fun p => ⟨⟨p.1, p.2.1, p.2.2.1, p.2.2.2.1, p.2.2.2.2.1, p.2.2.2.2.2, []⟩, rfl⟩)
    (fun s => Subtype.ext (by
      obtain ⟨⟨_, _, _, _, _, _, exts⟩, hexts⟩ := s
      cases hexts
      rfl))
    (.prod keys.blockHeaderStateCommon (.prod digestFormat (.prod keys.signedBlockHeader
      (.prod keys.scheduleInfo (.prod KeyFormats.activatedProtocolFeatures
        (vectorFormat keys.signature))))))

end Inery.Chain
