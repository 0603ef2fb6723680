import Inery.Chain.Raw
import Inery.Chain.TransactionContext

/-!
# Packed transactions (`transaction.cpp`, `raw.hpp`)

A `packed_transaction` keeps the bytes it came with next to the transaction it unpacked from them.
The id and the digest to sign are computed from the transaction, written anew; what is billed and
put in the block are the bytes.  The two agree only if the bytes are the ones that writing gives:
`fc::raw::unpack` takes every spelling of a varint and ignores what is left over.
-/

namespace Inery.Chain

open Foundation List Format Option

/-! ## The layout -/

namespace Wire

structure Action where
  account : Name
  name : Name
  authorization : List PermissionLevel := []
  data : Bytes := []
deriving DecidableEq

structure Transaction where
  expiration : UInt32 := 0
  refBlockNum : UInt16 := 0
  refBlockPrefix : UInt32 := 0
  maxNetUsageWords : UInt32 := 0
  maxCpuUsageMs : UInt8 := 0
  delaySec : UInt32 := 0
  contextFreeActions : List Action := []
  actions : List Action := []
  transactionExtensions : List (UInt16 × Bytes) := []
deriving DecidableEq

def permissionLevelFormat : Format PermissionLevel :=
  .record (fun p => (p.actor, p.permission)) (fun p => ⟨p.1, p.2⟩) (fun _ => rfl)
    (.prod .uint64 .uint64)

def actionFormat : Format Action := .record (fun a => (a.account, a.name, a.authorization, a.data))
    (fun p => ⟨p.1, p.2.1, p.2.2.1, p.2.2.2⟩) (fun _ => rfl)
    (.prod .uint64 (.prod .uint64 (.prod (vectorFormat permissionLevelFormat) bytesFormat)))

def transactionFormat : Format Transaction := .record
    (fun t => (t.expiration, t.refBlockNum, t.refBlockPrefix, t.maxNetUsageWords, t.maxCpuUsageMs,
      t.delaySec, t.contextFreeActions, t.actions, t.transactionExtensions))
    (fun p => ⟨p.1, p.2.1, p.2.2.1, p.2.2.2.1, p.2.2.2.2.1, p.2.2.2.2.2.1, p.2.2.2.2.2.2.1,
      p.2.2.2.2.2.2.2.1, p.2.2.2.2.2.2.2.2⟩)
    (fun _ => rfl)
    (.prod .uint32 (.prod .uint16 (.prod .uint32 (.prod .varint32 (.prod .uint8 (.prod .varint32
      (.prod (vectorFormat actionFormat) (.prod (vectorFormat actionFormat)
        (vectorFormat (.prod .uint16 bytesFormat))))))))))

def contextFreeDataFormat : Format (List Bytes) := vectorFormat bytesFormat

theorem isCanonical_bytesFormat : bytesFormat.IsCanonical := isCanonical_bytes _

theorem isCanonical_contextFreeDataFormat : contextFreeDataFormat.IsCanonical :=
  isCanonical_bytesFormat.list _

/-! ## `packed_transaction` -/

def Transaction.id (sha256 : Bytes → Digest) (t : Transaction) : Option Digest :=
  (transactionFormat.pack t).map sha256

def unpackTransaction (data : Bytes) : Option Transaction :=
  (transactionFormat.read data).map Prod.fst

def unpackContextFreeData (data : Bytes) : Option (List Bytes) :=
  if data.length = 0 then some [] else (contextFreeDataFormat.read data).map Prod.fst

def packContextFreeData (cfd : List Bytes) : Option Bytes :=
  if cfd.length = 0 then some [] else contextFreeDataFormat.pack cfd

/-- `packed_transaction` without compression: what is serialized, and what is
cached beside it. -/
structure PackedTransaction where
  signatures : List Signature
  packedContextFreeData : Bytes
  packedTrx : Bytes
  unpackedTrx : Transaction
  contextFreeData : List Bytes
  trxId : Digest
deriving DecidableEq

namespace PackedTransaction

variable (sha256 : Bytes → Digest)

/-- `reflector_init`, and the constructor from two byte strings. -/
def ofBytes (packedTrx : Bytes) (signatures : List Signature) (packedContextFreeData : Bytes) :
    Option PackedTransaction := do
  let unpackedTrx ← unpackTransaction packedTrx
  let trxId ← unpackedTrx.id sha256
  let contextFreeData ← unpackContextFreeData packedContextFreeData
  pure { signatures, packedContextFreeData, packedTrx, unpackedTrx, contextFreeData, trxId }

def ofContextFreeData (packedTrx : Bytes) (signatures : List Signature)
    (contextFreeData : List Bytes) : Option PackedTransaction := do
  let unpackedTrx ← unpackTransaction packedTrx
  let trxId ← unpackedTrx.id sha256
  let packedContextFreeData ← packContextFreeData contextFreeData
  pure { signatures, packedContextFreeData, packedTrx, unpackedTrx, contextFreeData, trxId }

/-- The constructor from a transaction and packed context-free data. -/
def ofTransaction (unpackedTrx : Transaction) (signatures : List Signature)
    (packedContextFreeData : Bytes) : Option PackedTransaction := do
  let trxId ← unpackedTrx.id sha256
  let packedTrx ← transactionFormat.pack unpackedTrx
  let contextFreeData ← unpackContextFreeData packedContextFreeData
  pure { signatures, packedContextFreeData, packedTrx, unpackedTrx, contextFreeData, trxId }

def ofSignedTransaction (unpackedTrx : Transaction) (signatures : List Signature)
    (contextFreeData : List Bytes) : Option PackedTransaction := do
  let trxId ← unpackedTrx.id sha256
  let packedTrx ← transactionFormat.pack unpackedTrx
  let packedContextFreeData ← packContextFreeData contextFreeData
  pure { signatures, packedContextFreeData, packedTrx, unpackedTrx, contextFreeData, trxId }

/-- The ways a packed transaction comes into being. -/
inductive Accepted (p : PackedTransaction) : Prop
  | bytes {packedTrx signatures packedContextFreeData} :
      ofBytes sha256 packedTrx signatures packedContextFreeData = some p → Accepted p
  | contextFreeData {packedTrx signatures contextFreeData} :
      ofContextFreeData sha256 packedTrx signatures contextFreeData = some p → Accepted p
  | transaction {unpackedTrx signatures packedContextFreeData} :
      ofTransaction sha256 unpackedTrx signatures packedContextFreeData = some p → Accepted p
  | signedTransaction {unpackedTrx signatures contextFreeData} :
      ofSignedTransaction sha256 unpackedTrx signatures contextFreeData = some p → Accepted p

def contextFreeDigest (cfd : List Bytes) : Option Digest :=
  if cfd.length = 0 then some 0 else (contextFreeDataFormat.pack cfd).map sha256

def signedBytes (chainId : Digest) (p : PackedTransaction) : Option Bytes := do
  let trx ← transactionFormat.pack p.unpackedTrx
  let cfd ← contextFreeDigest sha256 p.contextFreeData
  pure (leBytes 32 chainId.toNat ++ trx ++ leBytes 32 cfd.toNat)

def sigDigest (chainId : Digest) (p : PackedTransaction) : Option Digest :=
  (signedBytes sha256 chainId p).map sha256

/-! ## What the bytes are read as -/

variable {sha256} {chainId : Digest} {p p' : PackedTransaction}

variable {data : Bytes}

theorem unpackTransaction_eq_some {t : Transaction} (h : unpackTransaction data = some t) :
    ∃ rest, transactionFormat.read data = some (t, rest) := by
  obtain ⟨⟨t', rest⟩, hread, rfl⟩ := map_eq_some_iff.mp h
  exact ⟨rest, hread⟩

/-- Nothing to read, or bytes that read as the context-free data. -/
def ReadsContextFree (data : Bytes) (cfd : List Bytes) : Prop :=
  data = [] ∧ cfd = [] ∨ ∃ rest, contextFreeDataFormat.read data = some (cfd, rest)

theorem unpackContextFreeData_eq_some {cfd : List Bytes}
    (h : unpackContextFreeData data = some cfd) : ReadsContextFree data cfd := by
  unfold unpackContextFreeData at h
  split at h
  · next hempty =>
    cases h
    exact .inl ⟨length_eq_zero_iff.mp hempty, rfl⟩
  · obtain ⟨⟨cfd', rest⟩, hread, rfl⟩ := map_eq_some_iff.mp h
    exact .inr ⟨rest, hread⟩

theorem packContextFreeData_eq_some {cfd : List Bytes} (h : packContextFreeData cfd = some data) :
    ReadsContextFree data cfd := by
  unfold packContextFreeData at h
  split at h
  · next hempty =>
    cases h
    exact .inl ⟨rfl, length_eq_zero_iff.mp hempty⟩
  · have hread := contextFreeDataFormat.read_pack h []
    rw [append_nil] at hread
    exact .inr ⟨[], hread⟩

/-- What every accepted packed transaction has, whichever way it was made. -/
structure Consistent (sha256 : Bytes → Digest) (p : PackedTransaction) : Prop where
  trx : ∃ rest, transactionFormat.read p.packedTrx = some (p.unpackedTrx, rest)
  trxId : p.unpackedTrx.id sha256 = some p.trxId
  contextFree : ReadsContextFree p.packedContextFreeData p.contextFreeData

theorem Accepted.consistent (h : Accepted sha256 p) : Consistent sha256 p := by
  have hwritten : ∀ {t : Transaction} {bytes}, transactionFormat.pack t = some bytes →
      ∃ rest, transactionFormat.read bytes = some (t, rest) := by
    intro t bytes hpack
    have hread := transactionFormat.read_pack hpack []
    rw [append_nil] at hread
    exact ⟨[], hread⟩
  cases h with
  | bytes h =>
    obtain ⟨t, ht, h⟩ := bind_eq_some_iff.mp h
    obtain ⟨trxId, hid, h⟩ := bind_eq_some_iff.mp h
    obtain ⟨cfd, hcfd, h⟩ := bind_eq_some_iff.mp h
    cases h
    exact ⟨unpackTransaction_eq_some ht, hid, unpackContextFreeData_eq_some hcfd⟩
  | contextFreeData h =>
    obtain ⟨t, ht, h⟩ := bind_eq_some_iff.mp h
    obtain ⟨trxId, hid, h⟩ := bind_eq_some_iff.mp h
    obtain ⟨packed, hpacked, h⟩ := bind_eq_some_iff.mp h
    cases h
    exact ⟨unpackTransaction_eq_some ht, hid, packContextFreeData_eq_some hpacked⟩
  | transaction h =>
    obtain ⟨trxId, hid, h⟩ := bind_eq_some_iff.mp h
    obtain ⟨bytes, hbytes, h⟩ := bind_eq_some_iff.mp h
    obtain ⟨cfd, hcfd, h⟩ := bind_eq_some_iff.mp h
    cases h
    exact ⟨hwritten hbytes, hid, unpackContextFreeData_eq_some hcfd⟩
  | signedTransaction h =>
    obtain ⟨trxId, hid, h⟩ := bind_eq_some_iff.mp h
    obtain ⟨bytes, hbytes, h⟩ := bind_eq_some_iff.mp h
    obtain ⟨packed, hpacked, h⟩ := bind_eq_some_iff.mp h
    cases h
    exact ⟨hwritten hbytes, hid, packContextFreeData_eq_some hpacked⟩

/-- Both byte strings are the ones that writing gives. -/
structure IsMinimal (p : PackedTransaction) : Prop where
  trx : transactionFormat.Minimal p.packedTrx
  contextFree : p.packedContextFreeData ≠ [] →
    contextFreeDataFormat.Minimal p.packedContextFreeData ∧ p.contextFreeData ≠ []

/-- The packed context-free data of a minimal form follow from the data. -/
theorem Consistent.packContextFreeData (h : Consistent sha256 p) (hp : p.IsMinimal) :
    packContextFreeData p.contextFreeData = some p.packedContextFreeData := by
  unfold Wire.packContextFreeData
  by_cases hdata : p.packedContextFreeData = []
  · rcases h.contextFree with ⟨-, hcfd⟩ | ⟨rest, hread⟩
    · rw [hdata, hcfd]
      rfl
    · rw [hdata] at hread
      cases hread
  · obtain ⟨hminimal, hcfd⟩ := hp.contextFree hdata
    rcases h.contextFree with ⟨hnil, -⟩ | ⟨rest, hread⟩
    · exact absurd hnil hdata
    · rw [if_neg (by simpa using hcfd)]
      exact (isCanonical_contextFreeDataFormat.pack_eq_iff hread).mpr hminimal

structure HashesApart (sha256 : Bytes → Digest) (chainId : Digest) (p p' : PackedTransaction) :
    Prop where
  ids : ∀ w w', transactionFormat.pack p.unpackedTrx = some w →
    transactionFormat.pack p'.unpackedTrx = some w' → sha256 w = sha256 w' → w = w'
  signed : ∀ w w', signedBytes sha256 chainId p = some w →
    signedBytes sha256 chainId p' = some w' → sha256 w = sha256 w' → w = w'
  contextFree : contextFreeDigest sha256 p.contextFreeData =
    contextFreeDigest sha256 p'.contextFreeData → p.contextFreeData = p'.contextFreeData

end PackedTransaction

open PackedTransaction

end Wire

end Inery.Chain
