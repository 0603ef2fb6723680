import Inery.Chain.HeaderChain
import Inery.Chain.MerkleRoot
import Inery.Chain.PendingBlock

/-!
# What a transaction merkle root binds (`merkle.cpp`, `block.hpp`, `controller.cpp`)

A block id is a digest of the header, which carries the merkle root of the digests of the
transaction receipts.  So the id stands for the receipts, as far as `merkle` tells lists apart: the
side bit of every digest is overwritten, an odd row is completed by repeating its last digest, and a
receipt's digest does not say whether it was made from a transaction id or a packed transaction.
-/

namespace Inery.Chain

open Foundation List

/-! ## The inputs that are hashed -/

def makeCanonicalPair (p : Digest × Digest) : Digest × Digest :=
  (makeCanonicalLeft p.1, makeCanonicalRight p.2)

/-- The inputs that `merkle` hashes, row by row. -/
def merkleInputs (hashPair : Digest → Digest → Digest) (ids : List Digest) :
    List (Digest × Digest) :=
  match ids with
  | [] => []
  | [_] => []
  | a :: b :: ids =>
    (neighbours (a :: b :: ids)).map makeCanonicalPair ++
      merkleInputs hashPair (padUp (hashCanonicalPair hashPair) (a :: b :: ids))
termination_by ids.length
decreasing_by
  rw [length_padUp]
  simp only [length_cons]
  omega

variable {hashPair : Digest → Digest → Digest} {xs ys ids : List Digest}

theorem merkleInputs_of_two_le (h : 2 ≤ ids.length) :
    merkleInputs hashPair ids = (neighbours ids).map makeCanonicalPair ++
      merkleInputs hashPair (padUp (hashCanonicalPair hashPair) ids) := by
  match ids, h with
  | a :: b :: ids, _ => rw [merkleInputs]

theorem merkleInputs_eq_combined (ids : List Digest) :
    merkleInputs hashPair ids =
      (combined (hashCanonicalPair hashPair) (Nat.clog 2 ids.length) ids).map
        makeCanonicalPair := by
  induction hlen : ids.length using Nat.strong_induction_on generalizing ids with
  | h n ih =>
    subst hlen
    by_cases htwo : 2 ≤ ids.length
    · have hlength : (padUp (hashCanonicalPair hashPair) ids).length = (ids.length + 1) / 2 :=
        length_padUp ids
      rw [merkleInputs_of_two_le htwo, Nat.clog_of_two_le (by decide) htwo, combined,
        map_append, ih _ (by omega) _ rfl, hlength]
      rfl
    · rcases ids with _ | ⟨id, _ | ⟨id', ids⟩⟩
      · rw [merkleInputs]
        rfl
      · rw [merkleInputs]
        rfl
      · simp at htwo

/-- No two inputs hashed for these lists have digests that agree but for the side bit. -/
def HashesApart (hashPair : Digest → Digest → Digest) (xs ys : List Digest) : Prop :=
  ∀ p ∈ merkleInputs hashPair xs ++ merkleInputs hashPair ys,
    ∀ p' ∈ merkleInputs hashPair xs ++ merkleInputs hashPair ys,
      makeCanonicalLeft (hashPair p.1 p.2) = makeCanonicalLeft (hashPair p'.1 p'.2) → p = p'

/-- `HashesApart` by comparing the inputs two by two. -/
theorem hashesApart_of_all {hashPair : Digest → Digest → Digest} {xs ys : List Digest}
    (h : (merkleInputs hashPair xs ++ merkleInputs hashPair ys).all (fun p =>
      (merkleInputs hashPair xs ++ merkleInputs hashPair ys).all fun p' => p = p' ∨
        makeCanonicalLeft (hashPair p.1 p.2) ≠ makeCanonicalLeft (hashPair p'.1 p'.2)) = true) :
    HashesApart hashPair xs ys := by
  intro p hp p' hp' heq
  have hone := all_eq_true.mp (all_eq_true.mp h p hp) p' hp'
  rcases of_decide_eq_true hone with hsame | hdiff
  · exact hsame
  · exact absurd heq hdiff

/-- The listed digests are digests of other inputs than the hashed pairs, and none is the
digest of an empty list. -/
structure LeavesApart (hashPair : Digest → Digest → Digest) (xs ys : List Digest) : Prop where
  nonzero : 0 ∉ xs ++ ys
  pairs : ∀ x ∈ 0 :: (xs ++ ys), ∀ p ∈ merkleInputs hashPair xs ++ merkleInputs hashPair ys,
    makeCanonicalLeft x ≠ makeCanonicalLeft (hashPair p.1 p.2)

/-! ## The side bit -/

theorem makeCanonicalLeft_right (d : Digest) :
    makeCanonicalLeft (makeCanonicalRight d) = makeCanonicalLeft d := by
  rw [makeCanonicalLeft, makeCanonicalRight, makeCanonicalLeft, BitVec.and_or_distrib_right]
  simp

/-- The two canonical forms forget the same bit. -/
theorem left_eq_of_right_eq {d e : Digest} (h : makeCanonicalRight d = makeCanonicalRight e) :
    makeCanonicalLeft d = makeCanonicalLeft e := by
  rw [← makeCanonicalLeft_right d, h, makeCanonicalLeft_right]

theorem HashesApart.noCollision (h : HashesApart hashPair xs ys) :
    NoCollision (hashCanonicalPair hashPair) makeCanonicalLeft
      (combined (hashCanonicalPair hashPair) (Nat.clog 2 xs.length) xs ++
        combined (hashCanonicalPair hashPair) (Nat.clog 2 ys.length) ys) := by
  rw [HashesApart, merkleInputs_eq_combined, merkleInputs_eq_combined, ← map_append] at h
  intro p hp p' hp' heq
  have hinput := h _ (mem_map_of_mem hp) _ (mem_map_of_mem hp') heq
  obtain ⟨hleft, hright⟩ := Prod.mk.inj hinput
  exact Prod.ext hleft (left_eq_of_right_eq hright)

/-! ## Lists of digests -/

variable (hashPair) in
theorem map_rootAt_merkle (h : ids ≠ []) :
    (rootAt (hashCanonicalPair hashPair) (Nat.clog 2 ids.length) ids).map makeCanonicalLeft =
      some (makeCanonicalLeft (merkle hashPair ids)) := by
  rw [merkle_eq_rootAt hashPair h]
  rfl

theorem sides_eq (happart : HashesApart hashPair xs ys)
    (hlists : Comparable makeCanonicalLeft xs ys) (hxs : xs ≠ []) (hys : ys ≠ [])
    (hdepth : Nat.clog 2 xs.length = Nat.clog 2 ys.length)
    (heq : merkle hashPair xs = merkle hashPair ys) :
    xs.map makeCanonicalLeft = ys.map makeCanonicalLeft := by
  have hcollision := happart.noCollision
  have hroot := map_rootAt_merkle hashPair hys
  have hle : ys.length ≤ 2 ^ Nat.clog 2 ys.length := Nat.le_pow_clog (by decide) _
  rw [← hdepth] at hcollision hroot hle
  refine map_eq_of_rootAt hlists (Nat.le_pow_clog (by decide) _) hle hcollision ?_
  rw [map_rootAt_merkle hashPair hxs, hroot, heq]

theorem sides_eq_of_length (happart : HashesApart hashPair xs ys)
    (hlength : xs.length = ys.length) (heq : merkle hashPair xs = merkle hashPair ys) :
    xs.map makeCanonicalLeft = ys.map makeCanonicalLeft := by
  rcases eq_or_ne xs [] with rfl | hne
  · rw [length_eq_zero_iff.mp hlength.symm]
  have hne' : ys ≠ [] := by
    rw [← length_pos_iff] at hne ⊢
    omega
  exact sides_eq happart (.inl hlength) hne hne' (by rw [hlength]) heq

theorem LeavesApart.not_deeper (hleaves : LeavesApart hashPair xs ys)
    (happart : HashesApart hashPair xs ys) (hxs : xs ≠ []) (hys : ys ≠ [])
    (heq : merkle hashPair xs = merkle hashPair ys) :
    ¬ Nat.clog 2 xs.length < Nat.clog 2 ys.length := by
  intro hlt
  obtain ⟨k, hk⟩ := Nat.exists_eq_add_of_lt hlt
  have hcollision := happart.noCollision
  have hroot := merkle_eq_rootAt hashPair hys
  rw [hk] at hcollision hroot
  refine rootAt_ne_of_deeper ?_ hcollision (merkle_eq_rootAt hashPair hxs) hroot (by rw [heq])
  intro x hx p hp
  rw [← hk] at hp
  refine hleaves.pairs x (mem_cons_of_mem _ (mem_append_left _ hx))
    (makeCanonicalPair p) (mem_append_right _ ?_)
  rw [merkleInputs_eq_combined]
  exact mem_map_of_mem hp

theorem HashesApart.symm (h : HashesApart hashPair xs ys) : HashesApart hashPair ys xs :=
  fun p hp p' hp' => h p (mem_append.mpr (mem_append.mp hp).symm) p'
    (mem_append.mpr (mem_append.mp hp').symm)

theorem LeavesApart.symm (h : LeavesApart hashPair xs ys) : LeavesApart hashPair ys xs := by
  refine ⟨fun hmem => h.nonzero (mem_append.mpr (mem_append.mp hmem).symm), ?_⟩
  intro x hx p hp
  refine h.pairs x ?_ p (mem_append.mpr (mem_append.mp hp).symm)
  rcases mem_cons.mp hx with rfl | hx
  · exact mem_cons_self
  · exact mem_cons_of_mem _ (mem_append.mpr (mem_append.mp hx).symm)

theorem LeavesApart.eq_nil (hleaves : LeavesApart hashPair xs ys)
    (heq : merkle hashPair xs = 0) : xs = [] := by
  by_contra hne
  have hroot := merkle_eq_rootAt hashPair hne
  rw [heq] at hroot
  cases hdepth : Nat.clog 2 xs.length with
  | zero =>
    rw [hdepth] at hroot
    exact hleaves.nonzero (mem_append_left _ (mem_of_head? hroot))
  | succ depth =>
    rw [hdepth] at hroot
    obtain ⟨p, hp, hvalue⟩ := rootAt_succ_mem hroot
    rw [← hdepth] at hp
    refine hleaves.pairs 0 mem_cons_self (makeCanonicalPair p) (mem_append_left _ ?_)
      (congrArg makeCanonicalLeft hvalue)
    rw [merkleInputs_eq_combined]
    exact mem_map_of_mem hp

theorem sides_eq_of_nodup (happart : HashesApart hashPair xs ys)
    (hleaves : LeavesApart hashPair xs ys) (hxs : (xs.map makeCanonicalLeft).Nodup)
    (hys : (ys.map makeCanonicalLeft).Nodup) (heq : merkle hashPair xs = merkle hashPair ys) :
    xs.map makeCanonicalLeft = ys.map makeCanonicalLeft := by
  rcases eq_or_ne xs [] with rfl | hne
  · rw [hleaves.symm.eq_nil (by rw [← heq, merkle])]
  rcases eq_or_ne ys [] with rfl | hne'
  · exact absurd (hleaves.eq_nil (by rw [heq, merkle])) hne
  have hdepth : Nat.clog 2 xs.length = Nat.clog 2 ys.length := by
    have hle := hleaves.not_deeper happart hne hne' heq
    have hge := hleaves.symm.not_deeper happart.symm hne' hne heq.symm
    omega
  exact sides_eq happart (.inr ⟨⟨hne, hxs⟩, hne', hys⟩) hne hne' hdepth heq

/-! ## Blocks -/

inductive ReceiptTrx (τ : Type) where
  | id (trxId : Digest)
  | packed (trx : τ)
deriving DecidableEq

structure BlockReceipt (τ : Type) where
  status : TransactionStatus
  cpuUsageUs : ℕ
  netUsageWords : ℕ
  trx : ReceiptTrx τ
deriving DecidableEq

open BlockReceipt

/-- The digests a receipt is made of: `packed_digest` of a packed transaction, and the hash
of the status, the usage and one digest. -/
structure ReceiptHash (τ : Type) where
  packedDigest : τ → Digest
  hashReceipt : TransactionStatus → ℕ → ℕ → Digest → Digest

variable {τ : Type}

def ReceiptTrx.digest (hash : ReceiptHash τ) : ReceiptTrx τ → Digest
  | .id trxId => trxId
  | .packed trx => hash.packedDigest trx

def BlockReceipt.digest (hash : ReceiptHash τ) (r : BlockReceipt τ) : Digest :=
  hash.hashReceipt r.status r.cpuUsageUs r.netUsageWords (r.trx.digest hash)

structure SignedBlock (τ : Type) extends SignedBlockHeader where
  transactions : List (BlockReceipt τ) := []
deriving DecidableEq

variable (crypto : HeaderCrypto)

def calculateTrxMerkle (hash : ReceiptHash τ) (trxs : List (BlockReceipt τ)) : Digest :=
  merkle crypto.hashPair (trxs.map (digest hash))

/-- The check of `create_block_state_future`. -/
def checkTransactionMroot (hash : ReceiptHash τ) (b : SignedBlock τ) : Result Unit :=
  ineAssert (b.transactionMroot = calculateTrxMerkle crypto hash b.transactions)
    .blockValidateException "invalid block transaction merkle root ${b} != ${c}"

/-- No collision among the receipts of a list: neither of their digests, up to the side bit,
nor of their packed transactions, and no transaction id is the digest of a packed transaction. -/
structure ReceiptsApart (hash : ReceiptHash τ) (rs : List (BlockReceipt τ)) : Prop where
  receipts : ∀ r ∈ rs, ∀ r' ∈ rs,
    makeCanonicalLeft (r.digest hash) = makeCanonicalLeft (r'.digest hash) →
      (r.status, r.cpuUsageUs, r.netUsageWords, r.trx.digest hash) =
        (r'.status, r'.cpuUsageUs, r'.netUsageWords, r'.trx.digest hash)
  packed : ∀ r ∈ rs, ∀ r' ∈ rs, ∀ t t', r.trx = .packed t → r'.trx = .packed t' →
    hash.packedDigest t = hash.packedDigest t' → t = t'
  ids : ∀ r ∈ rs, ∀ r' ∈ rs, ∀ trxId t, r.trx = .id trxId → r'.trx = .packed t →
    trxId ≠ hash.packedDigest t

/-- No collision among two headers: the same id only for the same header, signature apart. -/
def HeadersApart (h h' : SignedBlockHeader) : Prop :=
  h.id crypto = h'.id crypto →
    { h with producerSignature := 0 } = { h' with producerSignature := 0 }

theorem HeadersApart.transactionMroot {crypto : HeaderCrypto} {h h' : SignedBlockHeader}
    (happart : HeadersApart crypto h h') (hid : h.id crypto = h'.id crypto) :
    h.transactionMroot = h'.transactionMroot := by
  have hsame := congrArg (fun header : SignedBlockHeader => header.transactionMroot) (happart hid)
  exact hsame

variable {hash : ReceiptHash τ} {rs : List (BlockReceipt τ)}

theorem ReceiptsApart.eq_of_digest (h : ReceiptsApart hash rs) {r r' : BlockReceipt τ}
    (hr : r ∈ rs) (hr' : r' ∈ rs)
    (heq : makeCanonicalLeft (r.digest hash) = makeCanonicalLeft (r'.digest hash)) : r = r' := by
  have hsame := h.receipts r hr r' hr' heq
  obtain ⟨status, cpu, net, trx⟩ := r
  obtain ⟨status', cpu', net', trx'⟩ := r'
  simp only [Prod.mk.injEq] at hsame
  obtain ⟨rfl, rfl, rfl, htrx⟩ := hsame
  congr 1
  match trx, trx' with
  | .id a, .id b => exact congrArg _ htrx
  | .packed a, .packed b => exact congrArg _ (h.packed _ hr _ hr' a b rfl rfl htrx)
  | .id a, .packed b => exact absurd htrx (h.ids _ hr _ hr' a b rfl rfl)
  | .packed a, .id b => exact absurd htrx.symm (h.ids _ hr' _ hr b a rfl rfl)

theorem ReceiptsApart.nodup {all : List (BlockReceipt τ)} (h : ReceiptsApart hash all)
    (hsubset : rs ⊆ all) (hrs : rs.Nodup) :
    ((rs.map (digest hash)).map makeCanonicalLeft).Nodup := by
  rw [map_map]
  exact hrs.map_on fun r hr r' hr' heq => h.eq_of_digest (hsubset hr) (hsubset hr') heq

theorem ReceiptsApart.eq_of_sides {rs' : List (BlockReceipt τ)} (h : ReceiptsApart hash (rs ++ rs'))
    (heq : (rs.map (digest hash)).map makeCanonicalLeft =
      (rs'.map (digest hash)).map makeCanonicalLeft) :
    rs = rs' := by
  rw [map_map, map_map] at heq
  have hid : rs.map id = rs'.map id := map_eq_map_of_imp (fun r hr r' hr' hsame =>
    h.eq_of_digest (mem_append_left _ hr) (mem_append_right _ hr') hsame) heq
  simpa using hid

/-- **A merkle root binds its list up to side bits and padding, a block id its receipts.**  Of two
lists whose hashed inputs do not collide, with one root, the digests agree up to the side bit, if
the lists have one length, or if neither repeats a digest and their digests are not digests of
hashed pairs.  Of two blocks with one id that passed the check of the root, under the same
conditions, the receipts are the same. -/
theorem merkle_root_binds (hash : ReceiptHash τ) :
    (∀ xs ys : List Digest, HashesApart crypto.hashPair xs ys →
      (xs.length = ys.length ∨ LeavesApart crypto.hashPair xs ys ∧
        (xs.map makeCanonicalLeft).Nodup ∧ (ys.map makeCanonicalLeft).Nodup) →
      merkle crypto.hashPair xs = merkle crypto.hashPair ys →
      xs.map makeCanonicalLeft = ys.map makeCanonicalLeft ∧ (xs.length ≤ 1 → xs = ys)) ∧
    (∀ a b : SignedBlock τ, checkTransactionMroot crypto hash a = .ok () →
      checkTransactionMroot crypto hash b = .ok () →
      HeadersApart crypto a.toSignedBlockHeader b.toSignedBlockHeader →
      HashesApart crypto.hashPair (a.transactions.map (digest hash))
        (b.transactions.map (digest hash)) →
      ReceiptsApart hash (a.transactions ++ b.transactions) →
      (a.transactions.length = b.transactions.length ∨
        LeavesApart crypto.hashPair (a.transactions.map (digest hash))
          (b.transactions.map (digest hash)) ∧
        a.transactions.Nodup ∧ b.transactions.Nodup) →
      a.id crypto = b.id crypto → a.transactions = b.transactions) := by
  refine (and_iff_left_of_imp fun hlists => ?_).mpr fun xs ys happart hshape heq => ?_
  swap
  · have hsides : xs.map makeCanonicalLeft = ys.map makeCanonicalLeft := by
      rcases hshape with hlength | ⟨hleaves, hxs, hys⟩
      · exact sides_eq_of_length happart hlength heq
      · exact sides_eq_of_nodup happart hleaves hxs hys heq
    refine ⟨hsides, fun hshort => ?_⟩
    have hlength : xs.length = ys.length := by simpa using congrArg length hsides
    match xs, ys with
    | [], [] => rfl
    | [x], [y] =>
      rw [merkle, merkle] at heq
      rw [heq]
    | [], _ :: _ => simp at hlength
    | [_], [] => simp at hlength
    | [_], _ :: _ :: _ => simp at hlength
    | _ :: _ :: _, _ => simp at hshort
  · intro a b ha hb hheader happart hreceipts hshape hid
    have hmroot : a.transactionMroot = b.transactionMroot := hheader.transactionMroot hid
    have heq : calculateTrxMerkle crypto hash a.transactions =
        calculateTrxMerkle crypto hash b.transactions := by
      rw [← ineAssert_eq_ok.mp ha, ← ineAssert_eq_ok.mp hb, hmroot]
    refine hreceipts.eq_of_sides (hlists _ _ happart ?_ heq).1
    rcases hshape with hlength | ⟨hleaves, hnodup, hnodup'⟩
    · exact .inl (by rw [length_map, length_map, hlength])
    · exact .inr ⟨hleaves, hreceipts.nodup (subset_append_left _ _) hnodup,
        hreceipts.nodup (subset_append_right _ _) hnodup'⟩

/-- A cryptography whose pair hash can be followed by hand. -/
def countingCrypto : HeaderCrypto := { openCrypto with hashPair := fun l r => l + 1000 * r }

/-- Receipts whose digest is that of their transaction. -/
def plainReceipts : ReceiptHash ℕ where
  packedDigest t := BitVec.ofNat 256 t
  hashReceipt _ _ _ d := d

def deferredReceipt (trxId : Digest) : BlockReceipt ℕ := ⟨.executed, 1, 1, .id trxId⟩

/-- A block that carries these receipts and the merkle root of those. -/
def blockWithRootOf (rooted carried : List (BlockReceipt ℕ)) : SignedBlock ℕ where
  transactionMroot := calculateTrxMerkle countingCrypto plainReceipts rooted
  transactions := carried

theorem receiptsApart_deferred {ids : List Digest} (h : ids.map makeCanonicalLeft = ids) :
    ReceiptsApart plainReceipts (ids.map deferredReceipt) where
  receipts := by
    intro r hr r' hr' heq
    obtain ⟨d, hd, rfl⟩ := mem_map.mp hr
    obtain ⟨e, he, rfl⟩ := mem_map.mp hr'
    have hclear : ∀ d ∈ ids, makeCanonicalLeft d = d := by
      simpa using map_inj_left.mp (h.trans (map_id ids).symm)
    have hsame : d = e := by
      rw [← hclear d hd, ← hclear e he]
      exact heq
    rw [hsame]
  packed := by
    intro r hr r' hr' t t' htrx
    obtain ⟨d, -, rfl⟩ := mem_map.mp hr
    cases htrx
  ids := by
    intro r hr r' hr' trxId t hid htrx
    obtain ⟨d, -, rfl⟩ := mem_map.mp hr'
    cases htrx

theorem merkle_root_binds_two :
    ([1, 2] : List Digest).map makeCanonicalLeft = ([129, 2] : List Digest).map makeCanonicalLeft ∧
      (blockWithRootOf ([1, 2].map deferredReceipt) ([1, 2].map deferredReceipt)).transactions =
        (blockWithRootOf ([1, 2].map deferredReceipt)
          ([1, 2].map deferredReceipt)).transactions := by
  obtain ⟨hlists, hblocks⟩ := merkle_root_binds countingCrypto plainReceipts
  have hcheck : checkTransactionMroot countingCrypto plainReceipts
      (blockWithRootOf ([1, 2].map deferredReceipt) ([1, 2].map deferredReceipt)) = .ok () := by
    rw [checkTransactionMroot, ineAssert_eq_ok]
    rfl
  refine ⟨(hlists [1, 2] [129, 2] ?_ (.inl rfl) ?_).1,
    hblocks _ _ hcheck hcheck (fun _ => rfl) ?_ ?_ (.inr ⟨⟨?_, ?_⟩, ?_, ?_⟩) rfl⟩
  · refine hashesApart_of_all ?_
    simp only [merkleInputs, neighbours, padUp, map]
    decide +kernel
  · simp only [merkle, padUp]
    decide +kernel
  · refine hashesApart_of_all ?_
    simp only [blockWithRootOf, merkleInputs, neighbours, padUp, map]
    decide +kernel
  · have hclear : ([1, 2, 1, 2] : List Digest).map makeCanonicalLeft = [1, 2, 1, 2] := by decide
    exact receiptsApart_deferred hclear
  · decide +kernel
  · intro x hx p hp
    simp only [blockWithRootOf, map, merkleInputs, neighbours, padUp, cons_append,
      nil_append, mem_cons, not_mem_nil, or_false] at hx hp
    rcases hp with rfl | rfl <;> rcases hx with rfl | rfl | rfl | rfl | rfl <;> decide +kernel
  · decide +kernel
  · decide +kernel

/-- Three digests and the same three with the last repeated have one root; so have two pairs
that differ in a side bit.  Two blocks with one id carry different receipts, the second one a
receipt more.  A receipt by id takes the place of a packed transaction with that digest. -/
theorem merkle_root_ambiguous :
    (HashesApart countingCrypto.hashPair [1, 2, 3] [1, 2, 3, 3] ∧
      merkle countingCrypto.hashPair [1, 2, 3] = merkle countingCrypto.hashPair [1, 2, 3, 3] ∧
      ([1, 2, 3] : List Digest) ≠ [1, 2, 3, 3]) ∧
    (HashesApart countingCrypto.hashPair [1, 2] [129, 2] ∧
      merkle countingCrypto.hashPair [1, 2] = merkle countingCrypto.hashPair [129, 2] ∧
      ([1, 2] : List Digest) ≠ [129, 2]) ∧
    (∃ a b : SignedBlock ℕ, checkTransactionMroot countingCrypto plainReceipts a = .ok () ∧
      checkTransactionMroot countingCrypto plainReceipts b = .ok () ∧
      HeadersApart countingCrypto a.toSignedBlockHeader b.toSignedBlockHeader ∧
      ReceiptsApart plainReceipts (a.transactions ++ b.transactions) ∧
      a.id countingCrypto = b.id countingCrypto ∧ a.transactions ≠ b.transactions) ∧
    (checkTransactionMroot countingCrypto plainReceipts
        (blockWithRootOf [deferredReceipt 7] [⟨.executed, 1, 1, .packed 7⟩]) = .ok ()) := by
  refine ⟨⟨?_, ?_, by decide⟩, ⟨?_, ?_, by decide⟩, ?_, ?_⟩
  · refine hashesApart_of_all ?_
    simp only [merkleInputs, neighbours, padUp, map]
    decide +kernel
  · simp only [merkle, padUp]
  · refine hashesApart_of_all ?_
    simp only [merkleInputs, neighbours, padUp, map]
    decide +kernel
  · simp only [merkle, padUp]
    decide +kernel
  · refine ⟨blockWithRootOf ([1, 2, 3].map deferredReceipt) ([1, 2, 3].map deferredReceipt),
      blockWithRootOf ([1, 2, 3].map deferredReceipt) ([1, 2, 3, 3].map deferredReceipt),
      ?_, ?_, fun _ => rfl, ?_, rfl, by decide +kernel⟩
    · rw [checkTransactionMroot, ineAssert_eq_ok]
      rfl
    · rw [checkTransactionMroot, ineAssert_eq_ok]
      simp only [blockWithRootOf, calculateTrxMerkle, map, merkle, padUp]
    · have hclear : ([1, 2, 3, 1, 2, 3, 3] : List Digest).map makeCanonicalLeft =
          [1, 2, 3, 1, 2, 3, 3] := by decide
      exact receiptsApart_deferred hclear
  · rw [checkTransactionMroot, ineAssert_eq_ok]
    simp only [blockWithRootOf, calculateTrxMerkle, map, merkle]
    decide +kernel

/-! ## The ids below a block -/

variable {crypto} {genesis : GenesisState} {s s' : BlockHeaderState} {past : List BlockHeaderState}

theorem HeaderStep.append_blockroot (h : HeaderStep crypto s s') :
    s.blockrootMerkle.append crypto.hashPair s.id = some s'.blockrootMerkle := by
  obtain ⟨_, _, p, _, r, _, _, hnext, hr, rfl⟩ := h.exists_unsigned
  show _ = some r.blockrootMerkle
  rw [(PendingBlockHeaderState.finishNextUnsigned_eq_ok hr).1]
  simp only [BlockHeaderState.next, bind_eq_ok] at hnext
  obtain ⟨-, -, hnext⟩ := hnext
  split at hnext
  · cases hnext
  obtain ⟨-, -, hnext⟩ := bind_eq_ok.mp hnext
  split at hnext <;> cases hnext
  assumption

/-- **The block root.** It is the merkle root of the ids of all blocks below, oldest first. -/
theorem blockroot_eq_merkle (h : HeaderChain crypto genesis s past) (hlt : past.length < 2 ^ 64) :
    s.blockrootMerkle.getRoot = merkle crypto.hashPair (past.reverse.map (·.id)) := by
  refine IncrementalMerkle.Stores.getRoot ?_
  induction h with
  | start => exact IncrementalMerkle.stores_nil _
  | step _ hstep ih =>
    obtain ⟨m, happend, hm⟩ := (ih (Nat.lt_of_succ_lt hlt)).append (by simpa using hlt) _
    rw [hstep.append_blockroot] at happend
    cases happend
    simpa using hm

theorem blockroot_eq_merkle_three_blocks : ∃ s past,
    HeaderChain countingCrypto genesisKeyOne s past ∧ past.map (·.blockNum) = [3, 2, 1] ∧
      s.blockrootMerkle.getRoot = merkle countingCrypto.hashPair (past.reverse.map (·.id)) := by
  obtain ⟨⟨s, past⟩, hrun, hnums⟩ : ∃ r, produceChain countingCrypto
      [⟨1, 0, none, 1⟩, ⟨2, 0, none, 1⟩, ⟨3, 0, none, 1⟩] = .ok r ∧
        r.2.map (·.blockNum) = [3, 2, 1] := by
    decide +kernel
  have hchain := headerChain_produceBlocks hrun
  have hlength : past.length = 3 := by simpa using congrArg length hnums
  exact ⟨s, past, hchain, hnums, blockroot_eq_merkle hchain (by rw [hlength]; decide)⟩

end Inery.Chain
