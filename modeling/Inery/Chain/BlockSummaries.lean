import Inery.Chain.HeaderChain
import Inery.Chain.PackedTransaction
import Inery.Chain.ProtocolFeatures

/-!
# TaPoS and the branch (`controller.cpp`, `transaction.cpp`)

The database has 65536 block summaries, one for each value of the low 16 bits of a block number.
`finalize_block` writes the id of the assembled block inside the session of the pending block, so
that the table, and every undo state of it, is a function of the branch.  Two calls break this: one
that drops a block without a session, and a `commit_block` that throws behind the move of the head.
-/

namespace Inery.Chain

open Foundation List SnapshotStack

/-- `block_summary_object::block_id`, by the id of the object. -/
abbrev BlockSummaries := ℕ → BlockId

def createBlockSummary (id : BlockId) (t : BlockSummaries) : BlockSummaries :=
  Function.update t (numFromId id &&& 0xffff) id

/-- The low 32 bits of `_hash[1]`. -/
def refBlockPrefixOf (id : BlockId) : UInt32 := ⟨id.extractLsb' 64 32⟩

def Wire.Transaction.verifyReferenceBlock (trx : Wire.Transaction) (referenceBlock : BlockId) :
    Prop :=
  trx.refBlockNum = UInt16.ofNat (numFromId referenceBlock) ∧
    trx.refBlockPrefix = refBlockPrefixOf referenceBlock

instance (trx : Wire.Transaction) (id : BlockId) : Decidable (trx.verifyReferenceBlock id) :=
  inferInstanceAs (Decidable (_ ∧ _))

def validateTapos (t : BlockSummaries) (trx : Wire.Transaction) : Result Unit :=
  ineAssert (trx.verifyReferenceBlock (t trx.refBlockNum.toNat)) .invalidRefBlockException
    "Transaction's reference block did not match. Is this transaction from a different fork?"

/-- A pending block: whether it has an undo session, and its id once it is assembled. -/
structure PendingSummary where
  session : Bool
  assembled : Option BlockId := none

/-- The controller as far as the summaries go.  The branch leads from the head down to
genesis; its first `reversible` blocks lie above the root of the fork database. -/
structure TaposController where
  branch : List BlockId
  reversible : ℕ := 0
  db : SnapshotStack BlockSummaries
  pending : Option PendingSummary := none

namespace TaposController

variable (crypto : HeaderCrypto) (c : TaposController)

/-- `initialize_blockchain_state` and `initialize_database`. -/
def genesis (h : SignedBlockHeader) : TaposController :=
  let id := { h with previous := 0 }.id crypto
  { branch := [id]
    db := { current := Function.update (fun _ => 0) 1 id, revision := 1 } }

def startBlock (session : Bool) : TaposController :=
  if c.pending.isSome ∨ session ∧ c.db.revision ≠ c.branch.length then c
  else { c with
    db := if session then c.db.push else c.db
    pending := some { session } }

/-- `finalize_block`, with the other contents of the header. -/
def finalizeBlock (h : SignedBlockHeader) : TaposController :=
  match c.pending with
  | some ⟨session, none⟩ =>
    let id := { h with previous := c.branch.headD 0 }.id crypto
    { c with
      db := c.db.update (createBlockSummary id)
      pending := some ⟨session, some id⟩ }
  | _ => c

def abortBlock : TaposController :=
  match c.pending with
  | none => c
  | some p => { c with db := if p.session then c.db.undo else c.db, pending := none }

/-- `commit_block` and the assignment of the head.  A block without a session cannot be
popped, and `replay` sets the revision, here with each block. -/
def commitBlock (progress : CommitProgress) : TaposController :=
  match c.pending with
  | some ⟨session, some id⟩ =>
    match progress with
    | .committed =>
      { branch := id :: c.branch
        reversible := if session then c.reversible + 1 else 0
        db := if session then c.db else { c.db with revision := c.branch.length + 1 } }
    | .threwBeforeHead => c.abortBlock
    -- the head has moved when `abort_block` undoes the session
    | .threwAfterHead => { c with branch := id :: c.branch }.abortBlock
  | _ => c.abortBlock

def popBlock : TaposController :=
  match c.pending, c.reversible with
  | none, n + 1 => { c with branch := c.branch.tail, reversible := n, db := c.db.undo }
  | _, _ => c

/-- The blocks up to a number become irreversible. -/
def commitIrreversible (blockNum : ℕ) : TaposController :=
  { c with
    reversible := min c.reversible (c.branch.length - blockNum)
    db := c.db.commit blockNum }

end TaposController

inductive TaposCall where
  | startBlock (session : Bool)
  | finalizeBlock (h : SignedBlockHeader)
  | abortBlock
  | commitBlock (progress : CommitProgress)
  | popBlock
  | commitIrreversible (blockNum : ℕ)

namespace TaposController

/-- The controller after a call, whether it threw or not. -/
def call (crypto : HeaderCrypto) (c : TaposController) : TaposCall → TaposController
  | .startBlock session => c.startBlock session
  | .finalizeBlock h => c.finalizeBlock crypto h
  | .abortBlock => c.abortBlock
  | .commitBlock progress => c.commitBlock progress
  | .popBlock => c.popBlock
  | .commitIrreversible blockNum => c.commitIrreversible blockNum

/-- Blocks become irreversible between two blocks, and they are replayed without sessions
only when no block can be popped. -/
def Possible (c : TaposController) : TaposCall → Prop
  | .startBlock session => session = false → c.reversible = 0
  | .commitIrreversible _ => c.pending = none
  | _ => True

/-- An assembled block is dropped without a session, or behind the move of the head. -/
def Loses (c : TaposController) : TaposCall → Prop
  | .abortBlock | .commitBlock .threwBeforeHead => ∃ id, c.pending = some ⟨false, some id⟩
  | .commitBlock .threwAfterHead => ∃ session id, c.pending = some ⟨session, some id⟩
  | _ => False

end TaposController

/-- The controllers reached from genesis by calls that lose no block. -/
inductive TaposRun (crypto : HeaderCrypto) : TaposController → Prop
  | genesis (h : SignedBlockHeader) : TaposRun crypto (.genesis crypto h)
  | call {c : TaposController} (h : TaposRun crypto c) (op : TaposCall) (hpossible : c.Possible op)
      (hkeep : ¬ c.Loses op) : TaposRun crypto (c.call crypto op)

/-! ## The table of a branch -/

/-- The id of the latest block of the branch with this remainder, or the zero id. -/
def latest (branch : List BlockId) (i : ℕ) : BlockId :=
  (branch.find? fun id => numFromId id % 65536 = i).getD 0

theorem createBlockSummary_latest (id : BlockId) (branch : List BlockId) :
    createBlockSummary id (latest branch) = latest (id :: branch) := by
  have hslot : numFromId id &&& 0xffff = numFromId id % 65536 := Nat.and_two_pow_sub_one_eq_mod _ 16
  ext1 i
  rw [createBlockSummary, hslot]
  by_cases hi : numFromId id % 65536 = i
  · simp [latest, hi]
  · simp [latest, hi, Function.update_of_ne (Ne.symm hi)]

/-- The database over a branch whose first blocks are reversible. -/
def stackOf (branch : List BlockId) (reversible : ℕ) : SnapshotStack BlockSummaries where
  current := latest branch
  revision := branch.length
  saved := (range reversible).map fun k =>
    (latest (branch.drop (k + 1)), (branch.length : ℤ) - k)

variable {id : BlockId} {branch : List BlockId} {n : ℕ}

theorem push_stackOf :
    (stackOf branch n).push.update (createBlockSummary id) = stackOf (id :: branch) (n + 1) := by
  simp only [stackOf, push, update, createBlockSummary_latest, range_succ_eq_map, map_cons, map_map,
    length_cons, Nat.cast_succ, drop_succ_cons, drop_zero, mk.injEq, true_and]
  refine congrArg₂ _ (by simp) (map_congr_left fun k _ => ?_)
  simp only [Function.comp_apply, Nat.cast_succ, add_sub_add_right_eq_sub]

theorem undo_stackOf : (stackOf (id :: branch) (n + 1)).undo = stackOf branch n := by
  rw [← push_stackOf]
  exact undo_of_saved rfl rfl

theorem commit_stackOf (branch : List BlockId) (n blockNum : ℕ) :
    (stackOf branch n).commit blockNum = stackOf branch (min n (branch.length - blockNum)) := by
  simp only [stackOf, commit, mk.injEq, true_and]
  induction n with
  | zero => simp
  | succ n ih =>
    rw [range_succ, map_append, map_singleton]
    by_cases hdrop : (branch.length : ℤ) - n ≤ blockNum
    · rw [rdropWhile_concat, if_pos (decide_eq_true hdrop), ih]
      congr 2
      omega
    · rw [rdropWhile_concat, if_neg (by simpa using hdrop), min_eq_left (by omega), range_succ,
        map_append, map_singleton]

/-! ## Numbers -/

theorem SignedBlockHeader.numFromId_id (crypto : HeaderCrypto) (h : SignedBlockHeader) :
    numFromId (h.id crypto) = h.blockNum := by
  have hlow : (h.id crypto).extractLsb' 0 32 = endianReverseU32 (BitVec.ofNat 32 h.blockNum) := by
    rw [SignedBlockHeader.id, ← BitVec.setWidth_eq_extractLsb' (by decide),
      BitVec.setWidth_add _ _ (by decide), BitVec.setWidth_and]
    simp
  rw [numFromId, hlow, endianReverseU32_endianReverseU32, BitVec.toNat_ofNat]
  exact Nat.mod_eq_of_lt (u32_lt _)

/-- Every block carries the number after that of the block under it. -/
def Linked : List BlockId → Prop := IsChain fun a b => numFromId a = u32 (numFromId b + 1)

/-- Remainders count down along a branch, also where the 32-bit numbers wrap around. -/
theorem Linked.mod_eq (h : Linked branch) {k j : ℕ} {a b : BlockId} (ha : branch[k]? = some a)
    (hb : branch[k + j]? = some b) : numFromId a % 65536 = (numFromId b + j) % 65536 := by
  induction j generalizing b with
  | zero =>
    cases ha.symm.trans hb
    rfl
  | succ j ih =>
    obtain ⟨hlt, rfl⟩ := List.getElem?_eq_some_iff.mp hb
    have hnext := isChain_iff_getElem.mp h (k + j) hlt
    have hprev : k + j < branch.length := Nat.lt_of_succ_lt hlt
    rw [ih (getElem?_eq_getElem hprev), hnext, u32]
    simp only [Nat.add_assoc]
    omega

theorem Linked.latest_cases (h : Linked branch) (i : ℕ) :
    (∃ k ≤ 65535, branch[k]? = some (latest branch i)) ∨
      latest branch i = 0 ∧ ∀ id ∈ branch, numFromId id % 65536 ≠ i := by
  cases hfind : branch.find? fun id => numFromId id % 65536 = i with
  | none =>
    refine .inr ⟨by rw [latest, hfind]; rfl, fun id hid => ?_⟩
    simpa using find?_eq_none.mp hfind id hid
  | some id =>
    obtain ⟨hslot, k, hk, rfl, hfirst⟩ := find?_eq_some_iff_getElem.mp hfind
    refine .inl ⟨k, ?_, by rw [latest, hfind, getElem?_eq_getElem hk]; rfl⟩
    by_contra hfar
    -- 65536 blocks later the remainder comes again
    obtain ⟨m, rfl⟩ : ∃ m, k = m + 65536 := ⟨k - 65536, by omega⟩
    have hm : m < branch.length := by omega
    have hagain := h.mod_eq (k := m) (j := 65536) (getElem?_eq_getElem hm) (getElem?_eq_getElem hk)
    have hnot := hfirst m (by omega)
    rw [hagain, Nat.add_mod_right] at hnot
    simp [of_decide_eq_true hslot] at hnot

/-! ## Runs -/

namespace TaposController

/-- The database under a pending block. -/
def opened (session : Bool) (s : SnapshotStack BlockSummaries) : SnapshotStack BlockSummaries :=
  if session then s.push else s

/-- The database is that of the branch, between two blocks, while a block is built, and
when it is assembled. -/
inductive Sound : TaposController → Prop
  | settled {branch : List BlockId} {n : ℕ} (hlinked : Linked branch) (hlt : n < branch.length) :
      Sound ⟨branch, n, stackOf branch n, none⟩
  | building {branch : List BlockId} {n : ℕ} {session : Bool} (hlinked : Linked branch)
      (hlt : n < branch.length) (hreplay : session = false → n = 0) :
      Sound ⟨branch, n, opened session (stackOf branch n), some ⟨session, none⟩⟩
  | assembled {branch : List BlockId} {n : ℕ} {session : Bool} {id : BlockId}
      (hlinked : Linked (id :: branch)) (hlt : n < branch.length)
      (hreplay : session = false → n = 0) :
      Sound ⟨branch, n, (opened session (stackOf branch n)).update (createBlockSummary id),
        some ⟨session, some id⟩⟩

variable {crypto : HeaderCrypto} {c : TaposController} {session : Bool}

theorem Sound.of_db {db : SnapshotStack BlockSummaries} (hdb : db = stackOf branch n)
    (hlinked : Linked branch) (hlt : n < branch.length) : Sound ⟨branch, n, db, none⟩ :=
  hdb ▸ .settled hlinked hlt

theorem sound_genesis (h : SignedBlockHeader) : Sound (genesis crypto h) := by
  have hslot : { h with previous := 0 }.blockNum &&& 0xffff = 1 := by
    change u32 (numFromId 0 + 1) &&& 0xffff = 1
    decide
  have htable := createBlockSummary_latest ({ h with previous := 0 }.id crypto) []
  rw [createBlockSummary, SignedBlockHeader.numFromId_id, hslot] at htable
  exact .of_db (congrArg (fun t => SnapshotStack.mk t 1 []) htable) (isChain_singleton _)
    Nat.one_pos

namespace Sound

variable (h : Sound c)
include h

theorem startBlock (hpossible : session = false → c.reversible = 0) :
    Sound (c.startBlock session) := by
  cases h with
  | settled hlinked hlt =>
    simp only [startBlock, stackOf, Option.isSome_none, Bool.false_eq_true,
      ne_eq, not_true_eq_false, and_false, or_self, if_false]
    exact .building hlinked hlt hpossible
  | building hlinked hlt hreplay => exact .building hlinked hlt hreplay
  | assembled hlinked hlt hreplay => exact .assembled hlinked hlt hreplay

theorem finalizeBlock (header : SignedBlockHeader) : Sound (c.finalizeBlock crypto header) := by
  cases h with
  | settled hlinked hlt => exact .settled hlinked hlt
  | assembled hlinked hlt hreplay => exact .assembled hlinked hlt hreplay
  | @building branch _ _ hlinked hlt hreplay =>
    refine .assembled ?_ hlt hreplay
    cases branch with
    | nil => exact absurd hlt (Nat.not_lt_zero _)
    | cons head rest =>
      exact isChain_cons_cons.mpr ⟨SignedBlockHeader.numFromId_id .., hlinked⟩

theorem abortBlock (hkeep : ¬ c.Loses .abortBlock) : Sound c.abortBlock := by
  cases h with
  | settled hlinked hlt => exact .settled hlinked hlt
  | @building branch n session hlinked hlt hreplay =>
    cases session with
    | true => exact .of_db (undo_push _) hlinked hlt
    | false => exact .settled hlinked hlt
  | @assembled branch n session id hlinked hlt hreplay =>
    cases session with
    | true => exact .of_db (undo_of_saved rfl rfl) hlinked.tail hlt
    | false => exact absurd ⟨id, rfl⟩ hkeep

theorem commitBlock {progress : CommitProgress} (hkeep : ¬ c.Loses (.commitBlock progress)) :
    Sound (c.commitBlock progress) := by
  cases h with
  | settled hlinked hlt => exact .settled hlinked hlt
  | building hlinked hlt hreplay =>
    exact (building hlinked hlt hreplay).abortBlock (by rintro ⟨id, ⟨⟩⟩)
  | @assembled branch n session id hlinked hlt hreplay =>
    cases progress with
    | committed =>
      cases session with
      | true => exact .of_db push_stackOf hlinked (Nat.succ_lt_succ hlt)
      | false =>
        obtain rfl := hreplay rfl
        have htable := createBlockSummary_latest id branch
        exact .of_db (congrArg (fun t => SnapshotStack.mk t _ []) htable) hlinked (Nat.succ_pos _)
    | threwBeforeHead => exact (assembled hlinked hlt hreplay).abortBlock hkeep
    | threwAfterHead => exact absurd ⟨session, id, rfl⟩ hkeep

theorem popBlock : Sound c.popBlock := by
  cases h with
  | @settled branch n hlinked hlt =>
    cases n with
    | zero => exact .settled hlinked hlt
    | succ n =>
      cases branch with
      | nil => exact absurd hlt (Nat.not_lt_zero _)
      | cons id rest =>
        exact .of_db undo_stackOf hlinked.tail (Nat.lt_of_succ_lt_succ hlt)
  | building hlinked hlt hreplay => exact .building hlinked hlt hreplay
  | assembled hlinked hlt hreplay => exact .assembled hlinked hlt hreplay

theorem commitIrreversible (hnone : c.pending = none) (blockNum : ℕ) :
    Sound (c.commitIrreversible blockNum) := by
  cases h with
  | @settled branch n hlinked hlt =>
    exact .of_db (commit_stackOf ..) hlinked (Nat.lt_of_le_of_lt (min_le_left ..) hlt)
  | building => cases hnone
  | assembled => cases hnone

end Sound

end TaposController

open TaposController

variable {crypto : HeaderCrypto} {c : TaposController}

theorem TaposRun.sound (h : TaposRun crypto c) : Sound c := by
  induction h with
  | genesis h => exact sound_genesis h
  | call _ op hpossible hkeep ih =>
    cases op with
    | startBlock session => exact ih.startBlock hpossible
    | finalizeBlock header => exact ih.finalizeBlock header
    | abortBlock => exact ih.abortBlock hkeep
    | commitBlock progress => exact ih.commitBlock hkeep
    | popBlock => exact ih.popBlock
    | commitIrreversible blockNum => exact ih.commitIrreversible hpossible blockNum

theorem Linked.validateTapos (h : Linked branch) {trx : Wire.Transaction}
    (hok : validateTapos (latest branch) trx = .ok ()) :
    (∃ k ≤ 65535, ∃ id, branch[k]? = some id ∧ trx.verifyReferenceBlock id) ∨
      trx.refBlockNum = 0 ∧ trx.refBlockPrefix = 0 ∧ ∀ id ∈ branch, numFromId id % 65536 ≠ 0 := by
  rw [Chain.validateTapos, ineAssert_eq_ok] at hok
  rcases h.latest_cases trx.refBlockNum.toNat with ⟨k, hk, hget⟩ | ⟨hzero, hnone⟩
  · exact .inl ⟨k, hk, _, hget, hok⟩
  · rw [hzero] at hok
    have hnum : trx.refBlockNum = 0 := hok.1
    rw [hnum] at hnone
    exact .inr ⟨hnum, hok.2, hnone⟩

/-- **TaPoS follows the branch unless an assembled block is lost.**  After every sequence of calls
that loses no block, and while the next block is built, each summary holds the id of the latest
block of the branch with its remainder.  A transaction that is accepted references one of the last
65536 blocks of the branch, or has the zero reference of a slot that no block has used. -/
theorem block_summaries_follow_branch (h : TaposRun crypto c)
    (hopen : ∀ p ∈ c.pending, p.assembled = none) :
    c.db.current = latest c.branch ∧
      ∀ trx, validateTapos c.db.current trx = .ok () →
        (∃ k ≤ 65535, ∃ id, c.branch[k]? = some id ∧ trx.verifyReferenceBlock id) ∨
        (trx.refBlockNum = 0 ∧ trx.refBlockPrefix = 0 ∧
          ∀ id ∈ c.branch, numFromId id % 65536 ≠ 0) := by
  cases h.sound with
  | settled hlinked _ => exact ⟨rfl, fun trx hok => hlinked.validateTapos hok⟩
  | @building branch n session hlinked _ _ =>
    have hcurrent : (opened session (stackOf branch n)).current = latest branch := by
      cases session <;> rfl
    rw [hcurrent]
    exact ⟨rfl, fun trx hok => hlinked.validateTapos hok⟩
  | assembled => cases hopen _ rfl

/-- The genesis block, as the controller starts with it. -/
def firstBlock : TaposController := .genesis openCrypto {}

/-- A block is assembled. -/
def TaposController.assemble (c : TaposController) (session : Bool) : TaposController :=
  (c.call openCrypto (.startBlock session)).call openCrypto (.finalizeBlock {})

theorem TaposRun.assemble (h : TaposRun openCrypto c) (session : Bool)
    (hreplay : session = false → c.reversible = 0) :
    TaposRun openCrypto (c.assemble session) :=
  .call (.call h (.startBlock session) hreplay id) (.finalizeBlock {}) trivial id

/-- `commit_block` throws when the block has become the head: its summary is undone.  A
block that is replayed without a session is dropped: its summary stays. -/
theorem block_summaries_lose_block :
    (∃ c, TaposRun openCrypto c ∧
      (c.commitBlock .threwAfterHead).pending.isNone ∧
      (c.commitBlock .threwAfterHead).db.current 2 ≠
        latest (c.commitBlock .threwAfterHead).branch 2) ∧
    ∃ c, TaposRun openCrypto c ∧ c.abortBlock.pending.isNone ∧
      c.abortBlock.db.current 2 ≠ latest c.abortBlock.branch 2 := by
  have hrun : ∀ session, TaposRun openCrypto (firstBlock.assemble session) :=
    fun session => TaposRun.assemble (.genesis {}) session fun _ => rfl
  refine ⟨⟨_, hrun true, rfl, ?_⟩, ⟨_, hrun false, rfl, ?_⟩⟩
  · decide +kernel
  · decide +kernel

/-- Two blocks are committed on genesis, a third is dropped and the second is popped. -/
def poppedBranch : TaposController :=
  let c := (firstBlock.assemble true).commitBlock .committed
  let c := (c.assemble true).commitBlock .committed
  (c.assemble true).abortBlock.popBlock

theorem block_summaries_follow_branch_popped :
    poppedBranch.branch.map numFromId = [2, 1] ∧
      poppedBranch.db.current = latest poppedBranch.branch := by
  have hfirst : TaposRun openCrypto _ :=
    .call (TaposRun.assemble (.genesis {}) true nofun) (.commitBlock .committed) trivial id
  have hsecond : TaposRun openCrypto _ :=
    .call (hfirst.assemble true nofun) (.commitBlock .committed) trivial id
  have hdropped : TaposRun openCrypto _ :=
    .call (hsecond.assemble true nofun) .abortBlock trivial nofun
  exact ⟨by decide +kernel,
    (block_summaries_follow_branch (.call hdropped .popBlock trivial id) nofun).1⟩

end Inery.Chain
