import Inery.Chain.BlockLogReads

/-!
# Repairing the block log (`repair_log`)

The blocks are read and written again one by one, as long as each is followed by the position at
which it starts.  The last block to keep is given by its number, and by 0 if there is none;
a block of number 0 ends the copy all the same.
-/

namespace Inery.Chain.BlockLog

open Foundation List Header

/-- Blocks read from a `std::fstream`.  Reading beyond the end of the file does not throw: a block
may be returned that is not in the file, and there is then nothing left to read. -/
structure BlockStream {η : Type} (codec : BlockCodec η) where
  unpack : Bytes → Option (LogBlock × Option Bytes)
  unpack_iff : ∀ {bs b rest}, unpack bs = some (b, some rest) ↔
    codec.format.read bs = some (b, rest)

variable {γ η : Type} (genesis : GenesisCodec γ) (codec : BlockCodec η) (stream : BlockStream codec)

/-- What cannot be packed throws. -/
def packed {α : Type} (format : Format α) (a : α) : Result Bytes :=
  match format.pack a with
  | some bs => pure bs
  | none => .error ⟨.fcStdException, "value.size() <= MAX_SIZE_OF_BYTE_ARRAYS"⟩

/-- A header that ends early leaves what is read of it undetermined. -/
def headerEnds : ChainException := ⟨.undefinedBehaviour, "the header ends early"⟩

def copyContext (version firstBlockNum : ℕ) (ds : Bytes) : Result (Bytes × Bytes) :=
  if containsGenesisState version firstBlockNum then
    match genesis.format.read ds with
    | none => .error headerEnds
    | some (gs, ds) => do
      let data ← packed genesis.format gs
      pure (data, ds)
  else if containsChainId version firstBlockNum then
    match Reader.take 32 ds with
    | none => .error headerEnds
    | some chainId => pure chainId
  else
    .error ⟨.blockLogException,
      "Block log ${file} is not supported. version: ${ver} and first_block_num: ${fbn} does not contain a genesis_state nor a chain_id."⟩

/-- What is thrown for a log that starts at a later block. -/
def notFromOne : ChainException :=
  ⟨.blockLogException,
    "Block log ${file} must contain a genesis state and start at block number 1.  This block log starts at block number ${first_block_num}."⟩

def copyHeader (file : Bytes) : Result (Bytes × Bytes) := do
  let version ← fileAt 4 file 0 headerEnds
  checkVersion version
  if version = 1 then do
    let (data, ds) ← copyContext genesis version 1 (file.drop 4)
    pure (leBytes 4 version ++ data, ds)
  else do
    let firstBlockNum ← fileAt 4 file 4 headerEnds
    if firstBlockNum = 1 then do
      let (data, ds) ← copyContext genesis version firstBlockNum (file.drop 8)
      let totem ← fileAt 8 ds 0 headerEnds
      ineAssert (totem = npos) .blockLogException
        "Expected separator between block log header and blocks was not found( expected: ${e}, actual: ${a} )"
      pure (leBytes 4 version ++ leBytes 4 firstBlockNum ++ data ++ posBytes totem, ds.drop 8)
    else .error notFromOne

def positionAfter : Option Bytes → ℕ
  | none => npos
  | some rest => if 8 ≤ rest.length then ofLeBytes (rest.take 8) else npos

/-- The loop.  The next block should start at `pos`: where the old header ends, and then at the end
of the new file.  Every round adds to that, so the length of the old file bounds their number. -/
def recoverBlocks (endPos truncateAtBlock : ℕ) : ℕ → ℕ → Bytes → Bytes → Result Bytes
  | 0, _, _, _ => .error ⟨.undefinedBehaviour, "more blocks than bytes"⟩
  | rounds + 1, pos, old, new =>
    if endPos ≤ pos then pure new
    else
      match stream.unpack old with
      | none => pure new
      | some (tmp, rest) =>
        if pos ≠ positionAfter rest then pure new
        else do
          let data ← packed codec.format tmp
          let new' := new ++ data ++ posBytes pos
          if tmp.blockNum = truncateAtBlock then pure new'
          else recoverBlocks endPos truncateAtBlock rounds new'.length ((rest.getD []).drop 8) new'

def repairLog (file : Bytes) (truncateAtBlock : ℕ) : Result Bytes := do
  let (header, old) ← copyHeader genesis file
  recoverBlocks codec stream file.length truncateAtBlock (file.length + 1)
    (file.length - old.length) old header

/-- The blocks up to one of this number. -/
def keptUntil (n : ℕ) : List LogBlock → List LogBlock
  | [] => []
  | b :: blocks => if b.blockNum = n then [b] else b :: keptUntil n blocks

/-- The tail does not start with another block and its position. -/
def Broken (pos : ℕ) (tail : Bytes) : Prop :=
  ∀ b rest, codec.format.read tail = some (b, rest) → ¬ posBytes pos <+: rest

section Repair

variable {genesis} {codec} {stream} {h : Header γ} {bytes tail : Bytes} {blocks : List LogBlock}

theorem keptUntil_eq_iff (n : ℕ) :
    keptUntil n blocks = blocks ↔ ∀ b ∈ blocks.dropLast, b.blockNum ≠ n := by
  induction blocks with
  | nil => simp [keptUntil]
  | cons b blocks ih =>
    cases blocks with
    | nil =>
      rw [keptUntil, keptUntil, ite_self]
      exact ⟨fun _ => nofun, fun _ => rfl⟩
    | cons c rest =>
      rw [keptUntil, dropLast_cons_cons, forall_mem_cons, ← ih]
      split
      · next hb => exact ⟨fun h => absurd (List.cons.inj h).2.symm (cons_ne_nil _ _),
          fun h => absurd hb h.1⟩
      · next hb => exact ⟨fun h => ⟨hb, (List.cons.inj h).2⟩, fun h => congrArg _ h.2⟩

/-- Bytes that are not a block with its position end the copy. -/
theorem recoverBlocks_broken {endPos n rounds pos : ℕ} {new : Bytes}
    (hbroken : Broken codec pos tail) (hlt : pos < npos) :
    recoverBlocks codec stream endPos n (rounds + 1) pos tail new = .ok new := by
  rw [recoverBlocks]
  split
  · rfl
  split
  · rfl
  next tmp rest hunpack =>
  refine if_pos ?_
  intro hpos
  cases rest with
  | none => exact hlt.ne hpos
  | some rest =>
    rw [positionAfter] at hpos
    split at hpos
    · next hle =>
      refine hbroken tmp rest (stream.unpack_iff.mp hunpack) ⟨rest.drop 8, ?_⟩
      have hbytes := leBytes_ofLeBytes (rest.take 8)
      rw [length_take_of_le hle, ← hpos] at hbytes
      rw [posBytes, hbytes, take_append_drop]
    · exact hlt.ne hpos

theorem recoverBlocks_eq {new : Bytes} {n rounds endPos : ℕ} (hrounds : blocks.length < rounds)
    (hpacks : ∀ b ∈ blocks, codec.format.pack b = some b.pack)
    (hend : endPos = (new ++ encode new.length blocks ++ tail).length) (hsize : endPos < 2 ^ 63)
    (hbroken : Broken codec (new ++ encode new.length blocks).length tail) :
    recoverBlocks codec stream endPos n rounds new.length (encode new.length blocks ++ tail) new =
      .ok (new ++ encode new.length (keptUntil n blocks)) := by
  induction blocks generalizing new rounds with
  | nil =>
    cases rounds with
    | zero => cases hrounds
    | succ rounds =>
      rw [encode, append_nil] at hbroken hend
      rw [keptUntil, encode, append_nil, nil_append]
      refine recoverBlocks_broken hbroken ?_
      rw [hend, length_append] at hsize
      unfold npos
      omega
  | cons b blocks ih =>
    cases rounds with
    | zero => cases hrounds
    | succ rounds =>
      have hpack := hpacks b mem_cons_self
      have hsmall : new.length < 2 ^ 63 := by
        rw [hend, length_append, length_append] at hsize
        omega
      have hopen : ¬ endPos ≤ new.length := by
        rw [hend, length_append, length_append_encode, extent_cons]
        omega
      have hunpack : stream.unpack (encode new.length (b :: blocks) ++ tail) = some (b,
          some (posBytes new.length ++
            (encode (new.length + b.pack.length + 8) blocks ++ tail))) := by
        rw [stream.unpack_iff, encode, append_assoc, append_assoc]
        exact codec.format.read_pack hpack _
      have hafter : positionAfter (some (posBytes new.length ++
          (encode (new.length + b.pack.length + 8) blocks ++ tail))) = new.length := by
        rw [positionAfter, if_pos (by rw [length_append, length_posBytes]; omega),
          take_left' (length_posBytes _), ofLeBytes_posBytes (by omega)]
      have hnext : (new ++ b.pack ++ posBytes new.length).length =
          new.length + b.pack.length + 8 := by
        rw [length_append, length_append, length_posBytes]
      have hfile : ∀ more, new ++ (b.pack ++ posBytes new.length ++ more) =
          new ++ b.pack ++ posBytes new.length ++ more := by
        intro more
        simp only [append_assoc]
      rw [recoverBlocks, if_neg hopen, hunpack]
      simp only [hafter, ne_eq, not_true_eq_false, if_false, packed, hpack, pure_bind,
        Option.getD_some, drop_left' (length_posBytes _), keptUntil]
      split
      · rw [encode, encode, append_nil, ← append_assoc]
        rfl
      · rw [encode, hfile, ← hnext] at hend hbroken
        rw [encode, hfile, ← hnext]
        exact ih (Nat.lt_of_succ_lt_succ hrounds) (fun c hc => hpacks c (mem_cons_of_mem _ hc))
          hend hbroken

theorem copyHeader_eq {version : ℕ} {gs : γ} (hversion : isSupportedVersion version)
    (hpack : (mk version 1 (.genesisState gs)).pack genesis = some bytes) (rest : Bytes) :
    copyHeader genesis (bytes ++ rest) = .ok (bytes, rest) := by
  have hread := fileAt_version (headerBytes_of_pack hpack) hversion rest headerEnds
  rw [pack] at hpack
  obtain ⟨data, hdata, hpack⟩ := Option.bind_eq_some_iff.mp hpack
  have hgenesis : containsGenesisState version 1 := decide_eq_true (Or.inr rfl)
  have hcopy : ∀ rest, copyContext genesis version 1 (data ++ rest) = .ok (data, rest) := by
    intro rest
    have hgs : genesis.format.pack gs = some data := hdata
    simp only [copyContext, hgenesis, if_true, genesis.format.read_pack hgs, packed, hgs]
    rfl
  simp only [copyHeader, hread, ok_bind, checkVersion_eq hversion, ineAssert]
  by_cases hone : version = 1
  · rw [if_pos hone] at hpack ⊢
    cases hpack
    rw [append_assoc, drop_left' (length_leBytes 4 _), hcopy]
    rfl
  · rw [if_neg hone] at hpack ⊢
    cases hpack
    have hfirst : fileAt 4 (leBytes 4 version ++ leBytes 4 1 ++
        (data ++ (posBytes npos ++ rest))) 4 headerEnds = .ok 1 :=
      fileAt_append_mid _ (length_leBytes 4 _).symm (length_leBytes 4 _).symm
    rw [append_assoc (_ ++ data), append_assoc _ data, hfirst, ok_bind, if_pos rfl,
      drop_left' (by rw [length_append, length_leBytes, length_leBytes]), hcopy, ok_bind]
    simp only [fileAt_totem, ok_bind, ensure_pos, drop_left' (length_posBytes _)]
    rfl

theorem repairLog_eq {version : ℕ} {gs : γ} (hversion : isSupportedVersion version)
    (hpack : (mk version 1 (.genesisState gs)).pack genesis = some bytes)
    (hpacks : ∀ b ∈ blocks, codec.format.pack b = some b.pack)
    (hsize : (bytes ++ encode bytes.length blocks ++ tail).length < 2 ^ 63)
    (hbroken : Broken codec (bytes ++ encode bytes.length blocks).length tail) (n : ℕ) :
    repairLog genesis codec stream (bytes ++ encode bytes.length blocks ++ tail) n =
      .ok (bytes ++ encode bytes.length (keptUntil n blocks)) := by
  have hpos : (bytes ++ (encode bytes.length blocks ++ tail)).length -
      (encode bytes.length blocks ++ tail).length = bytes.length := by
    rw [List.length_append, Nat.add_sub_cancel]
  rw [repairLog, append_assoc, copyHeader_eq hversion hpack, ok_bind]
  simp only [hpos]
  rw [← append_assoc]
  refine recoverBlocks_eq ?_ hpacks rfl hsize hbroken
  have hle := length_le_extent blocks
  rw [length_append, length_append_encode]
  omega

/-- **What is recovered.**  Whatever follows the blocks, unless it is another block with its
position, the new log has the header and the blocks up to one of number 0.  These are all of them
if none but the last has number 0.  A header that starts later is refused. -/
theorem repair_log_recovers (genesis : GenesisCodec γ) {codec : BlockCodec η}
    (stream : BlockStream codec) {version first : ℕ} {context : Context γ}
    (hversion : isSupportedVersion version) (hone : version = 1 → first = 1)
    (hfirst : first < 2 ^ 32)
    (hcontext : containsGenesisState version first → ∃ gs, context = .genesisState gs)
    (hpack : (Header.mk version first context).pack genesis = some bytes)
    (hpacks : ∀ b ∈ blocks, codec.format.pack b = some b.pack)
    (hsize : (bytes ++ encode bytes.length blocks ++ tail).length < 2 ^ 63)
    (hbroken : Broken codec (bytes ++ encode bytes.length blocks).length tail) :
    repairLog genesis codec stream (bytes ++ encode bytes.length blocks ++ tail) 0 =
        (if first = 1 then .ok (bytes ++ encode bytes.length (keptUntil 0 blocks))
        else .error notFromOne) ∧
      (keptUntil 0 blocks = blocks ↔ ∀ b ∈ blocks.dropLast, b.blockNum ≠ 0) := by
  refine ⟨?_, keptUntil_eq_iff 0⟩
  split
  · next heq =>
    subst heq
    obtain ⟨gs, rfl⟩ := hcontext (decide_eq_true (Or.inr rfl))
    exact repairLog_eq hversion hpack hpacks hsize hbroken 0
  · next hne =>
    have hheader := headerBytes_of_pack hpack
    have hread := hheader.fileAt_first (mt hone hne) hfirst (encode bytes.length blocks ++ tail)
    rw [repairLog, append_assoc]
    simp only [copyHeader, fileAt_version hheader hversion, ok_bind, checkVersion_eq hversion,
      if_neg (mt hone hne), hread, if_neg hne, error_bind]

end Repair

/-! ### A block of number 0 -/

def plainStream : BlockStream plainCodec where
  unpack bs := (plainFormat.read bs).map fun (b, rest) => (b, some rest)
  unpack_iff := by
    intro bs b rest
    rw [Option.map_eq_some_iff]
    constructor
    · rintro ⟨⟨c, rest'⟩, hread, heq⟩
      cases heq
      exact hread
    · exact fun hread => ⟨_, hread, rfl⟩

def firstHeader : Bytes := leBytes 4 3 ++ leBytes 4 1 ++ leBytes 8 7 ++ posBytes npos

def zeroBlock : LogBlock := ⟨0, 0, 0, BitVec.ofNat 256 (2 ^ 32 - 1), []⟩

/-- A tail that no block can be read from. -/
theorem broken_of_none {tail : Bytes} (h : plainFormat.read tail = none) (pos : ℕ) :
    Broken plainCodec pos tail := by
  intro b rest hread
  cases h.symm.trans hread

theorem pack_firstHeader : (mk 3 1 (.genesisState 7)).pack timestampCodec = some firstHeader := rfl

/-- Two blocks before a tail of three other bytes. -/
theorem repair_log_recovers_two : repairLog timestampCodec plainCodec plainStream
        (firstHeader ++ encode firstHeader.length [plainBlock [] 1, plainBlock [] 2] ++ [1, 2, 3])
        0 =
      .ok (firstHeader ++ encode firstHeader.length [plainBlock [] 1, plainBlock [] 2]) := by
  have hpacks : ∀ b ∈ [plainBlock [] 1, plainBlock [] 2],
      plainCodec.format.pack b = some b.pack := by
    decide +kernel
  obtain ⟨hrepaired, hkept⟩ := repair_log_recovers timestampCodec plainStream (by decide)
    (fun _ => rfl) (by decide) (fun _ => ⟨7, rfl⟩) pack_firstHeader hpacks (by decide +kernel)
    (show Broken plainCodec _ [1, 2, 3] from broken_of_none rfl _)
  rwa [hkept.mpr (by decide +kernel), if_pos rfl] at hrepaired

/-- The block of number 0 is kept, and the good block after it is not. -/
theorem zero_block_ends_repair :
    (∀ b ∈ [zeroBlock, plainBlock [] 1], plainCodec.format.pack b = some b.pack) ∧
      (∀ pos, Broken plainCodec pos []) ∧
      repairLog timestampCodec plainCodec plainStream
          (firstHeader ++ encode firstHeader.length [zeroBlock, plainBlock [] 1] ++ []) 0 =
        .ok (firstHeader ++ encode firstHeader.length [zeroBlock]) ∧
      encode firstHeader.length [zeroBlock] ≠
        encode firstHeader.length [zeroBlock, plainBlock [] 1] := by
  have hpacks : ∀ b ∈ [zeroBlock, plainBlock [] 1], plainCodec.format.pack b = some b.pack := by
    decide +kernel
  refine ⟨hpacks, broken_of_none rfl, ?_, by decide +kernel⟩
  rw [repairLog_eq (by decide) pack_firstHeader hpacks (by decide +kernel) (broken_of_none rfl _) 0,
    show keptUntil 0 [zeroBlock, plainBlock [] 1] = [zeroBlock] from if_pos (by decide +kernel)]

end Inery.Chain.BlockLog
