import Inery.Chain.BlockIndex

/-!
# Reading the block log

A log that was reset and appended to, and opened again at any time: every block is found by its
number, through the index, and the last one from the end of the log.
-/

namespace Inery.Chain.BlockLog

open Foundation List Format Option Reader

/-- `fc::raw` for blocks and headers.  A packed block starts with its header, from which number
and id are computed. -/
structure BlockCodec (η : Type) where
  format : Format LogBlock
  pack_eq : ∀ {b bs}, format.pack b = some bs → bs = b.pack
  header : Format η
  headerOf : LogBlock → η
  header_first : ∀ {b bs}, format.pack b = some bs →
    ∃ hs more, header.pack (headerOf b) = some hs ∧ bs = hs ++ more
  blockNum : η → ℕ
  blockNum_headerOf : ∀ b, blockNum (headerOf b) = b.blockNum
  calculateId : η → BlockId
  numFromId_calculateId : ∀ h, numFromId (calculateId h) = blockNum h

def BlockCodec.id {η : Type} (codec : BlockCodec η) (b : LogBlock) : BlockId :=
  codec.calculateId (codec.headerOf b)

/-! ## The log -/

structure BlockLogImpl where
  files : Files
  head : Option LogBlock := none
  headId : BlockId := 0
  genesisWrittenToBlockLog : Bool := false
  version : ℕ := 0
  firstBlockNum : ℕ := 0
deriving DecidableEq

variable {γ η : Type} (genesis : GenesisCodec γ) (codec : BlockCodec η)

/-- What is thrown when a file ends too early. -/
def readFails : ChainException := ⟨.fcStdException, "cfile unable to read"⟩

def readBlock (blockFile : Bytes) (pos : ℕ) : Result LogBlock :=
  match codec.format.read (blockFile.drop pos) with
  | some (b, _) => pure b
  | none => .error readFails

def readHead (blockFile : Bytes) : Result (Option LogBlock) :=
  if blockFile.length ≤ 8 then pure none
  else do
    let pos ← fileAt 8 blockFile (blockFile.length - 8) readFails
    if pos = npos then pure none
    else do
      let b ← readBlock codec blockFile pos
      pure (some b)

/-- The checks that the repair of a log makes, too. -/
def checkVersion (version : ℕ) : Result Unit := do
  ineAssert (0 < version) .blockLogException "Block log was not setup properly"
  ineAssert (isSupportedVersion version) .blockLogUnsupportedVersion
    "Unsupported version of block log. Block log version is ${version} while code supports version(s) [${min},${max}]"

theorem checkVersion_eq {version : ℕ} (h : isSupportedVersion version) :
    checkVersion version = .ok () := by
  have hpositive : 0 < version := (of_decide_eq_true h : 1 ≤ version ∧ version ≤ 3).1
  rw [checkVersion, ineAssert, ensure_pos hpositive, ok_bind, ineAssert, ensure_pos h]

namespace BlockLogImpl

variable (log : BlockLogImpl)

/-- Everything in `append` that throws comes before the first write. -/
def written (b : LogBlock) : Result Files := do
  ineAssert (log.genesisWrittenToBlockLog = true) .blockLogAppendFail
    "Cannot append to block log until the genesis is first written"
  let files ← log.files.append log.firstBlockNum b
  ineAssert ((codec.format.pack b).isSome = true) .fcStdException
    "value.size() <= MAX_SIZE_OF_BYTE_ARRAYS"
  pure files

/-- `append`: what it returns, and the log also when it throws. -/
def append (b : LogBlock) : Result ℕ × BlockLogImpl :=
  match log.written codec b with
  | .error e => (.error e, log)
  | .ok files =>
    (.ok log.files.blockFile.length, { log with files, head := some b, headId := codec.id b })

def appendFirst : Option LogBlock → Result BlockLogImpl
  | none => pure { log with head := none, headId := 0 }
  | some b =>
    match log.append codec b with
    | (.ok _, log) => pure log
    | (.error e, _) => .error e

/-- `block_log_impl::reset`: the version is written last. -/
def reset (context : Context γ) (firstBlock : Option LogBlock) (firstBnum : ℕ) :
    Result BlockLogImpl :=
  match context.pack genesis with
  | none => .error ⟨.fcStdException, "value.size() <= MAX_SIZE_OF_BYTE_ARRAYS"⟩
  | some t => do
    let log : BlockLogImpl :=
      { files := ⟨leBytes 4 0 ++ leBytes 4 firstBnum ++ t ++ posBytes npos, []⟩
        genesisWrittenToBlockLog := true
        firstBlockNum := firstBnum }
    let log ← log.appendFirst codec firstBlock
    let blockFile := writeAt 0 log.files.blockFile 0 (leBytes 4 maxSupportedVersion)
    pure { log with version := maxSupportedVersion, files := { log.files with blockFile } }

def resetGenesis (gs : γ) (firstBlock : Option LogBlock) : Result BlockLogImpl :=
  reset genesis codec (.genesisState gs) firstBlock 1

def resetChainId (chainId : Digest) (firstBlockNum : ℕ) : Result BlockLogImpl := do
  ineAssert (1 < firstBlockNum) .blockLogException
    "Block log version ${ver} needs to be created with a genesis state if starting from block number 1."
  reset genesis codec (.chainId chainId) none firstBlockNum

def openFirstBlockNum (blockFile : Bytes) (version : ℕ) : Result ℕ :=
  if 1 < version then do
    let firstBlockNum ← fileAt 4 blockFile 4 readFails
    ineAssert (0 < firstBlockNum) .blockLogException
      "Block log is malformed, first recorded block number is 0 but must be greater than or equal to 1"
    pure firstBlockNum
  else pure 1

def reconstructIndex (files : Files) : Result Files := do
  let indexFile ← constructIndex files.blockFile []
  pure { files with indexFile }

/-- The index is kept if it ends with the position that the log ends with. -/
def openIndex (files : Files) : Result Files :=
  if files.indexFile.length = 0 then reconstructIndex files
  else do
    let blockPos ← fileAt 8 files.blockFile (files.blockFile.length - 8) readFails
    let indexPos ← fileAt 8 files.indexFile (files.indexFile.length - 8) readFails
    if blockPos = indexPos then pure files else reconstructIndex files

def openLog (files : Files) : Result BlockLogImpl :=
  if files.blockFile.length = 0 then pure { files := { files with indexFile := [] } }
  else do
    let version ← fileAt 4 files.blockFile 0 readFails
    checkVersion version
    let firstBlockNum ← openFirstBlockNum files.blockFile version
    let head ← readHead codec files.blockFile
    let files ← openIndex files
    pure { files, head, headId := (head.map codec.id).getD 0
           genesisWrittenToBlockLog := true, version, firstBlockNum }

end BlockLogImpl

open BlockLogImpl

/-- The logs that come about, with the blocks that were appended.  A file has less than 2 to the 63
bytes. -/
inductive Reached : BlockLogImpl → List LogBlock → Prop
  | genesis {gs : γ} {firstBlock : Option LogBlock} {log : BlockLogImpl}
      (h : resetGenesis genesis codec gs firstBlock = .ok log)
      (hsize : log.files.blockFile.length < 2 ^ 63) : Reached log firstBlock.toList
  | chainId {id : Digest} {first : ℕ} {log : BlockLogImpl}
      (h : resetChainId genesis codec id first = .ok log) (hfirst : first < 2 ^ 32)
      (hsize : log.files.blockFile.length < 2 ^ 63) : Reached log []
  | append {log log' : BlockLogImpl} {blocks : List LogBlock} {b : LogBlock} {pos : ℕ}
      (hlog : Reached log blocks) (h : log.append codec b = (.ok pos, log'))
      (hsize : log'.files.blockFile.length < 2 ^ 63) : Reached log' (blocks ++ [b])
  | thrown {log log' : BlockLogImpl} {blocks : List LogBlock} {b : LogBlock} {e : ChainException}
      (hlog : Reached log blocks) (h : log.append codec b = (.error e, log')) : Reached log' blocks
  | reopened {log log' : BlockLogImpl} {blocks : List LogBlock}
      (hlog : Reached log blocks) (h : openLog codec log.files = .ok log') :
      Reached log' blocks

structure Logged (version first : ℕ) (bytes : Bytes) (log : BlockLogImpl) (blocks : List LogBlock) :
    Prop where
  same : log =
    { files := ⟨bytes ++ encode bytes.length blocks, indexBytes (positions bytes.length blocks)⟩
      head := blocks.getLast?
      headId := (blocks.getLast?.map codec.id).getD 0
      genesisWrittenToBlockLog := true
      version
      firstBlockNum := first }
  numbered : ∀ i b, blocks[i]? = some b → b.blockNum = u32 (first + i)
  packs : ∀ b ∈ blocks, codec.format.pack b = some b.pack
  count : blocks.length ≤ 2 ^ 32
  size : (bytes ++ encode bytes.length blocks).length < 2 ^ 63

section Logs

variable {genesis} {codec} {version first : ℕ} {bytes : Bytes} {log log' : BlockLogImpl}
  {blocks : List LogBlock} {b : LogBlock} {pos : ℕ}

/-! ## Writing -/

theorem append_eq_ok (hrun : log.append codec b = (.ok pos, log')) :
    log.files.indexFile.length = 8 * u32Sub b.blockNum log.firstBlockNum ∧
      codec.format.pack b = some b.pack ∧ log' = { log with
        files := ⟨log.files.blockFile ++ b.pack ++ posBytes log.files.blockFile.length,
          log.files.indexFile ++ posBytes log.files.blockFile.length⟩
        head := some b
        headId := codec.id b } := by
  rw [append] at hrun
  split at hrun
  · cases hrun
  · next files hfiles =>
    cases hrun
    obtain ⟨_, -, hfiles⟩ := bind_eq_ok.mp hfiles
    obtain ⟨files', hwrite, hfiles⟩ := bind_eq_ok.mp hfiles
    obtain ⟨_, hpack, hfiles⟩ := bind_eq_ok.mp hfiles
    cases hfiles
    obtain ⟨_, hlength, hwrite⟩ := bind_eq_ok.mp hwrite
    cases hwrite
    obtain ⟨bs, hbs⟩ := isSome_iff_exists.mp (ensure_eq_ok.mp hpack)
    refine ⟨ineAssert_eq_ok.mp hlength, ?_, rfl⟩
    rw [hbs, codec.pack_eq hbs]

variable (hlog : Logged codec version first bytes log blocks)
include hlog

/-- **One block more.** -/
theorem Logged.append (hrun : log.append codec b = (.ok pos, log'))
    (hsize : log'.files.blockFile.length < 2 ^ 63) :
    Logged codec version first bytes log' (blocks ++ [b]) := by
  obtain ⟨hlength, hpack, rfl⟩ := append_eq_ok hrun
  rw [hlog.same] at hlength hsize ⊢
  change (bytes ++ encode bytes.length blocks ++ b.pack ++
    posBytes (bytes ++ encode bytes.length blocks).length).length < 2 ^ 63 at hsize
  -- the number of the block, and that there is room for its position
  have hcount : blocks.length = u32Sub b.blockNum first := by
    rw [length_indexBytes, length_positions] at hlength
    exact Nat.eq_of_mul_eq_mul_left (by decide) hlength
  have hlt : u32Sub b.blockNum first < 2 ^ 32 := u32_lt _
  have hnum : b.blockNum = u32 (first + blocks.length) := by
    have hb : b.blockNum < 2 ^ 32 := u32_lt _
    rw [hcount, u32Sub, u32, u32]
    omega
  have hfile : bytes ++ encode bytes.length (blocks ++ [b]) = bytes ++ encode bytes.length blocks ++
      b.pack ++ posBytes (bytes ++ encode bytes.length blocks).length := by
    rw [encode_append, encode, encode, length_append_encode]
    simp only [append_assoc, append_nil]
  have hindex : indexBytes (positions bytes.length (blocks ++ [b])) =
      indexBytes (positions bytes.length blocks) ++
        posBytes (bytes ++ encode bytes.length blocks).length := by
    rw [positions_append, positions, positions, indexBytes_append, length_append_encode]
    exact congrArg _ (append_nil _)
  refine ⟨?_, fun i c hc => ?_, forall_mem_append.mpr ⟨hlog.packs, forall_mem_singleton.mpr hpack⟩,
    ?_, ?_⟩
  · rw [hfile, hindex, getLast?_concat]
    rfl
  · rcases getElem?_concat_eq_some.mp hc with hc | ⟨rfl, rfl⟩
    · exact hlog.numbered i c hc
    · exact hnum
  · rw [length_append, length_singleton]
    omega
  · rwa [hfile]

omit hlog

theorem Logged.patch {rest : Bytes} (hlog : Logged codec 0 first (leBytes 4 0 ++ rest) log blocks)
    (version : ℕ) : Logged codec version first (leBytes 4 version ++ rest)
      { log with
        version
        files := { log.files with
          blockFile := writeAt 0 log.files.blockFile 0 (leBytes 4 version) } } blocks := by
  have hlength : (leBytes 4 version ++ rest).length = (leBytes 4 0 ++ rest).length := by
    rw [length_append, length_append, length_leBytes, length_leBytes]
  have hpatch : ∀ more, writeAt 0 (leBytes 4 0 ++ rest ++ more) 0 (leBytes 4 version) =
      leBytes 4 version ++ rest ++ more := by
    intro more
    have hmid : writeAt 0 ([] ++ leBytes 4 0 ++ (rest ++ more)) 0 (leBytes 4 version) =
        [] ++ leBytes 4 version ++ (rest ++ more) :=
      writeAt_append_mid (by rw [length_leBytes, length_leBytes]) rfl
    rwa [nil_append, nil_append, ← append_assoc, ← append_assoc] at hmid
  refine ⟨?_, hlog.numbered, hlog.packs, hlog.count, ?_⟩
  · rw [hlog.same, hlength]
    simp only [hpatch]
  · have hsize := hlog.size
    rw [length_append] at hsize
    rwa [length_append, hlength]

theorem logged_reset {context : Context γ} {firstBlock : Option LogBlock}
    (hrun : reset genesis codec context firstBlock first = .ok log)
    (hsize : log.files.blockFile.length < 2 ^ 63) :
    ∃ bytes, Header.pack genesis ⟨maxSupportedVersion, first, context⟩ = some bytes ∧
      Logged codec maxSupportedVersion first bytes log firstBlock.toList := by
  rw [reset] at hrun
  split at hrun
  · cases hrun
  next t ht =>
  obtain ⟨log₁, hblock, hrun⟩ := bind_eq_ok.mp hrun
  cases hrun
  rw [append_assoc, append_assoc] at hblock
  refine ⟨leBytes 4 maxSupportedVersion ++ (leBytes 4 first ++ (t ++ posBytes npos)), ?_, ?_⟩
  · rw [Header.pack, ht]
    simp only [append_assoc]
    rfl
  have hlength : log₁.files.blockFile.length < 2 ^ 63 := by
    refine lt_of_le_of_lt ?_ hsize
    rw [show ({ log₁.files with blockFile := _ } : Files).blockFile = _ from rfl, writeAt]
    simp only [length_append, length_drop, length_take, length_leBytes]
    omega
  have hempty : ∀ {file : Bytes}, file.length < 2 ^ 63 → Logged codec 0 first file
      { files := ⟨file, []⟩, genesisWrittenToBlockLog := true, firstBlockNum := first } [] := by
    intro file hsmall
    refine ⟨?_, by simp, by simp, Nat.zero_le _, ?_⟩
    · rw [encode, append_nil]
      rfl
    · rwa [encode, append_nil]
  cases firstBlock with
  | none =>
    cases hblock
    exact (hempty hlength).patch _
  | some b =>
    rw [appendFirst] at hblock
    split at hblock
    · next pos log₂ happend =>
      cases hblock
      obtain ⟨-, -, hlog⟩ := append_eq_ok happend
      have hsmall := hlength
      rw [hlog, length_append, length_append] at hsmall
      dsimp only at hsmall
      exact ((hempty (by omega)).append happend hlength).patch _
    · cases hblock

/-! ## Reading -/

theorem drop_at_block (bytes : Bytes) (front : List LogBlock) (b : LogBlock)
    (back : List LogBlock) : ∃ rest, (bytes ++ encode bytes.length (front ++ b :: back)).drop
      (bytes.length + extent front) = b.pack ++ rest := by
  rw [file_at_block, append_assoc, ← length_append_encode, drop_left]
  exact ⟨_, rfl⟩

variable {front : List LogBlock}

theorem readBlock_eq {back : List LogBlock} (hpack : codec.format.pack b = some b.pack) :
    readBlock codec (bytes ++ encode bytes.length (front ++ b :: back))
      (bytes.length + extent front) = .ok b := by
  obtain ⟨rest, hrest⟩ := drop_at_block bytes front b back
  rw [readBlock, hrest, codec.format.read_pack hpack]
  rfl

include hlog

theorem Logged.position_lt {back : List LogBlock} (hblocks : blocks = front ++ b :: back) :
    bytes.length + extent front < npos := by
  have hsize := hlog.size
  rw [hblocks, length_append_encode, extent_append] at hsize
  unfold npos
  omega

theorem Logged.blockFile : log.files.blockFile = bytes ++ encode bytes.length blocks := by
  rw [hlog.same]

theorem Logged.indexFile : log.files.indexFile = indexBytes (positions bytes.length blocks) := by
  rw [hlog.same]

omit hlog

theorem Logged.lastPosition (hlog : Logged codec version first bytes log (front ++ [b]))
    (e : ChainException) : fileAt 8 log.files.blockFile (log.files.blockFile.length - 8) e =
      .ok (bytes.length + extent front) := by
  have hlt := hlog.position_lt rfl
  rw [hlog.blockFile, length_append_encode]
  have hlength := extent_concat front b
  have hend : bytes.length + extent (front ++ [b]) - 8 + 8 = _ := Nat.sub_add_cancel (by omega)
  have hslice := slice_last_position bytes front b [] hend
  rw [append_nil] at hslice
  rw [fileAt, readAt, if_pos (by rw [length_append_encode]; omega), hslice]
  exact congrArg Except.ok (ofLeBytes_posBytes (lt_of_lt_of_le hlt (by decide)))

include hlog

theorem Logged.readHead (hheader : HeaderBytes version first bytes) (hversion : version ≠ 1) :
    readHead codec log.files.blockFile = .ok blocks.getLast? := by
  have hlong : ¬ log.files.blockFile.length ≤ 8 := by
    have hle := hheader.le
    rw [hlog.blockFile, length_append]
    omega
  rw [BlockLog.readHead, if_neg hlong]
  rcases eq_nil_or_concat blocks with rfl | ⟨front, b, rfl⟩
  · -- a log without blocks ends with the totem of its header
    obtain ⟨header, hheader⟩ := hheader.totem_last hversion
    have hend : fileAt 8 log.files.blockFile (log.files.blockFile.length - 8) readFails =
        .ok npos := by
      have hmid : fileAt 8 (header ++ posBytes npos ++ []) header.length readFails = _ :=
        fileAt_append_mid readFails (length_posBytes npos).symm rfl
      rw [ofLeBytes_posBytes (by decide), append_nil] at hmid
      rw [hlog.blockFile, encode, append_nil, hheader, length_append, length_posBytes,
        Nat.add_sub_cancel]
      exact hmid
    rw [hend, ok_bind, if_pos rfl]
    rfl
  · rw [concat_eq_append] at hlog ⊢
    have hpack := hlog.packs b (mem_append_right _ (mem_singleton.mpr rfl))
    rw [hlog.lastPosition, ok_bind, if_neg (hlog.position_lt rfl).ne, hlog.blockFile,
      readBlock_eq hpack, getLast?_concat]
    rfl

omit hlog

theorem Logged.openIndex {h : Header γ}
    (hlog : Logged codec h.version h.firstBlockNum bytes log blocks) (hform : WellFormed h [])
    (hpack : h.pack genesis = some bytes) : BlockLogImpl.openIndex log.files = .ok log.files := by
  have hsize := hlog.size
  rw [BlockLogImpl.openIndex]
  rcases eq_nil_or_concat blocks with rfl | ⟨front, b, rfl⟩
  · rw [encode, append_nil] at hsize
    have hfiles : log.files = ⟨bytes, []⟩ := by
      rw [hlog.same, encode, append_nil]
      rfl
    rw [hfiles, if_pos length_nil, BlockLogImpl.reconstructIndex,
      constructIndex_nil hform hpack hsize]
    rfl
  · rw [concat_eq_append] at hlog
    have hlt := hlog.position_lt rfl
    have hlength : log.files.indexFile.length = 8 * front.length + 8 := by
      rw [hlog.indexFile, length_indexBytes, length_positions, length_append, length_singleton]
      omega
    have hlast : fileAt 8 log.files.indexFile (log.files.indexFile.length - 8) readFails =
        .ok (bytes.length + extent front) := by
      rw [hlength, Nat.add_sub_cancel, hlog.indexFile]
      exact fileAt_index bytes.length front b [] (lt_of_lt_of_le hlt (by decide)) _
    rw [if_neg (by omega), hlog.lastPosition, ok_bind, hlast, ok_bind, if_pos rfl]
    rfl

/-- **Opening the log again gives the same log.** -/
theorem Logged.openLog {h : Header γ}
    (hlog : Logged codec h.version h.firstBlockNum bytes log blocks) (hform : WellFormed h [])
    (hversion : h.version = maxSupportedVersion) (hpack : h.pack genesis = some bytes) :
    openLog codec log.files = .ok log := by
  have hheader := headerBytes_of_pack hpack
  have hne : h.version ≠ 1 := by
    rw [hversion]
    decide
  have hread : fileAt 4 log.files.blockFile 0 readFails = .ok h.version := by
    rw [hlog.blockFile]
    exact fileAt_version hheader hform.version _ _
  have hfirst : openFirstBlockNum log.files.blockFile h.version = .ok h.firstBlockNum := by
    rw [openFirstBlockNum, if_pos (by rw [hversion]; decide), hlog.blockFile,
      hheader.fileAt_first hne hform.first_lt, ok_bind, ineAssert,
      ensure_pos (show 0 < h.firstBlockNum from hform.first_pos)]
    rfl
  have hlong : log.files.blockFile.length ≠ 0 := by
    have hle := hheader.le
    rw [hlog.blockFile, length_append]
    omega
  rw [BlockLogImpl.openLog, if_neg hlong, hread]
  simp only [ok_bind, checkVersion_eq hform.version, hfirst, hlog.readHead hheader hne,
    hlog.openIndex hform hpack]
  exact congrArg Except.ok (by rw [hlog.same])

include hlog

omit hlog

theorem wellFormed_reset {context : Context γ} (hlow : 1 ≤ first) (hfirst : first < 2 ^ 32)
    (hcontext : first = 1 ↔ ∃ gs, context = .genesisState gs) :
    WellFormed ⟨maxSupportedVersion, first, context⟩ [] where
  version := show isSupportedVersion maxSupportedVersion = true by decide
  first_pos := hlow
  first_lt := hfirst
  first_eq := nofun
  context := by
    rw [← hcontext, containsGenesisState, decide_eq_true_iff]
    exact or_iff_right (show ¬ maxSupportedVersion ≤ 2 by decide)
  numbered := nofun
  nums_lt := hfirst.le
  nonempty := nofun

/-- A log that was reset stays a log of the blocks that were appended. -/
theorem Reached.logged (hlog : Reached genesis codec log blocks) :
    ∃ (h : Header γ) (bytes : Bytes), WellFormed h [] ∧ h.version = maxSupportedVersion ∧
      h.pack genesis = some bytes ∧ Logged codec h.version h.firstBlockNum bytes log blocks := by
  induction hlog with
  | @genesis gs firstBlock log hrun hsize =>
    obtain ⟨bytes, hpack, hlog⟩ := logged_reset hrun hsize
    exact ⟨⟨maxSupportedVersion, 1, .genesisState gs⟩, bytes,
      wellFormed_reset (le_refl _) (by decide) ⟨fun _ => ⟨gs, rfl⟩, fun _ => rfl⟩, rfl, hpack, hlog⟩
  | @chainId id first log hrun hfirst hsize =>
    obtain ⟨_, hlow, hrun⟩ := bind_eq_ok.mp hrun
    rw [ineAssert_eq_ok] at hlow
    obtain ⟨bytes, hpack, hlog⟩ := logged_reset hrun hsize
    exact ⟨⟨maxSupportedVersion, first, .chainId id⟩, bytes,
      wellFormed_reset hlow.le hfirst ⟨fun hone => absurd hone hlow.ne', nofun⟩, rfl, hpack, hlog⟩
  | append _ hrun hsize ih =>
    obtain ⟨h, bytes, hform, hversion, hpack, hlog⟩ := ih
    exact ⟨h, bytes, hform, hversion, hpack, hlog.append hrun hsize⟩
  | @thrown log log' blocks b e _ hrun ih =>
    rw [BlockLogImpl.append] at hrun
    split at hrun
    · cases hrun
      exact ih
    · cases hrun
  | reopened _ hrun ih =>
    obtain ⟨h, bytes, hform, hversion, hpack, hlog⟩ := ih
    rw [hlog.openLog hform hversion hpack] at hrun
    cases hrun
    exact ⟨h, bytes, hform, hversion, hpack, hlog⟩

end Logs

/-! ### Blocks without a body -/

/-- Blocks that are a header up to the id of the previous block. -/
def plainFormat : Format LogBlock where
  pack b := if b.rest = [] then some b.pack else none
  unpack r := do
    let timestamp ← (uint 4).unpack r
    let producer ← (uint 8).unpack r
    let confirmed ← (uint 2).unpack r
    let previous ← (uint 32).unpack r
    pure ⟨.ofNat timestamp, .ofNat producer, .ofNat confirmed, .ofNat 256 previous, []⟩
  unpack_pack := by
    intro r hr b bs hpack rest
    split at hpack
    · next hnil =>
      cases hpack
      rw [LogBlock.pack, hnil, append_nil, append_assoc, append_assoc, append_assoc,
        bind_of_some ((uint 4).unpack_pack hr (if_pos b.timestamp.toNat_lt) _),
        bind_of_some ((uint 8).unpack_pack hr (if_pos b.producer.toNat_lt) _),
        bind_of_some ((uint 2).unpack_pack hr (if_pos b.confirmed.toNat_lt) _),
        bind_of_some ((uint 32).unpack_pack hr (if_pos b.previous.isLt) _),
        UInt32.ofNat_toNat, UInt64.ofNat_toNat, UInt16.ofNat_toNat, BitVec.ofNat_toNat,
        BitVec.setWidth_eq, ← hnil]
      rfl
    · cases hpack

def plainCodec : BlockCodec LogBlock where
  format := plainFormat
  pack_eq := by
    intro b bs hpack
    change (if b.rest = [] then some b.pack else none) = some bs at hpack
    split at hpack
    · exact (some.inj hpack).symm
    · cases hpack
  header := plainFormat
  headerOf := id
  header_first hpack := ⟨_, [], hpack, (append_nil _).symm⟩
  blockNum := LogBlock.blockNum
  blockNum_headerOf _ := rfl
  calculateId b := BitVec.ofNat 224 0 ++ endianReverseU32 (BitVec.ofNat 32 b.blockNum)
  numFromId_calculateId b := by
    rw [numFromId_append]
    exact u32_of_lt (u32_lt _)

end Inery.Chain.BlockLog
