import Inery.Chain.BlockHeader
import Inery.Foundation.ByteFile
import Inery.Foundation.Format

/-!
# The block log (`block_log.cpp`)

Irreversible blocks are appended to one file, each followed by the position at which it starts; a
second file lists these positions.  The index can be made again from the log, and the log can be cut
at the front, both from the end backwards and through buffers of a fixed size.

Files are byte lists.  Reading or writing beyond the end of a buffer is undefined.
-/

namespace Inery.Chain

open Foundation

/-! ## Blocks -/

/-- A block as it is packed: the fields of the header up to the id of the previous block, and
the bytes of everything after them. -/
structure LogBlock where
  timestamp : UInt32
  producer : Name
  confirmed : UInt16
  previous : BlockId
  rest : Bytes
deriving DecidableEq

namespace LogBlock

def pack (b : LogBlock) : Bytes :=
  leBytes 4 b.timestamp.toNat ++ leBytes 8 b.producer.toNat ++ leBytes 2 b.confirmed.toNat ++
    leBytes 32 b.previous.toNat ++ b.rest

def blockNum (b : LogBlock) : ℕ := u32 (numFromId b.previous + 1)

end LogBlock

namespace BlockLog

def npos : ℕ := 2 ^ 64 - 1

def minSupportedVersion : ℕ := 1

def maxSupportedVersion : ℕ := 3

def isSupportedVersion (version : ℕ) : Bool :=
  decide (minSupportedVersion ≤ version ∧ version ≤ maxSupportedVersion)

def containsGenesisState (version firstBlockNum : ℕ) : Bool :=
  decide (version ≤ 2 ∨ firstBlockNum = 1)

def containsChainId (version firstBlockNum : ℕ) : Bool :=
  decide (3 ≤ version ∧ 1 < firstBlockNum)

/-- `trim_data::blknum_offset`: from the start of a block to the number of the previous one. -/
def blknumOffset : ℕ := 14

def posBytes (pos : ℕ) : Bytes := leBytes 8 pos

/-! ## The header -/

/-- What the log takes from the genesis state: how it is packed and the chain id computed
from it.  The time stamp alone takes eight bytes. -/
structure GenesisCodec (γ : Type) where
  format : Format γ
  computeChainId : γ → Digest
  timestamp_le : ∀ {gs : γ} {bs : Bytes}, format.pack gs = some bs → 8 ≤ bs.length

inductive Context (γ : Type) where
  | genesisState (gs : γ)
  | chainId (id : Digest)

structure Header (γ : Type) where
  version : ℕ
  firstBlockNum : ℕ
  context : Context γ

variable {γ : Type} (codec : GenesisCodec γ)

def Context.pack : Context γ → Option Bytes
  | .genesisState gs => codec.format.pack gs
  | .chainId id => some (leBytes 32 id.toNat)

/-- The bytes of a header.  Version 1 has neither the first block number nor the totem that
separates the header from the blocks. -/
def Header.pack (h : Header γ) : Option Bytes := do
  let context ← h.context.pack codec
  if h.version = 1 then pure (leBytes 4 h.version ++ context)
  else
    pure (leBytes 4 h.version ++ leBytes 4 h.firstBlockNum ++ context ++ posBytes npos)

/-! ## Appending -/

/-- `blocks.log` and `blocks.index`. -/
structure Files where
  blockFile : Bytes
  indexFile : Bytes := []
deriving DecidableEq

def Files.append (firstBlockNum : ℕ) (files : Files) (b : LogBlock) : Result Files := do
  let pos := files.blockFile.length
  ineAssert (files.indexFile.length = 8 * u32Sub b.blockNum firstBlockNum) .blockLogAppendFail
    "Append to index file occuring at wrong position."
  pure ⟨files.blockFile ++ b.pack ++ posBytes pos, files.indexFile ++ posBytes pos⟩

def Files.appendAll (firstBlockNum : ℕ) (files : Files) (blocks : List LogBlock) : Result Files :=
  blocks.foldlM (Files.append firstBlockNum) files

/-! ## Reading -/

/-- The length of the buffer that blocks are read through, `reverse_iterator::_buf_len`. -/
def bufLen : ℕ := 2 ^ 24

/-- An integer of `len` bytes in a buffer. -/
def bufferAt (len : ℕ) (buffer : Bytes) (offset : ℕ) : Result ℕ :=
  match readAt buffer offset len with
  | some bs => pure (ofLeBytes bs)
  | none => .error ⟨.undefinedBehaviour, "read beyond the end of a buffer"⟩

/-- An integer of `len` bytes read from a file. -/
def fileAt (len : ℕ) (file : Bytes) (pos : ℕ) (e : ChainException) : Result ℕ :=
  match readAt file pos len with
  | some bs => pure (ofLeBytes bs)
  | none => .error e

/-- The number of a block from the first four bytes of the previous block's id. -/
def blockNumOf (bnum : ℕ) : ℕ := u32 ((endianReverseU32 (BitVec.ofNat 32 bnum)).toNat + 1)

structure ReverseIterator where
  file : Bytes
  version : ℕ := 0
  firstBlockNum : ℕ := 0
  lastBlockNum : ℕ := 0
  blocksFound : ℕ := 0
  blocksExpected : ℕ := 0
  currentPosition : ℕ := 0
  endOfBuffer : ℕ := npos
  startOfBuffer : ℕ := 0
  buffer : Bytes := List.replicate bufLen 0

namespace ReverseIterator

variable (it : ReverseIterator)

/-- `update_buffer`: the current position becomes the very end of the buffer. -/
def updateBuffer : Result ReverseIterator := do
  ineAssert (it.currentPosition ≠ npos) .blockLogException "Block log file not setup properly"
  let endOfBuffer := u64 (it.currentPosition + 8)
  let startOfBuffer := if endOfBuffer < bufLen then 0 else endOfBuffer - bufLen
  match readAt it.file startOfBuffer (endOfBuffer - startOfBuffer) with
  | none => .error ⟨.blockLogException, "blocks.log read fails"⟩
  | some contents =>
    pure { it with endOfBuffer, startOfBuffer, buffer := refill it.buffer contents }

def readFirstBlockNum (file : Bytes) (version : ℕ) : Result ℕ :=
  if version = 1 then pure 1
  else fileAt 4 file 4 ⟨.blockLogException,
    "Block log file at '${blocks_log}' not formatted consistently with version ${v}."⟩

/-- The four bytes that hold the number before that of the block at `blockPos`. -/
def readPreviousNum (blockPos : ℕ) : Result ℕ :=
  if it.startOfBuffer ≤ blockPos then
    bufferAt 4 it.buffer (u32 (blockPos - it.startOfBuffer) + blknumOffset)
  else
    fileAt 4 it.file (blockPos + blknumOffset)
      ⟨.blockLogException, "Could not read in '${blocks_log}' at position: ${pos}"⟩

/-- `open`: also the number of blocks. -/
def openFile (file : Bytes) : Result (ℕ × ReverseIterator) := do
  let version ← fileAt 4 file 0
    ⟨.blockLogException, "Block log file at '${blocks_log}' could not be read."⟩
  ineAssert (isSupportedVersion version) .blockLogUnsupportedVersion
    "block log version ${v} is not supported"
  let firstBlockNum ← readFirstBlockNum file version
  ineAssert (0 < file.length) .blockLogException
    "Block log file at '${blocks_log}' could not be read."
  let it ← updateBuffer
    { file, version, firstBlockNum, currentPosition := u64 (file.length + (2 ^ 64 - 8)) }
  let blockPos ← bufferAt 8 it.buffer (u32 (it.currentPosition - it.startOfBuffer))
  if blockPos = npos then pure (0, it)
  else do
    let bnum ← it.readPreviousNum blockPos
    let lastBlockNum := blockNumOf bnum
    let blocksExpected := u32 (u32Sub lastBlockNum firstBlockNum + 1)
    pure (blocksExpected, { it with lastBlockNum, blocksExpected })

/-- Where `previous` goes from the position it has read. -/
def moveTo (location : ℕ) : Result ReverseIterator :=
  if location = npos then do
    ineAssert (it.blocksFound ≠ it.blocksExpected) .blockLogException
      "Block log file at '${blocks_log}' formatting indicated last block: ${last_block_num}, first block: ${first_block_num}, but found ${num} blocks"
    pure { it with currentPosition := npos }
  else do
    let currentPosition := u64 (location + (2 ^ 64 - 8))
    ineAssert (currentPosition < it.currentPosition) .blockLogException
      "Block log file at '${blocks_log}' formatting is incorrect, indicates position later location in file: ${pos}, which was retrieved at: ${orig_pos}."
    pure { it with currentPosition }

/-- `previous`: the position of the block before, or `npos`. -/
def previous : Result (ℕ × ReverseIterator) := do
  ineAssert (it.currentPosition ≠ npos) .blockLogException
    "Block log file at '${blocks_log}' first block already returned by former call to previous(), it is no longer valid to call this function."
  if it.version = 1 ∧ it.blocksFound = it.blocksExpected then
    pure (npos, { it with currentPosition := npos })
  else do
    let it ← if it.currentPosition < it.startOfBuffer then it.updateBuffer else pure it
    let location ← bufferAt 8 it.buffer (it.currentPosition - it.startOfBuffer)
    let it ← moveTo { it with blocksFound := u32 (it.blocksFound + 1) } location
    pure (location, it)

end ReverseIterator

/-! ## Writing the index -/

/-- `buffer_location_to_file_location`: the shift is one of 32 bits. -/
def bufferLocationToFileLocation (bufferLocation : ℕ) : ℕ := u32 (u32 bufferLocation * 8)

def fileLocationToBufferLocation (fileLocation : ℕ) : ℕ := u32 fileLocation / 8

/-- `index_writer`.  The file is `none` before the first write.  The buffer holds
`_max_buffer_length` positions. -/
structure IndexWriter where
  blocksExpected : ℕ
  file : Option Bytes := none
  buffer : ℕ → ℕ := fun _ => 0
  currentPosition : ℤ := 0
  startOfBuffer : ℤ := 0
  endOfBuffer : ℤ := 0

def maxBufferLength : ℕ := fileLocationToBufferLocation (2 ^ 22)

namespace IndexWriter

/-- A signed value used as an unsigned one. -/
def toUnsigned (w : ℕ) (n : ℤ) : ℕ := (n % 2 ^ w).toNat

variable (w : IndexWriter)

/-- `update_buffer_position`; the comparison is one of unsigned values. -/
def updateBufferPosition : IndexWriter :=
  let endOfBuffer := w.currentPosition + 1
  { w with
    endOfBuffer
    startOfBuffer :=
      if toUnsigned 64 endOfBuffer < maxBufferLength then 0 else endOfBuffer - maxBufferLength }

def bufferBytes (count : ℕ) : Bytes :=
  (List.range count).flatMap fun i => posBytes (w.buffer i)

/-- `shift_buffer`: also tells whether the buffer was written. -/
def shiftBuffer : Result (Bool × IndexWriter) :=
  if w.startOfBuffer ≤ w.currentPosition then pure (false, w)
  else do
    let location := bufferLocationToFileLocation (toUnsigned 32 w.startOfBuffer)
    let size := bufferLocationToFileLocation (toUnsigned 32 (w.endOfBuffer - w.startOfBuffer))
    ineAssert (0 < size) .blockLogException
      "Writing Block Index file '${file}' failed at location: ${loc}"
    let file := writeAt 0 (w.file.getD []) location (w.bufferBytes (size / 8))
    pure (true, updateBufferPosition { w with file := some file })

def prepareBuffer : Result IndexWriter := do
  let w :=
    if w.file.isNone then
      let fullFileSize := bufferLocationToFileLocation w.blocksExpected
      let blockEnd := fileLocationToBufferLocation fullFileSize
      updateBufferPosition { w with file := some [], currentPosition := u32Sub blockEnd 1 }
    else w
  let (_, w) ← w.shiftBuffer
  pure w

def write (pos : ℕ) : Result IndexWriter := do
  let w ← w.prepareBuffer
  let index := w.currentPosition - w.startOfBuffer
  ensure (0 ≤ index ∧ index < maxBufferLength)
    ⟨.undefinedBehaviour, "write beyond the end of a buffer"⟩
  pure { w with
    buffer := Function.update w.buffer index.toNat pos
    currentPosition := w.currentPosition - 1 }

/-- `complete`: the file. -/
def complete : Result Bytes := do
  let (shifted, w) ← w.shiftBuffer
  ineAssert (shifted = true) .blockLogException "Failed to write buffer to '${blocks_index}'"
  ineAssert (w.currentPosition = -1) .blockLogException
    "Should have written buffer, starting at the 0 index block position, to '${blocks_index}' but instead writing ${pos} position"
  pure (w.file.getD [])

end IndexWriter

/-- The loop of `construct_index`.  Positions go down, so the length of the file bounds the
number of rounds. -/
def indexBlocks : ℕ → ReverseIterator → IndexWriter → Result IndexWriter
  | 0, _, _ => .error ⟨.undefinedBehaviour, "more positions than bytes"⟩
  | rounds + 1, it, w => do
      let (position, it) ← it.previous
      if position = npos then pure w
      else do
        let w ← w.write position
        indexBlocks rounds it w

/-- `construct_index`: the new contents of the index file.  Without blocks the file is not
touched. -/
def constructIndex (blockFile indexFile : Bytes) : Result Bytes := do
  let (numBlocks, it) ← ReverseIterator.openFile blockFile
  if numBlocks = 0 then pure indexFile
  else do
    let w ← indexBlocks (blockFile.length + 1) it { blocksExpected := numBlocks }
    w.complete

/-! ## `trim_data` -/

structure TrimData where
  version : ℕ
  firstBlock : ℕ
  lastBlock : ℕ
  chainId : Digest

namespace TrimData

def blockIndex (d : TrimData) (n : ℕ) : Result ℕ := do
  ineAssert (d.firstBlock ≤ n) .blockLogException
    "cannot seek in ${file} to block number ${b}, block number ${first} is the first block"
  ineAssert (n ≤ d.lastBlock) .blockLogException
    "cannot seek in ${file} to block number ${b}, block number ${last} is the last block"
  pure (8 * (n - d.firstBlock))

/-- `block_pos`; `tell` is where the log file is read at. -/
def blockPos (d : TrimData) (files : Files) (tell n : ℕ) : Result ℕ :=
  if n = u32 (d.lastBlock + 1) then pure tell
  else do
    let indexPos ← d.blockIndex n
    let pos ← fileAt 8 files.indexFile indexPos
      ⟨.blockLogException, "cannot read ${file} entry for block ${b}"⟩
    let priorBlknum ← fileAt 4 files.blockFile (u64 (pos + blknumOffset))
      ⟨.blockLogException, "cannot read prior block"⟩
    ineAssert (blockNumOf priorBlknum = n) .blockLogException
      "At position ${pos} in ${file} expected to find ${exp_bnum} but found ${act_bnum}"
    pure pos

def readChainId (version firstBlock : ℕ) (ds : Bytes) : Result (Digest × Bytes) :=
  if containsGenesisState version firstBlock then
    match codec.format.read ds with
    | some (gs, ds) => pure (codec.computeChainId gs, ds)
    | none => .error ⟨.blockLogException,
        "only able to read ${act} bytes of the expected ${exp} bytes in file: ${file}"⟩
  else if containsChainId version firstBlock then
    match Reader.take 32 ds with
    | some (bs, ds) => pure (BitVec.ofNat 256 (ofLeBytes bs), ds)
    | none => .error ⟨.blockLogException,
        "only able to read ${act} bytes of the expected ${exp} bytes in file: ${file}"⟩
  else
    .error ⟨.blockLogException,
      "Block log ${file} is not supported. version: ${ver} and first_block: ${first_block} does not contain a genesis_state nor a chain_id."⟩

/-- The totem between the header and the blocks. -/
def readTotem (ds : Bytes) : Result Bytes := do
  let totem ← fileAt 8 ds 0
    ⟨.blockLogException, "Expected to read ${size} bytes, but did not read any bytes"⟩
  ineAssert (totem = npos) .blockLogException
    "Expected separator between block log header and blocks was not found( expected: ${e}, actual: ${a} )"
  pure (ds.drop 8)

/-- The header of the log: its first block, its chain id and what follows. -/
def readHeader (version : ℕ) (blockFile : Bytes) : Result (ℕ × Digest × Bytes) :=
  if version = 1 then do
    let (chainId, ds) ← readChainId codec 1 1 (blockFile.drop 4)
    pure (1, chainId, ds)
  else do
    let firstBlock ← fileAt 4 blockFile 4
      ⟨.blockLogException, "invalid format for file ${file}"⟩
    let (chainId, ds) ← readChainId codec version firstBlock (blockFile.drop 8)
    let ds ← readTotem ds
    pure (firstBlock, chainId, ds)

def ofFiles (files : Files) : Result TrimData := do
  let version ← fileAt 4 files.blockFile 0
    ⟨.blockLogUnsupportedVersion, "invalid format for file ${file}"⟩
  ineAssert (isSupportedVersion version) .blockLogUnsupportedVersion
    "block log version ${v} is not supported"
  let (firstBlock, chainId, ds) ← readHeader codec version files.blockFile
  let startOfBlocks := files.blockFile.length - ds.length
  let lastBlock := u32Sub (u32 (firstBlock + files.indexFile.length / 8)) 1
  let d : TrimData := ⟨version, firstBlock, lastBlock, chainId⟩
  let firstBlockPos ← d.blockPos files startOfBlocks firstBlock
  ineAssert (startOfBlocks = firstBlockPos) .blockLogException
    "Block log ${file} was determined to have its first block at ${determined}, but the block index indicates the first block is at ${index}"
  pure d

end TrimData

/-! ## `trim_blocklog_front` -/

def trimmedHeader (truncateAtBlock : ℕ) (chainId : Digest) : Bytes :=
  leBytes 4 maxSupportedVersion ++ leBytes 4 truncateAtBlock ++ leBytes 32 chainId.toNat ++
    posBytes npos

/-- The loop over the positions in one buffer.  `start` is where the buffer starts in the
original file. -/
def adjustPositions (start posDelta : ℕ) :
    ℕ → ℕ → Bytes → IndexWriter → Result (ℕ × Bytes × IndexWriter)
  | 0, _, _, _ => .error ⟨.undefinedBehaviour, "more positions than bytes"⟩
  | rounds + 1, originalPos, buffer, index =>
    if originalPos < start then pure (originalPos, buffer, index)
    else do
      let startOfThisBlock ← bufferAt 8 buffer (originalPos - start)
      let posContent := u64 (startOfThisBlock + (2 ^ 64 - posDelta))
      let buffer := writeAt 0 buffer (originalPos - start) (posBytes posContent)
      let index ← index.write posContent
      adjustPositions start posDelta rounds (u64 (startOfThisBlock + (2 ^ 64 - 8))) buffer index

/-- The loop that copies the blocks, from the end of the file backwards.  `base` is where the
first block to copy starts in the original file, `newBase` where it goes. -/
def copyBlocks (blockFile : Bytes) (base newBase posDelta : ℕ) :
    ℕ → ℕ → ℕ → Bytes → Bytes → IndexWriter → Result (Bytes × IndexWriter)
  | 0, _, _, _, _, _ => .error ⟨.undefinedBehaviour, "more buffers than bytes"⟩
  | rounds + 1, remaining, originalPos, buffer, newFile, index =>
    if remaining = 0 then pure (newFile, index)
    else do
      let readSize := min remaining bufLen
      let start := base + remaining - readSize
      match readAt blockFile start readSize with
      | none => .error ⟨.blockLogException, "blocks.log read failed"⟩
      | some contents => do
          let (originalPos, buffer, index) ← adjustPositions start posDelta (readSize + 1)
            originalPos (refill buffer contents) index
          let newFile := writeAt 0 newFile (newBase + remaining - readSize)
            (buffer.take readSize)
          copyBlocks blockFile base newBase posDelta rounds (remaining - readSize) originalPos
            buffer newFile index

/-- `trim_blocklog_front`: the new files, or nothing when there is nothing to do. -/
def trimBlocklogFront (files : Files) (truncateAtBlock : ℕ) : Result (Option Files) := do
  let original ← TrimData.ofFiles codec files
  if truncateAtBlock ≤ original.firstBlock then pure none
  else if original.lastBlock < truncateAtBlock then pure none
  else do
    let header := trimmedHeader truncateAtBlock original.chainId
    let base ← original.blockPos files 0 truncateAtBlock
    let posDelta := u64 (base + (2 ^ 64 - header.length))
    let toWrite := files.blockFile.length - base
    let numBlocks := u32 (u32Sub original.lastBlock truncateAtBlock + 1)
    let (blockFile, index) ← copyBlocks files.blockFile base header.length posDelta (toWrite + 1)
      toWrite (files.blockFile.length - 8) (List.replicate bufLen 0) header
      { blocksExpected := numBlocks }
    let indexFile ← index.complete
    pure (some ⟨blockFile, indexFile⟩)

end BlockLog

end Inery.Chain
