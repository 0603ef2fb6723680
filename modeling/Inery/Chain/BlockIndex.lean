import Inery.Chain.BlockLog
import Mathlib.Algebra.GroupWithZero.Nat

/-!
# Making the index again (`construct_index`)

The positions are found from the last block to the first, through one buffer, and written into the
index from its end to its start, through another.  For fewer than 2 to the 29 blocks the result is
what appending the blocks has written.  From there on the size of the index does not fit in 32 bits,
and the index is not written.
-/

namespace Inery.Chain

open Foundation List Option LogBlock

namespace BlockLog

/-! ## Logs made by appending -/

def encode : ℕ → List LogBlock → Bytes
  | _, [] => []
  | start, b :: blocks =>
    b.pack ++ posBytes start ++ encode (start + b.pack.length + 8) blocks

/-- Where they start. -/
def positions : ℕ → List LogBlock → List ℕ
  | _, [] => []
  | start, b :: blocks => start :: positions (start + b.pack.length + 8) blocks

def indexBytes (ps : List ℕ) : Bytes := ps.flatMap posBytes

variable (start : ℕ) (blocks : List LogBlock)

@[simp] theorem length_posBytes (pos : ℕ) : (posBytes pos).length = 8 :=
  length_leBytes 8 pos

theorem length_positions : (positions start blocks).length = blocks.length := by
  induction blocks generalizing start with
  | nil => rfl
  | cons b blocks ih => rw [positions, length_cons, length_cons, ih]

theorem length_indexBytes (ps : List ℕ) : (indexBytes ps).length = 8 * ps.length := by
  induction ps with
  | nil => rfl
  | cons p ps ih =>
    rw [indexBytes, flatMap_cons, length_append, length_posBytes,
      show (ps.flatMap posBytes).length = 8 * ps.length from ih, length_cons]
    omega

/-- The bytes they take, wherever they start. -/
def extent : ℕ := (blocks.map fun b => b.pack.length + 8).sum

theorem extent_cons (b : LogBlock) (blocks : List LogBlock) :
    extent (b :: blocks) = b.pack.length + 8 + extent blocks := rfl

theorem extent_append (as bs : List LogBlock) : extent (as ++ bs) = extent as + extent bs := by
  rw [extent, map_append, sum_append]
  rfl

theorem extent_concat (as : List LogBlock) (b : LogBlock) :
    extent (as ++ [b]) = extent as + b.pack.length + 8 := extent_append as [b]

theorem length_encode : (encode start blocks).length = extent blocks := by
  induction blocks generalizing start with
  | nil => rfl
  | cons b blocks ih =>
    rw [encode, length_append, length_append, length_posBytes, ih]
    rfl

theorem length_append_encode (bytes : Bytes) (start : ℕ) (blocks : List LogBlock) :
    (bytes ++ encode start blocks).length = bytes.length + extent blocks := by
  rw [length_append, length_encode]

theorem length_le_extent : blocks.length ≤ extent blocks := by
  induction blocks with
  | nil => exact Nat.zero_le _
  | cons b blocks ih =>
    rw [extent_cons, length_cons]
    omega

theorem encode_append (as bs : List LogBlock) :
    encode start (as ++ bs) = encode start as ++ encode (start + extent as) bs := by
  induction as generalizing start with
  | nil => rfl
  | cons a as ih =>
    rw [cons_append, encode, ih, encode, append_assoc _ _ (encode _ bs), extent_cons]
    simp only [Nat.add_assoc]

theorem positions_append (as bs : List LogBlock) :
    positions start (as ++ bs) = positions start as ++ positions (start + extent as) bs := by
  induction as generalizing start with
  | nil => rfl
  | cons a as ih =>
    rw [cons_append, positions, ih, positions, cons_append, extent_cons]
    simp only [Nat.add_assoc]

theorem length_pack (b : LogBlock) : b.pack.length = 46 + b.rest.length := by
  simp only [pack, length_append, length_leBytes]

def Numbered (first : ℕ) (blocks : List LogBlock) : Prop :=
  ∀ (i : ℕ) (b : LogBlock), blocks[i]? = some b → b.blockNum = first + i

variable {first : ℕ} {blocks : List LogBlock}

theorem Numbered.tail {front back : List LogBlock} (h : Numbered first (front ++ back)) :
    Numbered (first + front.length) back := by
  intro i b hb
  rw [Nat.add_assoc]
  refine h _ b ?_
  rwa [getElem?_append_right (Nat.le_add_right _ _), Nat.add_sub_cancel_left]

/-- **What appending writes.** -/
theorem appendAll_eq (files : Files)
    (hnumbered : Numbered (first + files.indexFile.length / 8) blocks)
    (haligned : files.indexFile.length % 8 = 0) : files.appendAll first blocks = .ok
      ⟨files.blockFile ++ encode files.blockFile.length blocks,
        files.indexFile ++ indexBytes (positions files.blockFile.length blocks)⟩ := by
  induction blocks generalizing files with
  | nil => simp [Files.appendAll, encode, positions, indexBytes, pure, Except.pure]
  | cons b blocks ih =>
    have hnum : b.blockNum = first + files.indexFile.length / 8 := hnumbered 0 b rfl
    have hlt : b.blockNum < 2 ^ 32 := u32_lt _
    have hlength : files.indexFile.length = 8 * u32Sub b.blockNum first := by
      rw [u32Sub_of_le hlt (by omega)]
      omega
    unfold Files.appendAll
    rw [foldlM_cons, Files.append, ineAssert, ensure_pos hlength]
    simp only [ok_bind, pure_bind]
    have hnext := ih ⟨files.blockFile ++ b.pack ++ posBytes files.blockFile.length,
      files.indexFile ++ posBytes files.blockFile.length⟩ ?_ ?_
    · unfold Files.appendAll at hnext
      rw [hnext]
      simp only [encode, positions, indexBytes, flatMap_cons, append_assoc,
        length_append, length_posBytes, Nat.add_assoc]
    · have htail : Numbered (_ + [b].length) blocks := Numbered.tail hnumbered
      simp only [length_append, length_posBytes]
      rwa [show first + (files.indexFile.length + 8) / 8 =
        first + files.indexFile.length / 8 + 1 by omega]
    · simp only [length_append, length_posBytes]
      omega

theorem appendAll_header (header : Bytes) (hnumbered : Numbered first blocks) :
    Files.appendAll first ⟨header, []⟩ blocks = .ok
      ⟨header ++ encode header.length blocks, indexBytes (positions header.length blocks)⟩ :=
  appendAll_eq ⟨header, []⟩ (by simpa using hnumbered) rfl

/-- A log that can have been written: its header fits the version, and its blocks are numbered from
the first block number on.  A log of version 1 was created together with its first block. -/
structure WellFormed {γ : Type} (h : Header γ) (blocks : List LogBlock) : Prop where
  version : isSupportedVersion h.version
  first_pos : 1 ≤ h.firstBlockNum
  first_lt : h.firstBlockNum < 2 ^ 32
  first_eq : h.version = 1 → h.firstBlockNum = 1
  context : containsGenesisState h.version h.firstBlockNum ↔ ∃ gs, h.context = .genesisState gs
  numbered : Numbered h.firstBlockNum blocks
  nums_lt : h.firstBlockNum + blocks.length ≤ 2 ^ 32
  nonempty : h.version = 1 → blocks ≠ []

/-! ## The index writer -/

namespace IndexWriter

/-- A writer that has still to write the positions before `current`.  What is written
into the file below the end of the buffer leaves the positions from there on. -/
structure Writing (ps : List ℕ) (w : IndexWriter) : Prop where
  start_nonneg : 0 ≤ w.startOfBuffer
  start_le : w.startOfBuffer ≤ w.currentPosition + 1
  current_lt : w.currentPosition < w.endOfBuffer
  start_lt : w.startOfBuffer < w.endOfBuffer
  end_le : w.endOfBuffer ≤ ps.length
  size : w.endOfBuffer - w.startOfBuffer ≤ maxBufferLength
  buffered : ∀ i : ℕ, w.currentPosition < i → (i : ℤ) < w.endOfBuffer →
    ps[i]? = some (w.buffer (i - w.startOfBuffer).toNat)
  written : ∃ file, w.file = some file ∧ ∀ (pos : ℕ) (data : Bytes),
    (pos + data.length : ℤ) = 8 * w.endOfBuffer → writeAt 0 file pos data =
        replicate pos 0 ++ data ++ indexBytes (ps.drop w.endOfBuffer.toNat)

variable {ps : List ℕ} {w w' : IndexWriter}

theorem toUnsigned_of_lt {n : ℤ} {k : ℕ} (hlow : 0 ≤ n) (hhigh : n < 2 ^ k) :
    toUnsigned k n = n.toNat := by
  rw [toUnsigned, Int.emod_eq_of_lt hlow hhigh]

theorem maxBufferLength_eq : maxBufferLength = 2 ^ 19 := by decide

theorem bufferLocationToFileLocation_of_lt {n : ℕ} (h : n < 2 ^ 29) :
    bufferLocationToFileLocation n = 8 * n := by
  have hn : u32 n = n := u32_of_lt (by omega)
  rw [bufferLocationToFileLocation, hn, u32_of_lt (by omega), Nat.mul_comm]

theorem updateBufferPosition_spec (hlow : 0 ≤ w.currentPosition)
    (hhigh : w.currentPosition < 2 ^ 29) :
    (updateBufferPosition w).endOfBuffer = w.currentPosition + 1 ∧
    0 ≤ (updateBufferPosition w).startOfBuffer ∧
    (updateBufferPosition w).startOfBuffer ≤ w.currentPosition ∧
    w.currentPosition + 1 - (updateBufferPosition w).startOfBuffer ≤ maxBufferLength := by
  have hmax := maxBufferLength_eq
  have hunsigned : toUnsigned 64 (w.currentPosition + 1) = (w.currentPosition + 1).toNat :=
    toUnsigned_of_lt (by omega) (by omega)
  simp only [updateBufferPosition, hunsigned]
  split
  · refine ⟨trivial, ?_⟩
    omega
  · refine ⟨trivial, ?_⟩
    omega

theorem updateBufferPosition_idem (w : IndexWriter) :
    updateBufferPosition (updateBufferPosition w) = updateBufferPosition w := rfl

variable (h : w.Writing ps)
include h

theorem bufferBytes_eq (hcurrent : w.currentPosition + 1 = w.startOfBuffer) :
    w.bufferBytes (w.endOfBuffer - w.startOfBuffer).toNat =
      indexBytes (slice ps w.startOfBuffer.toNat (w.endOfBuffer - w.startOfBuffer).toNat) := by
  have hentries : (range (w.endOfBuffer - w.startOfBuffer).toNat).map w.buffer =
      slice ps w.startOfBuffer.toNat (w.endOfBuffer - w.startOfBuffer).toNat := by
    apply ext_getElem?
    intro i
    have hnonneg := h.start_nonneg
    rw [getElem?_slice, getElem?_map]
    by_cases hi : i < (w.endOfBuffer - w.startOfBuffer).toNat
    · rw [if_pos hi, getElem?_range hi, map_some,
        h.buffered (w.startOfBuffer.toNat + i) (by omega) (by omega)]
      congr 2
      omega
    · rw [if_neg hi, getElem?_eq_none (by rw [length_range]; omega), map_none]
  rw [bufferBytes, ← hentries, indexBytes, flatMap_map]

theorem Writing.shiftBuffer (hlen : ps.length < 2 ^ 29)
    (hcurrent : w.currentPosition + 1 = w.startOfBuffer) :
    w.shiftBuffer = .ok (true, updateBufferPosition { w with
      file := some (replicate (8 * w.startOfBuffer.toNat) 0 ++
        indexBytes (ps.drop w.startOfBuffer.toNat)) }) := by
  obtain ⟨file, hfile, hwritten⟩ := h.written
  have hmax := maxBufferLength_eq
  have hnonneg := h.start_nonneg
  have hle := h.end_le
  have hlt := h.start_lt
  have hsize := h.size
  have hstart : toUnsigned 32 w.startOfBuffer = w.startOfBuffer.toNat :=
    toUnsigned_of_lt hnonneg (by omega)
  have hlength := toUnsigned_of_lt (k := 32) (show 0 ≤ w.endOfBuffer - w.startOfBuffer by omega)
    (by omega)
  set n := (w.endOfBuffer - w.startOfBuffer).toNat with hn
  have hslice : (slice ps w.startOfBuffer.toNat n).length = n := by
    rw [length_slice]
    omega
  have hdata := bufferBytes_eq h hcurrent
  -- the buffer goes before what the file holds already
  have hsplit : ps.drop w.startOfBuffer.toNat =
      slice ps w.startOfBuffer.toNat n ++ ps.drop w.endOfBuffer.toNat := by
    have htake := take_append_drop n (ps.drop w.startOfBuffer.toNat)
    rw [drop_drop, show w.startOfBuffer.toNat + n = w.endOfBuffer.toNat by omega] at htake
    exact htake.symm
  have hnew : writeAt 0 file (8 * w.startOfBuffer.toNat) (w.bufferBytes n) =
        replicate (8 * w.startOfBuffer.toNat) 0 ++ indexBytes (ps.drop w.startOfBuffer.toNat) := by
    rw [hwritten _ _ (by rw [hdata, length_indexBytes, hslice]; omega), hdata, hsplit, indexBytes,
      indexBytes, indexBytes, flatMap_append, append_assoc]
  have hbelow : ¬ w.startOfBuffer ≤ w.currentPosition := by omega
  have hpositive : 0 < 8 * n := by omega
  have hlocation := bufferLocationToFileLocation_of_lt
    (show w.startOfBuffer.toNat < 2 ^ 29 by omega)
  have hbytes := bufferLocationToFileLocation_of_lt (show n < 2 ^ 29 by omega)
  simp only [IndexWriter.shiftBuffer, if_neg hbelow, hstart, hlength, hlocation, hbytes, hfile,
    getD_some, ineAssert, ensure_pos hpositive, ok_bind,
    Nat.mul_div_cancel_left _ (show 0 < 8 by decide), hnew]
  rfl

theorem Writing.shifted (hlen : ps.length < 2 ^ 29)
    (hcurrent : w.currentPosition + 1 = w.startOfBuffer) (hmore : 0 ≤ w.currentPosition) :
    ∃ w', w.shiftBuffer = .ok (true, w') ∧ w'.Writing ps ∧
      w'.currentPosition = w.currentPosition ∧ w'.startOfBuffer ≤ w.currentPosition := by
  have hle := h.end_le
  have hlt := h.start_lt
  obtain ⟨hend, hlow, hhigh, hfits⟩ := updateBufferPosition_spec
    (w := { w with file := some (replicate (8 * w.startOfBuffer.toNat) 0 ++
      indexBytes (ps.drop w.startOfBuffer.toNat)) }) hmore
    (show w.currentPosition < 2 ^ 29 by omega)
  simp only at hend hhigh hfits
  refine ⟨_, h.shiftBuffer hlen hcurrent, ⟨hlow, ?_, ?_, ?_, ?_, ?_, ?_, _, rfl, ?_⟩, rfl, hhigh⟩
  · show _ ≤ w.currentPosition + 1
    omega
  · show w.currentPosition < _
    omega
  · omega
  · omega
  · omega
  · intro i hi hi'
    exact absurd hi' (by rw [hend]; exact not_lt.mpr hi)
  · intro pos data hpos
    rw [hend, hcurrent] at hpos ⊢
    have hzeros : replicate (8 * w.startOfBuffer.toNat) (0 : UInt8) =
        replicate pos 0 ++ replicate data.length 0 := by
      rw [replicate_append_replicate]
      congr 1
      omega
    rw [hzeros, writeAt_append_mid (by rw [length_replicate]) (by rw [length_replicate])]

theorem Writing.write (hlen : ps.length < 2 ^ 29) {k pos : ℕ} (hk : w.currentPosition = k)
    (hpos : ps[k]? = some pos) :
    ∃ w', w.write pos = .ok w' ∧ w'.Writing ps ∧ w'.currentPosition = k - 1 := by
  have hmax := maxBufferLength_eq
  -- the buffer that the position goes into
  have hprepared : ∃ w₁, w.prepareBuffer = .ok w₁ ∧ w₁.Writing ps ∧ w₁.currentPosition = k ∧
      w₁.startOfBuffer ≤ k := by
    obtain ⟨file, hfile, -⟩ := h.written
    by_cases hin : w.startOfBuffer ≤ w.currentPosition
    · refine ⟨w, ?_, h, hk, by omega⟩
      simp only [prepareBuffer, hfile, isNone_some, Bool.false_eq_true, if_false,
        IndexWriter.shiftBuffer, if_pos hin]
      rfl
    · have hle := h.start_le
      obtain ⟨w₁, hshift, hw₁, hcurrent, hstart⟩ := h.shifted hlen (by omega) (by omega)
      refine ⟨w₁, ?_, hw₁, hcurrent.trans hk, by omega⟩
      simp only [prepareBuffer, hfile, isNone_some, Bool.false_eq_true, if_false, hshift]
      rfl
  obtain ⟨w₁, hprepare, hw₁, hk₁, hstart⟩ := hprepared
  have hnonneg := hw₁.start_nonneg
  have hlt := hw₁.current_lt
  have hsize := hw₁.size
  have hindex : 0 ≤ w₁.currentPosition - w₁.startOfBuffer ∧
      w₁.currentPosition - w₁.startOfBuffer < maxBufferLength := by omega
  refine ⟨{ w₁ with
    buffer := Function.update w₁.buffer (w₁.currentPosition - w₁.startOfBuffer).toNat pos
    currentPosition := w₁.currentPosition - 1 }, ?_, ⟨hnonneg, ?_, ?_, hw₁.start_lt, hw₁.end_le,
      hsize, ?_, hw₁.written⟩, ?_⟩
  · simp only [IndexWriter.write, hprepare, ok_bind, ensure_pos hindex]
    rfl
  · show w₁.startOfBuffer ≤ w₁.currentPosition - 1 + 1
    omega
  · show w₁.currentPosition - 1 < w₁.endOfBuffer
    omega
  · intro i hi hi'
    simp only at hi hi' ⊢
    by_cases heq : i = k
    · subst heq
      rw [hpos, Function.update_apply, if_pos (by omega)]
    · rw [Function.update_apply, if_neg (by omega)]
      exact hw₁.buffered i (by omega) hi'
  · show w₁.currentPosition - 1 = _
    rw [hk₁]

omit h

def opened (numBlocks : ℕ) : IndexWriter :=
  let blockEnd := fileLocationToBufferLocation (bufferLocationToFileLocation numBlocks)
  updateBufferPosition
    { blocksExpected := numBlocks, file := some [], currentPosition := u32Sub blockEnd 1 }

theorem write_new (numBlocks pos : ℕ) :
    write { blocksExpected := numBlocks } pos = (opened numBlocks).write pos := by
  have hfile : (opened numBlocks).file.isNone = false := rfl
  have hprepare : prepareBuffer { blocksExpected := numBlocks } =
      (opened numBlocks).prepareBuffer := by
    rw [prepareBuffer, prepareBuffer, hfile]
    rfl
  rw [write, hprepare, write]

theorem writing_opened (hpos : 0 < ps.length) (hlen : ps.length < 2 ^ 29) :
    (opened ps.length).Writing ps ∧ (opened ps.length).currentPosition = ps.length - 1 := by
  have hend : fileLocationToBufferLocation (bufferLocationToFileLocation ps.length) =
      ps.length := by
    rw [bufferLocationToFileLocation_of_lt hlen, fileLocationToBufferLocation,
      u32_of_lt (by omega), Nat.mul_div_cancel_left _ (by decide)]
  have hcurrent : (opened ps.length).currentPosition = ps.length - 1 := by
    show ((u32Sub (fileLocationToBufferLocation (bufferLocationToFileLocation ps.length)) 1 : ℕ) :
      ℤ) = ps.length - 1
    rw [hend, u32Sub_of_le (by omega) hpos]
    omega
  have hopened : updateBufferPosition (opened ps.length) = opened ps.length :=
    updateBufferPosition_idem _
  obtain ⟨hend', hlow, hhigh, hfits⟩ :=
    updateBufferPosition_spec (w := opened ps.length) (by omega) (by omega)
  rw [hopened] at hend' hlow hhigh hfits
  refine ⟨⟨hlow, by omega, by omega, by omega, by omega, by omega, fun i hi hi' => ?_, [], rfl,
    fun pos data hdata => ?_⟩, hcurrent⟩
  · omega
  · rw [drop_of_length_le (by omega), writeAt]
    simp [indexBytes]

theorem Writing.foldlM (hlen : ps.length < 2 ^ 29) {k : ℕ} (hk : k ≤ ps.length)
    (h : w.Writing ps) (hcurrent : w.currentPosition = k - 1) :
    ∃ w', (ps.take k).reverse.foldlM IndexWriter.write w = .ok w' ∧ w'.Writing ps ∧
      w'.currentPosition = -1 := by
  induction k generalizing w with
  | zero => exact ⟨w, rfl, h, by simpa using hcurrent⟩
  | succ k ih =>
    have hpos : ps[k]? = some (ps.get ⟨k, hk⟩) := getElem?_eq_getElem hk
    obtain ⟨w₁, hwrite, hw₁, hcurrent₁⟩ := h.write hlen (k := k) (by omega) hpos
    obtain ⟨w', hrun, hw', hdone⟩ := ih (by omega) hw₁ (by omega)
    refine ⟨w', ?_, hw', hdone⟩
    rw [take_add_one, hpos, toList_some, reverse_append, reverse_singleton,
      singleton_append, foldlM_cons, hwrite]
    exact hrun

include h

theorem Writing.complete (hlen : ps.length < 2 ^ 29) (hcurrent : w.currentPosition = -1) :
    w.complete = .ok (indexBytes ps) := by
  have hnonneg := h.start_nonneg
  have hle := h.start_le
  have hstart : w.startOfBuffer = 0 := by omega
  obtain ⟨w', hshift, hdone, hfile⟩ : ∃ w', w.shiftBuffer = .ok (true, w') ∧
      w'.currentPosition = -1 ∧ w'.file = some (indexBytes ps) := by
    refine ⟨_, h.shiftBuffer hlen (by omega), hcurrent, ?_⟩
    show some (replicate (8 * w.startOfBuffer.toNat) 0 ++ _) = _
    rw [hstart]
    rfl
  simp only [IndexWriter.complete, hshift, ok_bind, ineAssert, ensure_pos, hdone, hfile, getD_some]
  rfl

omit h

/-- **The index that is written**, for fewer than 2 to the 29 positions. -/
theorem foldlM_complete (hpos : 0 < ps.length) (hlen : ps.length < 2 ^ 29) :
    (ps.reverse.foldlM IndexWriter.write { blocksExpected := ps.length } >>=
      IndexWriter.complete) = .ok (indexBytes ps) := by
  obtain ⟨hopened, hcurrent⟩ := writing_opened hpos hlen
  obtain ⟨w, hrun, hw, hdone⟩ := hopened.foldlM hlen le_rfl hcurrent
  have hfirst : ps.reverse.foldlM IndexWriter.write { blocksExpected := ps.length } =
      ps.reverse.foldlM IndexWriter.write (opened ps.length) := by
    cases hps : ps.reverse with
    | nil =>
      rw [reverse_eq_nil_iff.mp hps] at hpos
      cases hpos
    | cons p rest => rw [foldlM_cons, foldlM_cons, write_new]
  rw [take_length] at hrun
  rw [hfirst, hrun]
  exact hw.complete hlen hdone

/-! ### Too many positions -/

theorem currentPosition_shiftBuffer {shifted : Bool} (h : w.shiftBuffer = .ok (shifted, w')) :
    w'.currentPosition = w.currentPosition ∧ (w.file.isSome → w'.file.isSome) := by
  unfold shiftBuffer at h
  split at h
  · cases h
    exact ⟨rfl, fun hfile => hfile⟩
  · simp only [bind_eq_ok, pure_eq_ok, Prod.mk.injEq] at h
    obtain ⟨_, -, -, rfl⟩ := h
    exact ⟨rfl, fun _ => rfl⟩

theorem currentPosition_write {pos : ℕ} (hfile : w.file.isSome) (h : w.write pos = .ok w') :
    w'.currentPosition = w.currentPosition - 1 ∧ w'.file.isSome := by
  have hnone : w.file.isNone = false := by
    cases hw : w.file with
    | none =>
      rw [hw] at hfile
      cases hfile
    | some file => rfl
  simp only [write, prepareBuffer, hnone, Bool.false_eq_true, if_false, bind_eq_ok, pure_eq_ok] at h
  obtain ⟨w₁, ⟨⟨shifted, _⟩, hshift, rfl⟩, _, -, rfl⟩ := h
  obtain ⟨hcurrent, hsome⟩ := currentPosition_shiftBuffer hshift
  exact ⟨by simp only [hcurrent], hsome hfile⟩

theorem currentPosition_foldlM {qs : List ℕ} (hfile : w.file.isSome)
    (h : qs.foldlM write w = .ok w') :
    w'.currentPosition = w.currentPosition - qs.length := by
  induction qs generalizing w with
  | nil =>
    cases h
    simp
  | cons q qs ih =>
    rw [foldlM_cons, bind_eq_ok] at h
    obtain ⟨w₁, hwrite, h⟩ := h
    obtain ⟨hcurrent, hfile₁⟩ := currentPosition_write hfile hwrite
    rw [ih hfile₁ h, hcurrent, length_cons]
    omega

/-- **No index is written for more positions**: the size of the file is computed in 32 bits,
so writing starts at the wrong place and does not end at the first one. -/
theorem foldlM_complete_fails (hlen : 2 ^ 29 ≤ ps.length) (hmax : ps.length < 2 ^ 32)
    (file : Bytes) : (ps.reverse.foldlM write { blocksExpected := ps.length } >>=
      complete) ≠ .ok file := by
  intro h
  rw [bind_eq_ok] at h
  obtain ⟨w, hrun, hcomplete⟩ := h
  cases hps : ps.reverse with
  | nil =>
    rw [reverse_eq_nil_iff.mp hps] at hlen
    exact absurd hlen (by decide)
  | cons p rest =>
    have hrest : rest.length + 1 = ps.length := by
      have hlength := congrArg length hps
      rw [length_reverse, length_cons] at hlength
      exact hlength.symm
    rw [hps, foldlM_cons, write_new, ← foldlM_cons] at hrun
    have hcurrent := currentPosition_foldlM rfl hrun
    simp only [complete, bind_eq_ok, ineAssert_eq_ok, pure_eq_ok, exists_const]
      at hcomplete
    obtain ⟨⟨shifted, w'⟩, hshift, -, hdone, -⟩ := hcomplete
    rw [(currentPosition_shiftBuffer hshift).1, hcurrent] at hdone
    have hopened : (opened ps.length).currentPosition =
        (u32Sub (fileLocationToBufferLocation (bufferLocationToFileLocation ps.length)) 1 : ℕ) :=
      rfl
    rw [hopened, length_cons, hrest] at hdone
    -- where writing starts, modulo 2 to the 29
    unfold fileLocationToBufferLocation bufferLocationToFileLocation u32Sub u32 at hdone
    omega

end IndexWriter

open IndexWriter

/-! ## The reverse iterator -/

theorem bufLen_eq : bufLen = 2 ^ 24 := rfl

namespace ReverseIterator

structure Buffered (it : ReverseIterator) : Prop where
  length : it.buffer.length = bufLen
  end_le : it.endOfBuffer ≤ it.file.length
  size : it.endOfBuffer ≤ it.startOfBuffer + bufLen
  contents : slice it.buffer 0 (it.endOfBuffer - it.startOfBuffer) =
    slice it.file it.startOfBuffer (it.endOfBuffer - it.startOfBuffer)

theorem Buffered.bufferAt {it : ReverseIterator} (h : it.Buffered) {len pos : ℕ}
    (hlow : it.startOfBuffer ≤ pos) (hhigh : pos + len ≤ it.endOfBuffer) :
    bufferAt len it.buffer (pos - it.startOfBuffer) = .ok (ofLeBytes (slice it.file pos len)) := by
  have hsize := h.size
  have hlength := h.length
  have hslice : slice it.buffer (pos - it.startOfBuffer) len = slice it.file pos len := by
    have hfile : slice (slice it.file it.startOfBuffer (it.endOfBuffer - it.startOfBuffer))
        (pos - it.startOfBuffer) len = slice it.file pos len := slice_slice hlow (by omega)
    have hbuffer : slice (slice it.buffer 0 (it.endOfBuffer - it.startOfBuffer))
        (pos - it.startOfBuffer - 0) len = slice it.buffer (pos - it.startOfBuffer) len :=
      slice_slice (Nat.zero_le _) (by omega)
    rw [← hbuffer, h.contents, Nat.sub_zero, hfile]
  rw [BlockLog.bufferAt, readAt, if_pos (by omega), hslice]
  rfl

theorem updateBuffer_spec (it : ReverseIterator) (hbuffer : it.buffer.length = bufLen)
    (hcurrent : it.currentPosition + 8 ≤ it.file.length) (hsize : it.file.length < 2 ^ 63) :
    ∃ endOfBuffer startOfBuffer buffer,
      it.updateBuffer = .ok { it with endOfBuffer, startOfBuffer, buffer } ∧
      Buffered { it with endOfBuffer, startOfBuffer, buffer } ∧
      endOfBuffer = it.currentPosition + 8 ∧ startOfBuffer ≤ it.currentPosition := by
  have hlen := bufLen_eq
  have hnpos : it.currentPosition ≠ npos := by
    unfold npos
    omega
  have hend : u64 (it.currentPosition + 8) = it.currentPosition + 8 := u64_of_lt (by omega)
  generalize hstart : (if it.currentPosition + 8 < bufLen then 0
    else it.currentPosition + 8 - bufLen) = start
  have hlow : start ≤ it.currentPosition := by
    rw [← hstart]
    split <;> omega
  have hroom : it.currentPosition + 8 ≤ start + bufLen := by
    rw [← hstart]
    split <;> omega
  have hread : readAt it.file start (it.currentPosition + 8 - start) =
      some (slice it.file start (it.currentPosition + 8 - start)) := by
    rw [readAt, if_pos (by omega)]
  have hcontents : (slice it.file start (it.currentPosition + 8 - start)).length =
      it.currentPosition + 8 - start := by
    rw [length_slice]
    omega
  refine ⟨it.currentPosition + 8, start,
    refill it.buffer (slice it.file start (it.currentPosition + 8 - start)), ?_,
    ⟨?_, hcurrent, hroom, ?_⟩, rfl, hlow⟩
  · simp only [updateBuffer, ineAssert, ensure_pos hnpos, ok_bind, hend, hstart, hread]
    rfl
  · rw [length_refill (by omega), hbuffer]
  · simp only
    rw [slice_refill (by omega), slice, drop_zero, take_of_length_le (by omega)]

end ReverseIterator

open ReverseIterator

structure HeaderBytes (version first : ℕ) (header : Bytes) : Prop where
  version_first : ∃ rest, header = leBytes 4 version ++ rest
  first_next : version ≠ 1 → ∃ rest, header = leBytes 4 version ++ leBytes 4 first ++ rest
  totem_last : version ≠ 1 → ∃ front, header = front ++ posBytes npos
  le : 12 ≤ header.length

variable {pos : ℕ}

theorem fileAt_append_mid {a b c : Bytes} {len : ℕ} (e : ChainException) (hlen : len = b.length)
    (hpos : pos = a.length) : fileAt len (a ++ b ++ c) pos e = .ok (ofLeBytes b) := by
  rw [fileAt, readAt_append_mid hlen hpos]
  rfl

theorem ofLeBytes_posBytes (h : pos < 2 ^ 64) : ofLeBytes (posBytes pos) = pos :=
  ofLeBytes_leBytes (by simpa using h)

theorem fileAt_totem (rest : Bytes) (e : ChainException) :
    fileAt 8 (posBytes npos ++ rest) 0 e = .ok npos := by
  have hmid : fileAt 8 ([] ++ posBytes npos ++ rest) 0 e = _ :=
    fileAt_append_mid e (length_posBytes npos).symm rfl
  rwa [ofLeBytes_posBytes (by decide)] at hmid

namespace HeaderBytes

variable {version first : ℕ} {header : Bytes} (h : HeaderBytes version first header)
include h

theorem fileAt_first (hversion : version ≠ 1) (hfirst : first < 2 ^ 32) (rest : Bytes)
    (e : ChainException) : fileAt 4 (header ++ rest) 4 e = .ok first := by
  obtain ⟨after, rfl⟩ := h.first_next hversion
  rw [append_assoc, fileAt_append_mid _ (length_leBytes 4 _).symm (length_leBytes 4 _).symm,
    ofLeBytes_leBytes (by simpa using hfirst)]

theorem slice_totem (hversion : version ≠ 1) (hpos : pos + 8 = header.length) (rest : Bytes) :
    slice (header ++ rest) pos 8 = posBytes npos := by
  obtain ⟨front, rfl⟩ := h.totem_last hversion
  refine slice_append_mid (length_posBytes _).symm ?_
  rw [length_append, length_posBytes] at hpos
  omega

end HeaderBytes

theorem slice_last_position (header : Bytes) (blocks : List LogBlock) (b : LogBlock) (rest : Bytes)
    (hpos : pos + 8 = header.length + extent (blocks ++ [b])) :
    slice (header ++ encode header.length (blocks ++ [b]) ++ rest) pos 8 =
      posBytes (header.length + extent blocks) := by
  have hsplit : header ++ encode header.length (blocks ++ [b]) ++ rest =
      (header ++ encode header.length blocks ++ b.pack) ++
        posBytes (header.length + extent blocks) ++ rest := by
    rw [encode_append, encode, encode]
    simp only [append_assoc, append_nil]
  rw [hsplit]
  refine slice_append_mid (length_posBytes _).symm ?_
  rw [extent_concat] at hpos
  simp only [length_append, length_encode]
  omega

theorem indexBytes_append (ps qs : List ℕ) :
    indexBytes (ps ++ qs) = indexBytes ps ++ indexBytes qs :=
  flatMap_append

theorem fileAt_index (front : List LogBlock) (b : LogBlock) (back : List LogBlock)
    (h : start + extent front < 2 ^ 64) (e : ChainException) :
    fileAt 8 (indexBytes (positions start (front ++ b :: back))) (8 * front.length) e =
      .ok (start + extent front) := by
  rw [positions_append, positions, indexBytes_append,
    show indexBytes (_ :: _) = _ from flatMap_cons, ← append_assoc,
    fileAt_append_mid e (length_posBytes _).symm
      (by rw [length_indexBytes, length_positions]), ofLeBytes_posBytes h]

theorem file_at_block (bytes : Bytes) (front : List LogBlock) (b : LogBlock)
    (back : List LogBlock) : bytes ++ encode bytes.length (front ++ b :: back) =
      (bytes ++ encode bytes.length front) ++ b.pack ++
        (posBytes (bytes.length + extent front) ++
          encode (bytes.length + extent front + b.pack.length + 8) back) := by
  rw [encode_append, encode]
  simp only [append_assoc]

theorem blockNumOf_previous (b : LogBlock) :
    blockNumOf (ofLeBytes (leBytes 4 b.previous.toNat)) = b.blockNum := by
  have hlow : BitVec.ofNat 32 (b.previous.toNat % 256 ^ 4) = b.previous.extractLsb' 0 32 := by
    apply BitVec.eq_of_toNat_eq
    rw [BitVec.toNat_ofNat, BitVec.extractLsb'_toNat, Nat.shiftRight_zero]
    exact Nat.mod_mod _ _
  rw [ofLeBytes_leBytes_mod, blockNumOf, hlow]
  rfl

/-- The number of the previous block is where the readers look for it. -/
theorem slice_previousNum (a c : Bytes) (b : LogBlock) (hpos : pos = a.length) :
    slice (a ++ b.pack ++ c) (pos + blknumOffset) 4 = leBytes 4 b.previous.toNat := by
  have hsplit : a ++ b.pack ++ c =
      (a ++ (leBytes 4 b.timestamp.toNat ++ leBytes 8 b.producer.toNat ++
        leBytes 2 b.confirmed.toNat)) ++ leBytes 4 b.previous.toNat ++
        (leBytes 28 (b.previous.toNat / 256 ^ 4) ++ b.rest ++ c) := by
    rw [pack, show leBytes 32 b.previous.toNat = _ from leBytes_add 4 28 _]
    simp only [append_assoc]
  rw [hsplit]
  refine slice_append_mid (length_leBytes 4 _).symm ?_
  simp only [length_append, length_leBytes, hpos, blknumOffset]

theorem fileAt_version {version : ℕ} {header : Bytes} (hheader : HeaderBytes version first header)
    (hsupported : isSupportedVersion version) (rest : Bytes) (e : ChainException) :
    fileAt 4 (header ++ rest) 0 e = .ok version := by
  have hbounds : 1 ≤ version ∧ version ≤ 3 := of_decide_eq_true hsupported
  obtain ⟨after, hafter⟩ := hheader.version_first
  have hmid : fileAt 4 ([] ++ leBytes 4 version ++ (after ++ rest)) 0 e = _ :=
    fileAt_append_mid e (length_leBytes 4 _).symm rfl
  rwa [ofLeBytes_leBytes (show version < 256 ^ 4 by omega), nil_append, ← append_assoc,
    ← hafter] at hmid

namespace ReverseIterator

/-- An iterator that has still to return the positions of `blocks`, the first ones of a log
with this header and `total` blocks. -/
structure At (header : Bytes) (version total : ℕ) (blocks : List LogBlock) (it : ReverseIterator) :
    Prop where
  log : ∃ rest, it.file = header ++ encode header.length blocks ++ rest
  size : it.file.length < 2 ^ 63
  version : it.version = version
  expected : it.blocksExpected = total
  found : it.blocksFound + blocks.length = total
  current : it.currentPosition + 8 = header.length + (encode header.length blocks).length
  buffered : it.Buffered
  end_le : it.currentPosition + 8 ≤ it.endOfBuffer

variable {header : Bytes} {version first total : ℕ} {blocks : List LogBlock} {b : LogBlock}
  {it : ReverseIterator}

theorem At.current_ne (h : it.At header version total blocks) : it.currentPosition ≠ npos := by
  have hcurrent := h.end_le
  have hend := h.buffered.end_le
  have hsize := h.size
  unfold npos
  omega

/-- The position before the current one is in the buffer, after it was read again if need be. -/
theorem At.read (h : it.At header version total blocks) :
    ∃ it', (if it.currentPosition < it.startOfBuffer then it.updateBuffer else pure it) = .ok it' ∧
      it'.At header version total blocks ∧ it'.currentPosition = it.currentPosition ∧
      bufferAt 8 it'.buffer (it'.currentPosition - it'.startOfBuffer) =
        .ok (ofLeBytes (slice it.file it.currentPosition 8)) := by
  have hend := h.end_le
  have hfile := h.buffered.end_le
  by_cases hbelow : it.currentPosition < it.startOfBuffer
  · obtain ⟨e, s, buffer, hupdate, hbuffered, hlast, hstart⟩ :=
      updateBuffer_spec it h.buffered.length (by omega) h.size
    refine ⟨{ it with endOfBuffer := e, startOfBuffer := s, buffer := buffer },
      (if_pos hbelow).trans hupdate, ?_, rfl, hbuffered.bufferAt hstart hlast.ge⟩
    exact ⟨h.log, h.size, h.version, h.expected, h.found, h.current, hbuffered, hlast.ge⟩
  · exact ⟨it, by rw [if_neg hbelow]; rfl, h, rfl, h.buffered.bufferAt (by omega) hend⟩

theorem previous_of_read {it₁ : ReverseIterator} {location : ℕ} (hne : it.currentPosition ≠ npos)
    (hmore : ¬ (it.version = 1 ∧ it.blocksFound = it.blocksExpected))
    (hread : (if it.currentPosition < it.startOfBuffer then it.updateBuffer else pure it) = .ok it₁)
    (hvalue : bufferAt 8 it₁.buffer (it₁.currentPosition - it₁.startOfBuffer) =
      .ok location) : it.previous = (do
      let it ← moveTo { it₁ with blocksFound := u32 (it₁.blocksFound + 1) } location
      pure (location, it)) := by
  unfold previous ineAssert
  rw [ensure_pos hne, ok_bind, if_neg hmore]
  by_cases hbelow : it.currentPosition < it.startOfBuffer
  · rw [if_pos hbelow] at hread
    simp only [if_pos hbelow, hread, ok_bind, hvalue]
  · rw [if_neg hbelow] at hread
    cases hread
    simp only [if_neg hbelow, pure_bind, hvalue, ok_bind]

/-- **One block back.** -/
theorem At.previous (h : it.At header version total (blocks ++ [b])) (htotal : total < 2 ^ 32)
    (hheader : 12 ≤ header.length) : ∃ it', it.previous = .ok (header.length + extent blocks, it') ∧
      it'.At header version total blocks := by
  obtain ⟨it₁, hread, h₁, hsame, hvalue⟩ := h.read
  obtain ⟨rest, hlog⟩ := h.log
  have hsize := h.size
  have hfound := h₁.found
  have hcurrent := h₁.current
  rw [length_encode] at hcurrent
  have hextent := extent_concat blocks b
  have hpos : header.length + extent blocks < 2 ^ 63 := by
    rw [hlog, length_append, length_append, length_encode] at hsize
    omega
  -- the eight bytes read are the position of the last block
  rw [hlog, slice_last_position header blocks b rest (by rw [← hsame, hcurrent]),
    ofLeBytes_posBytes (by omega)] at hvalue
  have hnpos : header.length + extent blocks ≠ npos := by
    unfold npos
    omega
  have hmore : ¬ (it.version = 1 ∧ it.blocksFound = it.blocksExpected) := by
    have hfound' := h.found
    rw [length_append, length_singleton] at hfound'
    rw [h.expected]
    omega
  have hback : u64 (header.length + extent blocks + (2 ^ 64 - 8)) =
      header.length + extent blocks - 8 := by
    unfold u64
    omega
  rw [length_append, length_singleton] at hfound
  have hcount : u32 (it₁.blocksFound + 1) = it₁.blocksFound + 1 := u32_of_lt (by omega)
  have hlower : header.length + extent blocks - 8 < it₁.currentPosition := by omega
  refine ⟨{ it₁ with
    blocksFound := it₁.blocksFound + 1
    currentPosition := header.length + extent blocks - 8 }, ?_, ?_⟩
  · rw [previous_of_read h.current_ne hmore hread hvalue, hcount]
    simp only [moveTo, ineAssert, if_neg hnpos, hback, ensure_pos hlower, ok_bind]
    rfl
  · refine ⟨?_, h₁.size, h₁.version, h₁.expected, ?_, ?_, ?_, ?_⟩
    · obtain ⟨rest₁, hlog₁⟩ := h₁.log
      rw [encode_append, ← append_assoc, append_assoc] at hlog₁
      exact ⟨_, hlog₁⟩
    · simp only
      omega
    · simp only [length_encode]
      omega
    · exact { h₁.buffered with }
    · have hend := h₁.end_le
      simp only
      omega

/-- At the header the iterator stops: by its count in version 1, at the totem otherwise. -/
theorem At.previous_nil (h : it.At header version total [])
    (hheader : HeaderBytes version first header) : ∃ it', it.previous = .ok (npos, it') := by
  have hfound := h.found
  rw [length_nil, Nat.add_zero] at hfound
  by_cases hversion : version = 1
  · have hdone : it.version = 1 ∧ it.blocksFound = it.blocksExpected :=
      ⟨h.version.trans hversion, hfound.trans h.expected.symm⟩
    refine ⟨{ it with currentPosition := npos }, ?_⟩
    simp only [ReverseIterator.previous, ineAssert, ensure_pos h.current_ne, ok_bind, if_pos hdone]
    rfl
  · obtain ⟨it₁, hread, h₁, -, hvalue⟩ := h.read
    obtain ⟨rest, hlog⟩ := h.log
    have hcurrent := h.current
    rw [encode, length_nil, Nat.add_zero] at hcurrent
    rw [hlog, encode, append_nil, hheader.slice_totem hversion hcurrent,
      ofLeBytes_posBytes (by decide)] at hvalue
    have hmore : ¬ (it.version = 1 ∧ it.blocksFound = it.blocksExpected) := by
      rw [h.version]
      exact fun hboth => hversion hboth.1
    have hcount : u32 (it₁.blocksFound + 1) ≠ it₁.blocksExpected := by
      have hfound₁ := h₁.found
      rw [length_nil, Nat.add_zero] at hfound₁
      rw [h₁.expected, hfound₁]
      unfold u32
      omega
    refine ⟨{ it₁ with blocksFound := u32 (it₁.blocksFound + 1), currentPosition := npos }, ?_⟩
    rw [previous_of_read h.current_ne hmore hread hvalue]
    simp only [moveTo, ineAssert, if_pos, ensure_pos hcount, ok_bind]
    rfl

/-- **The loop writes the positions from the last to the first.** -/
theorem At.indexBlocks (htotal : total < 2 ^ 32) (hheader : HeaderBytes version first header)
    {rounds : ℕ} (hrounds : blocks.length < rounds) (h : it.At header version total blocks)
    (w : IndexWriter) : indexBlocks rounds it w =
      (positions header.length blocks).reverse.foldlM write w := by
  induction blocks using reverseRecOn generalizing it w rounds with
  | nil =>
    obtain ⟨it', hprevious⟩ := h.previous_nil hheader
    cases rounds with
    | zero => cases hrounds
    | succ rounds =>
      simp only [indexBlocks, hprevious, ok_bind, if_pos]
      rfl
  | append_singleton blocks b ih =>
    obtain ⟨it', hprevious, h'⟩ := h.previous htotal hheader.le
    rw [length_append, length_singleton] at hrounds
    have hpos : header.length + extent blocks ≠ npos := by
      have hcurrent := h'.current
      rw [length_encode] at hcurrent
      have hne := h'.end_le
      have hend := h'.buffered.end_le
      have hsize := h'.size
      unfold npos
      omega
    cases rounds with
    | zero => omega
    | succ rounds =>
      rw [positions_append, positions, positions, reverse_append, reverse_singleton,
        singleton_append, foldlM_cons]
      simp only [indexBlocks, hprevious, ok_bind, if_neg hpos]
      congr 1
      funext w'
      exact ih (by omega) h' w'

/-! ### Opening a log -/

theorem readPreviousNum_eq (hbuffered : it.Buffered) {blockPos : ℕ}
    (hpos : blockPos + 18 ≤ it.endOfBuffer) :
    it.readPreviousNum blockPos = .ok (ofLeBytes (slice it.file (blockPos + blknumOffset) 4)) := by
  have hlen := bufLen_eq
  have hsize := hbuffered.size
  have hend := hbuffered.end_le
  unfold readPreviousNum
  by_cases hin : it.startOfBuffer ≤ blockPos
  · have hoffset : u32 (blockPos - it.startOfBuffer) + blknumOffset =
        blockPos + blknumOffset - it.startOfBuffer := by
      rw [u32_of_lt (by omega), blknumOffset]
      omega
    rw [if_pos hin, hoffset]
    exact hbuffered.bufferAt (by omega) (by rw [blknumOffset]; omega)
  · rw [if_neg hin, fileAt, readAt, if_pos (by rw [blknumOffset]; omega)]
    rfl

theorem readFirstBlockNum_eq (hheader : HeaderBytes version first header)
    (hone : version = 1 → first = 1) (hfirst : first < 2 ^ 32) (rest : Bytes) :
    readFirstBlockNum (header ++ rest) version = .ok first := by
  unfold readFirstBlockNum
  by_cases hversion : version = 1
  · rw [if_pos hversion, hone hversion]
    rfl
  · rw [if_neg hversion, hheader.fileAt_first hversion hfirst]

/-- **Opening a log**: the number of its blocks is found, and the iterator is at its end. -/
theorem openFile_spec {γ : Type} {h : Header γ} (hform : WellFormed h blocks)
    (hheader : HeaderBytes h.version h.firstBlockNum header)
    (hsize : (header ++ encode header.length blocks).length < 2 ^ 63) :
    ∃ it, openFile (header ++ encode header.length blocks) = .ok (blocks.length, it) ∧
      (blocks ≠ [] → it.At header h.version blocks.length blocks) := by
  have hlen := bufLen_eq
  have hle := hheader.le
  have hnums := hform.nums_lt
  have hfirst := hform.first_pos
  have hread := fileAt_version hheader hform.version (encode header.length blocks)
  generalize hfile : header ++ encode header.length blocks = file at *
  have hlength : file.length = header.length + extent blocks := by
    rw [← hfile, length_append_encode]
  have hback : u64 (file.length + (2 ^ 64 - 8)) = file.length - 8 := by
    unfold u64
    omega
  obtain ⟨e, s, buffer, hupdate, hbuffered, hlast, hstart⟩ := updateBuffer_spec
      { file, version := h.version, firstBlockNum := h.firstBlockNum,
        currentPosition := file.length - 8 } (length_replicate ..) (by simp only; omega) hsize
  simp only at hlast hstart
  have hoffset : u32 (file.length - 8 - s) = file.length - 8 - s := u32_of_lt (by
    have hroom := hbuffered.size
    simp only at hroom
    omega)
  have hvalue : bufferAt 8 buffer (file.length - 8 - s) =
      .ok (ofLeBytes (slice file (file.length - 8) 8)) := hbuffered.bufferAt hstart hlast.ge
  have hrest : readFirstBlockNum file h.version = .ok h.firstBlockNum := by
    rw [← hfile]
    exact readFirstBlockNum_eq hheader hform.first_eq hform.first_lt _
  simp only [openFile, ineAssert, hread, ok_bind, ensure_pos hform.version, hrest,
    ensure_pos (show 0 < file.length by omega), hback, hupdate, hoffset, hvalue]
  clear hread hrest hvalue hupdate
  rcases eq_nil_or_concat blocks with rfl | ⟨before, b, rfl⟩
  · -- without blocks the file ends with the totem
    have htotem : slice file (file.length - 8) 8 = posBytes npos := by
      rw [← hfile]
      refine hheader.slice_totem (fun hversion => hform.nonempty hversion rfl) ?_ _
      rw [encode, append_nil]
      omega
    rw [htotem, ofLeBytes_posBytes (by decide), if_pos rfl]
    exact ⟨_, rfl, fun hne => absurd rfl hne⟩
  · rw [concat_eq_append] at *
    have hpos : header.length + extent before + b.pack.length + 8 = file.length := by
      rw [hlength, extent_concat]
      omega
    have hlocation : slice file (file.length - 8) 8 =
        posBytes (header.length + extent before) := by
      have hend : file.length - 8 + 8 = header.length + extent (before ++ [b]) := by omega
      have hslice := slice_last_position header before b [] hend
      rwa [append_nil, hfile] at hslice
    have hnpos : header.length + extent before ≠ npos := by
      unfold npos
      omega
    have hfield : header.length + extent before + 18 ≤ e := by
      have hpack := length_pack b
      omega
    have hprevious : slice file
        (header.length + extent before + blknumOffset) 4 = leBytes 4 b.previous.toNat := by
      rw [← hfile, file_at_block, slice_previousNum _ _ b (length_append_encode ..).symm]
    have hnum : b.blockNum = h.firstBlockNum + before.length := hform.numbered.tail 0 b rfl
    have hcount : u32 (u32Sub (h.firstBlockNum + before.length) h.firstBlockNum + 1) =
        (before ++ [b]).length := by
      rw [length_append, length_singleton] at hnums ⊢
      rw [u32Sub_of_le (by omega) (by omega), Nat.add_sub_cancel_left, u32_of_lt (by omega)]
    rw [hlocation, ofLeBytes_posBytes (by omega), if_neg hnpos,
      readPreviousNum_eq hbuffered hfield, ok_bind]
    simp only [hprevious, blockNumOf_previous, hnum, hcount]
    refine ⟨_, rfl, fun _ => ⟨⟨[], ?_⟩, hsize, rfl, rfl, Nat.zero_add _, ?_, ?_, hlast.ge⟩⟩
    · rw [append_nil]
      exact hfile.symm
    · simp only [length_encode]
      omega
    · exact { hbuffered with }

end ReverseIterator

/-! ## The header -/

variable {γ : Type} {codec : GenesisCodec γ} {h : Header γ} {bytes : Bytes}

theorem headerBytes_of_pack (hpack : h.pack codec = some bytes) :
    HeaderBytes h.version h.firstBlockNum bytes := by
  unfold Header.pack at hpack
  obtain ⟨context, hcontext, hpack⟩ := bind_eq_some_iff.mp hpack
  have hle : 8 ≤ context.length := by
    cases hkind : h.context with
    | genesisState gs =>
      rw [hkind] at hcontext
      exact codec.timestamp_le hcontext
    | chainId id =>
      rw [hkind] at hcontext
      cases hcontext
      rw [length_leBytes]
      decide
  by_cases hversion : h.version = 1
  · rw [if_pos hversion] at hpack
    cases hpack
    refine ⟨⟨context, rfl⟩, fun hne => absurd hversion hne, fun hne => absurd hversion hne, ?_⟩
    rw [length_append, length_leBytes]
    omega
  · rw [if_neg hversion] at hpack
    cases hpack
    refine ⟨⟨_, by simp only [append_assoc]; rfl⟩,
      fun _ => ⟨_, by simp only [append_assoc]; rfl⟩, fun _ => ⟨_, rfl⟩, ?_⟩
    simp only [length_append, length_leBytes, length_posBytes]
    omega

/-! ## Making the index again -/

section

variable {blocks : List LogBlock}

theorem constructIndex_nil (hform : WellFormed h []) (hpack : h.pack codec = some bytes)
    (hsize : bytes.length < 2 ^ 63) (old : Bytes) : constructIndex bytes old = .ok old := by
  obtain ⟨it, hopen, -⟩ :=
    openFile_spec hform (headerBytes_of_pack hpack) (by rwa [encode, append_nil])
  rw [encode, append_nil] at hopen
  unfold constructIndex
  rw [hopen, ok_bind, length_nil]
  exact if_pos rfl

theorem constructIndex_eq (hform : WellFormed h blocks) (hpack : h.pack codec = some bytes)
    (hsize : (bytes ++ encode bytes.length blocks).length < 2 ^ 63) (hne : blocks ≠ [])
    (old : Bytes) : constructIndex (bytes ++ encode bytes.length blocks) old =
      (positions bytes.length blocks).reverse.foldlM write
        { blocksExpected := (positions bytes.length blocks).length } >>= complete := by
  have hheader := headerBytes_of_pack hpack
  have htotal : blocks.length < 2 ^ 32 := by
    have hfirst := hform.first_pos
    have hnums := hform.nums_lt
    omega
  have hrounds : blocks.length < (bytes ++ encode bytes.length blocks).length + 1 := by
    have hle := length_le_extent blocks
    rw [length_append_encode]
    omega
  obtain ⟨it, hopen, hat⟩ := openFile_spec hform hheader hsize
  unfold constructIndex
  simp only [hopen, ok_bind, if_neg (length_pos_iff.mpr hne).ne',
    (hat hne).indexBlocks htotal hheader hrounds, length_positions]

/-- **`construct_index` writes the index that appending the blocks has written, for fewer than
2 to the 29 blocks.**  Without blocks it leaves the file as it is, so that there must not be
an index of another log. -/
theorem construct_index_iff (hform : WellFormed h blocks) (hpack : h.pack codec = some bytes)
    {files : Files} (hfiles : Files.appendAll h.firstBlockNum ⟨bytes, []⟩ blocks = .ok files)
    (hsize : files.blockFile.length < 2 ^ 63) (old : Bytes) :
    constructIndex files.blockFile old = .ok files.indexFile ↔
      blocks.length < 2 ^ 29 ∧ (blocks = [] → old = []) := by
  rw [appendAll_header bytes hform.numbered] at hfiles
  cases hfiles
  by_cases hnil : blocks = []
  · subst hnil
    simp only [encode, append_nil] at hsize ⊢
    rw [constructIndex_nil hform hpack hsize]
    simp [positions, indexBytes]
  · have hnums := hform.nums_lt
    have hfirst := hform.first_pos
    have hpos := length_pos_iff.mpr hnil
    simp only [constructIndex_eq hform hpack hsize hnil, hnil, false_imp_iff, and_true]
    rw [← length_positions bytes.length blocks] at hnums hpos ⊢
    constructor
    · intro hok
      by_contra hlarge
      exact foldlM_complete_fails (by omega) (by omega) _ hok
    · exact fun hsmall => foldlM_complete hpos hsmall

end

/-! ### Logs of any length -/

def timestampCodec : GenesisCodec ℕ where
  format := Format.uint 8
  computeChainId gs := BitVec.ofNat 256 gs
  timestamp_le := by
    intro gs bs hbs
    simp only [Format.uint] at hbs
    split at hbs
    · cases hbs
      rw [length_leBytes]
    · cases hbs

/-- A log that starts at block 2. -/
def laterHeader : Header ℕ := ⟨3, 2, .chainId 0⟩

def plainBlock (body : Bytes) (n : ℕ) : LogBlock :=
  ⟨0, 0, 0, BitVec.ofNat 224 0 ++ endianReverseU32 (BitVec.ofNat 32 (n - 1)), body⟩

/-- The body of a block without transactions and extensions: the roots, the schedule version,
the signature and the lengths of what is not there. -/
def emptyBody : Bytes := replicate 138 0

theorem length_emptyBody : emptyBody.length = 138 := length_replicate

def plainBlocks (body : Bytes) (count : ℕ) : List LogBlock :=
  (range count).map fun i => plainBlock body (2 + i)

theorem length_plainBlocks (body : Bytes) (count : ℕ) :
    (plainBlocks body count).length = count := by
  rw [plainBlocks, length_map, length_range]

variable {body : Bytes}

theorem wellFormed_plainBlocks {count : ℕ} (hcount : 2 + count ≤ 2 ^ 32) :
    WellFormed laterHeader (plainBlocks body count) where
  version := by decide
  first_pos := by decide
  first_lt := by decide
  first_eq := by decide
  context := by
    constructor
    · intro hcontains
      exact absurd hcontains (by decide)
    · rintro ⟨gs, hgs⟩
      cases hgs
  numbered := by
    intro i b hb
    rw [plainBlocks, getElem?_map, map_eq_some_iff] at hb
    obtain ⟨j, hj, rfl⟩ := hb
    rw [getElem?_eq_some_iff] at hj
    obtain ⟨hlt, hj⟩ := hj
    rw [getElem_range] at hj
    rw [length_range] at hlt
    subst hj
    rw [plainBlock, blockNum, numFromId_append]
    have hnum : u32 (2 + i - 1) = i + 1 := by
      rw [u32_of_lt (by omega)]
      omega
    rw [hnum, u32_of_lt (by omega)]
    exact Nat.add_comm i 2
  nums_lt := by
    rw [length_plainBlocks]
    exact hcount
  nonempty := fun hversion => absurd hversion (by decide)

theorem extent_of_rest (h : ∀ b ∈ blocks, b.rest = body) :
    extent blocks = (54 + body.length) * blocks.length := by
  induction blocks with
  | nil => rfl
  | cons b blocks ih =>
    rw [forall_mem_cons] at h
    rw [extent_cons, ih h.2, length_pack, h.1, length_cons, Nat.mul_succ]
    omega

theorem rest_of_mem_plainBlocks {count : ℕ} {b : LogBlock} (hb : b ∈ plainBlocks body count) :
    b.rest = body := by
  obtain ⟨i, -, rfl⟩ := mem_map.mp hb
  rfl

theorem extent_plainBlocks (body : Bytes) (count : ℕ) :
    extent (plainBlocks body count) = (54 + body.length) * count := by
  rw [extent_of_rest fun b hb => rest_of_mem_plainBlocks hb, length_plainBlocks]

theorem plainBlocks_appended (count : ℕ) {n : ℕ} (hbody : body.length = n)
    (hcount : 2 + count ≤ 2 ^ 32) (hsize : 48 + (54 + n) * count < 2 ^ 63) :
    WellFormed laterHeader (plainBlocks body count) ∧ ∃ bytes,
      laterHeader.pack timestampCodec = some bytes ∧
      Files.appendAll 2 ⟨bytes, []⟩ (plainBlocks body count) = .ok
        ⟨bytes ++ encode bytes.length (plainBlocks body count),
          indexBytes (positions bytes.length (plainBlocks body count))⟩ ∧
      (bytes ++ encode bytes.length (plainBlocks body count)).length < 2 ^ 63 := by
  have hform : WellFormed laterHeader (plainBlocks body count) := wellFormed_plainBlocks hcount
  refine ⟨hform, _, rfl, appendAll_header _ hform.numbered, ?_⟩
  rw [length_append_encode, extent_plainBlocks, hbody]
  simp only [length_append, length_leBytes, length_posBytes]
  omega

/-- The index of a log with three blocks is made again. -/
theorem construct_index_iff_three : ∃ bytes files, laterHeader.pack timestampCodec = some bytes ∧
      Files.appendAll 2 ⟨bytes, []⟩ (plainBlocks emptyBody 3) = .ok files ∧
      constructIndex files.blockFile [] = .ok files.indexFile := by
  obtain ⟨hform, bytes, hpack, hfiles, hsize⟩ :=
    plainBlocks_appended 3 length_emptyBody (by decide) (by decide)
  exact ⟨bytes, _, hpack, hfiles,
    (construct_index_iff hform hpack hfiles hsize []).mpr ⟨by decide, fun _ => rfl⟩⟩

/-- The index of a log with 2 to the 29 blocks cannot be made again. -/
theorem large_log_not_indexed : WellFormed laterHeader (plainBlocks emptyBody (2 ^ 29)) ∧
    ∃ bytes files, laterHeader.pack timestampCodec = some bytes ∧
      Files.appendAll 2 ⟨bytes, []⟩ (plainBlocks emptyBody (2 ^ 29)) = .ok files ∧
      files.blockFile.length < 2 ^ 63 ∧
      ∀ old, constructIndex files.blockFile old ≠ .ok files.indexFile := by
  obtain ⟨hform, bytes, hpack, hfiles, hsize⟩ :=
    plainBlocks_appended (2 ^ 29) length_emptyBody (by decide) (by decide)
  have hcount : (plainBlocks emptyBody (2 ^ 29)).length = 2 ^ 29 := length_plainBlocks _ _
  refine ⟨hform, bytes, _, hpack, hfiles, hsize, fun old => ?_⟩
  rw [constructIndex_eq hform hpack hsize (ne_nil_of_length_pos (by omega))]
  apply foldlM_complete_fails
  · rw [length_positions, hcount]
  · rw [length_positions, hcount]
    decide

end BlockLog

end Inery.Chain
