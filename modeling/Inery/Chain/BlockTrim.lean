import Inery.Chain.BlockIndex

/-!
# Cutting off the front of a log (`trim_blocklog_front`)

The blocks that stay are copied from the end of the file backwards, one buffer at a time, and the
positions in a buffer are changed before it is written.  If none of them lies across the border of
two buffers, the new files are those that appending the blocks to the new header would have written.
A position across a border is read beyond the end of the buffer.
-/

namespace Inery.Chain

open Foundation List

namespace BlockLog

/-! ## Encodings at another place -/

/-- The blocks `front` as they are at `base`, followed by the blocks `back` as they will be
when all of them are at `newBase`. -/
def patched (base newBase : ℕ) (front back : List LogBlock) : Bytes :=
  encode base front ++ encode (newBase + (encode base front).length) back

section

variable {base newBase lo size : ℕ} {front back mid : List LogBlock} {b : LogBlock}
  {buffer : Bytes}

theorem patched_nil : patched base newBase front [] = encode base front := by
  rw [patched, encode, append_nil]

theorem length_patched : (patched base newBase front back).length = extent (front ++ back) := by
  rw [patched, length_append_encode, length_encode, extent_append]

theorem patched_concat : patched base newBase (front ++ [b]) back =
      (encode base front ++ b.pack) ++ posBytes (base + extent front) ++
        encode (newBase + (extent front + b.pack.length + 8)) back := by
  rw [patched, length_encode, extent_concat, encode_append, encode, encode, append_nil]
  simp only [append_assoc]

theorem patched_cons : patched base newBase front (b :: back) =
      (encode base front ++ b.pack) ++ posBytes (newBase + extent front) ++
        encode (newBase + (extent front + b.pack.length + 8)) back := by
  rw [patched, length_encode, encode]
  simp only [append_assoc, Nat.add_assoc]

theorem writeAt_patched :
    writeAt 0 (patched base newBase (front ++ [b]) back) (extent front + b.pack.length)
        (posBytes (newBase + extent front)) = patched base newBase front (b :: back) := by
  rw [patched_concat, patched_cons]
  refine writeAt_append_mid ?_ ?_
  · rw [length_posBytes, length_posBytes]
  · rw [length_append, length_encode]

theorem slice_patched (h : extent front ≤ lo) : slice (patched base newBase front back) lo size =
      slice (encode newBase (front ++ back)) lo size := by
  rw [← length_encode base] at h
  rw [patched, encode_append, slice_append_right h, slice_append_right ?_]
  · rw [length_encode, length_encode]
  · rwa [length_encode] at h ⊢

theorem slice_patched_below
    (h : ∀ c rest, back = c :: rest → lo + size + 8 ≤ extent (front ++ [c])) :
    slice (patched base newBase front back) lo size =
      slice (encode base (front ++ back)) lo size := by
  cases back with
  | nil => rw [patched_nil, append_nil]
  | cons c rest =>
    have hlast := h c rest rfl
    rw [extent_concat] at hlast
    have hold : encode base (front ++ c :: rest) =
        (encode base front ++ c.pack) ++ (posBytes (base + extent front) ++
          encode (base + extent front + c.pack.length + 8) rest) := by
      rw [encode_append, encode]
      simp only [append_assoc]
    have hroom : lo + size ≤ (encode base front ++ c.pack).length := by
      rw [length_append, length_encode]
      omega
    rw [patched_cons, hold, append_assoc _ (posBytes _), slice_append_left hroom,
      slice_append_left hroom]

/-! ## One buffer -/

/-- The buffer holds `size` bytes from `lo` on, with the positions of `back` changed. -/
structure Chunk (base newBase lo size : ℕ) (front back : List LogBlock) (buffer : Bytes) :
    Prop where
  length : buffer.length = bufLen
  size_le : size ≤ bufLen
  fits : lo + size ≤ (encode base (front ++ back)).length
  contents : slice buffer 0 size = slice (patched base newBase front back) lo size

theorem chunk_refill (hbuffer : buffer.length = bufLen) (hsize : size ≤ bufLen)
    (hfits : lo + size ≤ extent (front ++ back))
    (hback : ∀ c rest, back = c :: rest → lo + size + 8 ≤ extent (front ++ [c])) :
    Chunk base newBase lo size front back
      (refill buffer (slice (encode base (front ++ back)) lo size)) := by
  have hcontents : (slice (encode base (front ++ back)) lo size).length = size := by
    rw [length_slice, length_encode]
    omega
  refine ⟨?_, hsize, by rwa [length_encode], ?_⟩
  · rw [length_refill (by omega), hbuffer]
  · rw [slice_refill (by omega), slice_patched_below hback, slice, drop_zero,
      take_of_length_le (by omega)]

theorem Chunk.bufferAt (h : Chunk base newBase lo size (front ++ [b]) back buffer)
    (hlow : lo ≤ extent front + b.pack.length)
    (hhigh : extent front + b.pack.length + 8 ≤ lo + size)
    (hbase : base + extent front < 2 ^ 64) : bufferAt 8 buffer (extent front + b.pack.length - lo) =
      .ok (base + extent front) := by
  have hsize := h.size_le
  have hlength := h.length
  have hbuffer : slice buffer (extent front + b.pack.length - lo) 8 =
      slice (slice buffer 0 size) (extent front + b.pack.length - lo - 0) 8 :=
    (slice_slice (Nat.zero_le _) (by omega)).symm
  have hfield : slice (patched base newBase (front ++ [b]) back)
      (extent front + b.pack.length) 8 = posBytes (base + extent front) := by
    rw [patched_concat]
    refine slice_append_mid (length_posBytes _).symm ?_
    rw [length_append, length_encode]
  rw [BlockLog.bufferAt, readAt, if_pos (by omega), hbuffer, h.contents, Nat.sub_zero,
    slice_slice hlow hhigh, hfield]
  exact congrArg Except.ok (ofLeBytes_posBytes hbase)

theorem Chunk.writeAt (h : Chunk base newBase lo size (front ++ [b]) back buffer)
    (hlow : lo ≤ extent front + b.pack.length)
    (hhigh : extent front + b.pack.length + 8 ≤ lo + size) :
    Chunk base newBase lo size front (b :: back)
      (writeAt 0 buffer (extent front + b.pack.length - lo)
        (posBytes (newBase + extent front))) := by
  have hsize := h.size_le
  have hlength := h.length
  have hfits := h.fits
  have hbuffer : slice (Foundation.writeAt 0 buffer
      (extent front + b.pack.length - lo)
      (posBytes (newBase + extent front))) 0 size = Foundation.writeAt 0 (slice buffer 0 size)
          (extent front + b.pack.length - lo - 0)
          (posBytes (newBase + extent front)) :=
    slice_writeAt (Nat.zero_le _) (by rw [length_posBytes]; omega) (by omega)
  refine ⟨?_, hsize, ?_, ?_⟩
  · rw [length_writeAt (by rw [length_posBytes]; omega), hlength]
  · rwa [append_assoc, singleton_append] at hfits
  · rw [hbuffer, h.contents, Nat.sub_zero, ← slice_writeAt hlow
      (by rw [length_posBytes]; omega) (by rwa [length_patched, ← length_encode base]),
      writeAt_patched]

theorem Chunk.done (h : Chunk base newBase lo size front back buffer) (hfront : extent front ≤ lo) :
    buffer.take size = slice (encode newBase (front ++ back)) lo size := by
  have hslice : buffer.take size = slice buffer 0 size := by
    rw [slice, drop_zero]
  rw [hslice, h.contents, slice_patched hfront]

/-! ## The loops -/

theorem u64_sub_posDelta {pos : ℕ} (hpos : newBase + pos < 2 ^ 64) :
    u64 (base + pos + (2 ^ 64 - u64 (base + (2 ^ 64 - newBase)))) = newBase + pos := by
  unfold u64
  omega

/-- What is subtracted turns positions of one file into those of the other. -/
def Rebases (base newBase posDelta : ℕ) : Prop :=
  ∀ pos, base + pos < 2 ^ 63 → u64 (base + pos + (2 ^ 64 - posDelta)) = newBase + pos

/-- **The positions in one buffer.**  The walk goes back through `mid` and stops at the last
position below the buffer. -/
theorem adjustPositions_eq {posDelta : ℕ} (hdelta : Rebases base newBase posDelta)
    (hbase : 8 ≤ base) (hsize : base + extent (front ++ mid) < 2 ^ 63)
    (hfront : extent front < lo + 8)
    (hmid : ∀ c rest, mid = c :: rest → lo + 8 ≤ extent (front ++ [c]))
    (hend : extent (front ++ mid) ≤ lo + size) {rounds : ℕ} (hrounds : mid.length < rounds)
    (h : Chunk base newBase lo size (front ++ mid) back buffer) :
    ∃ buffer', Chunk base newBase lo size front (mid ++ back) buffer' ∧
      ∀ index, adjustPositions (base + lo) posDelta rounds
          (base + extent (front ++ mid) - 8) buffer index = (do
          let index ← (positions (newBase + extent front) mid).reverse.foldlM
            IndexWriter.write index
          pure (base + extent front - 8, buffer', index)) := by
  induction mid using reverseRecOn generalizing back buffer rounds with
  | nil =>
    rw [append_nil] at h ⊢
    refine ⟨buffer, h, fun index => ?_⟩
    cases rounds with
    | zero => cases hrounds
    | succ rounds =>
      rw [adjustPositions, if_pos (by omega), positions, reverse_nil, foldlM_nil]
      rfl
  | append_singleton mid b ih =>
    rw [← append_assoc] at h hsize hend ⊢
    rw [extent_concat] at hsize hend ⊢
    have hlow : lo ≤ extent (front ++ mid) + b.pack.length := by
      cases mid with
      | nil =>
        have hfirst := hmid b [] rfl
        rw [extent_concat] at hfirst
        rw [append_nil]
        omega
      | cons c rest =>
        have hfirst := hmid c (rest ++ [b]) rfl
        rw [extent_concat] at hfirst
        rw [extent_append, extent_cons]
        omega
    rw [length_append, length_singleton] at hrounds
    cases rounds with
    | zero => omega
    | succ rounds =>
      obtain ⟨buffer', hdone, hrun⟩ := ih (by omega)
        (fun c rest hc => hmid c (rest ++ [b]) (by rw [hc]; rfl)) (by omega)
        (Nat.lt_of_succ_lt_succ hrounds) (h.writeAt hlow hend)
      refine ⟨buffer', by rwa [append_assoc, singleton_append], fun index => ?_⟩
      have hoffset : base + (extent (front ++ mid) + b.pack.length + 8) - 8 -
          (base + lo) = extent (front ++ mid) + b.pack.length - lo := by omega
      have hback : u64 (base + extent (front ++ mid) + (2 ^ 64 - 8)) =
          base + extent (front ++ mid) - 8 := by
        unfold u64
        omega
      have hlast : (positions (newBase + extent front) (mid ++ [b])).reverse =
          (newBase + extent (front ++ mid)) ::
            (positions (newBase + extent front) mid).reverse := by
        rw [positions_append, positions, positions, reverse_append, reverse_singleton,
          singleton_append, extent_append, Nat.add_assoc]
      have hstay : ¬ base + (extent (front ++ mid) + b.pack.length + 8) - 8 < base + lo := by omega
      rw [adjustPositions, if_neg hstay, hoffset, h.bufferAt hlow hend (by omega), ok_bind,
        hdelta _ (by omega)]
      simp only [hback, hlast, foldlM_cons, bind_assoc, hrun]

end

/-! ## No position across a border -/

/-- The bytes after each position do not end within the last eight bytes of a buffer: counted
from the end of the file, no position lies across the border of two buffers. -/
def Unsplit (kept : List LogBlock) : Prop :=
  ∀ (front : List LogBlock) (b : LogBlock) (back : List LogBlock), kept = front ++ b :: back →
    (encode 0 back).length % bufLen + 8 ≤ bufLen

section

variable {base lo : ℕ} {front back mid kept : List LogBlock}

theorem exists_border (lo : ℕ) (front : List LogBlock) :
    ∃ front' mid, front = front' ++ mid ∧ extent front' < lo + 8 ∧
      ∀ c rest, mid = c :: rest → lo + 8 ≤ extent (front' ++ [c]) := by
  induction front using reverseRecOn with
  | nil => exact ⟨[], [], rfl, Nat.succ_pos _, nofun⟩
  | append_singleton front b ih =>
    by_cases hbelow : extent (front ++ [b]) < lo + 8
    · exact ⟨front ++ [b], [], (append_nil _).symm, hbelow, nofun⟩
    · obtain ⟨front', mid, rfl, hfront, hmid⟩ := ih
      refine ⟨front', mid ++ [b], (append_assoc ..), hfront, ?_⟩
      intro c rest hrest
      cases mid with
      | nil =>
        rw [append_nil] at hbelow
        cases hrest
        omega
      | cons c' rest' =>
        cases hrest
        exact hmid c rest' rfl

theorem unsplit_of_le (h : extent kept ≤ bufLen) : Unsplit kept := by
  rintro front b back rfl
  have hpack := length_pack b
  rw [extent_append, extent_cons] at h
  rw [length_encode, Nat.mod_eq_of_lt (by omega)]
  omega

theorem Unsplit.le_border (h : Unsplit (front ++ back))
    (hborder : lo = 0 ∨ bufLen ∣ extent (front ++ back) - lo)
    (hlo : lo ≤ extent (front ++ back)) (hbelow : extent front < lo + 8) : extent front ≤ lo := by
  rcases eq_nil_or_concat front with rfl | ⟨before, b, rfl⟩
  · exact Nat.zero_le _
  · rw [concat_eq_append] at *
    have hpack := length_pack b
    have hconcat := extent_concat before b
    rcases hborder with rfl | ⟨k, hk⟩
    · omega
    · have hback := h before b back (by rw [append_assoc]; rfl)
      have hlen := bufLen_eq
      rw [extent_append] at hk hlo
      rw [length_encode, hlen] at hback
      rw [hlen] at hk
      omega

end

/-! ## Copying -/

/-- The new file: the header, and the blocks from `remaining` on. -/
def Copied (header : Bytes) (blocks : Bytes) (remaining : ℕ) (newFile : Bytes) : Prop :=
  newFile = header ∧ remaining = blocks.length ∨
    newFile = header ++ replicate remaining 0 ++ blocks.drop remaining

theorem Copied.writeAt {header blocks newFile : Bytes} {remaining size : ℕ}
    (h : Copied header blocks remaining newFile) (hsize : size ≤ remaining)
    (hle : remaining ≤ blocks.length) :
    Copied header blocks (remaining - size) (writeAt 0 newFile (header.length + remaining - size)
      (slice blocks (remaining - size) size)) := by
  have hlength : (slice blocks (remaining - size) size).length = size := by
    rw [length_slice]
    omega
  have hjoin := slice_append_drop blocks (remaining - size) size
  rw [Nat.sub_add_cancel hsize] at hjoin
  have hpos : header.length + remaining - size - header.length = remaining - size := by omega
  right
  rcases h with ⟨rfl, rfl⟩ | rfl
  · rw [drop_length, append_nil] at hjoin
    rw [writeAt_beyond (by omega), hpos, hjoin]
  · have hzeros : replicate remaining (0 : UInt8) =
        replicate (remaining - size) 0 ++ replicate size 0 := by
      rw [replicate_append_replicate, Nat.sub_add_cancel hsize]
    rw [hzeros, ← append_assoc, writeAt_append_mid (by rw [hlength, length_replicate])
      (by rw [length_append, length_replicate]; omega), append_assoc _ (slice _ _ _),
      hjoin]

section

variable {before header : Bytes} {base newBase posDelta remaining size : ℕ}
  {front mid back kept : List LogBlock} {buffer : Bytes}

variable (hbefore : before.length = base)
include hbefore

/-- **One buffer is copied**: the positions in it go into the index, from the last to the
first. -/
theorem copyBlocks_step (hbase : 8 ≤ base) (hlength : base + extent (front ++ mid ++ back) < 2 ^ 63)
    (hdelta : Rebases base newBase posDelta)
    (hpos : remaining ≠ 0) (hsize : min remaining bufLen = size)
    (hle : remaining ≤ extent (front ++ mid ++ back)) (hend : extent (front ++ mid) ≤ remaining)
    (hfront : extent front < remaining - size + 8)
    (hmid : ∀ c rest, mid = c :: rest → remaining - size + 8 ≤ extent (front ++ [c]))
    (hback : ∀ c rest, back = c :: rest → remaining + 8 ≤ extent (front ++ mid ++ [c]))
    (hbuffer : buffer.length = bufLen) :
    ∃ buffer', Chunk base newBase (remaining - size) size front (mid ++ back) buffer' ∧
      ∀ rounds newFile index,
        copyBlocks (before ++ encode base (front ++ mid ++ back)) base newBase posDelta
            (rounds + 1) remaining (base + extent (front ++ mid) - 8) buffer newFile
            index = (do
            let index ← (positions (newBase + extent front) mid).reverse.foldlM
              IndexWriter.write index
            copyBlocks (before ++ encode base (front ++ mid ++ back)) base newBase posDelta rounds
              (remaining - size) (base + extent front - 8) buffer'
              (writeAt 0 newFile (newBase + remaining - size) (buffer'.take size)) index) := by
  have hjoin : remaining - size + size = remaining := by omega
  have hstart : base + remaining - size = base + (remaining - size) := by omega
  have hread : readAt (before ++ encode base (front ++ mid ++ back)) (base + (remaining - size))
      size = some (slice (encode base (front ++ mid ++ back)) (remaining - size) size) := by
    rw [readAt, if_pos (by rw [length_append_encode]; omega), slice_append_right (by omega),
      hbefore, Nat.add_sub_cancel_left]
  have hcount : mid.length < size + 1 := by
    cases mid with
    | nil => exact Nat.succ_pos _
    | cons c rest =>
      have hfirst := hmid c rest rfl
      have hrest := length_le_extent rest
      rw [extent_concat] at hfirst
      rw [extent_append, extent_cons] at hend
      rw [length_cons]
      omega
  have hsum := extent_append (front ++ mid) back
  have hchunk : Chunk base newBase (remaining - size) size (front ++ mid) back
      (refill buffer (slice (encode base (front ++ mid ++ back)) (remaining - size) size)) :=
    chunk_refill hbuffer (by omega) (by omega) (by rwa [hjoin])
  obtain ⟨buffer', hdone, hrun⟩ := adjustPositions_eq hdelta hbase (by omega) hfront hmid
    (by omega) hcount hchunk
  refine ⟨buffer', hdone, fun rounds newFile index => ?_⟩
  rw [copyBlocks, if_neg hpos]
  simp only [hsize, hstart, hread, hrun, bind_assoc, pure_bind]

/-- **Copying back from the end.** -/
theorem copyBlocks_eq (hbase : 8 ≤ base) (hlength : base + extent kept < 2 ^ 63)
    (hdelta : Rebases base header.length posDelta)
    (hunsplit : Unsplit kept) {rounds : ℕ} (hrounds : remaining < rounds)
    (hkept : kept = front ++ back) (hle : remaining ≤ extent kept)
    (hborder : remaining = 0 ∨ bufLen ∣ extent kept - remaining) (hfront : extent front ≤ remaining)
    (hback : ∀ c rest, back = c :: rest → remaining + 8 ≤ extent (front ++ [c]))
    (hbuffer : buffer.length = bufLen) {newFile : Bytes}
    (hcopied : Copied header (encode header.length kept) remaining newFile) (index : IndexWriter) :
    copyBlocks (before ++ encode base kept) base header.length posDelta rounds remaining
        (base + extent front - 8) buffer newFile index = (do
        let index ← (positions header.length front).reverse.foldlM IndexWriter.write index
        pure (header ++ encode header.length kept, index)) := by
  induction rounds generalizing remaining front back buffer newFile index with
  | zero => cases hrounds
  | succ rounds ih =>
    by_cases hzero : remaining = 0
    · -- all positions are behind
      subst hzero
      have hnil : front = [] := by
        have hcount := length_le_extent front
        exact length_eq_zero_iff.mp (by omega)
      have hnew : newFile = header ++ encode header.length kept := by
        rcases hcopied with ⟨rfl, hempty⟩ | rfl
        · rw [length_eq_zero_iff.mp hempty.symm, append_nil]
        · rw [replicate_zero, append_nil, drop_zero]
      rw [copyBlocks, if_pos rfl, hnil, hnew, positions, reverse_nil, foldlM_nil]
      rfl
    · generalize hsize : min remaining bufLen = size
      have hlen := bufLen_eq
      obtain ⟨front, mid, rfl, hbelow, hmid⟩ := exists_border (remaining - size) front
      subst hkept
      obtain ⟨buffer', hdone, hrun⟩ := copyBlocks_step hbefore hbase hlength hdelta hzero hsize
        hle hfront hbelow hmid hback hbuffer
      rw [append_assoc front mid back] at *
      have hnextBorder : remaining - size = 0 ∨
          bufLen ∣ extent (front ++ (mid ++ back)) - (remaining - size) := by
        rcases Nat.lt_or_ge bufLen remaining with hlarge | hsmall
        · have hstep : extent (front ++ (mid ++ back)) - (remaining - size) =
              extent (front ++ (mid ++ back)) - remaining + bufLen := by omega
          rw [hstep]
          exact .inr (Nat.dvd_add (hborder.resolve_left hzero) (dvd_refl _))
        · exact .inl (by omega)
      have hnextBack : ∀ c rest, mid ++ back = c :: rest →
          remaining - size + 8 ≤ extent (front ++ [c]) := by
        intro c rest hrest
        cases mid with
        | nil =>
          have hfirst := hback c rest hrest
          rw [append_nil] at hfirst
          omega
        | cons c' rest' =>
          cases hrest
          exact hmid c rest' rfl
      have hnextFront : extent front ≤ remaining - size :=
        hunsplit.le_border hnextBorder (by omega) hbelow
      have hnextCopied := hcopied.writeAt (show size ≤ remaining by omega)
        (by rwa [length_encode])
      rw [← hdone.done hnextFront] at hnextCopied
      rw [hrun, positions_append, reverse_append, foldlM_append, bind_assoc]
      congr 1
      funext index'
      exact ih (by omega) rfl (by omega) hnextBorder hnextFront hnextBack hdone.length
        hnextCopied index'

theorem copyBlocks_all (hbase : 8 ≤ base) (hlength : (before ++ encode base kept).length < 2 ^ 63)
    (hheader : header.length < 2 ^ 63) (hunsplit : Unsplit kept) (index : IndexWriter) :
    copyBlocks (before ++ encode base kept) base header.length
        (u64 (base + (2 ^ 64 - header.length))) (extent kept + 1)
        (extent kept) (base + extent kept - 8)
        (replicate bufLen 0) header index = (do
        let index ← (positions header.length kept).reverse.foldlM IndexWriter.write index
        pure (header ++ encode header.length kept, index)) := by
  rw [length_append_encode, hbefore] at hlength
  refine copyBlocks_eq hbefore hbase hlength ?_ hunsplit (Nat.lt_succ_self _)
    (append_nil _).symm (le_refl _) ?_ (le_refl _) ?_ (length_replicate ..) ?_ index
  · exact fun pos hpos => u64_sub_posDelta (by omega)
  · rw [Nat.sub_self]
    exact .inr (Dvd.intro 0 rfl)
  · exact fun _ _ hnil => by cases hnil
  · exact .inl ⟨rfl, (length_encode ..).symm⟩

omit hbefore

theorem copyBlocks_beyond {blockFile newFile : Bytes} {originalPos rounds : ℕ}
    {index : IndexWriter} (hpos : remaining ≠ 0) (hsize : min remaining bufLen = size)
    (hbuffer : buffer.length = size) (hfile : base + remaining ≤ blockFile.length)
    (hinside : base + remaining - size ≤ originalPos)
    (hbeyond : base + remaining < originalPos + 8) (r : Bytes × IndexWriter) :
    copyBlocks blockFile base newBase posDelta (rounds + 1) remaining originalPos buffer newFile
      index ≠ .ok r := by
  have hle : size ≤ remaining := by omega
  have hread : readAt blockFile (base + remaining - size) size =
      some (slice blockFile (base + remaining - size) size) := by
    rw [readAt, if_pos (by omega)]
  have hlength : (refill buffer (slice blockFile (base + remaining - size) size)).length =
      size := by
    rw [length_refill (by rw [length_slice]; omega), hbuffer]
  have hfault : bufferAt 8
      (refill buffer (slice blockFile (base + remaining - size) size))
      (originalPos - (base + remaining - size)) =
        .error ⟨.undefinedBehaviour, "read beyond the end of a buffer"⟩ := by
    rw [bufferAt, readAt, if_neg (by omega)]
  intro hok
  rw [copyBlocks, if_neg hpos] at hok
  simp only [hsize, hread, adjustPositions, if_neg (Nat.not_lt.mpr hinside), hfault] at hok
  cases hok

include hbefore

/-- **A position across a border is not copied**: it lies across the end of the second
buffer, and is read beyond it. -/
theorem copyBlocks_split_fails (hbase : 8 ≤ base) (hlength : base + extent (front ++ back) < 2 ^ 63)
    (hdelta : Rebases base newBase posDelta) (hlower : extent back < bufLen)
    (hupper : bufLen < extent back + 8)
    (hfull : 2 * bufLen ≤ extent (front ++ back)) (hbuffer : buffer.length = bufLen)
    (rounds : ℕ) (newFile : Bytes) (index : IndexWriter) (r : Bytes × IndexWriter) :
    copyBlocks (before ++ encode base (front ++ back)) base newBase posDelta (rounds + 2)
      (extent (front ++ back)) (base + extent (front ++ back) - 8)
      buffer newFile index ≠ .ok r := by
  have hlen : 8 ≤ bufLen := by decide
  have hsum := extent_append front back
  generalize hremaining : extent (front ++ back) = remaining at *
  have hfile : front ++ back ++ [] = front ++ back := append_nil _
  have hmid : ∀ c rest, back = c :: rest → remaining - bufLen + 8 ≤ extent (front ++ [c]) := by
    intro c rest _
    rw [extent_concat]
    omega
  obtain ⟨buffer', hchunk, hrun⟩ := copyBlocks_step hbefore hbase (by rwa [hfile, hremaining])
    hdelta (by omega) (show min remaining bufLen = bufLen by omega) (by rw [hfile, hremaining])
    (by rw [hremaining]) (by omega) hmid (fun _ _ hnil => by cases hnil) hbuffer
  rw [hfile, hremaining] at hrun
  intro hok
  rw [hrun, bind_eq_ok] at hok
  obtain ⟨index', -, hok⟩ := hok
  -- the second buffer is full, and the position begins in its last eight bytes
  refine copyBlocks_beyond (by omega) (show min (remaining - bufLen) bufLen = bufLen by omega)
    hchunk.length ?_ (by omega) (by omega) r hok
  rw [length_append_encode]
  omega

end

/-! ## Reading the log that is cut -/

variable {γ : Type} {codec : GenesisCodec γ} {h : Header γ} {bytes : Bytes}
  {blocks : List LogBlock}

def Context.chainIdOf (codec : GenesisCodec γ) : Context γ → Digest
  | .genesisState gs => codec.computeChainId gs
  | .chainId id => id

theorem readChainId_eq {version first : ℕ} {context : Context γ} {bs : Bytes}
    (hcontext : containsGenesisState version first ↔ ∃ gs, context = .genesisState gs)
    (hfirst : 1 ≤ first) (hbs : context.pack codec = some bs) (rest : Bytes) :
    TrimData.readChainId codec version first (bs ++ rest) =
      .ok (context.chainIdOf codec, rest) := by
  unfold TrimData.readChainId
  cases context with
  | genesisState gs =>
    have hread : codec.format.read (bs ++ rest) = some (gs, rest) := codec.format.read_pack hbs rest
    simp only [hcontext.mpr ⟨gs, rfl⟩, if_true, hread]
    rfl
  | chainId id =>
    have hnot : ¬ containsGenesisState version first := fun hcontains => by
      obtain ⟨gs, hgs⟩ := hcontext.mp hcontains
      cases hgs
    have hid : containsChainId version first := by
      unfold containsGenesisState at hnot
      unfold containsChainId
      rw [decide_eq_true_eq] at hnot ⊢
      omega
    cases hbs
    have htake : Reader.take (leBytes 32 id.toNat).length (leBytes 32 id.toNat ++ rest) =
        some (leBytes 32 id.toNat, rest) := Reader.take_append
    rw [length_leBytes] at htake
    simp only [if_neg hnot, if_pos hid, htake]
    rw [ofLeBytes_leBytes (by exact id.isLt), BitVec.ofNat_toNat, BitVec.setWidth_eq]
    rfl

theorem readHeader_eq (hform : WellFormed h blocks) (hpack : h.pack codec = some bytes)
    (rest : Bytes) : TrimData.readHeader codec h.version (bytes ++ rest) =
      .ok (h.firstBlockNum, h.context.chainIdOf codec, rest) := by
  unfold Header.pack at hpack
  obtain ⟨context, hcontext, hpack⟩ := Option.bind_eq_some_iff.mp hpack
  unfold TrimData.readHeader
  by_cases hversion : h.version = 1
  · rw [if_pos hversion] at hpack
    cases hpack
    have hfirst := hform.first_eq hversion
    have hgenesis := hform.context
    rw [hversion, hfirst] at hgenesis
    have hdrop : (leBytes 4 h.version ++ context ++ rest).drop 4 = context ++ rest := by
      rw [append_assoc]
      exact drop_left' (length_leBytes 4 _)
    rw [if_pos hversion, hdrop, readChainId_eq hgenesis (le_refl 1) hcontext, hfirst]
    rfl
  · rw [if_neg hversion] at hpack
    cases hpack
    have hdrop : (leBytes 4 h.version ++ leBytes 4 h.firstBlockNum ++ context ++
        posBytes npos ++ rest).drop 8 = context ++ (posBytes npos ++ rest) := by
      simp only [← append_assoc]
      rw [append_assoc _ context, append_assoc _ (context ++ _)]
      refine (drop_left' ?_).trans (by simp only [append_assoc])
      simp only [length_append, length_leBytes]
    have hnum : ∀ e, fileAt 4 (leBytes 4 h.version ++ leBytes 4 h.firstBlockNum ++ context ++
        posBytes npos ++ rest) 4 e = .ok h.firstBlockNum := by
      intro e
      rw [append_assoc (_ ++ context), append_assoc _ context,
        fileAt_append_mid e (length_leBytes 4 _).symm (length_leBytes 4 _).symm,
        ofLeBytes_leBytes (by simpa using hform.first_lt)]
    have htotem : TrimData.readTotem (posBytes npos ++ rest) = .ok rest := by
      simp only [TrimData.readTotem, fileAt_totem, ok_bind, ineAssert, ensure_pos,
        drop_left' (length_posBytes npos)]
      rfl
    simp only [if_neg hversion, hnum, ok_bind, hdrop,
      readChainId_eq hform.context hform.first_pos hcontext, htotem]
    rfl

variable {front : List LogBlock}

theorem blockPos_eq (hform : WellFormed h blocks)
    (hsize : (bytes ++ encode bytes.length blocks).length < 2 ^ 63) {d : TrimData}
    (hfirst : d.firstBlock = h.firstBlockNum)
    (hlast : d.lastBlock + 1 = h.firstBlockNum + blocks.length) {back : List LogBlock}
    {b : LogBlock} (hblocks : blocks = front ++ b :: back) (tell : ℕ) :
    d.blockPos ⟨bytes ++ encode bytes.length blocks, indexBytes (positions bytes.length blocks)⟩
        tell (h.firstBlockNum + front.length) = .ok (bytes.length + extent front) := by
  have hpositive := hform.first_pos
  have hnums := hform.nums_lt
  have hnum : b.blockNum = h.firstBlockNum + front.length :=
    Numbered.tail (hblocks ▸ hform.numbered) 0 b rfl
  have hcount : blocks.length = front.length + 1 + back.length := by
    rw [hblocks, length_append, length_cons]
    omega
  have hmore : h.firstBlockNum + front.length ≠ u32 (d.lastBlock + 1) := by
    unfold u32
    omega
  have hindex : d.blockIndex (h.firstBlockNum + front.length) = .ok (8 * front.length) := by
    simp only [TrimData.blockIndex, ineAssert, hfirst,
      ensure_pos (show h.firstBlockNum ≤ h.firstBlockNum + front.length by omega),
      ensure_pos (show h.firstBlockNum + front.length ≤ d.lastBlock by omega), ok_bind,
      Nat.add_sub_cancel_left]
    rfl
  have hpos : ∀ e, fileAt 8 (indexBytes (positions bytes.length blocks)) (8 * front.length) e =
      .ok (bytes.length + extent front) := by
    intro e
    rw [hblocks, length_append_encode, extent_append] at hsize
    rw [hblocks, fileAt_index bytes.length front b back (by omega)]
  have hprior : ∀ e, fileAt 4 (bytes ++ encode bytes.length blocks)
      (u64 (bytes.length + extent front + blknumOffset)) e =
        .ok (ofLeBytes (leBytes 4 b.previous.toNat)) := by
    intro e
    have hpack := length_pack b
    rw [hblocks, length_append_encode, extent_append, extent_cons] at hsize
    have hroom : bytes.length + extent front + blknumOffset + 4 ≤
        (bytes ++ encode bytes.length (front ++ b :: back)).length := by
      rw [length_append_encode, extent_append, extent_cons, blknumOffset]
      omega
    rw [hblocks, u64_of_lt (by rw [blknumOffset]; omega), fileAt, readAt, if_pos hroom,
      file_at_block, slice_previousNum _ _ b (length_append_encode ..).symm]
    rfl
  simp only [TrimData.blockPos, if_neg hmore, hindex, hpos, hprior, blockNumOf_previous, hnum,
    ok_bind, ineAssert, ensure_pos]
  rfl

theorem ofFiles_eq (hform : WellFormed h blocks) (hpack : h.pack codec = some bytes)
    (hsize : (bytes ++ encode bytes.length blocks).length < 2 ^ 63) (hne : blocks ≠ []) :
    ∃ lastBlock, lastBlock + 1 = h.firstBlockNum + blocks.length ∧ TrimData.ofFiles codec
          ⟨bytes ++ encode bytes.length blocks, indexBytes (positions bytes.length blocks)⟩ =
        .ok ⟨h.version, h.firstBlockNum, lastBlock, h.context.chainIdOf codec⟩ := by
  have hpositive := hform.first_pos
  have hnums := hform.nums_lt
  have hversion := fileAt_version (headerBytes_of_pack hpack) hform.version
    (encode bytes.length blocks)
  have hcount : (indexBytes (positions bytes.length blocks)).length / 8 = blocks.length := by
    rw [length_indexBytes, length_positions, Nat.mul_div_cancel_left _ (by decide)]
  have hlast : u32Sub (u32 (h.firstBlockNum + blocks.length)) 1 =
      h.firstBlockNum + blocks.length - 1 := by
    have hpos := length_pos_iff.mpr hne
    unfold u32Sub u32
    omega
  have hstart : (bytes ++ encode bytes.length blocks).length -
      (encode bytes.length blocks).length = bytes.length := by
    rw [length_append]
    omega
  obtain ⟨b, rest, hblocks⟩ := exists_cons_of_ne_nil hne
  refine ⟨h.firstBlockNum + blocks.length - 1, by omega, ?_⟩
  have hpos := blockPos_eq (d := ⟨h.version, h.firstBlockNum, h.firstBlockNum + blocks.length - 1,
    h.context.chainIdOf codec⟩) hform hsize rfl (by simp only; omega)
    (show blocks = [] ++ b :: rest from hblocks) bytes.length
  rw [length_nil, Nat.add_zero, show extent [] = 0 from rfl, Nat.add_zero] at hpos
  simp only [TrimData.ofFiles, hversion, ok_bind, ineAssert, ensure_pos hform.version,
    readHeader_eq hform hpack, hcount, hlast, hstart, hpos, ensure_pos]
  rfl

/-! ## Cutting off the front -/

def Header.trimmed (codec : GenesisCodec γ) (h : Header γ) (truncateAtBlock : ℕ) : Header γ :=
  ⟨maxSupportedVersion, truncateAtBlock, .chainId (h.context.chainIdOf codec)⟩

theorem pack_trimmed (n : ℕ) :
    (h.trimmed codec n).pack codec = some (trimmedHeader n (h.context.chainIdOf codec)) :=
  rfl

theorem length_trimmedHeader (n : ℕ) (chainId : Digest) :
    (trimmedHeader n chainId).length = 48 := by
  simp only [trimmedHeader, length_append, length_leBytes, length_posBytes]

theorem WellFormed.trimmed {kept : List LogBlock} (hform : WellFormed h (front ++ kept))
    (hfront : front ≠ []) (hkept : kept ≠ []) :
    WellFormed (h.trimmed codec (h.firstBlockNum + front.length)) kept := by
  have hpositive := hform.first_pos
  have hnums := hform.nums_lt
  have hcut := length_pos_iff.mpr hfront
  have hcount := length_pos_iff.mpr hkept
  rw [length_append] at hnums
  have hversion : isSupportedVersion maxSupportedVersion := by decide
  refine ⟨hversion, ?_, ?_, nofun, ?_, hform.numbered.tail, ?_, fun _ => hkept⟩
  · show 1 ≤ h.firstBlockNum + front.length
    omega
  · show h.firstBlockNum + front.length < 2 ^ 32
    omega
  · constructor
    · intro hcontains
      have hgenesis : 3 ≤ 2 ∨ h.firstBlockNum + front.length = 1 := of_decide_eq_true hcontains
      omega
    · rintro ⟨gs, hgs⟩
      cases hgs
  · show h.firstBlockNum + front.length + kept.length ≤ 2 ^ 32
    omega

theorem trimBlocklogFront_eq {kept : List LogBlock} (hform : WellFormed h (front ++ kept))
    (hpack : h.pack codec = some bytes)
    (hsize : (bytes ++ encode bytes.length (front ++ kept)).length < 2 ^ 63) (hfront : front ≠ [])
    (hkept : kept ≠ []) {base : ℕ} (hbase : base = bytes.length + extent front) {header : Bytes}
    (hheader : header = trimmedHeader (h.firstBlockNum + front.length)
      (h.context.chainIdOf codec)) :
    trimBlocklogFront codec ⟨bytes ++ encode bytes.length (front ++ kept),
        indexBytes (positions bytes.length (front ++ kept))⟩ (h.firstBlockNum + front.length) = (do
        let (blockFile, index) ← copyBlocks (bytes ++ encode bytes.length (front ++ kept)) base
          header.length (u64 (base + (2 ^ 64 - header.length)))
          (extent kept + 1) (extent kept)
          (base + extent kept - 8) (replicate bufLen 0) header
          { blocksExpected := kept.length }
        let indexFile ← index.complete
        pure (some ⟨blockFile, indexFile⟩)) := by
  have hpositive := hform.first_pos
  have hnums := hform.nums_lt
  have hcut := length_pos_iff.mpr hfront
  have hcount := length_pos_iff.mpr hkept
  obtain ⟨b, back, rfl⟩ := exists_cons_of_ne_nil hkept
  obtain ⟨lastBlock, hlast, hread⟩ := ofFiles_eq hform hpack hsize (by simp)
  have hpos := blockPos_eq (d := ⟨h.version, h.firstBlockNum, lastBlock,
    h.context.chainIdOf codec⟩) hform hsize rfl hlast rfl 0
  rw [length_append] at hnums hlast
  have hnumBlocks : u32 (u32Sub lastBlock (h.firstBlockNum + front.length) + 1) =
      (b :: back).length := by
    rw [u32Sub_of_le (by omega) (by omega), u32_of_lt (by omega)]
    omega
  have hlength : (bytes ++ encode bytes.length (front ++ b :: back)).length =
      base + extent (b :: back) := by
    rw [length_append_encode, extent_append, hbase, Nat.add_assoc]
  have hlow : ¬ h.firstBlockNum + front.length ≤ h.firstBlockNum := by omega
  have hhigh : ¬ lastBlock < h.firstBlockNum + front.length := by omega
  simp only [trimBlocklogFront, hread, ok_bind, if_neg hlow, if_neg hhigh, hpos, hnumBlocks,
    hlength, ← hbase, ← hheader, Nat.add_sub_cancel_left]

/-- **Cutting off the front keeps the other blocks.**  If no position of a block that stays
lies across the border of two buffers and an index can be written for them, the new files are
those that appending these blocks to the new header would have written. -/
theorem trim_blocklog_front_keeps_blocks (hform : WellFormed h blocks)
    (hpack : h.pack codec = some bytes) {files : Files}
    (hfiles : Files.appendAll h.firstBlockNum ⟨bytes, []⟩ blocks = .ok files)
    (hsize : files.blockFile.length < 2 ^ 63) {n : ℕ} (hlow : h.firstBlockNum < n)
    (hhigh : n < h.firstBlockNum + blocks.length)
    (hunsplit : Unsplit (blocks.drop (n - h.firstBlockNum)))
    (hcount : (blocks.drop (n - h.firstBlockNum)).length < 2 ^ 29) : ∃ header trimmedFiles,
      WellFormed (h.trimmed codec n) (blocks.drop (n - h.firstBlockNum)) ∧
      (h.trimmed codec n).pack codec = some header ∧
      Files.appendAll n ⟨header, []⟩ (blocks.drop (n - h.firstBlockNum)) = .ok trimmedFiles ∧
      trimBlocklogFront codec files n = .ok (some trimmedFiles) := by
  rw [appendAll_header bytes hform.numbered] at hfiles
  cases hfiles
  have hfront : (blocks.take (n - h.firstBlockNum)).length = n - h.firstBlockNum := by
    rw [length_take]
    omega
  have hkept : (blocks.drop (n - h.firstBlockNum)).length =
      blocks.length - (n - h.firstBlockNum) := length_drop
  have hsplit := (take_append_drop (n - h.firstBlockNum) blocks).symm
  generalize blocks.take (n - h.firstBlockNum) = front at hfront hsplit
  generalize blocks.drop (n - h.firstBlockNum) = kept at *
  subst hsplit
  have hn : n = h.firstBlockNum + front.length := by omega
  subst hn
  have hfrontNe : front ≠ [] := ne_nil_of_length_pos (by omega)
  have hkeptNe : kept ≠ [] := ne_nil_of_length_pos (by
    rw [length_append] at hhigh
    omega)
  have hnew : WellFormed (h.trimmed codec (h.firstBlockNum + front.length)) kept :=
    hform.trimmed hfrontNe hkeptNe
  refine ⟨_, _, hnew, pack_trimmed _, appendAll_header _ hnew.numbered, ?_⟩
  rw [trimBlocklogFront_eq hform hpack hsize hfrontNe hkeptNe rfl rfl]
  generalize hheader : trimmedHeader (h.firstBlockNum + front.length)
    (h.context.chainIdOf codec) = header
  have hlength : header.length = 48 := hheader ▸ length_trimmedHeader _ _
  generalize hbase : bytes.length + extent front = base
  have hfile : bytes ++ encode bytes.length (front ++ kept) =
      (bytes ++ encode bytes.length front) ++ encode base kept := by
    rw [encode_append, hbase, append_assoc]
  have hbytes := (headerBytes_of_pack hpack).le
  simp only [hfile] at hsize ⊢
  have hpositions := length_positions header.length kept
  have hindex := IndexWriter.foldlM_complete
    (show 0 < (positions header.length kept).length by
      rw [hpositions]
      exact length_pos_iff.mpr hkeptNe)
    (show (positions header.length kept).length < 2 ^ 29 by rwa [hpositions])
  rw [hpositions, bind_eq_ok] at hindex
  obtain ⟨index, hrun, hcomplete⟩ := hindex
  rw [copyBlocks_all (by rw [length_append_encode, hbase]) (by omega) hsize (by omega) hunsplit]
  simp only [hrun, ok_bind, pure_bind, hcomplete]
  rfl

/-! ### Logs of small blocks -/

/-- Two blocks are cut off a log of four. -/
theorem trim_blocklog_front_keeps_blocks_two : ∃ bytes files header trimmedFiles,
      laterHeader.pack timestampCodec = some bytes ∧
      Files.appendAll 2 ⟨bytes, []⟩ (plainBlocks emptyBody 4) = .ok files ∧
      Files.appendAll 4 ⟨header, []⟩ ((plainBlocks emptyBody 4).drop 2) = .ok trimmedFiles ∧
      trimBlocklogFront timestampCodec files 4 = .ok (some trimmedFiles) := by
  obtain ⟨hform, bytes, hpack, hfiles, hsize⟩ :=
    plainBlocks_appended 4 length_emptyBody (by decide) (by decide)
  have hunsplit : Unsplit ((plainBlocks emptyBody 4).drop 2) := by
    apply unsplit_of_le
    have hrests : ∀ b ∈ (plainBlocks emptyBody 4).drop 2, b.rest = emptyBody :=
      fun b hb => rest_of_mem_plainBlocks (mem_of_mem_drop hb)
    rw [extent_of_rest hrests, length_emptyBody, length_drop, length_plainBlocks]
    decide
  obtain ⟨header, trimmedFiles, -, -, hnew, htrim⟩ := trim_blocklog_front_keeps_blocks hform hpack
    hfiles hsize (n := 4) (by decide) (by decide) hunsplit (by decide)
  exact ⟨bytes, _, header, trimmedFiles, hpack, hfiles, hnew, htrim⟩

/-- The body of a block with one empty extension. -/
def extendedBody : Bytes := replicate 137 0 ++ [1, 0, 0, 0]

/-- In a log of blocks of 187 bytes, the position 86037 blocks before the end lies across the
border of the last two buffers.  The write beyond the buffer has no defined result; on a plain heap
the trimmed log can still be right. -/
theorem split_position_not_trimmed : WellFormed laterHeader (plainBlocks extendedBody 172076) ∧
    ∃ bytes files, laterHeader.pack timestampCodec = some bytes ∧
      Files.appendAll 2 ⟨bytes, []⟩ (plainBlocks extendedBody 172076) = .ok files ∧
      files.blockFile.length < 2 ^ 63 ∧ ∀ r, trimBlocklogFront timestampCodec files 3 ≠ .ok r := by
  have hbody : extendedBody.length = 141 := rfl
  obtain ⟨hform, bytes, hpack, hfiles, hsize⟩ :=
    plainBlocks_appended 172076 hbody (by decide) (by decide)
  refine ⟨hform, bytes, _, hpack, hfiles, hsize, ?_⟩
  have hcount := length_plainBlocks extendedBody 172076
  have hbodies : ∀ b ∈ plainBlocks extendedBody 172076, b.rest = extendedBody :=
    fun b hb => rest_of_mem_plainBlocks hb
  generalize plainBlocks extendedBody 172076 = blocks at *
  -- the block that is cut off, and the blocks before and after the border
  obtain ⟨cut, front, back, hblocks, hcut, hback⟩ : ∃ cut front back : List LogBlock,
      blocks = cut ++ (front ++ back) ∧ cut.length = 1 ∧ back.length = 86037 := by
    refine ⟨blocks.take 1, (blocks.drop 1).take 86038, (blocks.drop 1).drop 86038, ?_, ?_, ?_⟩
    · rw [take_append_drop, take_append_drop]
    · rw [length_take, hcount]
      rfl
    · rw [length_drop, length_drop, hcount]
  subst hblocks
  have hrests := (forall_mem_append.mp hbodies).2
  have hall := extent_of_rest hrests
  have hlast := extent_of_rest (forall_mem_append.mp hrests).2
  have hkept : (front ++ back).length = 172075 := by
    rw [length_append, hcut] at hcount
    omega
  rw [hbody, hkept] at hall
  rw [hbody, hback] at hlast
  have hlen := bufLen_eq
  intro r hok
  rw [show (3 : ℕ) = laterHeader.firstBlockNum + cut.length by rw [hcut]; rfl,
    trimBlocklogFront_eq hform hpack hsize (ne_nil_of_length_pos (by omega))
      (ne_nil_of_length_pos (by omega)) rfl rfl, bind_eq_ok] at hok
  obtain ⟨copied, hcopy, -⟩ := hok
  have hfile : bytes ++ encode bytes.length (cut ++ (front ++ back)) =
      (bytes ++ encode bytes.length cut) ++ encode (bytes.length + extent cut) (front ++ back) := by
    rw [encode_append, append_assoc]
  have hbefore := length_append_encode bytes bytes.length cut
  have hheader := (headerBytes_of_pack hpack).le
  have hbase : 8 ≤ bytes.length + extent cut := by omega
  rw [hfile, length_append_encode, hbefore] at hsize
  rw [hfile, length_trimmedHeader] at hcopy
  generalize bytes.length + extent cut = base at *
  have hdelta : Rebases base 48 (u64 (base + (2 ^ 64 - 48))) :=
    fun pos hpos => u64_sub_posDelta (by omega)
  obtain ⟨rounds, hrounds⟩ : ∃ rounds, extent (front ++ back) + 1 = rounds + 2 :=
    ⟨extent (front ++ back) - 1, by omega⟩
  rw [hrounds] at hcopy
  exact copyBlocks_split_fails hbefore hbase hsize hdelta (by omega) (by omega) (by omega)
    (length_replicate ..) rounds _ _ copied hcopy

end BlockLog

end Inery.Chain
