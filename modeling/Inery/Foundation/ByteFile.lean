import Mathlib.Data.List.TakeDrop

/-!
# Files and buffers by position

A file is read and written at positions, and parts of it are kept in buffers.  A part is a
slice.  Writing into a buffer that holds a slice gives the same slice of the file written to,
if all of what is written lies in the slice.
-/

namespace Inery.Foundation

open List

variable {α : Type}

/-- `len` elements from `pos` on, or what there is of them. -/
def slice (file : List α) (pos len : ℕ) : List α := (file.drop pos).take len

/-- Read exactly `len` elements at a position. -/
def readAt (file : List α) (pos len : ℕ) : Option (List α) :=
  if pos + len ≤ file.length then some (slice file pos len) else none

/-- Write at a position; what lies between the end of the file and the position is filled. -/
def writeAt (fill : α) (file : List α) (pos : ℕ) (data : List α) : List α :=
  (file.take pos ++ replicate (pos - file.length) fill) ++ data ++ file.drop (pos + data.length)

/-- Read new contents into the start of a buffer; the rest of the buffer stays. -/
def refill (buffer contents : List α) : List α := contents ++ buffer.drop contents.length

variable {file a b c data : List α} {pos len start n : ℕ} {fill : α}

theorem getElem?_slice (file : List α) (pos len i : ℕ) :
    (slice file pos len)[i]? = if i < len then file[pos + i]? else none := by
  rw [slice, getElem?_take, getElem?_drop]

theorem length_slice : (slice file pos len).length = min len (file.length - pos) := by
  rw [slice, length_take, length_drop]

theorem slice_append_mid (hlen : len = b.length) (hpos : pos = a.length) :
    slice (a ++ b ++ c) pos len = b := by
  subst hlen hpos
  rw [slice, append_assoc, drop_left, take_left]

theorem readAt_append_mid (hlen : len = b.length) (hpos : pos = a.length) :
    readAt (a ++ b ++ c) pos len = some b := by
  rw [readAt, if_pos, slice_append_mid hlen hpos]
  simp only [length_append]
  omega

theorem slice_slice (hlow : start ≤ pos) (hhigh : pos + len ≤ start + n) :
    slice (slice file start n) (pos - start) len = slice file pos len := by
  apply ext_getElem?
  intro i
  simp only [getElem?_slice]
  split
  · rw [if_pos (by omega), show start + (pos - start + i) = pos + i by omega]
  · rfl

theorem slice_append_right (h : a.length ≤ pos) :
    slice (a ++ b) pos len = slice b (pos - a.length) len := by
  apply ext_getElem?
  intro i
  simp only [getElem?_slice]
  rw [getElem?_append_right (by omega), show pos + i - a.length = pos - a.length + i by omega]

theorem slice_append_left (h : pos + len ≤ a.length) :
    slice (a ++ b) pos len = slice a pos len := by
  apply ext_getElem?
  intro i
  simp only [getElem?_slice]
  split
  · rw [getElem?_append_left (by omega)]
  · rfl

theorem slice_append_drop (file : List α) (pos len : ℕ) :
    slice file pos len ++ file.drop (pos + len) = file.drop pos := by
  rw [slice, ← drop_drop, take_append_drop]

/-! ## Writing -/

theorem getElem?_writeAt (h : pos ≤ file.length) (i : ℕ) :
    (writeAt fill file pos data)[i]? =
      if pos ≤ i ∧ i < pos + data.length then data[i - pos]? else file[i]? := by
  have htake : (file.take pos).length = pos := by
    rw [length_take]
    omega
  rw [writeAt, Nat.sub_eq_zero_of_le h, replicate_zero, append_nil, append_assoc]
  by_cases hlow : i < pos
  · rw [if_neg (by omega), getElem?_append_left (by omega), getElem?_take, if_pos hlow]
  · rw [getElem?_append_right (by omega), htake]
    by_cases hhigh : i < pos + data.length
    · rw [if_pos (by omega), getElem?_append_left (by omega)]
    · rw [if_neg (by omega), getElem?_append_right (by omega), getElem?_drop,
        show pos + data.length + (i - pos - data.length) = i by omega]

theorem length_writeAt (h : pos + data.length ≤ file.length) :
    (writeAt fill file pos data).length = file.length := by
  simp only [writeAt, length_append, length_take, length_replicate, length_drop]
  omega

/-- Replace a part by one of the same length. -/
theorem writeAt_append_mid (hlen : b.length = data.length) (hpos : pos = a.length) :
    writeAt fill (a ++ b ++ c) pos data = a ++ data ++ c := by
  subst hpos
  have hend : a.length + data.length = (a ++ b).length := by
    rw [length_append, hlen]
  have hfill : a.length - (a ++ b ++ c).length = 0 := by
    simp only [length_append]
    omega
  rw [writeAt, hend, drop_left, hfill, replicate_zero, append_nil, append_assoc a b c, take_left]

/-- Write behind the end of the file. -/
theorem writeAt_beyond (hpos : a.length ≤ pos) :
    writeAt fill a pos data = a ++ replicate (pos - a.length) fill ++ data := by
  rw [writeAt, take_of_length_le hpos, drop_eq_nil_of_le (by omega), append_nil]

/-- **Writing into a buffered slice.** -/
theorem slice_writeAt (hlow : start ≤ pos) (hhigh : pos + data.length ≤ start + n)
    (hfile : start + n ≤ file.length) :
    slice (writeAt fill file pos data) start n =
      writeAt fill (slice file start n) (pos - start) data := by
  have hslice : (slice file start n).length = n := by
    rw [length_slice]
    omega
  apply ext_getElem?
  intro i
  rw [getElem?_slice, getElem?_writeAt (by omega), getElem?_writeAt (by omega), getElem?_slice]
  by_cases hi : i < n
  · rw [if_pos hi, if_pos hi]
    by_cases hin : pos ≤ start + i ∧ start + i < pos + data.length
    · rw [if_pos hin, if_pos (by omega), show start + i - pos = i - (pos - start) by omega]
    · rw [if_neg hin, if_neg (by omega)]
  · rw [if_neg hi, if_neg (by omega), if_neg hi]

/-! ## Buffers -/

theorem length_refill (h : data.length ≤ b.length) : (refill b data).length = b.length := by
  rw [refill, length_append, length_drop]
  omega

theorem slice_refill (h : pos + len ≤ data.length) :
    slice (refill b data) pos len = slice data pos len :=
  slice_append_left h

end Inery.Foundation
