import Mathlib.Data.List.Range

/-!
# The trace API's files (`compressed_file.cpp`, `store_provider.cpp`)

The decompression is zlib's, and what is taken from it is in `Zlib`: a call moves something unless
it reports that it cannot, and what a stream gives does not depend on how its input is cut.
-/

namespace Inery.Plugins

open List

inductive ZRet where
  | ok | streamEnd | needDict | dataError | memError | bufError
deriving DecidableEq

/-- What a call of `inflate` leaves: the stream, the bytes it has not consumed, and its output. -/
structure Inflated (σ : Type) where
  strm : σ
  nextIn : List UInt8
  out : List UInt8
  ret : ZRet
  msg : String := ""

/-- The stream can go on: after `Z_OK`, or when there was no input. -/
def ZRet.GoesOn (ret : ZRet) (input : List UInt8) : Prop := ret = .ok ∨ ret = .bufError ∧ input = []

/-- `inflate`, with 4096 bytes of room for the output. -/
structure Zlib (σ : Type) where
  inflate : σ → List UInt8 → Inflated σ
  /-- All that a stream gives for an input, and whether it then waits for more: it has neither
  ended nor turned out to be damaged. -/
  decode : σ → List UInt8 → List UInt8 × Bool
  consumes : ∀ strm input, (inflate strm input).nextIn.length ≤ input.length
  progress : ∀ strm input, (inflate strm input).nextIn.length = input.length →
    (inflate strm input).out = [] → (inflate strm input).ret ≠ .ok
  noProgress : ∀ strm input, (inflate strm input).ret = .bufError →
    (inflate strm input).nextIn = input
  starves : ∀ strm, (inflate strm []).ret = .bufError → decode strm [] = ([], true)
  goesOn : ∀ strm input, (inflate strm input).ret.GoesOn input → ∀ later,
    let r := inflate strm input
    let d := decode r.strm (r.nextIn ++ later)
    decode strm (input ++ later) = (r.out ++ d.1, d.2)
  ends : ∀ strm input, ¬ (inflate strm input).ret.GoesOn input → ∀ later,
    (decode strm (input ++ later)).2 = false

inductive ReadError where
  | compressedFileError (what : String)
  | iosFailure (what : String)

/-- `compressed_file_impl` in `read`: `file` is the part not read yet, `inner` says that the inner
loop goes on. -/
structure CompressedRead (σ : Type) where
  strm : σ
  nextIn : List UInt8 := []
  file : List UInt8
  readBuffer : List UInt8 := []
  written : List UInt8 := []
  inner : Bool := false

namespace CompressedRead

variable {σ : Type} (z : Zlib σ) (n : ℕ) (s : CompressedRead σ)

/-- The next 4096 bytes of the file, if the outer loop starts with no input. -/
def refill : CompressedRead σ :=
  if s.inner ∨ s.nextIn ≠ [] then s
  else { s with nextIn := s.file.take 4096, file := s.file.drop 4096 }

/-- One call of `inflate` and what follows it: the state to go on from, or the end of `read`. -/
def round : CompressedRead σ ⊕ Except ReadError (CompressedRead σ) :=
  if n ≤ s.written.length then .inr (.ok s)
  else
    let s := s.refill
    let r := z.inflate s.strm s.nextIn
    if r.ret = .needDict ∨ r.ret = .dataError ∨ r.ret = .memError then
      .inr (.error (.compressedFileError ("Error decompressing: " ++ r.msg)))
    else
      let written := s.written ++ r.out.take (n - s.written.length)
      let readBuffer := r.out.drop (n - s.written.length)
      let more := written.length < n
      let s := { s with strm := r.strm, nextIn := r.nextIn, written, readBuffer, inner := false }
      if more ∧ r.ret = .streamEnd then
        .inr (.error (.iosFailure "Attempting to read past the end of a compressed file"))
      else if r.ret = .bufError then
        if r.nextIn ≠ [] then
          .inr (.error (.compressedFileError
            "Error decompressing cannot continue processing input"))
        else .inl s
      else .inl { s with inner := r.out.length = 4096 ∧ more }

/-- The loops of `read`, if they call `inflate` fewer than `calls` times. -/
def readLoop : ℕ → CompressedRead σ → Option (Except ReadError (CompressedRead σ))
  | 0, _ => none
  | calls + 1, s =>
    match s.round z n with
    | .inl s => readLoop calls s
    | .inr result => some result

/-- What the last `read` has left over is consumed first. -/
def start : CompressedRead σ :=
  { s with written := s.readBuffer.take n, readBuffer := s.readBuffer.drop n, inner := false }

def read (calls : ℕ) : Option (Except ReadError (CompressedRead σ)) :=
  if (s.start n).readBuffer ≠ [] then some (.ok (s.start n)) else readLoop z n calls (s.start n)

/-- The stream waits for more than is left of the file, before it has given `n` bytes. -/
def Short : Prop :=
  (z.decode s.strm (s.nextIn ++ s.file)).2 = true ∧
    s.written.length + (z.decode s.strm (s.nextIn ++ s.file)).1.length < n

/-- What is left to move. -/
def left : ℕ := 2 * (2 * s.file.length + s.nextIn.length + (n - s.written.length)) + s.inner.toNat

variable {z n s}

theorem refill_cases : s.refill = s ∧ (s.inner = true ∨ s.nextIn ≠ []) ∨
    s.inner = false ∧ s.nextIn = [] ∧
      s.refill = { s with nextIn := s.file.take 4096, file := s.file.drop 4096 } := by
  unfold refill
  split <;> simp_all

theorem refill_frame : s.refill.strm = s.strm ∧ s.refill.written = s.written ∧
    s.refill.nextIn ++ s.refill.file = s.nextIn ++ s.file := by
  obtain ⟨heq, -⟩ | ⟨-, hempty, heq⟩ := refill_cases (s := s)
  · simp [heq]
  · simp [heq, hempty]

/-- What a call changes if `read` goes on after it. -/
theorem of_round {s' : CompressedRead σ} (h : s.round z n = .inl s') :
    let r := z.inflate s.strm s.refill.nextIn
    s.written.length < n ∧ s'.strm = r.strm ∧ s'.file = s.refill.file ∧ s'.nextIn = r.nextIn ∧
      s'.written = s.written ++ r.out.take (n - s.written.length) ∧
      (n ≤ s'.written.length ∨ r.ret.GoesOn s.refill.nextIn) ∧
      (r.ret = .bufError → s'.inner = false) := by
  obtain ⟨hstrm, hwritten, -⟩ := refill_frame (s := s)
  simp only [round, hstrm, hwritten] at h
  split_ifs at h with hmore herror hend hbuf hinput <;> cases h
  · refine ⟨Nat.not_le.mp hmore, rfl, rfl, rfl, rfl, .inr (.inr ⟨hbuf, ?_⟩), fun _ => rfl⟩
    rw [← z.noProgress _ _ hbuf]
    exact of_not_not hinput
  · refine ⟨Nat.not_le.mp hmore, rfl, rfl, rfl, rfl, ?_, fun h => absurd h hbuf⟩
    rw [or_iff_not_imp_right]
    intro hstops
    have hok : (z.inflate s.strm s.refill.nextIn).ret ≠ .ok := fun h => hstops (.inl h)
    cases hret : (z.inflate s.strm s.refill.nextIn).ret <;> simp_all

theorem not_short_of_ends (h : ¬ (z.inflate s.strm s.refill.nextIn).ret.GoesOn s.refill.nextIn) :
    ¬ Short z n s := by
  rintro ⟨hwaits, -⟩
  rw [← refill_frame.2.2, z.ends _ _ h] at hwaits
  cases hwaits

/-- **Step.**  Whether the file is too short does not change from call to call. -/
theorem short_iff_of_round {s' : CompressedRead σ} (h : s.round z n = .inl s') :
    Short z n s' ↔ Short z n s := by
  obtain ⟨hmore, hstrm, hfile, hinput, hwritten, hret, -⟩ := of_round h
  by_cases hgo : (z.inflate s.strm s.refill.nextIn).ret.GoesOn s.refill.nextIn
  · have hdecode := z.goesOn _ _ hgo s.refill.file
    rw [refill_frame.2.2] at hdecode
    have hlength := congrArg length hwritten
    rw [length_append, length_take] at hlength
    simp only [Short, hdecode, hstrm, hfile, hinput, length_append]
    refine and_congr_right fun _ => ?_
    omega
  · refine iff_of_false (fun hshort => ?_) (not_short_of_ends hgo)
    have hlt := hshort.2
    have hle := hret.resolve_right hgo
    omega

theorem not_short_of_round {result : Except ReadError (CompressedRead σ)}
    (h : s.round z n = .inr result) : ¬ Short z n s := by
  obtain ⟨hstrm, -⟩ := refill_frame (s := s)
  simp only [round, hstrm] at h
  split_ifs at h with hmore herror hend hbuf hinput
  · intro hshort
    have hlt := hshort.2
    omega
  · exact not_short_of_ends fun hgo => by rcases hgo with hok | ⟨hbuf, -⟩ <;> simp_all
  · exact not_short_of_ends fun hgo => by rcases hgo with hok | ⟨hbuf, -⟩ <;> simp_all
  · refine not_short_of_ends fun hgo => ?_
    rcases hgo with hok | ⟨-, hempty⟩
    · cases hbuf.symm.trans hok
    · exact hinput ((z.noProgress _ _ hbuf).trans hempty)

theorem length_refill : 2 * s.refill.file.length + s.refill.nextIn.length ≤
    2 * s.file.length + s.nextIn.length := by
  obtain ⟨heq, -⟩ | ⟨-, -, heq⟩ := refill_cases (s := s)
  · rw [heq]
  · simp only [heq, length_take, length_drop]
    omega

/-- A call that moves nothing either leaves the inner loop, or the file is too short. -/
theorem of_round_of_stuck {s' : CompressedRead σ} (h : s.round z n = .inl s')
    (hinput : (z.inflate s.strm s.refill.nextIn).nextIn.length = s.refill.nextIn.length)
    (hout : (z.inflate s.strm s.refill.nextIn).out = []) :
    s.inner = true ∧ s'.inner = false ∨ Short z n s := by
  obtain ⟨hmore, -, -, -, hwritten, hret, hinner⟩ := of_round h
  rw [hout, take_nil, append_nil] at hwritten
  rw [hwritten] at hret
  obtain ⟨hbuf, hempty⟩ :=
    (hret.resolve_left (Nat.not_le.mpr hmore)).resolve_left (z.progress _ _ hinput hout)
  obtain ⟨heq, hgo⟩ | ⟨-, -, heq⟩ := refill_cases (s := s)
  · rw [heq] at hempty
    exact .inl ⟨hgo.resolve_right fun hne => hne hempty, hinner hbuf⟩
  · right
    have hfile : s.refill.file = [] := by
      rw [heq] at hempty ⊢
      exact drop_eq_nil_of_le (by have := congrArg length hempty; simp at this; simp [this])
    rw [hempty] at hbuf
    rw [Short, ← refill_frame.2.2, hempty, hfile, append_nil, z.starves _ hbuf]
    exact ⟨rfl, hmore⟩

theorem left_lt_of_round {s' : CompressedRead σ} (h : s.round z n = .inl s')
    (hfed : ¬ Short z n s) : s'.left n < s.left n := by
  obtain ⟨hmore, -, hfile, hinput, hwritten, -⟩ := of_round h
  have hstuck := of_round_of_stuck h
  have hconsumes := z.consumes s.strm s.refill.nextIn
  have hrefill := length_refill (s := s)
  have hinner := s'.inner.toNat_le
  have hlength := congrArg length hwritten
  rw [length_append, length_take] at hlength
  unfold left
  rw [hfile, hinput]
  by_cases hmoves : (z.inflate s.strm s.refill.nextIn).nextIn.length = s.refill.nextIn.length ∧
      (z.inflate s.strm s.refill.nextIn).out = []
  · obtain ⟨hin, hout⟩ := (hstuck hmoves.1 hmoves.2).resolve_right hfed
    rw [hin, hout, Bool.toNat_true, Bool.toNat_false]
    omega
  · rw [← length_eq_zero_iff] at hmoves
    omega

theorem exists_readLoop {calls : ℕ} (hcalls : s.left n < calls) (h : ¬ Short z n s) :
    ∃ result, s.readLoop z n calls = some result := by
  induction calls generalizing s with
  | zero => cases hcalls
  | succ calls ih =>
    rw [readLoop]
    cases hround : s.round z n with
    | inr result => exact ⟨result, rfl⟩
    | inl s' =>
      have hlt := left_lt_of_round hround h
      exact ih (by omega) (mt (short_iff_of_round hround).mp h)

theorem readLoop_of_short (calls : ℕ) (h : Short z n s) : s.readLoop z n calls = none := by
  induction calls generalizing s with
  | zero => rfl
  | succ calls ih =>
    rw [readLoop]
    cases hround : s.round z n with
    | inr result => exact absurd h (not_short_of_round hround)
    | inl s' => exact ih ((short_iff_of_round hround).mpr h)

/-- **`read` returns or throws unless the file is too short.** It ends if and only if not: the
stream waits for more than the file has, and what it gives for that, with what is left over from
the last `read`, is less than `n` bytes. -/
theorem compressed_read_ends_iff (z : Zlib σ) (n : ℕ) (s : CompressedRead σ) :
    (∃ calls result, s.read z n calls = some result) ↔
      ¬ ((z.decode s.strm (s.nextIn ++ s.file)).2 = true ∧
        s.readBuffer.length + (z.decode s.strm (s.nextIn ++ s.file)).1.length < n) := by
  unfold read
  by_cases hleft : (s.start n).readBuffer ≠ []
  · have hlt : n < s.readBuffer.length := by simpa [start] using hleft
    simp only [if_pos hleft]
    exact iff_of_true ⟨0, _, rfl⟩ fun h => by omega
  · have hle : s.readBuffer.length ≤ n := by simpa [start] using hleft
    have hwritten : (s.start n).written = s.readBuffer := take_of_length_le hle
    simp only [if_neg hleft, ← hwritten]
    constructor
    · rintro ⟨calls, result, hread⟩ (h : Short z n (s.start n))
      rw [readLoop_of_short calls h] at hread
      cases hread
    · exact fun h => ⟨_, exists_readLoop (s := s.start n) (Nat.lt_succ_self _) h⟩

/-- Stored bytes. -/
def stored : Zlib Unit where
  inflate _ input := ⟨(), [], input, if input = [] then .bufError else .ok, ""⟩
  decode _ input := (input, true)
  consumes _ _ := Nat.zero_le _
  progress _ input h _ := by
    rw [if_pos (length_eq_zero_iff.mp h.symm)]
    exact ZRet.noConfusion
  noProgress _ input h := by
    by_contra hne
    rw [if_neg (Ne.symm hne)] at h
    cases h
  starves _ _ := rfl
  goesOn _ _ _ _ := rfl
  ends _ input h := by
    refine absurd ?_ h
    by_cases hempty : input = []
    · exact .inr ⟨if_pos hempty, hempty⟩
    · exact .inl (if_neg hempty)

/-- Two bytes from a file that has been truncated to one. -/
theorem compressed_read_does_not_end :
    ¬ ∃ calls result, read stored 2 { strm := (), file := [5] } calls = some result := by
  rintro ⟨_ | calls, result, h⟩
  · cases h
  · change readLoop stored 2 calls { strm := (), file := [], written := [5] } = some result at h
    induction calls with
    | zero => cases h
    | succ calls ih => exact ih h

end CompressedRead

/-! ## Maintenance of the slices

Slices of irreversible blocks are pruned, and before that compressed, in the order of their
numbers. -/

/-- The settings of a `slice_directory`. -/
structure SliceConfig where
  width : ℕ
  width_pos : 0 < width
  minimumIrreversibleHistoryBlocks : Option ℕ := none
  minimumUncompressedIrreversibleHistoryBlocks : Option ℕ := none

/-- `lower_bound_slice`, the slices for which the callback has returned, and those for which it was
called by the last maintenance. -/
structure SliceRange where
  lowerBoundSlice : Option ℕ := none
  done : List ℕ := []
  tried : List ℕ := []
deriving DecidableEq

/-- The loop of `process_irreversible_slice_range`, for at most `rounds` slices; `f` says for which
slices the callback returns. -/
def processSlices (f : ℕ → Bool) (upperBoundSliceNum : ℕ) : ℕ → SliceRange → Bool × SliceRange
  | 0, r => (true, r)
  | rounds + 1, r =>
    if ∀ lower ∈ r.lowerBoundSlice, lower < upperBoundSliceNum then
      let slice := r.lowerBoundSlice.elim 0 (· + 1)
      let tried := r.tried ++ [slice]
      if f slice then
        processSlices f upperBoundSliceNum rounds ⟨some slice, r.done ++ [slice], tried⟩
      else (false, { r with tried })
    else (true, r)

namespace SliceConfig

variable (c : SliceConfig)

def sliceNumber (blockNum : ℕ) : ℕ := blockNum / c.width

def processIrreversibleSliceRange (lib minIrreversible : ℕ) (f : ℕ → Bool) (r : SliceRange) :
    Bool × SliceRange :=
  let libSliceNumber := c.sliceNumber lib
  if libSliceNumber < 1 ∨ ∃ lower ∈ r.lowerBoundSlice, libSliceNumber - 1 ≤ lower then (true, r)
  else
    let upperBoundBlockNumber : ℤ := lib - minIrreversible - c.width
    if 0 ≤ upperBoundBlockNumber then
      let upperBoundSliceNum := c.sliceNumber upperBoundBlockNumber.toNat
      processSlices f upperBoundSliceNum (upperBoundSliceNum + 1) r
    else (true, r)

/-- Compression is for slices that are not also deleted. -/
def compressionMinimum : Option ℕ :=
  c.minimumUncompressedIrreversibleHistoryBlocks.filter fun blocks =>
    ∀ least ∈ c.minimumIrreversibleHistoryBlocks, blocks < least

end SliceConfig

/-- A call of `run_maintenance_tasks`, and for which slices its callbacks return. -/
structure MaintenanceCall where
  lib : ℕ
  prunes : ℕ → Bool
  compresses : ℕ → Bool

/-- The two ranges, and which of them the last call has gone through. -/
structure SliceDirectory where
  pruned : SliceRange := {}
  compressed : SliceRange := {}
  pruningReturned : Bool := true
  compressionReturned : Bool := true

namespace SliceConfig

variable (c : SliceConfig)

def processRange (least : Option ℕ) (lib : ℕ) (f : ℕ → Bool) (r : SliceRange) : Bool × SliceRange :=
  let r := { r with tried := [] }
  match least with
  | none => (true, r)
  | some least => c.processIrreversibleSliceRange lib least f r

def runMaintenanceTasks (d : SliceDirectory) (call : MaintenanceCall) : SliceDirectory :=
  let (pruningReturned, pruned) :=
    c.processRange c.minimumIrreversibleHistoryBlocks call.lib call.prunes d.pruned
  let (compressionReturned, compressed) :=
    if pruningReturned then
      c.processRange c.compressionMinimum call.lib call.compresses d.compressed
    else (false, { d.compressed with tried := [] })
  ⟨pruned, compressed, pruningReturned, compressionReturned⟩

def run (calls : List MaintenanceCall) : SliceDirectory := calls.foldl c.runMaintenanceTasks {}

/-- All blocks of a slice are below lib minus the minimum. -/
def Settled (least : Option ℕ) (lib slice : ℕ) : Prop :=
  ∃ blocks ∈ least, ∀ blockNum, c.sliceNumber blockNum = slice → blockNum + blocks < lib

/-- What a call does with a range. -/
structure Progress (least : Option ℕ) (lib : ℕ) (returned : Bool) (r r' : SliceRange) : Prop where
  inOrder : r'.done = range r'.done.length
  tried : r'.tried = range' r.done.length r'.tried.length
  settled : ∀ slice ∈ r'.tried, c.Settled least lib slice
  complete : returned → r'.done = r.done ++ r'.tried ∧
    ∀ slice, c.Settled least lib slice → slice ∈ r'.done
  threw : ¬ returned → ∃ new, r'.done = r.done ++ new ∧ r'.tried = new ++ [r'.done.length]

end SliceConfig

/-- The completed slices are the first ones, and the bound is the last of them. -/
def SliceRange.Counted (r : SliceRange) : Prop :=
  r.done = range r.done.length ∧ r.lowerBoundSlice.elim 0 (· + 1) = r.done.length

variable {c : SliceConfig} {f : ℕ → Bool} {upper : ℕ} {r : SliceRange}

theorem SliceRange.Counted.continues_iff (h : r.Counted) :
    (∀ lower ∈ r.lowerBoundSlice, lower < upper) ↔ r.done.length ≤ upper := by
  rw [← h.2]
  cases r.lowerBoundSlice with
  | none => simp
  | some lower =>
    simp only [Option.mem_some_iff, forall_eq', Option.elim_some, Nat.lt_iff_add_one_le]

theorem SliceRange.Counted.processSlices (h : r.Counted) {rounds : ℕ}
    (hrounds : upper < r.done.length + rounds) :
    let result := processSlices f upper rounds r
    result.2.Counted ∧ ∃ new, result.2.tried = r.tried ++ range' r.done.length new ∧
      (∀ slice ∈ range' r.done.length new, slice ≤ upper) ∧
      (result.1 → result.2.done = r.done ++ range' r.done.length new ∧
        upper < result.2.done.length) ∧
      (¬ result.1 → ∃ done, result.2.done = r.done ++ done ∧
        range' r.done.length new = done ++ [result.2.done.length]) := by
  induction rounds generalizing r with
  | zero => exact ⟨h, 0, by simpa [Plugins.processSlices] using hrounds⟩
  | succ rounds ih =>
    simp only [Plugins.processSlices, h.continues_iff, h.2]
    by_cases hle : r.done.length ≤ upper
    · rw [if_pos hle]
      split
      · have hlength : (r.done ++ [r.done.length]).length = r.done.length + 1 := length_append
        have hnext : SliceRange.Counted ⟨some r.done.length, r.done ++ [r.done.length],
            r.tried ++ [r.done.length]⟩ := by
          refine ⟨?_, hlength.symm⟩
          rw [hlength, range_succ, ← h.1]
        obtain ⟨hcounted, new, htried, hupper, hreturned, hthrew⟩ :=
          ih hnext (by rw [hlength]; omega)
        rw [hlength] at htried hupper hreturned hthrew
        refine ⟨hcounted, new + 1, ?_⟩
        rw [range'_succ]
        refine ⟨htried.trans (append_assoc ..), forall_mem_cons.mpr ⟨hle, hupper⟩,
          by simpa using hreturned, fun h => ?_⟩
        obtain ⟨done, hdone, heq⟩ := hthrew h
        exact ⟨_ :: done, hdone.trans (append_assoc ..), congrArg (cons _) heq⟩
      · exact ⟨h, 1, rfl, by simpa using hle, nofun, fun _ => ⟨[], (append_nil _).symm, rfl⟩⟩
    · rw [if_neg hle]
      exact ⟨h, 0, by simpa using hle⟩

namespace SliceConfig

theorem settled_iff {blocks lib slice : ℕ} :
    c.Settled (some blocks) lib slice ↔ (slice + 1) * c.width + blocks ≤ lib := by
  have hpos := c.width_pos
  constructor
  · rintro ⟨_, ⟨⟩, h⟩
    have hlast := h ((slice + 1) * c.width - 1) (by
      rw [sliceNumber, Nat.div_eq_iff hpos, Nat.add_mul]
      omega)
    omega
  · rintro h
    refine ⟨blocks, rfl, ?_⟩
    rintro blockNum rfl
    have hlt := Nat.lt_mul_div_succ blockNum hpos
    rw [sliceNumber, Nat.mul_comm] at h
    omega

/-- A call that has nothing to do. -/
theorem Progress.idle {least : Option ℕ} {lib : ℕ} (h : r.Counted)
    (hall : ∀ slice, c.Settled least lib slice → slice < r.done.length) :
    c.Progress least lib true r { r with tried := [] } where
  inOrder := h.1
  tried := rfl
  settled := by simp
  complete _ := ⟨(append_nil _).symm, fun slice hslice => by
    rw [h.1, mem_range]
    exact hall slice hslice⟩
  threw hthrew := absurd rfl hthrew

theorem progress {least : Option ℕ} {lib : ℕ} (h : r.Counted) :
    let result := c.processRange least lib f r
    result.2.Counted ∧ c.Progress least lib result.1 r result.2 := by
  simp only [processRange]
  cases least with
  | none => exact ⟨h, .idle h fun _ ⟨_, hnone, _⟩ => nomatch hnone⟩
  | some blocks =>
    have hpos := c.width_pos
    simp only [processIrreversibleSliceRange]
    split
    next hearly =>
      refine ⟨h, .idle h fun slice hslice => ?_⟩
      have hlib : slice + 1 ≤ c.sliceNumber lib :=
        (Nat.le_div_iff_mul_le hpos).mpr (by have := settled_iff.mp hslice; omega)
      rcases hearly with hlt | ⟨lower, hlower, hle⟩
      · omega
      · rw [← h.2, hlower]
        exact Nat.lt_succ_of_le (by omega)
    split
    next hupper =>
      have hsettled : ∀ slice, c.Settled (some blocks) lib slice ↔
          slice ≤ c.sliceNumber (lib - blocks - c.width : ℤ).toNat := by
        intro slice
        rw [settled_iff, sliceNumber, Nat.le_div_iff_mul_le hpos, Nat.add_mul]
        omega
      generalize c.sliceNumber (lib - blocks - c.width : ℤ).toNat = upper at *
      obtain ⟨hcounted, new, htried, hle, hreturned, hthrew⟩ := SliceRange.Counted.processSlices
        (f := f) (r := { r with tried := [] }) h (show upper < _ + (upper + 1) by omega)
      rw [nil_append] at htried
      refine ⟨hcounted, hcounted.1, ?_, fun slice hslice => ?_, fun h => ?_, fun h => ?_⟩
      · rw [htried, length_range']
      · exact (hsettled slice).mpr (hle slice (htried ▸ hslice))
      · refine ⟨htried ▸ (hreturned h).1, fun slice hslice => ?_⟩
        rw [hcounted.1, mem_range]
        exact ((hsettled slice).mp hslice).trans_lt (hreturned h).2
      · obtain ⟨done, hdone, heq⟩ := hthrew h
        exact ⟨done, hdone, htried.trans heq⟩
    next hupper =>
      refine ⟨h, .idle h fun slice hslice => ?_⟩
      have := settled_iff.mp hslice
      rw [Nat.add_mul] at this
      omega

/-- The slice whose callback threw comes first in the next call. -/
theorem Progress.resumes {least : Option ℕ} {lib lib' : ℕ} {returned : Bool} {r' r'' : SliceRange}
    (h : c.Progress least lib returned r r') (hthrew : ¬ returned) {returned' : Bool}
    (h' : c.Progress least lib' returned' r' r'') (hle : lib ≤ lib') :
    r''.tried.head? = some r'.done.length := by
  obtain ⟨new, -, htried⟩ := h.threw hthrew
  obtain ⟨blocks, hblocks, hbelow⟩ := h.settled r'.done.length (by simp [htried])
  have hsettled : c.Settled least lib' r'.done.length :=
    ⟨blocks, hblocks, fun n hn => (hbelow n hn).trans_le hle⟩
  have hne : r''.tried ≠ [] := by
    intro hnil
    cases returned' with
    | true =>
      obtain ⟨hdone, hall⟩ := h'.complete rfl
      have hmem := hall _ hsettled
      rw [hdone, hnil, append_nil, h.inOrder] at hmem
      simp at hmem
    | false =>
      obtain ⟨new, -, htried⟩ := h'.threw (by decide)
      simp [hnil] at htried
  rw [h'.tried] at hne ⊢
  rw [head?_range', if_neg (by simpa using hne)]

/-- What a call does with a directory. -/
def Maintained (call : MaintenanceCall) (d d' : SliceDirectory) : Prop :=
  c.Progress c.minimumIrreversibleHistoryBlocks call.lib d'.pruningReturned d.pruned d'.pruned ∧
  if d'.pruningReturned then
    c.Progress c.compressionMinimum call.lib d'.compressionReturned d.compressed d'.compressed
  else d'.compressed = { d.compressed with tried := [] }

def Counted (d : SliceDirectory) : Prop := d.pruned.Counted ∧ d.compressed.Counted

theorem maintained {d : SliceDirectory} (h : Counted d) (call : MaintenanceCall) :
    Counted (c.runMaintenanceTasks d call) ∧
      c.Maintained call d (c.runMaintenanceTasks d call) := by
  obtain ⟨hpruned, hprogress⟩ := progress (c := c) (f := call.prunes) h.1
  obtain ⟨hcompressed, hprogress'⟩ := progress (c := c) (f := call.compresses) h.2
  unfold Counted Maintained
  simp only [runMaintenanceTasks]
  split
  · exact ⟨⟨hpruned, hcompressed⟩, hprogress, hprogress'⟩
  · exact ⟨⟨hpruned, h.2⟩, hprogress, rfl⟩

theorem counted_run (calls : List MaintenanceCall) : Counted (c.run calls) :=
  List.foldlRecOn calls _ ⟨⟨rfl, rfl⟩, rfl, rfl⟩ fun _ h call _ => (maintained h call).1

end SliceConfig

/-- **Slices are pruned and compressed in order, when they are settled and no later**; one whose
callback throws is the next one tried, for compression by the next call whose pruning returns. -/
theorem maintenance_exact (c : SliceConfig) (calls : List MaintenanceCall)
    (call next : MaintenanceCall) (hlib : call.lib ≤ next.lib) :
    let d := c.run calls
    let d₁ := c.runMaintenanceTasks d call
    let d₂ := c.runMaintenanceTasks d₁ next
    c.Maintained call d d₁ ∧
    (¬ d₁.pruningReturned → d₂.pruned.tried.head? = some d₁.pruned.done.length) ∧
    (d₁.pruningReturned → ¬ d₁.compressionReturned → d₂.pruningReturned →
      d₂.compressed.tried.head? = some d₁.compressed.done.length) := by
  obtain ⟨hcounted, hfirst⟩ := SliceConfig.maintained (SliceConfig.counted_run calls (c := c)) call
  obtain ⟨-, hsecond⟩ := SliceConfig.maintained hcounted next
  refine ⟨hfirst, fun hthrew => ?_, fun hpruned hthrew hpruned' => ?_⟩
  · exact hfirst.1.resumes hthrew hsecond.1 hlib
  · have hprogress := hfirst.2
    rw [if_pos hpruned] at hprogress
    have hprogress' := hsecond.2
    rw [if_pos hpruned'] at hprogress'
    exact hprogress.resumes hthrew hprogress' hlib

/-- Slices of ten blocks: 30 blocks are kept, and 5 of them uncompressed. -/
def tens : SliceConfig where
  width := 10
  width_pos := by decide
  minimumIrreversibleHistoryBlocks := some 30
  minimumUncompressedIrreversibleHistoryBlocks := some 5

/-- After a call that prunes one slice and compresses four, the compression of the fifth throws. -/
theorem maintenance_exact_tens :
    let d := tens.run [⟨45, fun _ => true, fun _ => true⟩]
    let d₁ := tens.runMaintenanceTasks d ⟨55, fun _ => true, (· ≠ 4)⟩
    let d₂ := tens.runMaintenanceTasks d₁ ⟨60, fun _ => true, fun _ => true⟩
    d.compressed.done = [0, 1, 2, 3] ∧ tens.Maintained ⟨55, fun _ => true, (· ≠ 4)⟩ d d₁ ∧
      d₂.compressed.tried.head? = some 4 := by
  have h := maintenance_exact tens [⟨45, fun _ => true, fun _ => true⟩]
    ⟨55, fun _ => true, (· ≠ 4)⟩ ⟨60, fun _ => true, fun _ => true⟩ (by decide)
  exact ⟨by decide, h.1, h.2.2 (by decide) (by decide) (by decide)⟩

/-- The compression of the first slice throws; then its pruning throws, and the call that follows
tries no compression. -/
theorem compression_not_resumed :
    let d₁ := tens.run [⟨25, fun _ => false, fun _ => false⟩]
    let d₂ := tens.runMaintenanceTasks d₁ ⟨45, fun _ => false, fun _ => false⟩
    d₁.pruningReturned = true ∧ d₁.compressionReturned = false ∧ d₁.compressed.tried = [0] ∧
      d₂.pruned.tried = [0] ∧ d₂.compressed.tried = [] := by
  decide

end Inery.Plugins
