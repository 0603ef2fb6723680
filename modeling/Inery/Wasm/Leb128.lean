import Inery.Foundation.Outcome
import Mathlib.Tactic.IntervalCases
import Mathlib.Tactic.Ring

/-!
# LEB128 numbers of wasm modules (`leb128.hpp`)

A number is written in groups of seven bits, the lowest first, and every byte but the last one
has its high bit set.  `varuint` and `varint` take every spelling of a number that fits, also
those with more bytes than it needs, up to the bytes that its width may need.
-/

namespace Inery.Wasm

open Foundation List

inductive VmException where
  | wasmInterpreterException (what : String)
  | wasmParseException (what : String)
deriving DecidableEq

/-- The instances of `varuint` and `varint`. -/
inductive VarType where
  | varuint1
  | varuint7
  | varuint32
  | varint7
  | varint32
  | varint64

namespace VarType

def bits : VarType → ℕ
  | varuint1 => 1
  | varuint7 | varint7 => 7
  | varuint32 | varint32 => 32
  | varint64 => 64

def signed : VarType → Bool
  | varuint1 | varuint7 | varuint32 => false
  | varint7 | varint32 | varint64 => true

variable (ty : VarType)

def bytesNeeded : ℕ :=
  if ty.bits = 1 ∨ ty.bits = 7 then 1 else if ty.bits = 32 then 5 else 10

/-! ## Reading -/

/-- The bits of the number in the last of the bytes needed. -/
def lastBits : ℕ := ty.bits - 7 * (ty.bytesNeeded - 1)

def unusedMask : UInt8 := (~~~(0 : UInt32) <<< ty.lastBits.toUInt32).toUInt8 &&& 0x7F

def checkLast (b : UInt8) : Except VmException Unit :=
  if ty.signed then
    let expected := if b &&& (1 <<< (ty.lastBits - 1).toUInt8) ≠ 0 then ty.unusedMask else 0
    ensure (ty.unusedMask &&& b = expected)
      (.wasmParseException "unused bits of signed leb128 must be the same as the sign bit")
  else
    ensure (ty.unusedMask &&& b = 0)
      (.wasmParseException "unused bits of unsigned leb128 must be 0")

/-- `from( code )`, after `cnt` bytes: the bytes used, and the code after them. -/
def fromCode : ℕ → List UInt8 → Except VmException (List UInt8 × List UInt8)
  | cnt, [] => do
      ensure (cnt < ty.bytesNeeded) (.wasmInterpreterException "incorrect leb128 encoding")
      .error (.wasmInterpreterException "pointer out of bounds")
  | cnt, b :: code => do
      ensure (cnt < ty.bytesNeeded) (.wasmInterpreterException "incorrect leb128 encoding")
      if b &&& 0x80 = 0 then
        (if cnt + 1 = ty.bytesNeeded then ty.checkLast b else pure ())
        pure ([b], code)
      else
        let (storage, code) ← fromCode (cnt + 1) code
        pure (b :: storage, code)

/-- The loop of `to()`, in an unsigned type of `w` bits. -/
def joinGroups (w : ℕ) (storage : List UInt8) : ℕ :=
  storage.foldr (fun b ret => ret <<< 7 % 2 ^ w ||| (b &&& 0x7f).toNat) 0

/-- `_to()`, which extends the sign of a number with fewer bytes. -/
def toSigned (storage : List UInt8) : ℤ :=
  let ret := joinGroups ty.bits storage
  if storage.length < ty.bytesNeeded ∧ storage.getLastD 0 &&& 0x40 ≠ 0 then
    Int.bmod (ret ||| (2 ^ 64 - 1) <<< (7 * storage.length) : ℕ) (2 ^ ty.bits)
  else
    Int.bmod ret (2 ^ ty.bits)

/-- `to()`. -/
def toValue (storage : List UInt8) : ℤ :=
  let first := storage.headD 0
  match ty with
  | varuint1 => if first ≠ 0 then 1 else 0
  | varuint7 => (first &&& 0x7f).toNat
  | varuint32 => joinGroups 32 storage
  | varint7 => if first &&& 0x40 ≠ 0 then (first ||| 0x80).toInt8.toInt else first.toInt8.toInt
  | varint32 | varint64 => ty.toSigned storage

def read (code : List UInt8) : Except VmException (ℤ × List UInt8) := do
  let (storage, code) ← ty.fromCode 0 code
  pure (ty.toValue storage, code)

/-! ## Writing -/

/-- No more bytes are needed: `v` is what is left, `b` the byte before. -/
abbrev Done (v : ℤ) (b : UInt8) : Prop :=
  if ty.signed then (v = -1 ∧ b &&& 0x40 ≠ 0) ∨ (v = 0 ∧ b &&& 0x40 = 0) else v = 0

/-- `v & 0x7f`. -/
def lowGroup (v : ℤ) : UInt8 := UInt8.ofNat (v % 128).toNat

/-- The loops of `from( uint32_t )` and `_from`; `v >> 7` rounds down.  A number that fits is
written before the room runs out. -/
def fromLoop : ℕ → ℤ → List UInt8
  | 0, _ => []
  | room + 1, v =>
    if ty.Done (v / 128) (lowGroup v) then [lowGroup v]
    else (lowGroup v ||| 0x80) :: fromLoop room (v / 128)

/-- `from( v )`; a number of one byte is not written in the loop. -/
def fromValue (v : ℤ) : List UInt8 :=
  if ty.bytesNeeded = 1 then [lowGroup v] else ty.fromLoop ty.bytesNeeded v

/-! ## Encodings -/

/-- Every byte but the last one has its high bit set. -/
def IsEncoding : List UInt8 → Prop
  | [] => False
  | b :: enc => if b.toNat < 128 then enc = [] else IsEncoding enc

def groupValue (enc : List UInt8) : ℕ := enc.foldr (fun b rest => b.toNat % 128 + 128 * rest) 0

/-- Bit 6 of the last byte is the sign of a signed number, in two's complement. -/
def value (enc : List UInt8) : ℤ :=
  groupValue enc - if ty.signed ∧ 64 ≤ (enc.getLastD 0).toNat then 2 ^ (7 * enc.length) else 0

abbrev Fits (bits : ℕ) (v : ℤ) : Prop :=
  if ty.signed then -2 ^ (bits - 1) ≤ v ∧ v < 2 ^ (bits - 1) else 0 ≤ v ∧ v < 2 ^ bits

variable {ty} {enc code rest : List UInt8} {b : UInt8} {cnt : ℕ}

theorem forall_byte {P : UInt8 → Prop} (h : ∀ n : Fin 256, P (UInt8.ofNat n)) (b : UInt8) :
    P b := by
  have := h ⟨b.toNat, b.toNat_lt⟩
  rwa [UInt8.ofNat_toNat] at this

theorem byte_bits : ∀ b : UInt8, (b &&& 0x80 = 0 ↔ b.toNat < 128) ∧
    (b &&& 0x7f).toNat = b.toNat % 128 ∧ (b.toNat < 128 →
      (b &&& 0x40 = 0 ↔ b.toNat < 64) ∧ (b ||| 0x80).toNat = b.toNat + 128) := by
  refine forall_byte ?_
  decide +kernel

theorem IsEncoding.exists_cons (h : IsEncoding enc) : ∃ b tail, enc = b :: tail := by
  cases enc with
  | nil => exact h.elim
  | cons b tail => exact ⟨b, tail, rfl⟩

/-- The bytes that are read are an encoding of as many bytes as there may be. -/
theorem fromCode_eq_ok : ty.fromCode cnt code = .ok (enc, rest) ↔
    code = enc ++ rest ∧ IsEncoding enc ∧ cnt + enc.length ≤ ty.bytesNeeded ∧
      (cnt + enc.length = ty.bytesNeeded → ty.checkLast (enc.getLastD 0) = .ok ()) := by
  induction code generalizing cnt enc with
  | nil =>
    cases enc with
    | nil => simp [fromCode, IsEncoding, bind_eq_ok]
    | cons c enc => simp [fromCode, bind_eq_ok]
  | cons b code ih =>
    rw [fromCode, bind_eq_ok]
    simp only [ensure_eq_ok, (byte_bits b).1]
    constructor
    · rintro ⟨_, hcnt, h⟩
      split at h
      · next hb =>
        obtain ⟨_, hcheck, h⟩ := bind_eq_ok.mp h
        cases h
        refine ⟨rfl, by rw [IsEncoding, if_pos hb], hcnt, fun hlast => ?_⟩
        rwa [if_pos (show cnt + 1 = _ from hlast)] at hcheck
      · next hb =>
        obtain ⟨⟨enc, rest⟩, hmore, h⟩ := bind_eq_ok.mp h
        cases h
        obtain ⟨rfl, henc, hlen, hlast⟩ := ih.mp hmore
        obtain ⟨c, enc, rfl⟩ := henc.exists_cons
        rw [Nat.add_right_comm] at hlen hlast
        exact ⟨rfl, by rwa [IsEncoding, if_neg hb], hlen, hlast⟩
    · rintro ⟨hcode, henc, hlen, hlast⟩
      obtain ⟨c, enc, rfl⟩ := henc.exists_cons
      cases hcode
      refine ⟨(), by rw [length_cons] at hlen; omega, ?_⟩
      rw [IsEncoding] at henc
      split at henc
      · next hb =>
        subst henc
        rw [if_pos hb]
        split
        · next heq => rw [show ty.checkLast b = .ok () from hlast heq]; rfl
        · rfl
      · next hb =>
        obtain ⟨d, enc, rfl⟩ := henc.exists_cons
        rw [length_cons, ← Nat.add_assoc, Nat.add_right_comm] at hlen hlast
        rw [if_neg hb, ih.mpr ⟨rfl, henc, hlen, hlast⟩]
        rfl

/-! ## Values -/

theorem groupValue_lt (enc : List UInt8) : groupValue enc < 2 ^ (7 * enc.length) := by
  induction enc with
  | nil => exact Nat.one_pos
  | cons b enc ih =>
    rw [groupValue] at ih
    rw [groupValue, foldr_cons, length_cons, Nat.mul_succ, pow_add]
    omega

/-- The last byte holds the highest bits. -/
theorem IsEncoding.getLastD_eq (h : IsEncoding enc) : 0 < enc.length ∧
    groupValue enc / 2 ^ (7 * (enc.length - 1)) = (enc.getLastD 0).toNat ∧
      (enc.getLastD 0).toNat < 128 := by
  induction enc with
  | nil => exact h.elim
  | cons b enc ih =>
    rw [IsEncoding] at h
    split at h
    · next hb =>
      subst h
      exact ⟨Nat.one_pos, by simp [groupValue, Nat.mod_eq_of_lt hb], hb⟩
    · obtain ⟨hpos, hdiv, hlast⟩ := ih h
      obtain ⟨c, enc, rfl⟩ := h.exists_cons
      refine ⟨Nat.succ_pos _, hdiv ▸ ?_, hlast⟩
      have hdrop : groupValue (b :: c :: enc) / 2 ^ 7 = groupValue (c :: enc) := by
        show (b.toNat % 128 + 128 * groupValue (c :: enc)) / 128 = _
        omega
      rw [length_cons, length_cons, Nat.add_sub_cancel, Nat.add_sub_cancel, Nat.mul_succ, pow_add,
        Nat.mul_comm (2 ^ _), ← Nat.div_div_eq_div_mul, hdrop]

theorem checkLast_iff (ty : VarType) : ∀ b : UInt8, b.toNat < 128 →
    (ty.checkLast b = .ok () ↔ if ty.signed then b.toNat < 2 ^ (ty.lastBits - 1) ∨
      128 - 2 ^ (ty.lastBits - 1) ≤ b.toNat else b.toNat < 2 ^ ty.lastBits) := by
  cases ty
  all_goals
    refine forall_byte ?_
    decide +kernel

theorem fits_iff (henc : IsEncoding enc) (hlen : enc.length ≤ ty.bytesNeeded) :
    (enc.length = ty.bytesNeeded → ty.checkLast (enc.getLastD 0) = .ok ()) ↔
      ty.Fits ty.bits (ty.value enc) := by
  obtain ⟨hpos, hdiv, hlast⟩ := henc.getLastD_eq
  have hlt := groupValue_lt enc
  rw [checkLast_iff ty _ hlast, Fits, value]
  generalize enc.length = n at *
  cases ty <;> simp [bits, bytesNeeded, lastBits, signed] at * <;> interval_cases n <;> omega

theorem joinGroups_eq {w : ℕ} (hw : 7 ≤ w) (enc : List UInt8) :
    joinGroups w enc = groupValue enc % 2 ^ w := by
  obtain ⟨k, rfl⟩ := Nat.exists_eq_add_of_le hw
  induction enc with
  | nil => rfl
  | cons b enc ih =>
    have hstep : joinGroups (7 + k) (b :: enc) =
        joinGroups (7 + k) enc <<< 7 % 2 ^ (7 + k) ||| (b &&& 0x7f).toNat := rfl
    have hvalue : groupValue (b :: enc) = 2 ^ 7 * groupValue enc + b.toNat % 128 := Nat.add_comm ..
    have hgroup : groupValue (b :: enc) / 2 ^ 7 = groupValue enc := by omega
    rw [hstep, ih, (byte_bits b).2.1, Nat.shiftLeft_eq, Nat.mul_comm _ (2 ^ 7), pow_add,
      Nat.mul_mod_mul_left, ← Nat.two_pow_add_eq_or_of_lt (Nat.mod_lt _ (by decide)),
      Nat.mod_mul_left_mod, Nat.mod_mul, hgroup]
    omega

theorem toSigned_eq (henc : IsEncoding enc) (hlen : enc.length ≤ ty.bytesNeeded)
    (hfits : ty.Fits ty.bits (ty.value enc)) (hty : ty = varint32 ∨ ty = varint64) :
    ty.toSigned enc = ty.value enc := by
  obtain ⟨hpos, hdiv, hlast⟩ := henc.getLastD_eq
  have hlt := groupValue_lt enc
  have hsign : enc.getLastD 0 &&& 0x40 ≠ 0 ↔ 64 ≤ (enc.getLastD 0).toNat :=
    (not_congr ((byte_bits _).2.2 hlast).1).trans not_lt
  have hw : 7 ≤ ty.bits := by
    rcases hty with rfl | rfl <;> decide
  have hor : enc.length < ty.bytesNeeded →
      groupValue enc % 2 ^ ty.bits ||| (2 ^ 64 - 1) <<< (7 * enc.length) =
        (2 ^ 64 - 1) * 2 ^ (7 * enc.length) + groupValue enc := by
    intro hshort
    have hbits : 7 * enc.length ≤ ty.bits := by
      rcases hty with rfl | rfl <;> simp [bits, bytesNeeded] at * <;> omega
    rw [Nat.mod_eq_of_lt (hlt.trans_le (Nat.pow_le_pow_right (by decide) hbits)), Nat.or_comm,
      ← Nat.shiftLeft_add_eq_or_of_lt hlt, Nat.shiftLeft_eq]
  simp only [toSigned, joinGroups_eq hw, hsign]
  rw [Fits, value] at hfits
  rw [value]
  split_ifs with hext
  on_goal 1 => rw [hor hext.1]
  all_goals
    rw [Int.bmod_def]
    generalize enc.length = n at *
    rcases hty with rfl | rfl <;> simp [bits, bytesNeeded, signed] at * <;> interval_cases n <;>
      omega

theorem toValue_eq (henc : IsEncoding enc) (hlen : enc.length ≤ ty.bytesNeeded)
    (hfits : ty.Fits ty.bits (ty.value enc)) : ty.toValue enc = ty.value enc := by
  have hbyte : ∀ b : UInt8, ty.bytesNeeded = 1 → b.toNat < 128 → ty.Fits ty.bits (ty.value [b]) →
      ty.toValue [b] = ty.value [b] := by
    cases ty
    all_goals
      refine forall_byte ?_
      decide +kernel
  by_cases hone : ty.bytesNeeded = 1
  · obtain ⟨b, tail, rfl⟩ := henc.exists_cons
    obtain rfl : tail = [] := by simpa [hone] using hlen
    exact hbyte b hone henc.getLastD_eq.2.2 hfits
  cases ty with
  | varuint1 | varuint7 | varint7 => exact absurd rfl hone
  | varuint32 =>
    have hlt : groupValue enc < 2 ^ 32 := by simpa [value, bits, signed] using hfits.2
    show (joinGroups 32 enc : ℤ) = _
    rw [joinGroups_eq (by decide), Nat.mod_eq_of_lt hlt]
    simp [value, signed]
  | varint32 => exact toSigned_eq henc hlen hfits (.inl rfl)
  | varint64 => exact toSigned_eq henc hlen hfits (.inr rfl)

theorem value_cons (henc : IsEncoding enc) (b : UInt8) :
    ty.value (b :: enc) = b.toNat % 128 + 128 * ty.value enc := by
  obtain ⟨c, tail, rfl⟩ := henc.exists_cons
  simp only [value, groupValue, foldr_cons, length_cons, getLastD_cons, Nat.mul_succ, pow_add]
  split_ifs <;> push_cast <;> ring

/-! ## The round trip -/

theorem toNat_lowGroup (v : ℤ) : ((lowGroup v).toNat : ℤ) = v % 128 := by
  rw [lowGroup, UInt8.toNat_ofNat']
  omega

/-- The loop ends with the byte that holds what is left of the number. -/
theorem done_iff (v : ℤ) : ty.Done (v / 128) (lowGroup v) ↔ ty.Fits 7 v := by
  have hlow := toNat_lowGroup v
  rw [Done, ne_eq, ((byte_bits _).2.2 (by omega)).1, Fits]
  cases hs : ty.signed <;> simp <;> omega

theorem value_lowGroup {v : ℤ} (hv : ty.Fits 7 v) : ty.value [lowGroup v] = v := by
  have hlow := toNat_lowGroup v
  rw [Fits] at hv
  rw [value]
  cases hs : ty.signed <;> simp [hs, groupValue] at hv ⊢ <;> omega

theorem Fits.div {room : ℕ} {v : ℤ} (hroom : 0 < room) (hv : ty.Fits (7 * (room + 1)) v) :
    ty.Fits (7 * room) (v / 128) := by
  obtain ⟨k, hk⟩ : ∃ k, 7 * room = k + 1 := ⟨7 * room - 1, by omega⟩
  rw [Fits, Nat.mul_succ, hk, Nat.add_right_comm, Nat.add_sub_cancel] at hv
  rw [Fits, hk, Nat.add_sub_cancel]
  simp only [pow_add] at hv ⊢
  cases hs : ty.signed <;> simp [hs] at hv ⊢ <;> omega

theorem fromLoop_spec {room : ℕ} {v : ℤ} (hroom : 0 < room) (hv : ty.Fits (7 * room) v) :
    IsEncoding (ty.fromLoop room v) ∧ (ty.fromLoop room v).length ≤ room ∧
      ty.value (ty.fromLoop room v) = v := by
  induction room generalizing v with
  | zero => cases hroom
  | succ room ih =>
    have hlow := toNat_lowGroup v
    rw [fromLoop]
    split_ifs with hdone
    · rw [done_iff] at hdone
      exact ⟨by rw [IsEncoding, if_pos (by omega)], Nat.succ_pos _, value_lowGroup hdone⟩
    · have hroom : 0 < room := by
        by_contra hzero
        obtain rfl : room = 0 := by omega
        exact hdone ((done_iff v).mpr hv)
      obtain ⟨henc, hlen, hvalue⟩ := ih hroom (hv.div hroom)
      have hhigh := ((byte_bits (lowGroup v)).2.2 (by omega)).2
      refine ⟨by rwa [IsEncoding, if_neg (by omega)], Nat.succ_le_succ hlen, ?_⟩
      rw [value_cons henc, hvalue, hhigh]
      omega

/-- **LEB128 is exact.** A number is read back from its own encoding, and any code is read if and
only if it starts with an encoding of at most `⌈N / 7⌉` bytes of a number that fits in `N` bits:
then that number is returned, and the code after the encoding. -/
theorem leb128_exact (ty : VarType) :
    (∀ v rest, ty.Fits ty.bits v → ty.read (ty.fromValue v ++ rest) = .ok (v, rest)) ∧
    ∀ code v rest, ty.read code = .ok (v, rest) ↔ ∃ enc, code = enc ++ rest ∧ IsEncoding enc ∧
      enc.length ≤ (ty.bits + 6) / 7 ∧ ty.value enc = v ∧ ty.Fits ty.bits v := by
  have hneeded : (ty.bits + 6) / 7 = ty.bytesNeeded := by
    cases ty <;> rfl
  refine (and_iff_right_of_imp fun hread v rest hv => ?_).mpr fun code v rest => ?_
  · have hloop : ty.Fits (7 * ty.bytesNeeded) v := by
      rw [Fits] at *
      cases ty <;> simp [bits, bytesNeeded, signed] at * <;> omega
    have hfrom : ty.fromValue v = ty.fromLoop ty.bytesNeeded v := by
      rw [fromValue]
      split
      · next hone =>
        rw [hone] at hloop ⊢
        rw [fromLoop, if_pos ((done_iff v).mpr hloop)]
      · rfl
    have hpos : 0 < ty.bytesNeeded := by
      cases ty <;> decide
    obtain ⟨henc, hlen, hvalue⟩ := fromLoop_spec hpos hloop
    rw [hfrom, hread, hneeded]
    exact ⟨_, rfl, henc, hlen, hvalue, hv⟩
  · rw [read, bind_eq_ok, hneeded]
    constructor
    · rintro ⟨⟨enc, _⟩, hrun, heq⟩
      obtain ⟨hcode, henc, hlen, hlast⟩ := fromCode_eq_ok.mp hrun
      rw [Nat.zero_add] at hlen hlast
      have hfits := (fits_iff henc hlen).mp hlast
      cases heq
      rw [toValue_eq henc hlen hfits]
      exact ⟨enc, hcode, henc, hlen, rfl, hfits⟩
    · rintro ⟨enc, rfl, henc, hlen, rfl, hfits⟩
      refine ⟨_, fromCode_eq_ok.mpr ⟨rfl, henc, ?_⟩,
        congrArg Except.ok (Prod.ext (toValue_eq henc hlen hfits) rfl)⟩
      rw [Nat.zero_add]
      exact ⟨hlen, (fits_iff henc hlen).mpr hfits⟩

end VarType

end Inery.Wasm
