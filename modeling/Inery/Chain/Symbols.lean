import Inery.Chain.Types
import Mathlib.Data.List.DropRight
import Mathlib.Data.Nat.Digits.Lemmas

/-!
# Token symbols (`symbol.hpp`)

The low byte of a symbol is its precision, the other bytes are its letters.  Strings are lists
of characters, of which the code reads the part before the first NUL where it goes through
`c_str`.
-/

namespace Inery.Chain

open Foundation List Char

/-! ## Strings and numbers -/

/-- `std::isspace`. -/
def isSpace (c : Char) : Bool := c = ' ' ∨ 9 ≤ c.toNat ∧ c.toNat ≤ 13

variable (s : List Char)

def trim : List Char := (s.dropWhile isSpace).rdropWhile isSpace

/-- What decimal digits stand for. -/
def decimal? (ds : List Char) : Option ℕ :=
  if ds ≠ [] ∧ ds.all isDigit then some (Nat.ofDigitChars 10 ds 0) else none

/-- `fc::to_int64`: an optional sign and digits. -/
def toInt64 : Result ℤ :=
  let digits := if s.head? = some '-' ∨ s.head? = some '+' then s.tail else s
  match decimal? digits with
  | none => .error ⟨.parseErrorException, "Couldn't parse int64_t"⟩
  | some n => do
    let value : ℤ := if s.head? = some '-' then -n else n
    ineAssert (-2 ^ 63 ≤ value ∧ value < 2 ^ 63) .parseErrorException "Couldn't parse int64_t"
    pure value

/-! ## Symbols -/

def isUpper (c : Char) : Bool := 'A' ≤ c ∧ c ≤ 'Z'

/-- C++ leaves a shift by 64 bits undefined. -/
def shiftUndefined : ChainException := ⟨.undefinedBehaviour, "shift by the width of the type"⟩

/-- The loop of `string_to_symbol` from letter `i` on. -/
def stringToSymbolFrom : ℕ → ℕ → List Char → Result ℕ
  | _, result, [] => pure result
  | i, result, c :: str => do
    ineAssert (isUpper c) .symbolTypeException "invalid character in symbol name"
    ensure (8 * (i + 1) < 64) shiftUndefined
    stringToSymbolFrom (i + 1) (result ||| c.toNat <<< (8 * (i + 1))) str

/-- What `c_str` makes of a string. -/
def cStr : List Char := s.takeWhile (·.toNat ≠ 0)

/-- `string_to_symbol`, which reads its string up to the first NUL. -/
def stringToSymbol (precision : ℕ) (str : List Char) : Result UInt64 := do
  let result ← stringToSymbolFrom 0 0 (cStr str)
  pure (UInt64.ofNat (result ||| precision))

/-- The loop of `symbol::name`; seven rounds use up the 56 bits. -/
def nameLoop : ℕ → ℕ → List Char
  | 0, _ => []
  | fuel + 1, v => if 0 < v then ofNat (v &&& 0xff) :: nameLoop fuel (v >>> 8) else []

def symbolName (v : UInt64) : List Char := nameLoop 7 (v.toNat >>> 8)

def symbolDecimals (v : UInt64) : ℕ := v.toNat &&& 0xff

def maxPrecision : ℕ := 18

/-- `symbol`, with what its constructor asserts. -/
structure Symbol where
  value : UInt64
  valid : symbolDecimals value ≤ maxPrecision ∧ ∀ c ∈ symbolName value, isUpper c
deriving DecidableEq

namespace Symbol

def decimals (x : Symbol) : ℕ := symbolDecimals x.value

def name (x : Symbol) : List Char := symbolName x.value

/-- The constructor. -/
def make (v : UInt64) : Result Symbol :=
  if h : symbolDecimals v ≤ maxPrecision ∧ (symbolName v).all isUpper then
    .ok ⟨v, h.1, all_eq_true.mp h.2⟩
  else .error ⟨.symbolTypeException, "invalid symbol: ${name}"⟩

def precPart : List Char := s.takeWhile (· ≠ ',')

def namePart : List Char := (s.dropWhile (· ≠ ',')).tail

/-- `symbol::from_string`.  The precision is narrowed to eight bits before it is checked. -/
def fromString (str : List Char) : Result Symbol := do
  let s := trim str
  ineAssert (s ≠ []) .symbolTypeException "creating symbol from empty string"
  ineAssert (',' ∈ s) .symbolTypeException "missing comma in symbol"
  let precision ← toInt64 (precPart s)
  let p := (precision % 2 ^ 8).toNat
  ineAssert (p ≤ maxPrecision) .symbolTypeException "precision ${p} should be <= 18"
  let v ← stringToSymbol p (namePart s)
  make v

def toString (x : Symbol) : List Char := Nat.toDigits 10 x.decimals ++ ',' :: x.name

/-- A number of at most 18, a comma and one to seven letters. -/
def Written (p : ℕ) (name : List Char) : Prop :=
  ∃ digits, trim s = digits ++ ',' :: name ∧ decimal? digits = some p ∧ p ≤ maxPrecision ∧
    1 ≤ name.length ∧ name.length ≤ 7 ∧ ∀ c ∈ name, isUpper c

/-- The precision is a plain number of eight bits, and one to seven characters other than NUL
follow the comma. -/
def Plain (prec name : List Char) : Prop :=
  (∃ p < 2 ^ 8, decimal? prec = some p) ∧ name ≠ [] ∧ name.length ≤ 7 ∧ ∀ c ∈ name, c.toNat ≠ 0

/-- The text of a 64-bit number, which may have a sign. -/
def Numeral (text : List Char) (value : ℤ) : Prop :=
  ∃ sign digits n, text = sign ++ digits ∧ decimal? digits = some n ∧
    (sign = ['-'] ∧ value = -n ∨ (sign = ['+'] ∨ sign = []) ∧ value = n) ∧
    -2 ^ 63 ≤ value ∧ value < 2 ^ 63

/-- Strings that are not caught: the low byte of the precision is at most 18 and the first eight
characters up to a NUL are letters, but the precision has a sign or more than eight bits, or the
name is empty, has a NUL or is longer than seven. -/
def Slips : Prop :=
  ∃ prec name value, trim s = prec ++ ',' :: name ∧ Numeral prec value ∧
    value % 2 ^ 8 ≤ maxPrecision ∧ (∀ c ∈ (cStr name).take 8, isUpper c) ∧ ¬ Plain prec name

end Symbol

/-! ## Letters and bytes -/

/-- The bytes of a name, the first letter lowest. -/
def packName (cs : List Char) : ℕ := Nat.ofDigits (2 ^ 8) (cs.map toNat)

theorem packName_cons (c : Char) (cs : List Char) :
    packName (c :: cs) = c.toNat + 2 ^ 8 * packName cs := rfl

theorem isUpper_toNat {c : Char} (h : isUpper c = true) : 65 ≤ c.toNat ∧ c.toNat ≤ 90 := by
  rw [isUpper, decide_eq_true_eq] at h
  exact ⟨le_def.mp h.1 , le_def.mp h.2⟩

theorem stringToSymbolFrom_eq_ok {i result v : ℕ} {str : List Char} (hi : i ≤ 7)
    (hresult : result < 2 ^ (8 * (i + 1))) :
    stringToSymbolFrom i result str = .ok v ↔ (∀ c ∈ str, isUpper c) ∧
      i + str.length ≤ 7 ∧ v = result + 2 ^ (8 * (i + 1)) * packName str := by
  induction str generalizing i result with
  | nil => simp [stringToSymbolFrom, packName, pure_eq_ok, hi, eq_comm (a := v)]
  | cons c str ih =>
    simp only [stringToSymbolFrom, bind_eq_ok, ineAssert_eq_ok, ensure_eq_ok, exists_and_left,
      exists_const, forall_mem_cons, length_cons, packName_cons, and_assoc]
    refine and_congr_right fun hc => ?_
    have hc := isUpper_toNat hc
    -- the letter goes above what is there
    have hor : result ||| c.toNat <<< (8 * (i + 1)) = result + 2 ^ (8 * (i + 1)) * c.toNat := by
      rw [Nat.or_comm, Nat.shiftLeft_eq, Nat.mul_comm, ← Nat.two_pow_add_eq_or_of_lt hresult,
        Nat.add_comm]
    have hwide : 2 ^ (8 * (i + 1 + 1)) = 2 ^ (8 * (i + 1)) * 2 ^ 8 := by
      rw [← Nat.pow_add, Nat.mul_succ 8 (i + 1)]
    by_cases hmore : i < 7
    · have hnext : result + 2 ^ (8 * (i + 1)) * c.toNat < 2 ^ (8 * (i + 1 + 1)) := by
        have hle := Nat.mul_le_mul_left (2 ^ (8 * (i + 1))) (show c.toNat ≤ 90 from hc.2)
        omega
      rw [hor, ih hmore hnext, hwide, Nat.mul_add (2 ^ (8 * (i + 1))), Nat.mul_assoc, Nat.add_assoc]
      constructor
      · rintro ⟨-, hup, hle, hv⟩
        exact ⟨hup, by omega, hv⟩
      · rintro ⟨hup, hle, hv⟩
        exact ⟨by omega, hup, by omega, hv⟩
    · constructor
      · rintro ⟨h, -⟩
        omega
      · rintro ⟨-, h, -⟩
        omega

theorem stringToSymbolFrom_eq_error {i : ℕ} (hi : i ≤ 7) (result : ℕ) (str : List Char) :
    stringToSymbolFrom i result str = .error shiftUndefined ↔
      8 ≤ i + str.length ∧ ∀ c ∈ str.take (8 - i), isUpper c := by
  induction str generalizing i result with
  | nil =>
    refine iff_of_false nofun fun h => ?_
    have hle : 8 ≤ i + 0 := h.1
    omega
  | cons c str ih =>
    rw [show 8 - i = (7 - i) + 1 by omega, take_succ_cons, forall_mem_cons, length_cons]
    by_cases hc : isUpper c = true
    swap
    · refine iff_of_false (fun h => ?_) fun h => hc h.2.1
      rw [stringToSymbolFrom, ineAssert, ensure_neg hc] at h
      cases h
    rw [stringToSymbolFrom, ineAssert, ensure_pos hc, ok_bind]
    by_cases hmore : i < 7
    · rw [ensure_pos (by omega), ok_bind, ih hmore, show 8 - (i + 1) = 7 - i by omega]
      exact and_congr (by omega) (and_iff_right hc).symm
    · rw [ensure_neg (by omega), show 7 - i = 0 by omega]
      exact iff_of_true rfl ⟨by omega, hc, nofun⟩

theorem nameLoop_eq {fuel v : ℕ} (h : v < (2 ^ 8) ^ fuel) :
    nameLoop fuel v = (Nat.digits (2 ^ 8) v).map ofNat := by
  induction fuel generalizing v with
  | zero =>
    obtain rfl : v = 0 := by simpa using h
    rfl
  | succ fuel ih =>
    rw [nameLoop]
    split
    · next hv =>
      rw [Nat.pow_succ] at h
      rw [Nat.digits_def' (by decide) hv, map_cons, Nat.shiftRight_eq_div_pow, ih (by omega)]
      rw [show v &&& 0xff = v % 2 ^ 8 from Nat.and_two_pow_sub_one_eq_mod v 8]
    · obtain rfl : v = 0 := by omega
      rfl

variable {v : UInt64} {p : ℕ} {cs : List Char}

theorem symbolName_eq (v : UInt64) :
    symbolName v = (Nat.digits (2 ^ 8) (v.toNat / 2 ^ 8)).map ofNat := by
  have hv := v.toNat_lt
  rw [symbolName, Nat.shiftRight_eq_div_pow, nameLoop_eq (show _ < (2 ^ 8) ^ 7 by omega)]

theorem length_symbolName (v : UInt64) : (symbolName v).length ≤ 7 := by
  have hv := v.toNat_lt
  rw [symbolName_eq, length_map, Nat.digits_length_le_iff (by decide)]
  omega

theorem value_eq_iff (hp : p < 2 ^ 8) (hcs : ∀ c ∈ cs, isUpper c) (hlen : cs.length ≤ 7) :
    v = UInt64.ofNat (p + 2 ^ 8 * packName cs) ↔ symbolDecimals v = p ∧ symbolName v = cs := by
  have hlow : symbolDecimals v = v.toNat % 2 ^ 8 := Nat.and_two_pow_sub_one_eq_mod _ 8
  have hbytes : ∀ d ∈ cs.map toNat, 0 < d ∧ d < 2 ^ 8 := forall_mem_map.mpr fun c hc => by
    have := isUpper_toNat (hcs c hc)
    omega
  have hlt : packName cs < (2 ^ 8) ^ 7 := by
    refine (Nat.ofDigits_lt_base_pow_length (by decide) fun d hd => (hbytes d hd).2).trans_le ?_
    exact Nat.pow_le_pow_right (by decide) (by rwa [length_map])
  rw [hlow, symbolName_eq]
  constructor
  · rintro rfl
    rw [UInt64.toNat_ofNat_of_lt' (show _ < 2 ^ 64 by omega)]
    refine ⟨by omega, ?_⟩
    rw [show (p + 2 ^ 8 * packName cs) / 2 ^ 8 = packName cs by omega, packName,
      Nat.digits_ofDigits _ (by decide) _ (fun d hd => (hbytes d hd).2)
        fun hne => (hbytes _ (getLast_mem hne)).1.ne', map_map]
    simp [Function.comp_def]
  · rintro ⟨hd, rfl⟩
    rw [packName, map_map, map_congr_left (g := id) fun d hd => ?_, map_id, Nat.ofDigits_digits,
      ← hd, Nat.mod_add_div, UInt64.ofNat_toNat]
    have hbyte := Nat.digits_lt_base (by decide) hd
    rw [Function.comp_apply, ofNat, dif_pos (.inl (by omega))]
    rfl

theorem stringToSymbol_eq_ok (hp : p < 2 ^ 8) {str : List Char} :
    stringToSymbol p str = .ok v ↔ (∀ c ∈ cStr str, isUpper c) ∧ (cStr str).length ≤ 7 ∧
      symbolDecimals v = p ∧ symbolName v = cStr str := by
  simp only [stringToSymbol, bind_eq_ok, pure_eq_ok,
    stringToSymbolFrom_eq_ok (Nat.zero_le 7) (show 0 < _ by decide)]
  constructor
  · rintro ⟨r, ⟨hup, hlen, rfl⟩, rfl⟩
    rw [Nat.zero_add, ← Nat.two_pow_add_eq_or_of_lt hp, Nat.add_comm]
    exact ⟨hup, by omega, (value_eq_iff hp hup (by omega)).mp rfl⟩
  · rintro ⟨hup, hlen, hv⟩
    refine ⟨_, ⟨hup, by omega, rfl⟩, ?_⟩
    rw [Nat.zero_add, ← Nat.two_pow_add_eq_or_of_lt hp, Nat.add_comm]
    exact ((value_eq_iff hp hup hlen).mpr hv).symm

/-! ## Strings -/

theorem decimal?_eq_some {ds : List Char} :
    decimal? ds = some p ↔ ds ≠ [] ∧ (∀ c ∈ ds, c.isDigit) ∧ Nat.ofDigitChars 10 ds 0 = p := by
  simp [decimal?, and_assoc]

theorem decimal?_toDigits (n : ℕ) : decimal? (Nat.toDigits 10 n) = some n :=
  decimal?_eq_some.mpr ⟨Nat.toDigits_ne_nil,
    fun _ hc => Nat.isDigit_of_mem_toDigits (by decide) (by decide) hc,
    Nat.ofDigitChars_ten_toDigits⟩

theorem toInt64_eq_ok {text : List Char} {value : ℤ} :
    toInt64 text = .ok value ↔ Symbol.Numeral text value := by
  constructor
  · intro h
    unfold toInt64 at h
    dsimp only at h
    split at h
    · cases h
    next n hn =>
      simp only [bind_eq_ok, ineAssert_eq_ok, pure_eq_ok, exists_const] at h
      obtain ⟨hrange, rfl⟩ := h
      split at hn
      next hsign =>
        obtain ⟨c, digits, rfl⟩ := exists_cons_of_ne_nil (l := text) (by rintro rfl; simp at hsign)
        refine ⟨[c], digits, n, rfl, hn, ?_, hrange⟩
        rcases hsign with hc | hc <;> cases hc
        · exact .inl ⟨rfl, rfl⟩
        · exact .inr ⟨.inl rfl, rfl⟩
      next hsign =>
        refine ⟨[], text, n, rfl, hn, .inr ⟨.inr rfl, ?_⟩, hrange⟩
        exact if_neg fun hminus => hsign (.inl hminus)
  · rintro ⟨sign, digits, n, rfl, hn, hsign, hrange⟩
    have hhead : ∀ c, c.isDigit = false → digits.head? ≠ some c := fun c hc hd => by
      rw [(decimal?_eq_some.mp hn).2.1 c (mem_of_mem_head? hd)] at hc
      cases hc
    unfold toInt64
    rcases hsign with ⟨rfl, rfl⟩ | ⟨rfl | rfl, rfl⟩ <;>
    · simp only [nil_append, singleton_append, head?_cons, tail_cons, hhead '-' rfl, hhead '+' rfl,
        Option.some.injEq, Char.reduceEq, true_or, or_true, or_self, if_true, if_false, hn]
      rw [ineAssert, ensure_pos hrange]
      rfl

theorem toInt64_decimal {ds : List Char} (h : decimal? ds = some p) (hp : p < 2 ^ 63) :
    toInt64 ds = .ok (p : ℤ) :=
  toInt64_eq_ok.mpr ⟨[], ds, p, rfl, h, .inr ⟨.inr rfl, rfl⟩, by omega, by omega⟩

theorem trim_eq_self {s : List Char} (h : ∀ c ∈ s, isSpace c = false) : trim s = s := by
  have hdrop : s.dropWhile isSpace = s := dropWhile_eq_self_iff.mpr fun hl => by
    rw [h _ (getElem_mem hl)]
    exact Bool.false_ne_true
  rw [trim, hdrop, rdropWhile_eq_self_iff]
  intro hne
  rw [h _ (getLast_mem hne)]
  exact Bool.false_ne_true

theorem isSpace_of_lt {c : Char} (h : 32 < c.toNat) : isSpace c = false := by
  rw [isSpace, decide_eq_false_iff_not]
  rintro (rfl | hc)
  · exact absurd h (by decide)
  · omega

theorem isDigit_toNat {c : Char} (h : c.isDigit = true) : 48 ≤ c.toNat ∧ c.toNat ≤ 57 := by
  simp only [isDigit, Bool.and_eq_true, decide_eq_true_eq] at h
  exact h

theorem comma_notMem {ds : List Char} (h : decimal? ds = some p) : ',' ∉ ds := fun hmem =>
  absurd ((decimal?_eq_some.mp h).2.1 _ hmem) (by decide)

namespace Symbol

variable {s : List Char} {x : Symbol}

theorem make_eq_ok : make v = .ok x ↔ v = x.value := by
  unfold make
  split
  case isTrue h => exact ⟨by rintro ⟨⟩; rfl, by rintro rfl; rfl⟩
  case isFalse h => exact ⟨nofun, by rintro rfl; exact absurd (x.valid.imp_right all_eq_true.mpr) h⟩

theorem parts_append {digits : List Char} (h : ',' ∉ digits) (rest : List Char) :
    precPart (digits ++ ',' :: rest) = digits ∧ namePart (digits ++ ',' :: rest) = rest := by
  have hall : ∀ c ∈ digits, decide (c ≠ ',') = true := fun c hc =>
    decide_eq_true fun heq => h (heq ▸ hc)
  rw [precPart, namePart, takeWhile_append_of_pos hall, dropWhile_append_of_pos hall]
  simp

theorem append_parts (h : ',' ∈ s) : precPart s ++ ',' :: namePart s = s := by
  obtain ⟨digits, rest, rfl, hcomma⟩ := eq_append_cons_of_mem h
  obtain ⟨hprec, hname⟩ := parts_append hcomma rest
  rw [hprec, hname]

theorem fromString_eq_ok : fromString s = .ok x ↔ ',' ∈ trim s ∧
    ∃ n, toInt64 (precPart (trim s)) = .ok n ∧ x.decimals = (n % 2 ^ 8).toNat ∧
      x.name = cStr (namePart (trim s)) := by
  have hbyte (n : ℤ) : (n % 2 ^ 8).toNat < 2 ^ 8 := by omega
  simp only [fromString, bind_eq_ok, ineAssert_eq_ok, make_eq_ok, stringToSymbol_eq_ok (hbyte _),
    name, decimals]
  constructor
  · rintro ⟨-, -, -, hcomma, n, hn, -, -, v, ⟨-, -, hd, hname⟩, rfl⟩
    exact ⟨hcomma, n, hn, hd, hname⟩
  · rintro ⟨hcomma, n, hn, hd, hname⟩
    exact ⟨(), ne_nil_of_mem hcomma, (), hcomma, n, hn, (), hd ▸ x.valid.1, x.value,
      ⟨hname ▸ x.valid.2, hname ▸ length_symbolName _, hd, hname⟩, rfl⟩

theorem notMem_zero {cs : List Char} (h : ∀ c ∈ cs, isUpper c) : cStr cs = cs :=
  takeWhile_eq_self_iff.mpr fun c hc => by
    have := isUpper_toNat (h c hc)
    simp only [ne_eq, decide_eq_true_eq]
    omega

theorem fromString_of_trim {digits : List Char} (hs : trim s = digits ++ ',' :: x.name)
    (hdigits : decimal? digits = some x.decimals) : fromString s = .ok x := by
  have hp : x.decimals ≤ 18 := x.valid.1
  obtain ⟨hprec, hname⟩ := parts_append (comma_notMem hdigits) x.name
  rw [fromString_eq_ok, hs, hprec, hname]
  exact ⟨mem_append_right digits mem_cons_self, _, toInt64_decimal hdigits (by omega), by omega,
    (notMem_zero x.valid.2).symm⟩

theorem exists_of_written {name : List Char} (h : Written s p name) :
    ∃ x, fromString s = .ok x ∧ x.decimals = p ∧ x.name = name := by
  obtain ⟨digits, hs, hdigits, hp, -, hlen, hup⟩ := h
  have hp8 : p < 2 ^ 8 := Nat.lt_of_le_of_lt hp (by decide)
  obtain ⟨v, rfl, rfl⟩ : ∃ v, symbolDecimals v = p ∧ symbolName v = name :=
    ⟨_, (value_eq_iff hp8 hup hlen).mp rfl⟩
  exact ⟨⟨v, hp, hup⟩, fromString_of_trim hs hdigits, rfl, rfl⟩

theorem toInt64_ne_undefined (text : List Char) : toInt64 text ≠ .error shiftUndefined := by
  rw [toInt64]
  dsimp only
  split
  · nofun
  · exact bind_pure_ne_error fun h => by cases (ineAssert_eq_error.mp h).2

theorem fromString_eq_error : fromString s = .error shiftUndefined ↔ ',' ∈ trim s ∧
    ∃ n, toInt64 (precPart (trim s)) = .ok n ∧ (n % 2 ^ 8).toNat ≤ maxPrecision ∧
      8 ≤ (cStr (namePart (trim s))).length ∧
        ∀ c ∈ (cStr (namePart (trim s))).take 8, isUpper c := by
  have hloop := stringToSymbolFrom_eq_error (Nat.zero_le 7) 0 (cStr (namePart (trim s)))
  rw [Nat.zero_add] at hloop
  rw [← hloop]
  constructor
  · intro h
    simp only [fromString, bind_eq_error, ineAssert_eq_error, ineAssert_eq_ok] at h
    rcases h with ⟨-, ⟨⟩⟩ |
      ⟨_, -, ⟨-, ⟨⟩⟩ | ⟨_, hcomma, h | ⟨n, hn, ⟨-, ⟨⟩⟩ | ⟨_, hp, h | ⟨v, -, h⟩⟩⟩⟩⟩
    · exact absurd h (toInt64_ne_undefined _)
    · rw [stringToSymbol, bind_eq_error] at h
      obtain h | ⟨_, -, ⟨⟩⟩ := h
      exact ⟨hcomma, n, hn, hp, h⟩
    · unfold make at h
      split at h <;> cases h
  · rintro ⟨hcomma, n, hn, hp, h⟩
    simp only [fromString, ineAssert, ensure_pos (ne_nil_of_mem hcomma), ensure_pos hcomma, hn,
      ensure_pos hp, stringToSymbol, h, ok_bind]
    rfl

theorem fromString_isOk {n : ℤ} (hcomma : ',' ∈ trim s) (hn : toInt64 (precPart (trim s)) = .ok n)
    (hp : (n % 2 ^ 8).toNat ≤ maxPrecision) (hup : ∀ c ∈ cStr (namePart (trim s)), isUpper c)
    (hlen : (cStr (namePart (trim s))).length ≤ 7) : ∃ x, fromString s = .ok x := by
  obtain ⟨v, hd, hv⟩ : ∃ v, symbolDecimals v = (n % 2 ^ 8).toNat ∧
      symbolName v = cStr (namePart (trim s)) := ⟨_, (value_eq_iff (by omega) hup hlen).mp rfl⟩
  exact ⟨⟨v, hd ▸ hp, hv ▸ hup⟩, fromString_eq_ok.mpr ⟨hcomma, n, hn, hd, hv⟩⟩

/-- A string that slips through is accepted, or shifts too far. -/
theorem Slips.undefined_or_ok (h : Slips s) :
    fromString s = .error shiftUndefined ∨ ∃ x, fromString s = .ok x ∧
      ¬ Written s x.decimals x.name := by
  obtain ⟨prec, name, value, hs, hvalue, hlow, hup, hplain⟩ := h
  have hcomma : ',' ∉ prec := by
    obtain ⟨sign, digits, n, rfl, hn, hsign, -⟩ := hvalue
    have := comma_notMem hn
    rcases hsign with ⟨rfl, -⟩ | ⟨rfl | rfl, -⟩ <;> simpa using this
  obtain ⟨hprec, hname⟩ := parts_append hcomma name
  rw [← hs] at hprec hname
  rw [← hprec, ← toInt64_eq_ok] at hvalue
  rw [← hname] at hup
  have hmem : ',' ∈ trim s := hs ▸ mem_append_right _ mem_cons_self
  have hp : (value % 2 ^ 8).toNat ≤ maxPrecision := by omega
  by_cases hlen : 8 ≤ (cStr (namePart (trim s))).length
  · exact .inl (fromString_eq_error.mpr ⟨hmem, value, hvalue, hp, hlen, hup⟩)
  rw [take_of_length_le (by omega)] at hup
  obtain ⟨x, hx⟩ := fromString_isOk hmem hvalue hp hup (by omega)
  refine .inr ⟨x, hx, ?_⟩
  rintro ⟨digits, hs', hdigits, hle, hpos, hseven, hletters⟩
  obtain ⟨hprec', hname'⟩ := parts_append (comma_notMem hdigits) x.name
  rw [← hs'] at hprec' hname'
  refine hplain ⟨⟨_, Nat.lt_of_le_of_lt hle (by decide), ?_⟩, ?_⟩
  · rw [← hprec, hprec', hdigits]
  · rw [← hname, hname']
    refine ⟨length_pos_iff.mp hpos, hseven, fun c hc => ?_⟩
    have := isUpper_toNat (hletters c hc)
    omega

theorem slips_of_undefined (h : fromString s = .error shiftUndefined) : Slips s := by
  obtain ⟨hcomma, n, hn, hp, hlen, hup⟩ := fromString_eq_error.mp h
  refine ⟨_, _, n, (append_parts hcomma).symm, toInt64_eq_ok.mp hn, by omega, hup, ?_⟩
  rintro ⟨-, -, hseven, -⟩
  have hcut : cStr (namePart (trim s)) <+: namePart (trim s) := takeWhile_prefix _
  have hle := hcut.length_le
  exact absurd (hlen.trans hle) (by omega)

theorem written_of_not_slips (h : ¬ Slips s) (hx : fromString s = .ok x) :
    Written s x.decimals x.name := by
  obtain ⟨hcomma, n, hn, hd, hname⟩ := fromString_eq_ok.mp hx
  have hp : x.decimals ≤ maxPrecision := x.valid.1
  have hplain : Plain (precPart (trim s)) (namePart (trim s)) := by
    by_contra hplain
    refine h ⟨_, _, n, (append_parts hcomma).symm, toInt64_eq_ok.mp hn, by omega, ?_, hplain⟩
    rw [← hname]
    exact fun c hc => x.valid.2 c (mem_of_mem_take hc)
  obtain ⟨⟨p, hlt, hdigits⟩, hne, -, hzero⟩ := hplain
  rw [cStr, takeWhile_eq_self_iff.mpr fun c hc => decide_eq_true (hzero c hc)] at hname
  obtain rfl : (p : ℤ) = n := by
    rw [toInt64_decimal hdigits (by omega)] at hn
    exact Except.ok.inj hn
  refine ⟨_, hname ▸ (append_parts hcomma).symm, ?_, hp, ?_, length_symbolName _, x.valid.2⟩
  · rw [hdigits, hd]
    congr 1
    omega
  · rw [hname]
    exact length_pos_iff.mpr hne

/-- **What `from_string` accepts.**  The shift stays defined and exactly the strings of the stated
form are accepted, unless the string is one that slips through.  What `to_string` prints is read
back as the symbol it was. -/
theorem symbol_from_string (s : List Char) :
    ((fromString s ≠ .error shiftUndefined ∧ ∀ p name,
        (∃ x, fromString s = .ok x ∧ x.decimals = p ∧ x.name = name) ↔ Written s p name) ↔
      ¬ Slips s) ∧
      ∀ x : Symbol, fromString x.toString = .ok x := by
  refine ⟨⟨?_, fun h => ⟨mt slips_of_undefined h, fun p name => ⟨?_, exists_of_written⟩⟩⟩,
    fun x => ?_⟩
  · rintro ⟨hdefined, h⟩ hslips
    obtain hundefined | ⟨x, hx, hnot⟩ := hslips.undefined_or_ok
    · exact hdefined hundefined
    · exact hnot ((h _ _).mp ⟨x, hx, rfl, rfl⟩)
  · rintro ⟨x, hx, rfl, rfl⟩
    exact written_of_not_slips h hx
  · have hdigits := decimal?_toDigits x.decimals
    have hspace : ∀ c ∈ x.toString, isSpace c = false := by
      intro c hc
      rcases mem_append.mp hc with hc | hc
      · have := isDigit_toNat ((decimal?_eq_some.mp hdigits).2.1 c hc)
        exact isSpace_of_lt (by omega)
      · rcases mem_cons.mp hc with rfl | hc
        · decide
        · have := isUpper_toNat (x.valid.2 c hc)
          exact isSpace_of_lt (by omega)
    exact fromString_of_trim (trim_eq_self hspace) hdigits

/-- 256 is taken for 0. -/
theorem from_string_narrows : ∃ s x, fromString s = .ok x ∧ x.decimals = 0 ∧
    ∀ p name, ¬ Written s p name := by
  obtain ⟨x, hx, hzero⟩ : ∃ x, fromString "256,INE".toList = .ok x ∧ x.decimals = 0 := by
    decide +kernel
  refine ⟨_, x, hx, hzero, ?_⟩
  rintro p name ⟨digits, hs, hdigits, hp, -⟩
  obtain ⟨hprec, -⟩ := parts_append (comma_notMem hdigits) name
  rw [← hs] at hprec
  rw [← hprec, show decimal? _ = some 256 by decide +kernel] at hdigits
  cases hdigits
  exact absurd hp (by decide)

end Symbol

end Inery.Chain
