import Inery.Chain.Types
import Inery.Foundation.MixedRadix
import Mathlib.Data.List.DropRight

/-!
# Names as strings (`name.hpp`, `name.cpp`)

A name holds twelve symbols of five bits and one of four, the first symbol in the highest
bits.
-/

namespace Inery.Chain.Name

open Foundation MixedRadix List

def charToSymbol (c : Char) : ℕ :=
  if 'a' ≤ c ∧ c ≤ 'z' then c.toNat - 'a'.toNat + 6
  else if '1' ≤ c ∧ c ≤ '5' then c.toNat - '1'.toNat + 1
  else 0

/-- The loop of `string_to_uint64_t` from position `i` on, and what follows it.  At the end of
the string it reads the terminating NUL, which adds nothing. -/
def stringToUint64From : ℕ → ℕ → List Char → ℕ
  | _, n, [] => n
  | i, n, c :: str =>
    if c.toNat ≠ 0 ∧ i < 12 then
      stringToUint64From (i + 1) (n ||| (charToSymbol c &&& 0x1f) <<< (64 - 5 * (i + 1))) str
    else if i = 12 then n ||| (charToSymbol c &&& 0x0f)
    else n

def stringToName (str : List Char) : Name := UInt64.ofNat (stringToUint64From 0 0 str)

def charmap : List Char := ".12345abcdefghijklmnopqrstuvwxyz".toList

/-- `name::to_string`.  The last character has four bits, the others have five;
the loop fills the text from its end, where the dots are trimmed. -/
def toChars (n : Name) : List Char :=
  let fromEnd := (range 13).map fun i =>
    let digit := if i = 0 then n.toNat % 16 else n.toNat / 16 / 32 ^ (i - 1) % 32
    charmap.getD digit '.'
  (fromEnd.dropWhile (· = '.')).reverse

/-- A string filled up to 13 symbols. -/
def padded (str : List Char) : List Char := str ++ replicate (13 - str.length) '.'

/-- The place of a symbol in the order `.`, `1` to `5`, `a` to `z`. -/
def rank (c : Char) : ℕ := charmap.idxOf c

/-! ## The symbols are digits -/

def radices : List ℕ := replicate 12 32 ++ [16]

def symbolOf (d : ℕ) : Char := charmap.getD d '.'

def symbols (v : Name) : List Char := (digits radices v.toNat).map symbolOf

theorem toChars_eq (v : Name) : v.toChars = (symbols v).rdropWhile (· = '.') := by
  rw [toChars, rdropWhile]
  congr 2
  simp [symbols, radices, digits, symbolOf, range_succ, replicate_succ, Nat.div_div_eq_div_mul]

theorem rank_symbolOf : ∀ d < 32, rank (symbolOf d) = d ∧ charToSymbol (symbolOf d) = d ∧
    (symbolOf d).toNat ≠ 0 := by
  decide

theorem mod_prod (v : Name) : v.toNat % radices.prod = v.toNat :=
  Nat.mod_eq_of_lt (v.toNat_lt.trans_eq (by decide))

theorem digits_lt (v : Name) : ∀ d ∈ digits radices v.toNat, d < 32 := by
  intro d hd
  obtain ⟨r, hr, m, rfl⟩ := mem_digits hd
  have hr' : 0 < r ∧ r ≤ 32 := (show ∀ r ∈ radices, 0 < r ∧ r ≤ 32 by decide) r hr
  exact (Nat.mod_lt m hr'.1).trans_le hr'.2

/-! ## Reading them back -/

theorem stringToUint64From_dots (i n k : ℕ) (str : List Char) :
    stringToUint64From i n (str ++ replicate k '.') = stringToUint64From i n str := by
  induction str generalizing i n with
  | cons c str ih => simp only [cons_append, stringToUint64From, ih]
  | nil =>
    induction k generalizing i with
    | zero => rfl
    | succ k ih =>
      have hdot : charToSymbol '.' = 0 := by decide
      simp only [nil_append] at ih
      simp only [nil_append, replicate_succ, stringToUint64From, hdot, Nat.zero_and,
        Nat.zero_shiftLeft, Nat.or_zero, ih, ite_self]

/-- Symbols shifted below what is there are added to it. -/
theorem or_shiftLeft {n d k : ℕ} (hn : 2 ^ (k + 5) ∣ n) (hd : d < 2 ^ 5) :
    n ||| d <<< k = n + d * 2 ^ k := by
  obtain ⟨m, rfl⟩ := hn
  have hlt : d * 2 ^ k < 2 ^ (k + 5) := by
    rw [Nat.pow_add, Nat.mul_comm (2 ^ k)]
    exact Nat.mul_lt_mul_of_pos_right hd (Nat.two_pow_pos k)
  rw [Nat.shiftLeft_eq, Nat.two_pow_add_eq_or_of_lt hlt]

theorem drop_radices : ∀ i < 12, radices.drop i = 32 :: radices.drop (i + 1) ∧
    (radices.drop (i + 1)).prod = 2 ^ (64 - 5 * (i + 1)) := by
  decide

/-- From position `i` on the loop adds what the digits from there on stand for. -/
theorem stringToUint64From_eq {i n : ℕ} {ds : List ℕ} (hi : i + ds.length = 13)
    (hn : 2 ^ (64 - 5 * i) ∣ n) (hds : ∀ d ∈ ds, d < 32) (hlast : ∀ d ∈ ds.getLast?, d < 16) :
    stringToUint64From i n (ds.map symbolOf) = n + value (radices.drop i) ds := by
  induction ds generalizing i n with
  | nil => simp [stringToUint64From, value]
  | cons d ds ih =>
    rw [forall_mem_cons] at hds
    obtain ⟨-, hsymbol, hchar⟩ := rank_symbolOf d hds.1
    rw [length_cons] at hi
    rw [map_cons, stringToUint64From, hsymbol]
    by_cases hlt : i < 12
    · obtain ⟨hdrop, hprod⟩ := drop_radices i hlt
      have hmask : d &&& 0x1f = d := (Nat.and_two_pow_sub_one_eq_mod d 5).trans
        (Nat.mod_eq_of_lt hds.1)
      have hwide : 64 - 5 * i = 64 - 5 * (i + 1) + 5 := by omega
      rw [if_pos ⟨hchar, hlt⟩, hmask, or_shiftLeft (hwide ▸ hn) hds.1, hdrop, value,
        hprod, ih (by omega) ?_ hds.2 ?_, Nat.add_assoc]
      · exact Nat.dvd_add ((Nat.pow_dvd_pow 2 (by omega)).trans hn) (Nat.dvd_mul_left _ d)
      · intro e he
        refine hlast e ?_
        rw [getLast?_cons, Option.mem_def.mp he]
        rfl
    · -- the last symbol has four bits
      obtain rfl : i = 12 := by omega
      obtain rfl : ds = [] := eq_nil_of_length_eq_zero (by omega)
      have hd : d < 16 := hlast d rfl
      have hmask : d &&& 0x0f = d := (Nat.and_two_pow_sub_one_eq_mod d 4).trans
        (Nat.mod_eq_of_lt hd)
      obtain ⟨m, rfl⟩ := hn
      rw [if_neg (by simp), if_pos rfl, hmask,
        ← Nat.two_pow_add_eq_or_of_lt (show d < 2 ^ (64 - 5 * 12) from hd)]
      simp [radices, value]

theorem padded_rdropWhile {l : List Char} (h : l.length = 13) :
    padded (l.rdropWhile (· = '.')) = l := by
  have hsplit := rdropWhile_append_rtakeWhile (p := (· = '.')) (l := l)
  have hdots : ∀ c ∈ l.rtakeWhile (· = '.'), c = '.' := fun c hc => by
    simpa using mem_rtakeWhile_imp hc
  have hlength := congrArg length hsplit
  rw [length_append, h] at hlength
  rw [padded, show 13 - (l.rdropWhile (· = '.')).length = (l.rtakeWhile (· = '.')).length by omega,
    ← eq_replicate_of_mem hdots]
  exact hsplit

theorem padded_toChars (v : Name) : padded v.toChars = symbols v := by
  rw [toChars_eq]
  exact padded_rdropWhile rfl

/-- **Names are their strings, in their order.** -/
theorem string_to_name_to_string :
    (∀ v : Name, stringToName v.toChars = v) ∧
      ∀ u v : Name, u < v ↔ (padded u.toChars).map rank < (padded v.toChars).map rank := by
  constructor
  · intro v
    have hread : stringToUint64From 0 0 (symbols v) = v.toNat := by
      rw [symbols, stringToUint64From_eq rfl (Nat.dvd_zero _) (digits_lt v), drop_zero,
        value_digits, mod_prod, Nat.zero_add]
      intro d hd
      rw [← Option.mem_def.mp hd |> Option.some.inj]
      exact Nat.mod_lt _ (by decide)
    rw [stringToName, ← stringToUint64From_dots 0 0 (13 - v.toChars.length), ← padded,
      padded_toChars, hread, UInt64.ofNat_toNat]
  · intro u v
    have hranks (v : Name) : (padded v.toChars).map rank = digits radices v.toNat := by
      rw [padded_toChars, symbols, map_map]
      exact (map_congr_left fun d hd => (rank_symbolOf d (digits_lt v d hd)).1).trans
        (map_id _)
    rw [hranks, hranks, digits_lt_iff _ (by decide), mod_prod, mod_prod, UInt64.lt_iff_toNat_lt]

end Inery.Chain.Name
