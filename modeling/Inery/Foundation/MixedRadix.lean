import Mathlib.Tactic.Ring

/-!
# Digits to a list of radices

The most significant digit stands first.  The digits of a number determine it, and the
lexicographic order of the digits is the order of the numbers.
-/

namespace Inery.Foundation.MixedRadix

open List

def digits : List ℕ → ℕ → List ℕ
  | [], _ => []
  | r :: rs, n => n / rs.prod % r :: digits rs n

def value : List ℕ → List ℕ → ℕ
  | _ :: rs, d :: ds => d * rs.prod + value rs ds
  | _, _ => 0

theorem mem_digits {rs : List ℕ} {n d : ℕ} (h : d ∈ digits rs n) : ∃ r ∈ rs, ∃ m, d = m % r := by
  induction rs with
  | nil => cases h
  | cons r rs ih =>
    rcases mem_cons.mp h with rfl | h
    · exact ⟨r, mem_cons_self, _, rfl⟩
    · obtain ⟨r', hr', hd⟩ := ih h
      exact ⟨r', mem_cons_of_mem r hr', hd⟩

theorem value_digits (rs : List ℕ) (n : ℕ) : value rs (digits rs n) = n % rs.prod := by
  induction rs with
  | nil => simp [value, Nat.mod_one]
  | cons r rs ih => rw [digits, value, ih, prod_cons, Nat.mul_comm r, Nat.mod_mul, Nat.add_comm,
      Nat.mul_comm]

/-- A greater first digit outweighs what the others can make up. -/
theorem add_mul_lt_iff {q a b x y : ℕ} (hx : x < q) (hy : y < q) :
    x + q * a < y + q * b ↔ a < b ∨ a = b ∧ x < y := by
  have hoff : ∀ {a b x y : ℕ}, x < q → a < b → x + q * a < y + q * b := by
    intro a b x y hx hab
    have hstep := Nat.mul_le_mul_left q (Nat.succ_le_of_lt hab)
    rw [Nat.mul_succ] at hstep
    omega
  rcases lt_trichotomy a b with hab | rfl | hab
  · simp only [hab, true_or, iff_true]
    exact hoff hx hab
  · simp
  · simp only [hab.not_gt, hab.ne', false_and, or_false, iff_false, not_lt]
    exact (hoff hy hab).le

theorem digits_lt_iff (rs : List ℕ) (hpos : 0 < rs.prod) (m n : ℕ) :
    digits rs m < digits rs n ↔ m % rs.prod < n % rs.prod := by
  induction rs with
  | nil => simp [digits, Nat.mod_one]
  | cons r rs ih =>
    rw [prod_cons] at hpos
    have hrest : 0 < rs.prod := Nat.pos_of_mul_pos_left hpos
    rw [digits, digits, cons_lt_cons_iff, ih hrest, prod_cons, Nat.mul_comm r,
      Nat.mod_mul, Nat.mod_mul, add_mul_lt_iff (Nat.mod_lt m hrest) (Nat.mod_lt n hrest)]

end Inery.Foundation.MixedRadix
