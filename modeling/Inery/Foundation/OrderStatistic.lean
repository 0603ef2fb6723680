import Mathlib.Data.List.Sort
import Mathlib.Data.Multiset.Count
import Mathlib.Data.List.GetD

/-!
# Order statistics of a finite multiset

`nthElement s k` is what `std::nth_element` leaves at position `k`: the element with index `k` in
the ascending order.  A bound is below it exactly when at most `k` elements are below the bound
(`le_nthElement_iff`), and all the rest follows from that.
-/

namespace Inery.Foundation

open List

variable (s : Multiset ℕ)

/-- The elements in ascending order.  `Multiset.sort` merges, which does not
evaluate in the kernel; insertion does. -/
def ascending : List ℕ :=
  Quot.liftOn s (List.insertionSort (· ≤ ·)) fun a b h =>
    List.Perm.eq_of_pairwise' (pairwise_insertionSort _ a) (pairwise_insertionSort _ b)
      (((perm_insertionSort _ a).trans h).trans (perm_insertionSort _ b).symm)

theorem pairwise_ascending : (ascending s).Pairwise (· ≤ ·) := by
  induction s using Quot.inductionOn with
  | h l => exact pairwise_insertionSort _ l

theorem coe_ascending : (ascending s : Multiset ℕ) = s := by
  induction s using Quot.inductionOn with
  | h l => exact Multiset.coe_eq_coe.mpr (perm_insertionSort _ l)

theorem length_ascending : (ascending s).length = s.card := by
  conv_rhs => rw [← coe_ascending s, Multiset.coe_card]

/-- The element at position `k` of the ascending order, `0` out of range. -/
def nthElement (k : ℕ) : ℕ := (ascending s).getD k 0

def countBelow (v : ℕ) : ℕ := s.countP (· < v)

theorem sorted_le_getD_iff {v : ℕ} : ∀ {l : List ℕ} {k : ℕ},
    l.Pairwise (· ≤ ·) → k < l.length → (v ≤ l.getD k 0 ↔ l.countP (· < v) ≤ k)
  | [], k, _, hk => absurd hk (Nat.not_lt_zero k)
  | x :: xs, k, hs, hk => by
      obtain ⟨hx, hxs⟩ := pairwise_cons.mp hs
      by_cases hxv : x < v
      · -- the head is below the bound, so it uses up one of the `k` places
        rw [countP_cons_of_pos (by simpa using hxv)]
        cases k with
        | zero => simp [hxv]
        | succ k =>
          rw [getD_cons_succ, sorted_le_getD_iff hxs (by simpa using hk)]
          omega
      · -- nothing after the head is below the bound either
        have hall : (x :: xs).countP (· < v) = 0 := by
          rw [countP_eq_zero]
          intro y hy
          rcases mem_cons.mp hy with rfl | hy
          · simpa using hxv
          · have := hx y hy
            simp only [decide_eq_true_eq]
            omega
        rw [hall]
        have hmem : (x :: xs).getD k 0 ∈ x :: xs := by
          rw [getD_eq_getElem _ _ hk]
          exact getElem_mem hk
        rcases mem_cons.mp hmem with heq | hmem
        · rw [heq]
          omega
        · have := hx _ hmem
          omega

variable {s : Multiset ℕ}

/-- **Counting characterisation.** At most `k` elements lie below `v` exactly
when `v` does not exceed the `k`-th element. -/
theorem le_nthElement_iff {k v : ℕ} (hk : k < s.card) :
    v ≤ nthElement s k ↔ countBelow s v ≤ k := by
  have hlen : k < (ascending s).length := by rwa [length_ascending]
  have hcount : countBelow s v = (ascending s).countP (· < v) := by
    conv_lhs => rw [countBelow, ← coe_ascending s]
    rw [Multiset.coe_countP]
  rw [nthElement, sorted_le_getD_iff (pairwise_ascending s) hlen, hcount]

theorem nthElement_mem {k : ℕ} (hk : k < s.card) : nthElement s k ∈ s := by
  have hlen : k < (ascending s).length := by rwa [length_ascending]
  have hmem : nthElement s k ∈ (ascending s : Multiset ℕ) := by
    rw [nthElement, getD_eq_getElem _ _ hlen, Multiset.mem_coe]
    exact getElem_mem hlen
  rwa [coe_ascending] at hmem

theorem nthElement_le {k u : ℕ} (hk : k < s.card) (hu : ∀ x ∈ s, x ≤ u) : nthElement s k ≤ u :=
  hu _ (nthElement_mem hk)

end Inery.Foundation
