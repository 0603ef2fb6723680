import Mathlib.Tactic.Linarith
import Mathlib.Tactic.Ring

/-!
# Metering with a decaying sum

A meter keeps a value that decays linearly with the time since it was last read and grows with every
use.  If it is bounded after every use, the uses within one decay window are bounded too: decay
takes at most about one more bound, since the gaps add up to less than the window, and rounding at
most one unit of value for each gap.
-/

namespace Inery.Foundation

variable {w gap v P K first s total : ℕ}

/-- The value after a gap, rounded down; nothing is left after a whole window. -/
def decay (w gap v : ℕ) : ℕ := if gap < w then v * (w - gap) / w else 0

theorem decay_le : decay w gap v ≤ v := by
  unfold decay
  split
  next hgap => exact Nat.div_le_of_le_mul (by
    rw [Nat.mul_comm w]
    exact Nat.mul_le_mul_left v (Nat.sub_le w gap))
  next => exact Nat.zero_le v

theorem decay_zero (hw : 0 < w) : decay w 0 v = v := by
  rw [decay, if_pos hw, Nat.sub_zero, Nat.mul_div_cancel v hw]

/-- What a gap takes away, scaled by the window. -/
theorem decay_loss (hw : 0 < w) (gap v : ℕ) : w * v ≤ w * decay w gap v + gap * (v + w) := by
  rcases Nat.eq_zero_or_pos gap with rfl | hpos
  · rw [decay_zero hw]
    exact Nat.le_add_right _ _
  · unfold decay
    split
    next hgap =>
      have hdiv : v * (w - gap) < w * (v * (w - gap) / w) + w := by
        have := Nat.lt_mul_div_succ (v * (w - gap)) hw
        rwa [Nat.mul_add, Nat.mul_one] at this
      have hsplit : v * (w - gap) + v * gap = v * w := by
        rw [← Nat.mul_add, Nat.sub_add_cancel (Nat.le_of_lt hgap)]
      have hround : w ≤ gap * w := Nat.le_mul_of_pos_left w hpos
      rw [Nat.mul_comm w v, Nat.mul_add, Nat.mul_comm gap v]
      omega
    next hgap =>
      have : w * v ≤ gap * v := Nat.mul_le_mul_right v (Nat.le_of_not_lt hgap)
      rw [Nat.mul_add]
      omega

/-- A value that a window full of equal uses could have built up does not grow above that,
whatever the gap: the decay takes away at least one use. -/
theorem decay_add_le {c : ℕ} (hw : 0 < w) (hgap : 0 < gap) (h : v ≤ w * c) :
    decay w gap v + c ≤ w * c := by
  unfold decay
  split
  next hlt =>
    have hleft : v * (w - gap) / w ≤ c * (w - gap) :=
      Nat.div_le_of_le_mul (by
        rw [← Nat.mul_assoc]
        exact Nat.mul_le_mul_right _ h)
    have hsplit : c * (w - gap) + c * gap = w * c := by
      rw [← Nat.mul_add, Nat.sub_add_cancel hlt.le, Nat.mul_comm]
    have hone : c ≤ c * gap := Nat.le_mul_of_pos_right c hgap
    omega
  next =>
    rw [Nat.zero_add]
    exact Nat.le_mul_of_pos_left c hw

/-- The readings of a meter from the first use on.  A use of `u` units grows
the value by `c`, no less than its share of the window, and leaves it within
the bound `K`. -/
inductive Metered (P w K first : ℕ) : (slot value total : ℕ) → Prop
  | start {u c v : ℕ} : P * u ≤ w * c → c ≤ v → w * v ≤ K → Metered P w K first first v u
  | idle {s s' v total : ℕ} : Metered P w K first s v total → s ≤ s' →
      Metered P w K first s' (decay w (s' - s) v) total
  | use {s s' v total u c : ℕ} : Metered P w K first s v total → s ≤ s' → P * u ≤ w * c →
      w * (decay w (s' - s) v + c) ≤ K →
      Metered P w K first s' (decay w (s' - s) v + c) (total + u)

/-- What has been used is the value, and what decay has taken from it. -/
structure MeterInv (P w K first slot value total : ℕ) : Prop where
  bound : w * value ≤ K
  order : first ≤ slot
  used : w * (P * total) ≤ w * w * value + (slot - first) * (K + w * w)

theorem MeterInv.idle {s' : ℕ} (hw : 0 < w) (h : MeterInv P w K first s v total) (hs : s ≤ s') :
    MeterInv P w K first s' (decay w (s' - s) v) total := by
  obtain ⟨gap, rfl⟩ := Nat.exists_eq_add_of_le hs
  rw [Nat.add_sub_cancel_left]
  refine ⟨(Nat.mul_le_mul_left w decay_le).trans h.bound, h.order.trans hs, ?_⟩
  have hloss : w * (w * v) ≤ w * (w * decay w gap v) + gap * (K + w * w) := by
    have hscaled := Nat.mul_le_mul_left w (decay_loss hw gap v)
    have hbound : gap * (w * v) ≤ gap * K := Nat.mul_le_mul_left gap h.bound
    calc w * (w * v) ≤ w * (w * decay w gap v + gap * (v + w)) := hscaled
      _ = w * (w * decay w gap v) + (gap * (w * v) + gap * (w * w)) := by ring
      _ ≤ w * (w * decay w gap v) + (gap * K + gap * (w * w)) := by omega
      _ = w * (w * decay w gap v) + gap * (K + w * w) := by ring
  have hgap : s + gap - first = (s - first) + gap := by
    have := h.order
    omega
  calc w * (P * total) ≤ w * w * v + (s - first) * (K + w * w) := h.used
    _ = w * (w * v) + (s - first) * (K + w * w) := by ring
    _ ≤ w * (w * decay w gap v) + gap * (K + w * w) + (s - first) * (K + w * w) := by omega
    _ = w * w * decay w gap v + (s + gap - first) * (K + w * w) := by
        rw [hgap]
        ring

theorem MeterInv.use {u c : ℕ} (h : MeterInv P w K first s v total) (hc : P * u ≤ w * c)
    (hbound : w * (v + c) ≤ K) : MeterInv P w K first s (v + c) (total + u) := by
  refine ⟨hbound, h.order, ?_⟩
  have hshare := Nat.mul_le_mul_left w hc
  have hused := h.used
  calc w * (P * (total + u)) = w * (P * total) + w * (P * u) := by ring
    _ ≤ w * w * v + (s - first) * (K + w * w) + w * (w * c) := by omega
    _ = w * w * (v + c) + (s - first) * (K + w * w) := by ring

theorem Metered.inv (hw : 0 < w) (h : Metered P w K first s v total) :
    MeterInv P w K first s v total := by
  induction h with
  | @start u c v hc hcv hbound =>
    refine ⟨hbound, le_rfl, ?_⟩
    have hshare := Nat.mul_le_mul_left w (hc.trans (Nat.mul_le_mul_left w hcv))
    calc w * (P * u) ≤ w * (w * v) := hshare
      _ ≤ w * w * v + (first - first) * (K + w * w) := by
          rw [Nat.mul_assoc]
          exact Nat.le_add_right _ _
  | idle _ hs ih => exact ih.idle hw hs
  | use _ hs hc hbound ih => exact (ih.idle hw hs).use hc hbound

/-- **Use within a window.** Over less than one window a meter admits at most
twice its bound, and a rounding term. -/
theorem Metered.total_le (hw : 0 < w) (h : Metered P w K first s v total) (hs : s < first + w) :
    P * total ≤ 2 * K + w * w := by
  have hinv := h.inv hw
  have hgap : s - first ≤ w := by omega
  have hscaled : w * (P * total) ≤ w * (2 * K + w * w) := by
    calc w * (P * total) ≤ w * w * v + (s - first) * (K + w * w) := hinv.used
      _ ≤ w * w * v + w * (K + w * w) := Nat.add_le_add_left (Nat.mul_le_mul_right _ hgap) _
      _ = w * (w * v) + w * (K + w * w) := by ring
      _ ≤ w * K + w * (K + w * w) := Nat.add_le_add_right (Nat.mul_le_mul_left w hinv.bound) _
      _ = w * (2 * K + w * w) := by ring
  exact Nat.le_of_mul_le_mul_left hscaled hw

end Inery.Foundation
