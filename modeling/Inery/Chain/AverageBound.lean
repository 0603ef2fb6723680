import Inery.Chain.ResourceUsage

/-!
# The moving average stays within what is added (`resource_limits_private.hpp`)

Each `add` rounds the decayed value down and the contribution up.  The errors do not add up: a
window full of equal additions is a fixed point, and no run of smaller ones, with any gaps, gets
above it.
-/

namespace Inery.Chain

open Foundation List Config

namespace UsageAccumulator

structure Addition where
  ordinal : ℕ
  units : ℕ
deriving DecidableEq

def addAll (w : ℕ) (acc : UsageAccumulator) (additions : List Addition) : Result UsageAccumulator :=
  additions.foldlM (fun acc a => acc.add a.units a.ordinal w) acc

/-- Additions up to `most` overflow nothing: neither the value with one more contribution,
nor its product with the decay's numerator. -/
structure NoOverflow (most w : ℕ) : Prop where
  value : w * contribution most w + contribution most w ≤ 2 ^ 64 - 1
  scaled : w * contribution most w * (w - 1) ≤ 2 ^ 64 - 1

def Ready (acc : UsageAccumulator) (ordinal : ℕ) : Prop := acc.lastOrdinal < ordinal ∨ acc = {}

variable {acc acc' : UsageAccumulator} {most units ordinal w : ℕ}

/-! ## One addition -/

theorem contribution_mono (hw : 0 < w) (h : units ≤ most) :
    contribution units w ≤ contribution most w := by
  have hlow : w * contribution units w <
      units * rateLimitingPrecision + w := mul_integerDivideCeil_lt hw
  have hhigh : most * rateLimitingPrecision ≤ w * contribution most w := le_mul_integerDivideCeil hw
  have hunits := Nat.mul_le_mul_right rateLimitingPrecision h
  have hlt : w * contribution units w < w * (contribution most w + 1) := by
    rw [Nat.mul_add, Nat.mul_one]
    omega
  exact Nat.le_of_lt_succ (Nat.lt_of_mul_lt_mul_left hlt)

/-- **The fixed point.** -/
theorem valueEx_added_le (hw : 0 < w) (hready : acc.Ready ordinal) (hunits : units ≤ most)
    (h : acc.valueEx ≤ w * contribution most w) :
    (acc.added units ordinal w).valueEx ≤ w * contribution most w := by
  have hcontrib : contribution units w ≤ contribution most w := contribution_mono hw hunits
  rw [valueEx_added hw]
  rcases hready with hlt | rfl
  · have hfixed := decay_add_le hw (Nat.sub_pos_of_lt hlt) h
    omega
  · have hempty : decay w (ordinal - 0) 0 ≤ 0 := decay_le
    have hone := Nat.le_mul_of_pos_left (contribution most w) hw
    simp only
    omega

theorem lastOrdinal_le (hready : acc.Ready ordinal) : acc.lastOrdinal ≤ ordinal := by
  rcases hready with hlt | rfl
  · exact hlt.le
  · exact Nat.zero_le ordinal

theorem integerDivideCeil_precision_le {v : ℕ} (h : v ≤ 2 ^ 64 - 1) :
    integerDivideCeil v rateLimitingPrecision ≤ 2 ^ 61 := by
  have hlt : rateLimitingPrecision * integerDivideCeil v rateLimitingPrecision <
      v + rateLimitingPrecision := mul_integerDivideCeil_lt (by decide)
  generalize integerDivideCeil v rateLimitingPrecision = c at hlt ⊢
  simp only [rateLimitingPrecision] at hlt
  omega

theorem NoOverflow.le_maxRawValue (h : NoOverflow most w) (hw : 0 < w) : most ≤ maxRawValue := by
  have hvalue := h.value
  have hmost : most * rateLimitingPrecision ≤ w * contribution most w := le_mul_integerDivideCeil hw
  exact (Nat.le_div_iff_mul_le (by decide)).mpr (by omega)

/-- **No addition throws.** -/
theorem exists_add (hno : NoOverflow most w) (hw : 0 < w)
    (hready : acc.Ready ordinal) (hunits : units ≤ most)
    (hvalue : acc.valueEx ≤ w * contribution most w) (hconsumed : acc.consumed ≤ 2 ^ 62) :
    ∃ acc', acc.add units ordinal w = .ok acc' ∧ acc'.consumed ≤ 2 ^ 62 := by
  have hcontrib : contribution units w ≤ contribution most w := contribution_mono hw hunits
  have hroom := hno.value
  have hraw := hno.le_maxRawValue hw
  have hrawmax : maxRawValue ≤ 2 ^ 45 := by decide
  refine ⟨_, add_eq_ok.mpr ⟨⟨⟨lastOrdinal_le hready, fun hlt hgap => ?_⟩,
    ⟨by omega, by omega, by omega, by omega⟩⟩, rfl⟩, ?_⟩
  · rw [Nat.le_div_iff_mul_le (by omega)]
    calc acc.valueEx * (w - (ordinal - acc.lastOrdinal))
        ≤ w * contribution most w * (w - 1) := Nat.mul_le_mul hvalue (by omega)
      _ ≤ 2 ^ 64 - 1 := hno.scaled
  · unfold added advanced
    split
    · -- only the first addition is at the ordinal of the accumulator
      next heq =>
        rcases hready with hlt | rfl
        · omega
        · simp only
          omega
    · have hdecayed : decay w (ordinal - acc.lastOrdinal) acc.valueEx ≤ acc.valueEx := decay_le
      have haverage := integerDivideCeil_precision_le
        (v := decay w (ordinal - acc.lastOrdinal) acc.valueEx) (by omega)
      simp only
      omega

/-- What an average can be when the value is at the fixed point. -/
theorem average_le (hw : 0 < w) (h : acc.valueEx ≤ w * contribution most w) :
    acc.average ≤ most + integerDivideCeil w rateLimitingPrecision := by
  have hP : 0 < rateLimitingPrecision := by decide
  have hfixed : w * contribution most w <
      most * rateLimitingPrecision + w := mul_integerDivideCeil_lt hw
  have haverage : rateLimitingPrecision * acc.average <
      acc.valueEx + rateLimitingPrecision := mul_integerDivideCeil_lt hP
  have hwindow : w ≤ rateLimitingPrecision *
      integerDivideCeil w rateLimitingPrecision := le_mul_integerDivideCeil hP
  have hlt : rateLimitingPrecision * acc.average < rateLimitingPrecision *
      (most + integerDivideCeil w rateLimitingPrecision + 1) := by
    rw [Nat.mul_add, Nat.mul_add, Nat.mul_one, Nat.mul_comm _ most]
    omega
  exact Nat.le_of_lt_succ (Nat.lt_of_mul_lt_mul_left hlt)

theorem valueEx_of_gap (hw : 0 < w) (hgap : acc.lastOrdinal + w ≤ ordinal)
    (h : acc.add units ordinal w = .ok acc') :
    acc'.valueEx = contribution units w := by
  obtain ⟨-, rfl⟩ := add_eq_ok.mp h
  rw [valueEx_added hw, decay, if_neg (by omega), Nat.zero_add]

/-! ## Runs -/

/-- The additions still to come, each at a later ordinal than the one before. -/
structure Scheduled (most : ℕ) (acc : UsageAccumulator) (additions : List Addition) : Prop where
  ready : ∀ a ∈ additions, acc.Ready a.ordinal
  increasing : additions.Pairwise fun a b => a.ordinal < b.ordinal
  units : ∀ a ∈ additions, a.units ≤ most

variable {additions : List Addition}

theorem Scheduled.tail {a : Addition} (h : Scheduled most acc (a :: additions))
    (hadd : acc.add a.units a.ordinal w = .ok acc') : Scheduled most acc' additions := by
  obtain ⟨-, rfl⟩ := add_eq_ok.mp hadd
  refine ⟨fun b hb => .inl ?_, h.increasing.of_cons, fun b hb =>
    h.units b (mem_cons_of_mem a hb)⟩
  rw [lastOrdinal_added]
  exact rel_of_pairwise_cons h.increasing hb

theorem valueEx_addAll_le (hw : 0 < w) (hsched : Scheduled most acc additions)
    (h : acc.valueEx ≤ w * contribution most w) (hrun : addAll w acc additions = .ok acc') :
    acc'.valueEx ≤ w * contribution most w := by
  induction additions generalizing acc with
  | nil =>
    cases hrun
    exact h
  | cons a additions ih =>
    unfold addAll at hrun
    rw [foldlM_cons, bind_eq_ok] at hrun
    obtain ⟨s, hs, hrun⟩ := hrun
    refine ih (hsched.tail hs) ?_ hrun
    obtain ⟨-, rfl⟩ := add_eq_ok.mp hs
    exact valueEx_added_le hw (hsched.ready a mem_cons_self)
      (hsched.units a mem_cons_self) h

theorem exists_addAll (hno : NoOverflow most w) (hw : 0 < w) (hsched : Scheduled most acc additions)
    (h : acc.valueEx ≤ w * contribution most w)
    (hconsumed : acc.consumed ≤ 2 ^ 62) : ∃ acc', addAll w acc additions = .ok acc' := by
  induction additions generalizing acc with
  | nil => exact ⟨acc, rfl⟩
  | cons a additions ih =>
    have hready := hsched.ready a mem_cons_self
    have hunits := hsched.units a mem_cons_self
    obtain ⟨s, hs, hconsumed'⟩ := exists_add hno hw hready hunits h hconsumed
    have hvalue : s.valueEx ≤ w * contribution most w := by
      obtain ⟨-, rfl⟩ := add_eq_ok.mp hs
      exact valueEx_added_le hw hready hunits h
    obtain ⟨acc', hrun⟩ := ih (hsched.tail hs) hvalue hconsumed'
    refine ⟨acc', ?_⟩
    unfold addAll
    rw [foldlM_cons, hs, ok_bind]
    exact hrun

/-- **The moving average is bounded by what is added.** Take any window, and any additions at
strictly increasing ordinals, none of more than `most` units.  If these overflow nothing, no
addition throws, and the average is at most `most` and the window over the precision rounded up.  An
addition after a gap of at least a window leaves its own contribution only. -/
theorem moving_average_bounded (w most : ℕ) (hw : 0 < w)
    (additions : List Addition) (hincreasing : additions.Pairwise fun a b => a.ordinal < b.ordinal)
    (hunits : ∀ a ∈ additions, a.units ≤ most) :
    (NoOverflow most w → ∃ acc, addAll w {} additions = .ok acc) ∧
    ∀ acc, addAll w {} additions = .ok acc → acc.valueEx ≤
        w * integerDivideCeil (most * rateLimitingPrecision) w ∧
      acc.average ≤ most + integerDivideCeil w rateLimitingPrecision ∧
      ∀ units ordinal acc', acc.lastOrdinal + w ≤ ordinal →
        acc.add units ordinal w = .ok acc' →
        acc'.valueEx = integerDivideCeil (units * rateLimitingPrecision) w := by
  have hsched : Scheduled most {} additions := ⟨fun _ _ => .inr rfl, hincreasing, hunits⟩
  refine ⟨fun hno => exists_addAll hno hw hsched (Nat.zero_le _) (Nat.zero_le _),
    fun acc hrun => ?_⟩
  have hvalue := valueEx_addAll_le hw hsched (Nat.zero_le _) hrun
  exact ⟨hvalue, average_le hw hvalue, fun units ordinal acc' hgap hadd =>
    valueEx_of_gap hw hgap hadd⟩

/-- Three additions to the average over blocks, the last one after a gap. -/
theorem moving_average_bounded_blocks :
    ∃ acc, addAll blockUsageAverageWindow {} [⟨2, 200000⟩, ⟨3, 150000⟩, ⟨300, 200000⟩] =
        .ok acc ∧ acc.average ≤ 200001 := by
  obtain ⟨hok, hbound⟩ := moving_average_bounded blockUsageAverageWindow 200000 (by decide)
    [⟨2, 200000⟩, ⟨3, 150000⟩, ⟨300, 200000⟩] (by decide) (by decide)
  obtain ⟨acc, hacc⟩ := hok ⟨by decide +kernel, by decide +kernel⟩
  exact ⟨acc, hacc, (hbound acc hacc).2.1⟩

end UsageAccumulator

end Inery.Chain
