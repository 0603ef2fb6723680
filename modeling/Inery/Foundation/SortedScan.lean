
/-!
# Scanning two sorted ranges

A flat set is a strictly ascending list.  Two flat sets are compared by walking through one
and moving a lower bound through the other; the range behind the bound only shrinks.  Both
scans below decide what plain membership says.
-/

namespace Inery.Foundation

open List Std

variable {α : Type} [LT α] [DecidableLT α] {range as : List α} {a b : α}

/-- `flat_set`: its elements in ascending order, each once. -/
structure FlatSet (α : Type) [LT α] where
  elems : List α
  sorted : elems.Pairwise (· < ·)

/-- `std::lower_bound` on a sorted range: the range from the first element not below `a`. -/
def lowerBound (range : List α) (a : α) : List α := range.dropWhile (· < a)

theorem mem_lowerBound {x : α} (h : ¬ x < a) : x ∈ lowerBound range a ↔ x ∈ range := by
  rw [lowerBound]
  induction range with
  | nil => rfl
  | cons y range ih =>
    rw [dropWhile_cons]
    split
    case isTrue hy =>
      rw [ih, mem_cons, or_iff_right]
      rintro rfl
      exact h (of_decide_eq_true hy)
    case isFalse => rfl

theorem not_lt_of_lowerBound {rest : List α} (h : lowerBound range a = b :: rest) : ¬ b < a := by
  have hhead := head_dropWhile_not (fun x => decide (x < a)) (l := range)
    (by rw [show range.dropWhile _ = _ from h]; exact cons_ne_nil b rest)
  simpa [show range.dropWhile _ = _ from h] using hhead

def extents : List α → Option (α × α)
  | [] => none
  | a :: as => some (a, (a :: as).getLast (cons_ne_nil a as))

section Scans

variable [DecidableEq α]

/-- Look up every element in what is left behind the one found before. -/
def includesScan : List α → List α → Bool
  | _, [] => true
  | range, a :: as =>
    match lowerBound range a with
    | [] => false
    | b :: rest => if b ≠ a then false else includesScan rest as

/-- Look for an element that the range has. -/
def intersectsScan : List α → List α → Bool
  | _, [] => false
  | range, a :: as =>
    match lowerBound range a with
    | [] => false
    | b :: rest => if b = a then true else intersectsScan (b :: rest) as

end Scans

variable [LE α] [Std.LawfulOrderLT α] [Std.IsLinearOrder α]

omit [DecidableLT α] in
/-- What lies behind the first element is not below it. -/
theorem not_lt_of_pairwise (h : (b :: as).Pairwise (· < ·)) {x : α} (hx : x ∈ b :: as) :
    ¬ x < b := by
  rcases mem_cons.mp hx with rfl | hx
  · exact lt_irrefl
  · exact fun hlt => lt_irrefl (lt_trans hlt ((pairwise_cons.mp h).1 x hx))

/-- What the scans know of the range behind the bound of `a`, for the elements from `a` on. -/
theorem lowerBound_spec (hrange : range.Pairwise (· < ·)) (has : (a :: as).Pairwise (· < ·)) :
    (lowerBound range a).Pairwise (· < ·) ∧
      (∀ x ∈ a :: as, x ∈ lowerBound range a ↔ x ∈ range) ∧
      ∀ b rest, lowerBound range a = b :: rest → a ∈ b :: rest → b = a := by
  have hsorted : (lowerBound range a).Pairwise (· < ·) := hrange.sublist (dropWhile_sublist _)
  refine ⟨hsorted, fun x hx => mem_lowerBound (not_lt_of_pairwise has hx), ?_⟩
  intro b rest hbound ha
  rw [hbound] at hsorted
  exact le_antisymm (not_lt.mp (not_lt_of_pairwise hsorted ha))
    (not_lt.mp (not_lt_of_lowerBound hbound))

omit [DecidableLT α] in
/-- The first element is the least and the last the greatest. -/
theorem extents_spec {first last : α} (h : as.Pairwise (· < ·))
    (hext : extents as = some (first, last)) :
    first ∈ as ∧ last ∈ as ∧ ∀ x ∈ as, first ≤ x ∧ x ≤ last := by
  cases as with
  | nil => cases hext
  | cons b as =>
    cases hext
    refine ⟨mem_cons_self, getLast_mem _, fun x hx =>
      ⟨not_lt.mp (not_lt_of_pairwise h hx), ?_⟩⟩
    rw [← dropLast_concat_getLast (cons_ne_nil first as)] at h hx
    rcases mem_append.mp hx with hx | hx
    · exact le_of_lt ((pairwise_append.mp h).2.2 x hx _ (mem_singleton_self _))
    · rw [mem_singleton.mp hx]
      exact le_refl _

variable [DecidableEq α]

theorem includesScan_iff (hrange : range.Pairwise (· < ·)) (has : as.Pairwise (· < ·)) :
    includesScan range as = true ↔ ∀ a ∈ as, a ∈ range := by
  induction as generalizing range with
  | nil => simp [includesScan]
  | cons a as ih =>
    obtain ⟨hsorted, hmem, hhead⟩ := lowerBound_spec hrange has
    obtain ⟨hless, hrest⟩ := pairwise_cons.mp has
    rw [includesScan, ← forall₂_congr hmem, forall_mem_cons]
    cases hbound : lowerBound range a with
    | nil => simp
    | cons b rest =>
      rw [hbound] at hsorted
      by_cases hb : b = a
      · -- the others come behind the one found
        subst hb
        simp only [ne_eq, not_true, if_false, mem_cons_self, true_and]
        rw [ih (pairwise_cons.mp hsorted).2 hrest]
        refine forall₂_congr fun x hx => ?_
        rw [mem_cons, or_iff_right]
        rintro rfl
        exact lt_irrefl (hless x hx)
      · simp only [ne_eq, hb, not_false_eq_true, if_true, Bool.false_eq_true, false_iff, not_and]
        exact fun ha => absurd (hhead b rest hbound ha) hb

theorem intersectsScan_iff (hrange : range.Pairwise (· < ·)) (has : as.Pairwise (· < ·)) :
    intersectsScan range as = true ↔ ∃ a ∈ as, a ∈ range := by
  induction as generalizing range with
  | nil => simp [intersectsScan]
  | cons a as ih =>
    obtain ⟨hsorted, hmem, hhead⟩ := lowerBound_spec hrange has
    rw [intersectsScan, ← exists_congr fun x => and_congr_right (hmem x)]
    cases hbound : lowerBound range a with
    | nil => simp
    | cons b rest =>
      rw [hbound] at hsorted
      by_cases hb : b = a
      · subst hb
        simp
      · simp only [hb, if_false, ih hsorted (pairwise_cons.mp has).2]
        constructor
        · rintro ⟨x, hx, hin⟩
          exact ⟨x, mem_cons_of_mem _ hx, hin⟩
        · rintro ⟨x, hx, hin⟩
          rcases mem_cons.mp hx with rfl | hx
          · exact absurd (hhead b rest hbound hin) hb
          · exact ⟨x, hx, hin⟩

end Inery.Foundation
