import Mathlib.Data.Nat.Log
import Mathlib.Data.Nat.Bitwise
import Mathlib.Data.List.Nodup

/-!
# Trees over lists, level by level

A list is hashed up to a single value by combining neighbours, level after level.  A last element
that has no neighbour is combined with itself by `padUp` and left out by `pairUp`.

The `pairFrontier` of a list are the values that `pairUp` leaves out on each level: the roots of the
complete trees that the length of the list, in binary, asks for.  Together with one more element it
gives the values on the way up for the longer list, which is all that an append needs.
-/

namespace Inery.Foundation

open List

variable {α : Type*} (f : α → α → α)

/-- Combine neighbours; a last element without neighbour is left out. -/
def pairUp : List α → List α
  | a :: b :: l => f a b :: pairUp l
  | [_] => []
  | [] => []

/-- Combine neighbours; a last element without neighbour is combined with itself. -/
def padUp : List α → List α
  | a :: b :: l => f a b :: padUp l
  | [a] => [f a a]
  | [] => []

/-- What is left at the front after this many levels. -/
def rootAt : ℕ → List α → Option α
  | 0, l => l.head?
  | depth + 1, l => rootAt depth (padUp f l)

/-- What `pairUp` leaves out on each of this many levels, lowest first. -/
def pairFrontier : ℕ → List α → List α
  | 0, _ => []
  | depth + 1, l =>
    (if l.length % 2 = 1 then l.getLast?.toList else []) ++ pairFrontier depth (pairUp f l)

variable {f} {l : List α} {a x : α} {depth : ℕ}

theorem length_pairUp (l : List α) : (pairUp f l).length = l.length / 2 := by
  fun_induction pairUp f l with
  | case1 a b l ih =>
    simp only [length_cons, ih]
    omega
  | case2 a => simp
  | case3 => simp

theorem length_padUp (l : List α) : (padUp f l).length = (l.length + 1) / 2 := by
  fun_induction padUp f l with
  | case1 a b l ih =>
    simp only [length_cons, ih]
    omega
  | case2 a => simp
  | case3 => simp

variable (h : l.length % 2 = 0)
include h

/-- An even number of elements is combined on its own, whatever follows. -/
theorem pairUp_append (l' : List α) : pairUp f (l ++ l') = pairUp f l ++ pairUp f l' := by
  fun_induction pairUp f l with
  | case1 a b l ih =>
    rw [cons_append, cons_append, pairUp, ih (by simp only [length_cons] at h; omega), cons_append]
  | case2 a => simp at h
  | case3 => rfl

theorem padUp_append (l' : List α) : padUp f (l ++ l') = pairUp f l ++ padUp f l' := by
  fun_induction pairUp f l with
  | case1 a b l ih =>
    rw [cons_append, cons_append, padUp, ih (by simp only [length_cons] at h; omega), cons_append]
  | case2 a => simp at h
  | case3 => rfl

theorem padUp_of_even : padUp f l = pairUp f l := by
  have happend := padUp_append (f := f) h []
  rwa [append_nil, padUp, append_nil] at happend

theorem pairUp_append_pair : pairUp f (l ++ [a, x]) = pairUp f l ++ [f a x] :=
  pairUp_append h [a, x]

theorem frontier_succ_of_even :
    pairFrontier f (depth + 1) l = pairFrontier f depth (pairUp f l) := by
  rw [pairFrontier, if_neg (by omega), nil_append]

theorem frontier_succ_append :
    pairFrontier f (depth + 1) (l ++ [x]) = x :: pairFrontier f depth (pairUp f l) := by
  rw [pairFrontier, if_pos (by rw [length_append, length_singleton]; omega), pairUp_append h]
  simp [pairUp]

omit h

/-- The number of values on the frontier: one per binary digit 1. -/
theorem length_frontier (depth : ℕ) (l : List α) :
    (pairFrontier f depth l).length = (range depth).countP fun i => l.length.testBit i := by
  induction depth generalizing l with
  | zero => rfl
  | succ depth ih =>
    rw [pairFrontier, length_append, ih, range_succ_eq_map, countP_cons,
      countP_map, length_pairUp, Nat.add_comm]
    congr 1
    · congr 1
      funext i
      simp [Function.comp, Nat.testBit_succ]
    · rw [Nat.testBit_zero]
      by_cases hodd : l.length % 2 = 1
      · have hne : l ≠ [] := by
          rintro rfl
          cases hodd
        simp [hodd, getLast?_eq_getLast_of_ne_nil hne]
      · simp [hodd]

theorem frontier_of_pow (h : l.length = 2 ^ depth) :
    pairFrontier f (depth + 1) l = pairFrontier f depth l ++ (rootAt f depth l).toList := by
  induction depth generalizing l with
  | zero =>
    obtain ⟨x, rfl⟩ := length_eq_one_iff.mp h
    rfl
  | succ depth ih =>
    have heven : l.length % 2 = 0 := by
      rw [h, pow_succ]
      omega
    rw [frontier_succ_of_even heven, ih (by rw [length_pairUp, h, pow_succ]; omega),
      frontier_succ_of_even heven, rootAt, padUp_of_even heven]

/-! ## What the root says about the list

Values are compared through a map `q`, of which the combination of two values
is assumed to keep apart what it is given. -/

/-- The pairs that `padUp` combines. -/
def neighbours : List α → List (α × α)
  | a :: b :: l => (a, b) :: neighbours l
  | [a] => [(a, a)]
  | [] => []

/-- The pairs combined on this many levels. -/
def combined (f : α → α → α) : ℕ → List α → List (α × α)
  | 0, _ => []
  | depth + 1, l => neighbours l ++ combined f depth (padUp f l)

variable {β : Type*} {q : α → β} {l₁ l₂ : List α}

theorem padUp_eq_map (l : List α) : padUp f l = (neighbours l).map fun p => f p.1 p.2 := by
  fun_induction neighbours l with
  | case1 a b l ih => rw [padUp, ih, map_cons]
  | case2 a => rfl
  | case3 => rfl

theorem neighbours_map (q : α → β) (l : List α) :
    neighbours (l.map q) = (neighbours l).map (Prod.map q q) := by
  fun_induction neighbours l with
  | case1 a b l ih => rw [map_cons, map_cons, neighbours, ih, map_cons, Prod.map]
  | case2 a => rfl
  | case3 => rfl

theorem fst_mem_of_mem_neighbours {p : α × α} (h : p ∈ neighbours l) : p.1 ∈ l := by
  fun_induction neighbours l with
  | case1 a b l ih =>
    rcases mem_cons.mp h with rfl | h
    · exact mem_cons_self
    · exact mem_cons_of_mem _ (mem_cons_of_mem _ (ih h))
  | case2 a =>
    rw [mem_singleton.mp h]
    exact mem_singleton_self a
  | case3 => exact absurd h not_mem_nil

theorem neighbours_nodup (h : l.Nodup) : (neighbours l).Nodup := by
  fun_induction neighbours l with
  | case1 a b l ih =>
    obtain ⟨ha, -, hl⟩ : a ∉ b :: l ∧ b ∉ l ∧ l.Nodup := by simpa using h
    refine nodup_cons.mpr ⟨fun hmem => ha ?_, ih hl⟩
    exact mem_cons_of_mem _ (fst_mem_of_mem_neighbours hmem)
  | case2 a => exact nodup_singleton _
  | case3 => exact nodup_nil

/-- Lists of one length, and lists that repeat nothing, are told apart by their neighbours: a padded
pair repeats its element. -/
theorem neighbours_inj (hlists : l₁.length = l₂.length ∨ l₁.Nodup ∧ l₂.Nodup)
    (h : neighbours l₁ = neighbours l₂) : l₁ = l₂ := by
  fun_induction neighbours l₁ generalizing l₂ with
  | case1 a b l ih =>
    match l₂ with
    | c :: d :: l₂ =>
      obtain ⟨⟨rfl, rfl⟩, hrest⟩ : (a = c ∧ b = d) ∧ neighbours l = neighbours l₂ := by
        simpa [neighbours] using h
      rw [ih (hlists.imp (by simp) fun h => ⟨h.1.of_cons.of_cons, h.2.of_cons.of_cons⟩) hrest]
    | [c] =>
      obtain ⟨⟨rfl, rfl⟩, -⟩ : (a = c ∧ b = c) ∧ neighbours l = [] := by
        simpa [neighbours] using h
      simp at hlists
    | [] => simp [neighbours] at h
  | case2 a =>
    match l₂ with
    | c :: d :: l₂ =>
      obtain ⟨⟨rfl, rfl⟩, -⟩ : (a = c ∧ a = d) ∧ [] = neighbours l₂ := by
        simpa [neighbours] using h
      simp at hlists
    | [c] => simpa [neighbours] using h
    | [] => simp [neighbours] at h
  | case3 =>
    match l₂ with
    | c :: d :: l₂ => simp [neighbours] at h
    | [c] => simp [neighbours] at h
    | [] => rfl

/-- No two of these pairs combine to the same value, up to `q`. -/
def NoCollision (f : α → α → α) (q : α → β) (pairs : List (α × α)) : Prop :=
  ∀ p ∈ pairs, ∀ p' ∈ pairs, q (f p.1 p.2) = q (f p'.1 p'.2) → Prod.map q q p = Prod.map q q p'

theorem NoCollision.mono {pairs pairs' : List (α × α)} (h : NoCollision f q pairs')
    (hsubset : pairs ⊆ pairs') : NoCollision f q pairs :=
  fun p hp p' hp' => h p (hsubset hp) p' (hsubset hp')

variable {depth₁ depth₂ : ℕ}

theorem NoCollision.rows
    (h : NoCollision f q (combined f (depth₁ + 1) l₁ ++ combined f (depth₂ + 1) l₂)) :
    NoCollision f q (combined f depth₁ (padUp f l₁) ++ combined f depth₂ (padUp f l₂)) := by
  refine h.mono fun p hp => ?_
  simp only [combined, mem_append] at hp ⊢
  rcases hp with hp | hp
  · exact .inl (.inr hp)
  · exact .inr (.inr hp)

theorem map_eq_map_of_imp {γ δ ε : Type*} {g : γ → δ} {h : γ → ε} {r₁ r₂ : List γ}
    (himp : ∀ x ∈ r₁, ∀ y ∈ r₂, g x = g y → h x = h y) (heq : r₁.map g = r₂.map g) :
    r₁.map h = r₂.map h := by
  induction r₁ generalizing r₂ with
  | nil =>
    obtain rfl : r₂ = [] := by simpa using heq.symm
    rfl
  | cons x r₁ ih =>
    match r₂ with
    | [] => simp at heq
    | y :: r₂ =>
      obtain ⟨hhead, htail⟩ : g x = g y ∧ r₁.map g = r₂.map g := by simpa using heq
      rw [map_cons, map_cons, himp x mem_cons_self y mem_cons_self hhead,
        ih (fun a ha b hb => himp a (mem_cons_of_mem _ ha) b (mem_cons_of_mem _ hb))
          htail]

theorem NoCollision.neighbours_eq {pairs : List (α × α)} (h : NoCollision f q pairs)
    (h₁ : neighbours l₁ ⊆ pairs) (h₂ : neighbours l₂ ⊆ pairs)
    (heq : (padUp f l₁).map q = (padUp f l₂).map q) :
    neighbours (l₁.map q) = neighbours (l₂.map q) := by
  rw [padUp_eq_map, padUp_eq_map, map_map, map_map] at heq
  rw [neighbours_map, neighbours_map]
  exact map_eq_map_of_imp (fun p hp p' hp' => h p (h₁ hp) p' (h₂ hp')) heq

theorem neighbours_subset_left :
    neighbours l₁ ⊆ combined f (depth₁ + 1) l₁ ++ combined f depth₂ l₂ := by
  intro p hp
  rw [combined, append_assoc]
  exact mem_append_left _ hp

theorem neighbours_subset_right :
    neighbours l₂ ⊆ combined f depth₁ l₁ ++ combined f (depth₂ + 1) l₂ := by
  intro p hp
  rw [combined]
  exact mem_append_right _ (mem_append_left _ hp)

variable {depth : ℕ}

theorem NoCollision.nodup_padUp (h : NoCollision f q (neighbours l)) (hl : (l.map q).Nodup) :
    ((padUp f l).map q).Nodup := by
  have hpairs := neighbours_nodup hl
  rw [neighbours_map, Nodup, pairwise_map] at hpairs
  rw [padUp_eq_map, map_map, Nodup, pairwise_map]
  exact hpairs.imp_of_mem fun hp hp' hne heq => hne (h _ hp _ hp' heq)

theorem padUp_ne_nil (h : l ≠ []) : padUp f l ≠ [] := by
  rw [← length_pos_iff] at h ⊢
  rw [length_padUp]
  omega

/-- Lists of one length, or nonempty lists that repeat nothing. -/
def Comparable (q : α → β) (l₁ l₂ : List α) : Prop :=
  l₁.length = l₂.length ∨ (l₁ ≠ [] ∧ (l₁.map q).Nodup) ∧ l₂ ≠ [] ∧ (l₂.map q).Nodup

theorem Comparable.padUp (hlists : Comparable q l₁ l₂)
    (h : NoCollision f q (combined f (depth₁ + 1) l₁ ++ combined f (depth₂ + 1) l₂)) :
    Comparable q (padUp f l₁) (padUp f l₂) := by
  rcases hlists with hlength | ⟨⟨hne₁, hnodup₁⟩, hne₂, hnodup₂⟩
  · exact .inl (by rw [length_padUp, length_padUp, hlength])
  · exact .inr ⟨⟨padUp_ne_nil hne₁, (h.mono neighbours_subset_left).nodup_padUp hnodup₁⟩,
      padUp_ne_nil hne₂, (h.mono neighbours_subset_right).nodup_padUp hnodup₂⟩

/-- **The root binds the list**, among comparable lists of the same number of levels. -/
theorem map_eq_of_rootAt (hlists : Comparable q l₁ l₂) (hle₁ : l₁.length ≤ 2 ^ depth)
    (hle₂ : l₂.length ≤ 2 ^ depth)
    (h : NoCollision f q (combined f depth l₁ ++ combined f depth l₂))
    (hroot : (rootAt f depth l₁).map q = (rootAt f depth l₂).map q) : l₁.map q = l₂.map q := by
  induction depth generalizing l₁ l₂ with
  | zero =>
    match l₁, l₂ with
    | [], [] => rfl
    | [a], [b] => simpa [rootAt] using hroot
    | [], _ :: _ => simp [Comparable] at hlists
    | _ :: _, [] => simp [Comparable] at hlists
    | _ :: _ :: _, _ => simp at hle₁
    | _, _ :: _ :: _ => simp at hle₂
  | succ depth ih =>
    rw [pow_succ] at hle₁ hle₂
    have hrow : (padUp f l₁).map q = (padUp f l₂).map q :=
      ih (hlists.padUp h) (by rw [length_padUp]; omega) (by rw [length_padUp]; omega) h.rows hroot
    refine neighbours_inj ?_ (h.neighbours_eq neighbours_subset_left neighbours_subset_right hrow)
    rw [length_map, length_map]
    exact hlists.imp_right fun hnodup => ⟨hnodup.1.2, hnodup.2.2⟩

theorem fst_of_mem_combined {p : α × α} (hp : p ∈ combined f depth l) :
    p.1 ∈ l ∨ ∃ p' ∈ combined f depth l, p.1 = f p'.1 p'.2 := by
  induction depth generalizing l with
  | zero => exact absurd hp not_mem_nil
  | succ depth ih =>
    rw [combined, mem_append] at hp
    rcases hp with hp | hp
    · exact .inl (fst_mem_of_mem_neighbours hp)
    · right
      rcases ih hp with hrow | ⟨p', hp', heq⟩
      · rw [padUp_eq_map, mem_map] at hrow
        obtain ⟨p', hp', heq⟩ := hrow
        exact ⟨p', mem_append_left _ hp', heq.symm⟩
      · exact ⟨p', mem_append_right _ hp', heq⟩

theorem rootAt_succ_mem {root : α} (h : rootAt f (depth + 1) l = some root) :
    ∃ p ∈ combined f (depth + 1) l, root = f p.1 p.2 := by
  induction depth generalizing l with
  | zero =>
    rw [rootAt, rootAt, padUp_eq_map, head?_map, Option.map_eq_some_iff] at h
    obtain ⟨p, hp, rfl⟩ := h
    exact ⟨p, mem_append_left _ (mem_of_head? hp), rfl⟩
  | succ depth ih =>
    rw [rootAt] at h
    obtain ⟨p, hp, heq⟩ := ih h
    exact ⟨p, mem_append_right _ hp, heq⟩

/-- **A deeper tree has another root**, where the leaves of the shallow tree are no values of
pairs of the deep one: following the left edges down, a leaf would meet such a value. -/
theorem rootAt_ne_of_deeper {k : ℕ} {root₁ root₂ : α}
    (hleaf : ∀ x ∈ l₁, ∀ p ∈ combined f (depth + k + 1) l₂, q x ≠ q (f p.1 p.2))
    (h : NoCollision f q (combined f depth l₁ ++ combined f (depth + k + 1) l₂))
    (h₁ : rootAt f depth l₁ = some root₁) (h₂ : rootAt f (depth + k + 1) l₂ = some root₂) :
    q root₁ ≠ q root₂ := by
  induction depth generalizing l₁ l₂ with
  | zero =>
    obtain ⟨p, hp, rfl⟩ := rootAt_succ_mem h₂
    exact hleaf root₁ (mem_of_head? h₁) p hp
  | succ depth ih =>
    have hdepth : depth + 1 + k + 1 = depth + k + 1 + 1 := by omega
    rw [hdepth] at hleaf h h₂
    refine ih ?_ h.rows h₁ h₂
    rw [padUp_eq_map]
    intro x hx p hp heq
    obtain ⟨pair, hpair, rfl⟩ := mem_map.mp hx
    have hsame := h pair (neighbours_subset_left hpair) p
      (mem_append_right _ (mem_append_right _ hp)) heq
    have hfirst : q pair.1 = q p.1 := congrArg Prod.fst hsame
    rcases fst_of_mem_combined hp with hrow | ⟨p', hp', hvalue⟩
    · rw [padUp_eq_map, mem_map] at hrow
      obtain ⟨p', hp', hvalue⟩ := hrow
      refine hleaf pair.1 (fst_mem_of_mem_neighbours hpair) p' (mem_append_left _ hp') ?_
      rw [hfirst, ← hvalue]
    · refine hleaf pair.1 (fst_mem_of_mem_neighbours hpair) p' (mem_append_right _ hp') ?_
      rw [hfirst, hvalue]

end Inery.Foundation
