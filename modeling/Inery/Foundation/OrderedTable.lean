import Inery.Foundation.Table
import Mathlib.Data.Finset.Max
import Mathlib.Data.Prod.Lex

/-!
# Walking a table in key order

The positions that an ordered index offers: the first key from a bound on, the next key, the key
before, the last key.  Where several tables are kept in one index, under pairs of a table id and a
key, a walk in the whole index that stops when the table id changes is a walk in the one table.
-/

namespace Inery.Foundation

open Finset Prod.Lex

/-! ## Smallest and largest element -/

section Extrema

variable {κ : Type} [LinearOrder κ] {s : Finset κ} {k : κ}

def least (s : Finset κ) : Option κ :=
  if h : s.Nonempty then some (s.min' h) else none

def greatest (s : Finset κ) : Option κ :=
  if h : s.Nonempty then some (s.max' h) else none

theorem greatest_eq_none : greatest s = none ↔ s = ∅ := by
  rw [greatest, ← not_nonempty_iff_eq_empty]
  split <;> simp_all

theorem least_eq_some : least s = some k ↔ k ∈ s ∧ ∀ x ∈ s, k ≤ x := by
  rw [least]
  split
  · next h =>
    rw [Option.some.injEq]
    exact s.min'_eq_iff h k
  · next h =>
    rw [not_nonempty_iff_eq_empty] at h
    simp [h]

theorem greatest_eq_some : greatest s = some k ↔ k ∈ s ∧ ∀ x ∈ s, x ≤ k := by
  rw [greatest]
  split
  · next h =>
    rw [Option.some.injEq]
    exact s.max'_eq_iff h k
  · next h =>
    rw [not_nonempty_iff_eq_empty] at h
    simp [h]

end Extrema

namespace Table

/-! ## Positions in a table -/

section Positions

variable {κ α : Type} [LinearOrder κ] (t : Table κ α)

/-- The first key that is not below `k`. -/
def lowerBound (k : κ) : Option κ := least (t.keys.filter (k ≤ ·))

def upperBound (k : κ) : Option κ := least (t.keys.filter (k < ·))

def priorKey (k : κ) : Option κ := greatest (t.keys.filter (· < k))

def lastKey : Option κ := greatest t.keys

end Positions

/-! ## One table among many -/

section Fibers

variable {α β : Type}

def inTable (id : ℕ) (position : Option (ℕ ×ₗ ℕ)) : Option ℕ :=
  position.bind fun p => if (ofLex p).1 = id then some (ofLex p).2 else none

/-- `m` is the table under `id`, its rows seen through `view`. -/
def IsFiber (t : Table (ℕ ×ₗ ℕ) α) (id : ℕ) (view : α → β) (m : Table ℕ β) : Prop :=
  ∀ k, m.lookup k = (t.lookup (toLex (id, k))).map view

theorem inTable_eq {position : Option (ℕ ×ₗ ℕ)} {id : ℕ} {answer : Option ℕ}
    (h : ∀ k, answer = some k ↔ position = some (toLex (id, k))) :
    inTable id position = answer := by
  refine Option.ext fun k => ?_
  rw [h k]
  cases position with
  | none => simp [inTable]
  | some p =>
    obtain ⟨id', k'⟩ := p
    change (if id' = id then some k' else none) = some k ↔ some (id', k') = some (id, k)
    by_cases hid : id' = id
    · simp [hid]
    · simp [hid]

variable {s : Finset (ℕ ×ₗ ℕ)} {m : Finset ℕ} {id : ℕ}

theorem inTable_least (hfiber : ∀ k, k ∈ m ↔ toLex (id, k) ∈ s)
    (hlow : ∀ p ∈ s, id ≤ (ofLex p).1) : inTable id (least s) = least m := by
  refine inTable_eq fun k => ?_
  rw [least_eq_some, least_eq_some, hfiber]
  refine and_congr_right fun _ => ⟨fun hle p hp => ?_, fun hle k' hk' => ?_⟩
  · rcases (hlow p hp).lt_or_eq with hlt | rfl
    · exact le_iff.mpr (.inl hlt)
    · exact le_iff.mpr (.inr ⟨rfl, hle _ ((hfiber _).mpr hp)⟩)
  · have hlex := toLex_le_toLex.mp (hle _ ((hfiber k').mp hk'))
    exact (hlex.resolve_left (lt_irrefl _)).2

theorem inTable_greatest (hfiber : ∀ k, k ∈ m ↔ toLex (id, k) ∈ s)
    (hhigh : ∀ p ∈ s, (ofLex p).1 ≤ id) : inTable id (greatest s) = greatest m := by
  refine inTable_eq fun k => ?_
  rw [greatest_eq_some, greatest_eq_some, hfiber]
  refine and_congr_right fun _ => ⟨fun hle p hp => ?_, fun hle k' hk' => ?_⟩
  · rcases (hhigh p hp).lt_or_eq with hlt | rfl
    · exact le_iff.mpr (.inl hlt)
    · exact le_iff.mpr (.inr ⟨rfl, hle _ ((hfiber _).mpr hp)⟩)
  · have hlex := toLex_le_toLex.mp (hle _ ((hfiber k').mp hk'))
    exact (hlex.resolve_left (lt_irrefl _)).2

variable {t : Table (ℕ ×ₗ ℕ) α} {view : α → β} {m : Table ℕ β} (h : IsFiber t id view m)
include h

theorem IsFiber.mem_keys (k : ℕ) : k ∈ m.keys ↔ toLex (id, k) ∈ t.keys := by
  rw [Finmap.mem_keys, Finmap.mem_keys, ← Finmap.lookup_isSome, ← Finmap.lookup_isSome, h k,
    Option.isSome_map]

theorem IsFiber.lowerBound (k : ℕ) :
    inTable id (t.lowerBound (toLex (id, k))) = m.lowerBound k := by
  refine inTable_least (fun k' => ?_) fun p hp => ?_
  · rw [mem_filter, mem_filter, h.mem_keys, toLex_le_toLex]
    simp
  · exact monotone_fst _ _ (mem_filter.mp hp).2

theorem IsFiber.upperBound (k : ℕ) :
    inTable id (t.upperBound (toLex (id, k))) = m.upperBound k := by
  refine inTable_least (fun k' => ?_) fun p hp => ?_
  · rw [mem_filter, mem_filter, h.mem_keys, toLex_lt_toLex]
    simp
  · exact monotone_fst _ _ (mem_filter.mp hp).2.le

theorem IsFiber.priorKey (k : ℕ) : inTable id (t.priorKey (toLex (id, k))) = m.priorKey k := by
  refine inTable_greatest (fun k' => ?_) fun p hp => ?_
  · rw [mem_filter, mem_filter, h.mem_keys, toLex_lt_toLex]
    simp
  · exact monotone_fst _ _ (mem_filter.mp hp).2.le

omit h

/-- The last position whose table id is not above `id`. -/
def lastUpTo (t : Table (ℕ ×ₗ ℕ) α) (id : ℕ) : Option (ℕ ×ₗ ℕ) :=
  greatest (t.keys.filter fun p => (ofLex p).1 ≤ id)

include h

theorem IsFiber.lastKey : inTable id (t.lastUpTo id) = m.lastKey := by
  refine inTable_greatest (fun k => ?_) fun p hp => (mem_filter.mp hp).2
  rw [mem_filter, h.mem_keys]
  simp

end Fibers

end Table

end Inery.Foundation
