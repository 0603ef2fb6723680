import Inery.Foundation.Table

/-!
# Tables numbered from zero

The rows of a table with natural keys, written in the order of their keys and
numbered again from zero: `position` is the new number of a row, it keeps the
order, and the numbered table holds the same rows.
-/

namespace Inery.Foundation.Table

open List

variable {α β : Type} {t : Table ℕ α} {l : List α} {i j n : ℕ} {v w : α}

/-- The keys of a table, smallest first. -/
def ids (t : Table ℕ α) : List ℕ := (orderedRows t).map Prod.fst

def values (t : Table ℕ α) : List α := (orderedRows t).map Prod.snd

theorem mem_ids : i ∈ ids t ↔ ∃ v, t.lookup i = some v := by
  unfold ids
  rw [mem_map]
  constructor
  · rintro ⟨⟨k, v⟩, hmem, rfl⟩
    exact ⟨v, mem_orderedRows.mp hmem⟩
  · rintro ⟨v, h⟩
    exact ⟨(i, v), mem_orderedRows.mpr h, rfl⟩

theorem mem_values : v ∈ values t ↔ ∃ i, t.lookup i = some v := by
  unfold values
  rw [mem_map]
  constructor
  · rintro ⟨⟨i, w⟩, hmem, rfl⟩
    exact ⟨i, mem_orderedRows.mp hmem⟩
  · rintro ⟨i, h⟩
    exact ⟨(i, v), mem_orderedRows.mpr h, rfl⟩

theorem pairwise_ids (t : Table ℕ α) : (ids t).Pairwise (· < ·) := by
  have hle : (ids t).Pairwise (· ≤ ·) := by
    unfold ids orderedRows
    rw [map_filterMap]
    apply (pairwise_ascending t.keys.val).filterMap
    intro a a' haa' b hb b' hb'
    obtain ⟨e, he, rfl⟩ := Option.map_eq_some_iff.mp hb
    obtain ⟨e', he', rfl⟩ := Option.map_eq_some_iff.mp hb'
    obtain ⟨_, -, rfl⟩ := Option.map_eq_some_iff.mp he
    obtain ⟨_, -, rfl⟩ := Option.map_eq_some_iff.mp he'
    exact haa'
  exact (hle.and (nodup_orderedRows t)).imp fun h => Nat.lt_of_le_of_ne h.1 h.2

/-! ## The new number of a row -/

def position (t : Table ℕ α) (i : ℕ) : ℕ := (ids t).idxOf i

variable (h : t.lookup i = some v)
include h

theorem getElem?_ids_position : (ids t)[position t i]? = some i := by
  have hmem : i ∈ ids t := mem_ids.mpr ⟨v, h⟩
  unfold position
  rw [getElem?_eq_getElem (idxOf_lt_length_of_mem hmem), getElem_idxOf]

theorem getElem?_values_position : (values t)[position t i]? = some v := by
  have hid := getElem?_ids_position h
  unfold ids at hid
  rw [getElem?_map] at hid
  obtain ⟨⟨k, w⟩, he, rfl⟩ := Option.map_eq_some_iff.mp hid
  have hlook := mem_orderedRows.mp (mem_of_getElem? he)
  unfold values
  rw [getElem?_map, he]
  exact hlook.symm.trans h

theorem position_lt_length : position t i < (values t).length :=
  (List.getElem?_eq_some_iff.mp (getElem?_values_position h)).1

/-- Renumbering keeps the order. -/
theorem position_lt_position (h' : t.lookup j = some w) (hij : i < j) :
    position t i < position t j := by
  obtain ⟨hi, hgeti⟩ := List.getElem?_eq_some_iff.mp (getElem?_ids_position h)
  obtain ⟨hj, hgetj⟩ := List.getElem?_eq_some_iff.mp (getElem?_ids_position h')
  by_contra hle
  have hsorted : (ids t)[position t j] ≤ (ids t)[position t i] :=
    (pairwise_ids t).sortedLT.sortedLE.getElem_le_getElem_of_le (Nat.le_of_not_lt hle)
  omega

theorem position_inj (h' : t.lookup j = some w) (heq : position t i = position t j) : i = j := by
  have hi := getElem?_ids_position h
  rw [heq, getElem?_ids_position h'] at hi
  exact (Option.some.inj hi).symm

omit h

theorem values_eq_map (t : Table ℕ α) (d : α) :
    values t = (ids t).map fun i => (t.lookup i).getD d := by
  unfold values ids
  rw [map_map]
  apply map_congr_left
  rintro ⟨i, v⟩ hmem
  rw [Function.comp_apply, mem_orderedRows.mp hmem]
  rfl

/-- Every number below the number of rows is that of a row. -/
theorem exists_position (h : (values t)[n]? = some v) :
    ∃ i, t.lookup i = some v ∧ position t i = n := by
  unfold values at h
  rw [getElem?_map] at h
  obtain ⟨⟨i, w⟩, he, rfl⟩ := Option.map_eq_some_iff.mp h
  have hlook := mem_orderedRows.mp (mem_of_getElem? he)
  refine ⟨i, hlook, ?_⟩
  have hn : (ids t)[n]? = some i := by
    unfold ids
    rw [getElem?_map, he]
    rfl
  obtain ⟨hlt, hget⟩ := List.getElem?_eq_some_iff.mp hn
  rw [position, ← hget]
  exact (pairwise_ids t).nodup.idxOf_getElem _ _

theorem position_zero (h : t.lookup 0 = some v) : position t 0 = 0 := by
  by_contra hpos
  have hlt := position_lt_length h
  obtain ⟨j, hj, hposj⟩ := exists_position
    (getElem?_eq_getElem (by omega : 0 < (values t).length))
  have hne : j ≠ 0 := by
    rintro rfl
    exact hpos hposj
  have := position_lt_position h hj (by omega)
  omega

include h

theorem lt_of_position_lt (h' : t.lookup j = some w) (hpos : position t i < position t j) :
    i < j := by
  by_contra hle
  rcases Nat.eq_or_lt_of_le (Nat.le_of_not_lt hle) with rfl | hlt
  · omega
  · have := position_lt_position h' h hlt
    omega

omit h

theorem position_one (h : t.lookup 0 = some v) (h' : t.lookup 1 = some w) : position t 1 = 1 := by
  have hzero := position_zero h
  have hpos := position_lt_position h h' Nat.zero_lt_one
  by_contra hne
  have hlt := position_lt_length h'
  -- a row numbered 1 would have its key between 0 and 1
  obtain ⟨j, hj, hposj⟩ := exists_position
    (getElem?_eq_getElem (by omega : 1 < (values t).length))
  have hlow := lt_of_position_lt h hj (by omega)
  have hhigh := lt_of_position_lt hj h' (by omega)
  omega

/-! ## Numbered tables -/

def numbered (l : List α) : Table ℕ α :=
  (l.zipIdx.map fun e => (⟨e.2, e.1⟩ : Sigma fun _ : ℕ => α)).toFinmap

theorem lookup_numbered (l : List α) (i : ℕ) : (numbered l).lookup i = l[i]? := by
  have hkeys : (l.zipIdx.map fun e => (⟨e.2, e.1⟩ : Sigma fun _ : ℕ => α)).NodupKeys := by
    unfold NodupKeys keys
    rw [map_map]
    have : (Sigma.fst ∘ fun e : α × ℕ => (⟨e.2, e.1⟩ : Sigma fun _ : ℕ => α)) = Prod.snd := rfl
    rw [this, zipIdx_map_snd]
    exact nodup_range'
  unfold numbered
  rw [Finmap.dlookup_list_toFinmap]
  ext v
  rw [← Option.mem_def, mem_dlookup_iff hkeys, mem_map]
  constructor
  · rintro ⟨⟨w, k⟩, hmem, heq⟩
    cases heq
    exact mem_zipIdx_iff_getElem?.mp hmem
  · intro h
    exact ⟨(v, i), mem_zipIdx_iff_getElem?.mpr h, rfl⟩

theorem numbered_concat (l : List α) (v : α) :
    (numbered l).insert l.length v = numbered (l ++ [v]) := by
  apply Finmap.ext_lookup
  intro i
  ext w
  rw [lookup_insert_ite, lookup_numbered, lookup_numbered, getElem?_concat_eq_some]
  split
  · next h => simp [h, eq_comm]
  · next h => simp [h]

end Inery.Foundation.Table
