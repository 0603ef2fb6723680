import Inery.Foundation.OrderStatistic
import Mathlib.Data.Finmap

/-!
# Finite tables

A table is Mathlib's `Finmap` at a constant family.  What is added here is the way a program reads a
whole table: `collect` gathers one value per row into a multiset, `total` adds one number per row.
Each comes with its equation for the three updates, so an accounting invariant over all rows is
checked one update at a time.
-/

namespace Inery.Foundation

open List Finmap Finset

/-- A vector that one element is pushed on. -/
theorem getElem?_concat_eq_some {α : Type} {l : List α} {x y : α} {i : ℕ} :
    (l ++ [x])[i]? = some y ↔ l[i]? = some y ∨ i = l.length ∧ y = x := by
  rcases Nat.lt_trichotomy i l.length with hlt | rfl | hgt
  · rw [getElem?_append_left hlt]
    simp [hlt.ne]
  · simp [eq_comm]
  · rw [getElem?_eq_none (by simp; omega), getElem?_eq_none (by omega)]
    simp [hgt.ne']

abbrev Table (κ α : Type) := Finmap fun _ : κ => α

namespace Table

variable {κ α β : Type} [DecidableEq κ]

/-! ## Lookup after an update -/

theorem lookup_insert_ite (t : Table κ α) (k k' : κ) (v : α) :
    (t.insert k v).lookup k' = if k' = k then some v else t.lookup k' := by
  by_cases h : k' = k
  · subst h
    rw [if_pos rfl, lookup_insert]
  · rw [if_neg h, lookup_insert_of_ne _ h]

theorem lookup_erase_ite (t : Table κ α) (k k' : κ) :
    (t.erase k).lookup k' = if k' = k then none else t.lookup k' := by
  by_cases h : k' = k
  · subst h
    rw [if_pos rfl, lookup_erase]
  · rw [if_neg h, lookup_erase_ne h]

variable {t : Table κ α} {k k' : κ} {v w : α}

theorem lookup_insert_eq_some : (t.insert k v).lookup k' = some w ↔
    k' = k ∧ v = w ∨ k' ≠ k ∧ t.lookup k' = some w := by
  rw [lookup_insert_ite]
  split <;> simp [*]

theorem lookup_erase_eq_some : (t.erase k).lookup k' = some w ↔ k' ≠ k ∧ t.lookup k' = some w := by
  rw [lookup_erase_ite]
  split <;> simp [*]

theorem lookup_insert_of_none (hk : t.lookup k = none) (hw : t.lookup k' = some w) :
    (t.insert k v).lookup k' = some w := by
  refine lookup_insert_eq_some.mpr (.inr ⟨?_, hw⟩)
  rintro rfl
  cases hk.symm.trans hw

theorem mem_of_lookup (h : t.lookup k = some v) : k ∈ t := mem_of_lookup_eq_some h

theorem notMem_of_lookup_none (h : t.lookup k = none) : k ∉ t := lookup_eq_none.mp h

theorem erase_of_lookup_none (h : t.lookup k = none) : t.erase k = t := by
  apply ext_lookup
  intro x
  rw [lookup_erase_ite]
  split
  · next hx => rw [hx, h]
  · rfl

theorem keys_insert (t : Table κ α) (k : κ) (v : α) : (t.insert k v).keys = insert k t.keys := by
  ext x
  rw [Finmap.mem_keys, Finmap.mem_insert, Finset.mem_insert, Finmap.mem_keys]

theorem insert_ne_empty (t : Table κ α) (k : κ) (v : α) : t.insert k v ≠ ∅ := by
  intro hempty
  have hmem : k ∈ (t.insert k v).keys := by
    rw [keys_insert]
    exact mem_insert_self k _
  rw [hempty, keys_empty] at hmem
  exact absurd hmem (notMem_empty k)

theorem insert_erase (t : Table κ α) (k : κ) (v : α) : (t.erase k).insert k v = t.insert k v := by
  apply ext_lookup
  intro x
  rw [lookup_insert_ite, lookup_insert_ite, lookup_erase_ite]
  split <;> rfl

theorem insert_lookup (h : t.lookup k = some v) : t.insert k v = t := by
  apply ext_lookup
  intro x
  rw [lookup_insert_ite]
  split
  · next hx => rw [hx, h]
  · rfl

theorem eq_empty_of_card_keys (h : t.keys.card = 0) : t = ∅ := by
  apply Finmap.ext_lookup
  intro k
  rw [Finmap.lookup_empty, Finmap.lookup_eq_none, ← Finmap.mem_keys, Finset.card_eq_zero.mp h]
  exact Finset.notMem_empty k

/-! ## Building a table -/

def tabulate (ks : List κ) (f : κ → α) : Table κ α :=
  ks.foldl (fun (t : Table κ α) k => t.insert k (f k)) ∅

theorem lookup_tabulate (ks : List κ) (f : κ → α) (k : κ) :
    (tabulate ks f).lookup k = if k ∈ ks then some (f k) else none := by
  -- the fold started from any table `t` covers the keys and leaves the rest of `t`
  have hfold : ∀ (ks : List κ) (t : Table κ α),
      (ks.foldl (fun (t : Table κ α) k => t.insert k (f k)) t).lookup k =
        if k ∈ ks then some (f k) else t.lookup k := by
    intro ks
    induction ks with
    | nil => intro t; simp
    | cons x ks ih =>
      intro t
      rw [foldl_cons, ih, lookup_insert_ite]
      by_cases hk : k ∈ ks
      · simp [hk]
      · by_cases hx : k = x
        · subst hx
          simp
        · simp [hk, hx]
  rw [tabulate, hfold, lookup_empty]

def fill (s : Finset κ) (v : α) : Table κ α :=
  ⟨s.val.map fun k => ⟨k, v⟩, by
    rw [← Multiset.nodup_keys, Multiset.keys, Multiset.map_map]
    simpa using s.nodup⟩

theorem lookup_fill (s : Finset κ) (v : α) (k : κ) :
    (fill s v).lookup k = if k ∈ s then some v else none := by
  split
  · next h =>
    apply mem_lookup_iff.mpr
    exact Multiset.mem_map.mpr ⟨k, h, rfl⟩
  · next h =>
    rw [lookup_eq_none]
    simpa [fill, Finmap.mem_def, Multiset.keys] using h

/-! ## Reading a whole table -/

def collect (t : Table κ α) (f : κ → α → β) : Multiset β := t.entries.map fun e => f e.1 e.2

theorem collect_insert_of_none (v : α) (f : κ → α → β) (h : t.lookup k = none) :
    collect (t.insert k v) f = f k v ::ₘ collect t f := by
  unfold collect
  rw [entries_insert_of_notMem (notMem_of_lookup_none h), Multiset.map_cons]

theorem collect_erase (f : κ → α → β) (h : t.lookup k = some v) :
    collect t f = f k v ::ₘ collect (t.erase k) f := by
  have hnone : (t.erase k).lookup k = none := lookup_erase k t
  rw [← collect_insert_of_none v f hnone, insert_erase, insert_lookup h]

theorem collect_insert_of_some {w : α} (f : κ → α → β) (h : t.lookup k = some v) :
    f k v ::ₘ collect (t.insert k w) f = f k w ::ₘ collect t f := by
  have hnone : (t.erase k).lookup k = none := lookup_erase k t
  rw [← insert_erase t k w, collect_insert_of_none w f hnone, collect_erase f h, Multiset.cons_swap]

theorem mem_collect {f : κ → α → β} {b : β} :
    b ∈ collect t f ↔ ∃ k v, t.lookup k = some v ∧ f k v = b := by
  unfold collect
  rw [Multiset.mem_map]
  constructor
  · rintro ⟨⟨k, v⟩, hmem, hb⟩
    exact ⟨k, v, mem_lookup_iff.mpr hmem, hb⟩
  · rintro ⟨k, v, hlook, hb⟩
    exact ⟨⟨k, v⟩, mem_lookup_iff.mp hlook, hb⟩

omit [DecidableEq κ] in
theorem card_collect (t : Table κ α) (f : κ → α → β) : (collect t f).card = t.keys.card := by
  unfold collect
  rw [Multiset.card_map, ← card_val, Finmap.keys]
  simp [Multiset.keys]

/-- Two readings that agree on every row of the table are the same. -/
theorem collect_congr {f g : κ → α → β} (h : ∀ k v, t.lookup k = some v → f k v = g k v) :
    collect t f = collect t g := by
  unfold collect
  apply Multiset.map_congr rfl
  rintro ⟨k, v⟩ hmem
  exact h k v (mem_lookup_iff.mpr hmem)

/-- Overwriting a present row is reading the old table with that row replaced. -/
theorem collect_insert_of_mem (w : α) (f : κ → α → β) (h : k ∈ t) :
    collect (t.insert k w) f = collect t fun k' v => if k' = k then f k w else f k' v := by
  obtain ⟨v, hv⟩ := mem_iff.mp h
  have hnone : (t.erase k).lookup k = none := lookup_erase k t
  rw [← insert_erase t k w, collect_insert_of_none w f hnone, collect_erase _ hv, if_pos rfl]
  congr 1
  apply collect_congr
  intro k' v' hk'
  rw [if_neg (lookup_erase_eq_some.mp hk').1]

/-! ## Adding up a table -/

def total (t : Table κ α) (f : κ → α → ℕ) : ℕ := (collect t f).sum

theorem total_insert_of_none (v : α) (f : κ → α → ℕ) (h : t.lookup k = none) :
    total (t.insert k v) f = total t f + f k v := by
  unfold total
  rw [collect_insert_of_none v f h, Multiset.sum_cons, Nat.add_comm]

theorem total_insert_of_some {w : α} (f : κ → α → ℕ) (h : t.lookup k = some v) :
    total (t.insert k w) f + f k v = total t f + f k w := by
  have hc := congrArg Multiset.sum (collect_insert_of_some (w := w) f h)
  rw [Multiset.sum_cons, Multiset.sum_cons] at hc
  unfold total
  omega

theorem total_erase (f : κ → α → ℕ) (h : t.lookup k = some v) :
    total (t.erase k) f + f k v = total t f := by
  unfold total
  rw [collect_erase f h, Multiset.sum_cons, Nat.add_comm]

theorem le_total (f : κ → α → ℕ) (h : t.lookup k = some v) : f k v ≤ total t f := by
  have := total_erase f h
  omega

/-! ## Rows in key order -/

def orderedRows (t : Table ℕ α) : List (ℕ × α) :=
  (ascending t.keys.val).filterMap fun k => (t.lookup k).map (k, ·)

theorem mem_orderedRows {t : Table ℕ α} {k : ℕ} :
    (k, v) ∈ orderedRows t ↔ t.lookup k = some v := by
  have hkeys : k ∈ ascending t.keys.val ↔ k ∈ t := by
    rw [← Multiset.mem_coe, coe_ascending, Finset.mem_val, Finmap.mem_keys]
  simp only [orderedRows, List.mem_filterMap, Option.map_eq_some_iff, Prod.mk.injEq]
  constructor
  · rintro ⟨_, -, _, hlook, rfl, rfl⟩
    exact hlook
  · intro hlook
    exact ⟨k, hkeys.mpr (mem_of_lookup hlook), v, hlook, rfl, rfl⟩

theorem nodup_orderedRows (t : Table ℕ α) : ((orderedRows t).map Prod.fst).Nodup := by
  have hsub : ((orderedRows t).map Prod.fst).Sublist (ascending t.keys.val) := by
    unfold orderedRows
    rw [map_filterMap]
    -- each key yields at most itself
    generalize ascending t.keys.val = ks
    induction ks with
    | nil => simp
    | cons k ks ih =>
      rw [filterMap_cons]
      cases t.lookup k with
      | none => exact ih.cons k
      | some v => exact ih.cons_cons k
  apply hsub.nodup
  rw [← Multiset.coe_nodup, coe_ascending]
  exact t.keys.nodup

/-- A loop over the rows that changes, for each row, only what belongs to its
key: every key is changed by its own row and by no other. -/
theorem foldl_orderedRows {σ ε : Type} (view : σ → ℕ → ε) (step : σ → ℕ × α → σ)
    (f : α → ε → ε)
    (hstep : ∀ s e j, view (step s e) j = if j = e.1 then f e.2 (view s j) else view s j)
    (t : Table ℕ α) (s : σ) (j : ℕ) :
    view ((orderedRows t).foldl step s) j = ((t.lookup j).map f).getD id (view s j) := by
  have hfold : ∀ (l : List (ℕ × α)) (s : σ), (l.map Prod.fst).Nodup →
      (∀ v, (j, v) ∈ l → view (l.foldl step s) j = f v (view s j)) ∧
      (j ∉ l.map Prod.fst → view (l.foldl step s) j = view s j) := by
    intro l
    induction l with
    | nil => exact fun s _ => ⟨nofun, fun _ => rfl⟩
    | cons e l ih =>
      intro s hnodup
      rw [List.map_cons, List.nodup_cons] at hnodup
      obtain ⟨hin, hout⟩ := ih (step s e) hnodup.2
      rw [foldl_cons]
      constructor
      · intro v hv
        rcases mem_cons.mp hv with rfl | hv
        · rw [hout hnodup.1, hstep, if_pos rfl]
        · have hj : j ≠ e.1 := by
            rintro rfl
            exact hnodup.1 (mem_map.mpr ⟨_, hv, rfl⟩)
          rw [hin v hv, hstep, if_neg hj]
      · intro hj
        rw [List.map_cons, List.mem_cons, not_or] at hj
        rw [hout hj.2, hstep, if_neg hj.1]
  obtain ⟨hin, hout⟩ := hfold _ s (nodup_orderedRows t)
  cases hlook : t.lookup j with
  | some v => exact hin v (mem_orderedRows.mpr hlook)
  | none =>
    apply hout
    intro hmem
    obtain ⟨⟨_, v⟩, hv, rfl⟩ := mem_map.mp hmem
    rw [mem_orderedRows, hlook] at hv
    cases hv

end Table

end Inery.Foundation
