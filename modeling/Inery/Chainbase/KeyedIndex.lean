import Inery.Chainbase.GenericIndex
import Inery.Foundation.Numbering

/-!
# Containers with a unique key

Most containers have one unique index besides the one on ids.  What `emplace`,
`modify` and `remove` do to such a container, how an object is found by its key,
and the container that results when objects are emplaced one after the other.
-/

namespace Inery.Chainbase

open Foundation List Finmap Table List.Nodup

variable {V κ : Type} [DecidableEq κ] {key : V → κ} {unique : Uniqueness V}
  {s s' : GenericIndex V} {t : Table ℕ V} {v w : V} {i j : ℕ}

def Uniqueness.onIds : Uniqueness V := ⟨fun _ _ => false, fun _ _ => rfl⟩

/-- A unique index on `key`. -/
def Uniqueness.on (key : V → κ) : Uniqueness V :=
  ⟨fun a b => key a = key b, fun a b => by simp [eq_comm]⟩

theorem conflicts_on : conflicts (.on key) t i v ↔
    ∃ j w, j ≠ i ∧ t.lookup j = some w ∧ key v = key w := by
  unfold conflicts Uniqueness.on
  constructor
  · rintro ⟨j, -, hne, w, hw, hkey⟩
    exact ⟨j, w, hne, hw, by simpa using hkey⟩
  · rintro ⟨j, w, hne, hw, hkey⟩
    exact ⟨j, mem_keys.mpr (mem_of_lookup hw), hne, w, hw, by simpa using hkey⟩

theorem not_conflicts_onIds : ¬ conflicts .onIds t i v := by
  rintro ⟨_, -, -, _, -, hclash⟩
  cases hclash

namespace GenericIndex

theorem emplace_eq_ok : s.emplace unique v = .ok s' ↔
    (s.nextId ∉ s.indices ∧ ¬ conflicts unique s.indices s.nextId v) ∧
    s' = { s with
      indices := s.indices.insert s.nextId v
      nextId := s.nextId + 1
      stack := s.onHead fun head => head.onCreate s.nextId } := by
  unfold emplace
  split
  · next h =>
    constructor
    · intro hs
      cases hs
    · rintro ⟨⟨hnew, hclash⟩, -⟩
      exact absurd h (not_or.mpr ⟨hnew, hclash⟩)
  · next h =>
    rw [not_or] at h
    simp only [h, true_and, Except.ok.injEq, eq_comm, not_false_iff, and_self]

theorem modify_eq_ok {m : V → V} : s.modify unique i m = .ok s' ↔
    ∃ v, s.indices.lookup i = some v ∧ ¬ conflicts unique s.indices i (m v) ∧
    s' = { s with
      indices := s.indices.insert i (m v)
      stack := s.onHead fun head => head.onModify i v } := by
  unfold modify
  cases hlook : s.indices.lookup i with
  | none => simp
  | some v =>
    simp only [Option.some.injEq, exists_eq_left']
    split
    · next h => simp [h]
    · next h => simp [h, eq_comm]

theorem remove_eq_ok : s.remove i = .ok s' ↔
    ∃ v, s.indices.lookup i = some v ∧
    s' = { s with
      indices := s.indices.erase i
      stack := s.onHead fun head => head.onRemove i v } := by
  unfold remove
  cases hlook : s.indices.lookup i with
  | none => simp
  | some v => simp [eq_comm]

end GenericIndex

/-! ## Keys and ids stay apart -/

def KeysApart (key : V → κ) (t : Table ℕ V) : Prop :=
  ∀ ⦃i v j w⦄, t.lookup i = some v → t.lookup j = some w → key v = key w → i = j

def GenericIndex.Fresh (s : GenericIndex V) : Prop :=
  ∀ ⦃i v⦄, s.indices.lookup i = some v → i < s.nextId

omit [DecidableEq κ] in
theorem KeysApart.insert (h : KeysApart key t)
    (hnew : ∀ j w, j ≠ i → t.lookup j = some w → key w ≠ key v) :
    KeysApart key (t.insert i v) := by
  intro a x b y ha hb hkey
  rcases lookup_insert_eq_some.mp ha with ⟨rfl, rfl⟩ | ⟨hne, ha'⟩ <;>
    rcases lookup_insert_eq_some.mp hb with ⟨rfl, rfl⟩ | ⟨hne', hb'⟩
  · rfl
  · exact absurd hkey.symm (hnew b y hne' hb')
  · exact absurd hkey (hnew a x hne ha')
  · exact h ha' hb' hkey

omit [DecidableEq κ] in
theorem KeysApart.erase (h : KeysApart key t) : KeysApart key (t.erase i) := by
  intro a x b y ha hb hkey
  exact h (lookup_erase_eq_some.mp ha).2 (lookup_erase_eq_some.mp hb).2 hkey

/-! ## Objects by key -/

def findBy (key : V → κ) (t : Table ℕ V) (k : κ) : Option (ℕ × V) :=
  (orderedRows t).find? fun e => key e.2 = k

theorem findBy_eq_some (h : KeysApart key t) {k : κ} :
    findBy key t k = some (i, v) ↔ t.lookup i = some v ∧ key v = k := by
  unfold findBy
  constructor
  · intro hfind
    have hmem := mem_orderedRows.mp (mem_of_find?_eq_some hfind)
    exact ⟨hmem, by simpa using find?_some hfind⟩
  · rintro ⟨hlook, hkey⟩
    have hmem := mem_orderedRows.mpr hlook
    cases hfind : (orderedRows t).find? fun e => key e.2 = k with
    | none =>
      have := find?_eq_none.mp hfind _ hmem
      simp [hkey] at this
    | some e =>
      obtain ⟨j, w⟩ := e
      have hj := mem_orderedRows.mp (mem_of_find?_eq_some hfind)
      have hkeyw : key w = k := by simpa using find?_some hfind
      obtain rfl := h hlook hj (hkey.trans hkeyw.symm)
      rw [hlook] at hj
      cases hj
      rfl

theorem findBy_eq_none {k : κ} :
    findBy key t k = none ↔ ∀ i v, t.lookup i = some v → key v ≠ k := by
  unfold findBy
  rw [find?_eq_none]
  constructor
  · intro h i v hlook
    simpa using h _ (mem_orderedRows.mpr hlook)
  · rintro h ⟨i, v⟩ hmem
    simpa using h i v (mem_orderedRows.mp hmem)

/-- The objects as a table by their keys, with what is kept of each. -/
def byKey {W : Type} (key : V → κ) (view : ℕ → V → W) (t : Table ℕ V) : Table κ W :=
  ((orderedRows t).map fun e =>
    (⟨key e.2, view e.1 e.2⟩ : Sigma fun _ : κ => W)).toFinmap

omit [DecidableEq κ] in
theorem KeysApart.nodup_keys (h : KeysApart key t) :
    ((orderedRows t).map fun e => key e.2).Nodup := by
  refine map_on ?_ (of_map _ (nodup_orderedRows t))
  rintro ⟨i, v⟩ hi ⟨j, w⟩ hj hkey
  rw [mem_orderedRows] at hi hj
  obtain rfl := h hi hj hkey
  rw [hi] at hj
  cases hj
  rfl

theorem lookup_byKey {W : Type} {view : ℕ → V → W} (h : KeysApart key t) {k : κ} {x : W} :
    (byKey key view t).lookup k = some x ↔
      ∃ i v, t.lookup i = some v ∧ key v = k ∧ view i v = x := by
  have hkeys : ((orderedRows t).map fun e =>
      (⟨key e.2, view e.1 e.2⟩ : Sigma fun _ : κ => W)).NodupKeys := by
    unfold List.NodupKeys List.keys
    rw [map_map]
    exact h.nodup_keys
  unfold byKey
  rw [dlookup_list_toFinmap, ← Option.mem_def, mem_dlookup_iff hkeys, mem_map]
  constructor
  · rintro ⟨⟨i, v⟩, hmem, heq⟩
    cases heq
    exact ⟨i, v, mem_orderedRows.mp hmem, rfl, rfl⟩
  · rintro ⟨i, v, hlook, rfl, rfl⟩
    exact ⟨(i, v), mem_orderedRows.mpr hlook, rfl⟩

/-! ## Objects emplaced one after the other -/

/-- The container that holds a list of objects under consecutive ids. -/
def GenericIndex.packed (l : List V) : GenericIndex V :=
  { indices := numbered l, nextId := l.length }

theorem GenericIndex.emplace_packed {l : List V} (h : ¬ conflicts unique (numbered l) l.length v) :
    (packed l).emplace unique v = .ok (packed (l ++ [v])) := by
  have hnew : l.length ∉ numbered l := by
    rw [← lookup_eq_none, lookup_numbered]
    exact getElem?_eq_none (Nat.le_refl _)
  refine emplace_eq_ok.mpr ⟨⟨hnew, h⟩, ?_⟩
  simp only [packed, numbered_concat, length_append, length_singleton, onHead]

omit [DecidableEq κ] in
theorem keysApart_numbered {l : List V} (h : (l.map key).Nodup) : KeysApart key (numbered l) := by
  intro i v j w hv hw hkey
  rw [lookup_numbered] at hv hw
  have hi : (l.map key)[i]? = some (key v) := by rw [getElem?_map, hv]; rfl
  have hj : (l.map key)[j]? = some (key v) := by rw [getElem?_map, hw, hkey]; rfl
  exact (List.getElem?_inj (List.getElem?_eq_some_iff.mp hi).1 h).mp (hi.trans hj.symm)

omit [DecidableEq κ] in
theorem KeysApart.nodup_values (h : KeysApart key t) : ((values t).map key).Nodup := by
  unfold values
  rw [map_map]
  exact h.nodup_keys

theorem not_conflicts_numbered {l : List V} (h : key v ∉ l.map key) :
    ¬ conflicts (.on key) (numbered l) l.length v := by
  rw [conflicts_on]
  rintro ⟨j, w, -, hlook, hkey⟩
  rw [lookup_numbered] at hlook
  exact h (hkey ▸ mem_map_of_mem (mem_of_getElem? hlook))

/-- Objects with distinct keys are emplaced under consecutive ids. -/
theorem GenericIndex.foldlM_emplace {done rest : List V} (h : ((done ++ rest).map key).Nodup) :
    rest.foldlM (fun s v => s.emplace (.on key) v) (packed done) = .ok (packed (done ++ rest)) := by
  induction rest generalizing done with
  | nil =>
    rw [append_nil]
    rfl
  | cons v rest ih =>
    have hnew : key v ∉ done.map key := by
      rw [map_append, map_cons] at h
      exact fun hmem => (nodup_append.mp h).2.2 _ hmem _ mem_cons_self rfl
    rw [append_cons] at h ⊢
    rw [foldlM_cons, emplace_packed (not_conflicts_numbered hnew), ok_bind, ih h]

/-- The rows of a section of a snapshot, created one after the other. -/
def GenericIndex.load (unique : Uniqueness V) (rows : List V) : Except Fault (GenericIndex V) :=
  rows.foldlM (fun s v => s.emplace unique v) {}

theorem GenericIndex.load_values (h : KeysApart key t) :
    load (.on key) (values t) = .ok (packed (values t)) := by
  have hnodup := h.nodup_values
  rw [← nil_append (values t)] at hnodup
  have hload := foldlM_emplace hnodup
  rw [nil_append] at hload
  exact hload

end Inery.Chainbase
