import Inery.Chain.ContractMaps
import Inery.Chain.SecondaryIndices

/-!
# Handles and walks

`TablesHold` says that the object tables hold the maps.  `CacheHolds` says what the cache may be
relied on for: its two maps of rows are inverse to each other, every row pointer leads to a live row
of a cached table, and the cached table of an id is the table with that id, if it is still there.
A table pointer may outlive its table; that is where the interface leaves the maps.

The calls that only look are treated here: they may add handles, and the maps stay as they are.
-/

namespace Inery.Chain

open Foundation IteratorCache Finmap Finset DbState Table Option

/-! ## The cache -/

structure CacheHolds (tables : ContractTables) (c : IteratorCache) : Prop where
  objectOf : ∀ id h, c.objectToIterator.lookup id = some h →
    ∃ (i : ℕ) (p : RowPointer), h = i ∧ c.iteratorToObject[i]? = some (some p) ∧ p.id = id
  iteratorOf : ∀ (i : ℕ) p, c.iteratorToObject[i]? = some (some p) →
    c.objectToIterator.lookup p.id = some (i : ℤ)
  live : ∀ (i : ℕ) p, c.iteratorToObject[i]? = some (some p) →
    ∃ o, tables.keyValues.lookup p.key = some o ∧ o.id = p.id
  cached : ∀ (i : ℕ) p, c.iteratorToObject[i]? = some (some p) →
    ∃ tp ei, c.tableCache.lookup (ofLex p.key).1 = some (tp, ei)
  tableAt : ∀ id tp ei, c.tableCache.lookup id = some (tp, ei) →
    tp.id = id ∧ ∃ i, ei = indexToEndIterator i ∧ c.endIteratorToTable[i]? = some tp
  endOf : ∀ (i : ℕ) tp, c.endIteratorToTable[i]? = some tp →
    c.tableCache.lookup tp.id = some (tp, indexToEndIterator i)
  pointer : ∀ (i : ℕ) tp, c.endIteratorToTable[i]? = some tp → tp.id < tables.nextTableId ∧
    ∀ t obj, tables.tableIds.lookup t = some obj → obj.id = tp.id → t = tp.key

theorem cacheHolds_empty (tables : ContractTables) : CacheHolds tables {} where
  objectOf _ _ h := by cases h
  iteratorOf _ _ h := by cases h
  live _ _ h := by cases h
  cached _ _ h := by cases h
  tableAt _ _ _ h := by cases h
  endOf _ _ h := by cases h
  pointer _ _ h := by cases h

theorem endIteratorToIndex_indexToEndIterator (i : ℕ) :
    endIteratorToIndex (indexToEndIterator i) = i := by
  rw [endIteratorToIndex, indexToEndIterator]
  omega

theorem indexToEndIterator_lt (i : ℕ) : indexToEndIterator i < -1 := by
  rw [indexToEndIterator]
  omega

theorem indexToEndIterator_endIteratorToIndex {h : ℤ} (hlt : h < -1) :
    indexToEndIterator (endIteratorToIndex h) = h := by
  rw [endIteratorToIndex, indexToEndIterator]
  omega

namespace IteratorCache

variable {c : IteratorCache} {h : ℤ} {t : TableKey} {k : ℕ}

theorem denotes_natCast (c : IteratorCache) (i : ℕ) :
    c.denotes i = match c.iteratorToObject[i]? with
      | none => none
      | some none => some .removed
      | some (some p) =>
        (c.tableCache.lookup (ofLex p.key).1).map fun t => .row t.1.key (ofLex p.key).2 := by
  rw [denotes, if_pos (Int.natCast_nonneg i)]
  rfl

theorem denotes_of_lt (hlt : h < -1) : c.denotes h =
    (c.endIteratorToTable[endIteratorToIndex h]?).map fun t => .tableEnd t.key := by
  rw [denotes, if_neg (by omega), if_pos hlt]

theorem denotes_indexToEndIterator (c : IteratorCache) (i : ℕ) :
    c.denotes (indexToEndIterator i) = (c.endIteratorToTable[i]?).map fun t => .tableEnd t.key := by
  rw [denotes_of_lt (indexToEndIterator_lt i), endIteratorToIndex_indexToEndIterator]

theorem denotes_eq_row : c.denotes h = some (.row t k) ↔
    ∃ (i : ℕ) (p : RowPointer) (tp : TablePointer)
    (ei : ℤ), h = i ∧ c.iteratorToObject[i]? = some (some p) ∧
      c.tableCache.lookup (ofLex p.key).1 = some (tp, ei) ∧ tp.key = t ∧ (ofLex p.key).2 = k := by
  constructor
  · intro hd
    by_cases hnonneg : 0 ≤ h
    · obtain ⟨i, rfl⟩ := Int.eq_ofNat_of_zero_le hnonneg
      rw [denotes_natCast] at hd
      split at hd
      · cases hd
      · cases hd
      · next p hp =>
        obtain ⟨⟨tp, ei⟩, hcache, hrow⟩ := map_eq_some_iff.mp hd
        obtain ⟨hkey, hk⟩ := Denotation.row.inj hrow
        exact ⟨i, p, tp, ei, rfl, hp, hcache, hkey, hk⟩
    · rw [denotes, if_neg hnonneg] at hd
      split at hd
      · obtain ⟨tp, -, hrow⟩ := map_eq_some_iff.mp hd
        cases hrow
      · cases hd
  · rintro ⟨i, p, tp, ei, rfl, hp, hcache, rfl, rfl⟩
    rw [denotes_natCast, hp]
    simp only [hcache, map_some]

theorem denotes_eq_tableEnd : c.denotes h = some (.tableEnd t) ↔
    ∃ i tp, h = indexToEndIterator i ∧ c.endIteratorToTable[i]? = some tp ∧ tp.key = t := by
  constructor
  · intro hd
    by_cases hlt : h < -1
    · rw [denotes_of_lt hlt] at hd
      obtain ⟨tp, htp, hend⟩ := map_eq_some_iff.mp hd
      exact ⟨_, tp, (indexToEndIterator_endIteratorToIndex hlt).symm, htp,
        Denotation.tableEnd.inj hend⟩
    · rw [denotes] at hd
      split at hd
      · split at hd
        · cases hd
        · cases hd
        · obtain ⟨tp, -, hrow⟩ := map_eq_some_iff.mp hd
          cases hrow
      · cases hd
  · rintro ⟨i, tp, rfl, htp, rfl⟩
    rw [denotes_indexToEndIterator, htp]
    rfl

/-- Growing caches: every row and every table stays where it is. -/
theorem extends_of_prefix {c' : IteratorCache}
    (hrows : ∀ (i : ℕ) o, c.iteratorToObject[i]? = some o → c'.iteratorToObject[i]? = some o)
    (htables : ∀ id x, c.tableCache.lookup id = some x → c'.tableCache.lookup id = some x)
    (hends : ∀ (i : ℕ) tp, c.endIteratorToTable[i]? = some tp →
      c'.endIteratorToTable[i]? = some tp) :
    c.denotes.Extends c'.denotes := by
  intro h d hd
  by_cases hnonneg : 0 ≤ h
  · obtain ⟨i, rfl⟩ := Int.eq_ofNat_of_zero_le hnonneg
    rw [denotes_natCast] at hd ⊢
    split at hd
    · cases hd
    · next hi =>
      rw [hrows _ _ hi]
      exact hd
    · next p hi =>
      obtain ⟨x, hx, hrow⟩ := map_eq_some_iff.mp hd
      rw [hrows _ _ hi]
      exact map_eq_some_iff.mpr ⟨x, htables _ _ hx, hrow⟩
  · by_cases hlt : h < -1
    · rw [denotes_of_lt hlt] at hd ⊢
      obtain ⟨tp, htp, hend⟩ := map_eq_some_iff.mp hd
      rw [hends _ _ htp]
      exact congrArg some hend
    · rw [denotes, if_neg hnonneg, if_neg hlt] at hd
      cases hd

end IteratorCache

/-! ## The operations of the cache -/

namespace CacheHolds

variable {tables : ContractTables} {c : IteratorCache} {t : TableKey} {obj : TableIdObject}

variable (hc : CacheHolds tables c)
include hc

theorem cached_table {id : ℕ} {tp : TablePointer} {ei : ℤ}
    (hcache : c.tableCache.lookup id = some (tp, ei)) (hobj : tables.tableIds.lookup t = some obj)
    (hid : obj.id = id) : tp = ⟨t, obj.id⟩ := by
  obtain ⟨htp, i, -, hend⟩ := hc.tableAt _ _ _ hcache
  have hkey := (hc.pointer i tp hend).2 t obj hobj (hid.trans htp.symm)
  rw [hkey, hid, ← htp]

theorem cacheTable (hobj : tables.tableIds.lookup t = some obj) (hlt : obj.id < tables.nextTableId)
    (hinj : ∀ t' obj', tables.tableIds.lookup t' = some obj' → obj'.id = obj.id → t' = t) :
    CacheHolds tables (c.cacheTable ⟨t, obj.id⟩).2 ∧
      c.denotes.Extends (c.cacheTable ⟨t, obj.id⟩).2.denotes ∧
      (c.cacheTable ⟨t, obj.id⟩).2.tableCache.lookup obj.id =
        some (⟨t, obj.id⟩, (c.cacheTable ⟨t, obj.id⟩).1) := by
  cases hcache : c.tableCache.lookup obj.id with
  | some x =>
    obtain ⟨tp, ei⟩ := x
    have hsame : c.cacheTable ⟨t, obj.id⟩ = (ei, c) := by
      simp only [IteratorCache.cacheTable, hcache]
    have htp := hc.cached_table hcache hobj rfl
    subst htp
    rw [hsame]
    exact ⟨hc, fun _ _ hd => hd, hcache⟩
  | none =>
    have hnew : c.cacheTable ⟨t, obj.id⟩ = (indexToEndIterator c.endIteratorToTable.length,
        { c with
          endIteratorToTable := c.endIteratorToTable ++ [⟨t, obj.id⟩]
          tableCache := c.tableCache.insert obj.id
            (⟨t, obj.id⟩, indexToEndIterator c.endIteratorToTable.length) }) := by
      simp only [IteratorCache.cacheTable, hcache]
    rw [hnew]
    refine ⟨⟨hc.objectOf, hc.iteratorOf, hc.live, ?_, ?_, ?_, ?_⟩, ?_, lookup_insert _⟩
    · intro i p hp
      obtain ⟨tp, ei, hx⟩ := hc.cached i p hp
      exact ⟨tp, ei, lookup_insert_of_none hcache hx⟩
    · intro id tp ei hx
      rcases lookup_insert_eq_some.mp hx with ⟨rfl, heq⟩ | ⟨-, hx⟩
      · cases heq
        exact ⟨rfl, _, rfl, getElem?_concat_eq_some.mpr (.inr ⟨rfl, rfl⟩)⟩
      · obtain ⟨hid, i, hei, hend⟩ := hc.tableAt _ _ _ hx
        exact ⟨hid, i, hei, getElem?_concat_eq_some.mpr (.inl hend)⟩
    · intro i tp hend
      rcases getElem?_concat_eq_some.mp hend with hend | ⟨rfl, rfl⟩
      · exact lookup_insert_of_none hcache (hc.endOf i tp hend)
      · exact lookup_insert _
    · intro i tp hend
      rcases getElem?_concat_eq_some.mp hend with hend | ⟨rfl, rfl⟩
      · exact hc.pointer i tp hend
      · exact ⟨hlt, hinj⟩
    · exact extends_of_prefix (fun _ _ hi => hi) (fun _ _ hx => lookup_insert_of_none hcache hx)
        fun i tp hend => getElem?_concat_eq_some.mpr (.inl hend)

theorem add {p : RowKey} {o : KeyValueObject} (ho : tables.keyValues.lookup p = some o)
    (hinj : ∀ p' o', tables.keyValues.lookup p' = some o' → o'.id = o.id → p' = p)
    (hcached : ∃ tp ei, c.tableCache.lookup (ofLex p).1 = some (tp, ei)) :
    CacheHolds tables (c.add ⟨p, o.id⟩).2 ∧ c.denotes.Extends (c.add ⟨p, o.id⟩).2.denotes ∧
      (c.add ⟨p, o.id⟩).2.tableCache = c.tableCache ∧
      ∃ i : ℕ, (c.add ⟨p, o.id⟩).1 = i ∧
        (c.add ⟨p, o.id⟩).2.iteratorToObject[i]? = some (some ⟨p, o.id⟩) := by
  cases hiter : c.objectToIterator.lookup o.id with
  | some h =>
    have hsame : c.add ⟨p, o.id⟩ = (h, c) := by
      simp only [IteratorCache.add, hiter]
    rw [hsame]
    obtain ⟨i, p', rfl, hp, hid⟩ := hc.objectOf _ _ hiter
    obtain ⟨o', ho', hid'⟩ := hc.live i p' hp
    have hkey : p'.key = p := hinj _ _ ho' (hid'.trans hid)
    refine ⟨hc, fun _ _ hd => hd, rfl, i, rfl, ?_⟩
    rw [← hkey, ← hid]
    exact hp
  | none =>
    have hnew : c.add ⟨p, o.id⟩ = ((c.iteratorToObject.length : ℤ),
        { c with
          iteratorToObject := c.iteratorToObject ++ [some ⟨p, o.id⟩]
          objectToIterator :=
            c.objectToIterator.insert o.id (c.iteratorToObject.length : ℤ) }) := by
      simp only [IteratorCache.add, hiter]
    rw [hnew]
    refine ⟨⟨?_, ?_, ?_, ?_, hc.tableAt, hc.endOf, hc.pointer⟩, ?_, rfl, _, rfl,
      getElem?_concat_eq_some.mpr (.inr ⟨rfl, rfl⟩)⟩
    · intro id h hlookup
      rcases lookup_insert_eq_some.mp hlookup with ⟨rfl, rfl⟩ | ⟨-, hlookup⟩
      · exact ⟨_, _, rfl, getElem?_concat_eq_some.mpr (.inr ⟨rfl, rfl⟩), rfl⟩
      · obtain ⟨i, p, hi, hp, hid⟩ := hc.objectOf _ _ hlookup
        exact ⟨i, p, hi, getElem?_concat_eq_some.mpr (.inl hp), hid⟩
    · intro i p hp
      rcases getElem?_concat_eq_some.mp hp with hp | ⟨rfl, ⟨⟩⟩
      · exact lookup_insert_of_none hiter (hc.iteratorOf i p hp)
      · exact lookup_insert _
    · intro i p hp
      rcases getElem?_concat_eq_some.mp hp with hp | ⟨rfl, ⟨⟩⟩
      · exact hc.live i p hp
      · exact ⟨o, ho, rfl⟩
    · intro i p hp
      rcases getElem?_concat_eq_some.mp hp with hp | ⟨rfl, ⟨⟩⟩
      · exact hc.cached i p hp
      · exact hcached
    · exact extends_of_prefix (fun i o hi => getElem?_concat_eq_some.mpr (.inl hi))
        (fun _ _ hx => hx) fun _ _ hend => hend

end CacheHolds

/-! ## The invariant -/

variable {σ : Type}

/-- The state of an action in step with the maps. -/
structure Represents (s : DbState σ) (maps : ContractMaps) : Prop where
  tables : TablesHold s.tables maps
  cache : CacheHolds s.tables s.keyvalCache

structure IndexHolds (d : DbState σ) : Prop where
  tableId_lt : ∀ t obj, d.tables.tableIds.lookup t = some obj → obj.id < d.tables.nextTableId
  tableId_inj : ∀ t t' obj obj', d.tables.tableIds.lookup t = some obj →
    d.tables.tableIds.lookup t' = some obj' → obj.id = obj'.id → t = t'
  owned : ∀ p o, d.tables.keyValues.lookup p = some o →
    ∃ t obj, d.tables.tableIds.lookup t = some obj ∧ obj.id = (ofLex p).1
  rowId_lt : ∀ p o, d.tables.keyValues.lookup p = some o → o.id < d.tables.nextKeyValueId
  rowId_inj : ∀ p p' o o', d.tables.keyValues.lookup p = some o →
    d.tables.keyValues.lookup p' = some o' → o.id = o'.id → p = p'
  cache : CacheHolds d.tables d.keyvalCache

/-! ## What an index is relied on for -/

/-- Only the cache has changed. -/
structure Looks (d d' : DbState σ) : Prop where
  tables : d'.tables = d.tables
  usage : d'.usage = d.usage
  holds : IndexHolds d'

structure HandleAt (d : DbState σ) (h : ℤ) (i : ℕ) (p : RowPointer) (o : KeyValueObject)
    (t : TableKey) (obj : TableIdObject) (ei : ℤ) : Prop where
  handle : h = i
  pointer : d.keyvalCache.iteratorToObject[i]? = some (some p)
  object : d.tables.keyValues.lookup p.key = some o
  id : o.id = p.id
  table : d.tables.tableIds.lookup t = some obj
  tableId : obj.id = (ofLex p.key).1
  cached : d.keyvalCache.tableCache.lookup obj.id = some (⟨t, obj.id⟩, ei)
  get : d.getObject h = .ok (p, o)

/-- A handle of row `k` of the table `t`, as the maps have it. -/
structure RowAt (s : DbState σ) (maps : ContractMaps) (h : ℤ) (t : TableKey) (k i : ℕ)
    (p : RowPointer) (obj : TableIdObject) (o : KeyValueObject) (ei : ℤ) : Prop
    extends HandleAt s h i p o t obj ei where
  key : p.key = toLex (obj.id, k)
  row : (maps t).lookup k = some o.row

def IsIteratorException (e : ChainException) : Prop :=
  e.kind = .invalidTableIterator ∨ e.kind = .tableOperationNotPermitted

theorem IteratorCache.get_cases (c : IteratorCache) (h : ℤ) :
    (∃ (i : ℕ) (p : RowPointer), h = i ∧ c.iteratorToObject[i]? = some (some p)) ∨
      ∃ e, c.get h = .error e ∧ IsIteratorException e := by
  by_cases hinvalid : h = -1
  · refine .inr ⟨⟨.invalidTableIterator, "invalid iterator"⟩, ?_, .inl rfl⟩
    rw [IteratorCache.get, ineAssert, ensure_neg (not_not.mpr hinvalid), error_bind]
  by_cases hnonneg : 0 ≤ h
  · have hget : c.get h = match c.iteratorToObject[h.toNat]? with
        | none => .error ⟨.invalidTableIterator, "iterator out of range"⟩
        | some none => .error ⟨.tableOperationNotPermitted, "dereference of deleted object"⟩
        | some (some result) => pure result := by
      rw [IteratorCache.get, ineAssert, ensure_pos hinvalid, ok_bind, ineAssert, ensure_pos hnonneg]
      rfl
    obtain ⟨i, rfl⟩ := Int.eq_ofNat_of_zero_le hnonneg
    rw [Int.toNat_natCast] at hget
    cases hi : c.iteratorToObject[i]? with
    | none =>
      rw [hi] at hget
      exact .inr ⟨_, hget, .inl rfl⟩
    | some entry =>
      cases entry with
      | none =>
        rw [hi] at hget
        exact .inr ⟨_, hget, .inr rfl⟩
      | some p => exact .inl ⟨i, p, rfl, hi⟩
  · refine .inr ⟨⟨.tableOperationNotPermitted, "dereference of end iterator"⟩, ?_, .inr rfl⟩
    rw [IteratorCache.get, ineAssert, ensure_pos hinvalid, ok_bind, ineAssert, ensure_neg hnonneg,
      error_bind]

section Index

variable {d d' d'' : DbState σ} {h ei : ℤ} {i : ℕ} {p : RowPointer} {o : KeyValueObject}
  {t : TableKey} {obj : TableIdObject} {tp : TablePointer}

theorem DbState.getObject_of_row (hp : d.keyvalCache.iteratorToObject[i]? = some (some p))
    (ho : d.tables.keyValues.lookup p.key = some o) (hid : o.id = p.id) :
    d.getObject (i : ℤ) = .ok (p, o) := by
  have hget : d.keyvalCache.get (i : ℤ) = .ok p := by
    rw [IteratorCache.get, ineAssert, ensure_pos (by omega), ok_bind, ineAssert,
      ensure_pos (by omega), ok_bind, Int.toNat_natCast, hp]
    rfl
  rw [getObject, hget, ok_bind, derefRow, ho]
  simp only [hid, if_pos]
  rfl

theorem DbState.derefTable_of_some (hobj : d.tables.tableIds.lookup tp.key = some obj)
    (hid : obj.id = tp.id) : d.derefTable tp = .ok obj := by
  simp only [derefTable, hobj, if_pos hid]
  rfl

theorem DbState.derefTable_of_removed
    (hgone : ∀ obj, d.tables.tableIds.lookup tp.key = some obj → obj.id ≠ tp.id) :
    d.derefTable tp = .error removedTable := by
  rw [derefTable]
  split
  · next obj hobj => rw [if_neg (hgone obj hobj)]
  · rfl

theorem HandleAt.key (hat : HandleAt d h i p o t obj ei) :
    p.key = toLex (obj.id, (ofLex p.key).2) := by
  rw [hat.tableId]
  rfl

theorem HandleAt.deref (hat : HandleAt d h i p o t obj ei) :
    d.keyvalCache.getTable (ofLex p.key).1 = .ok ⟨t, obj.id⟩ ∧ d.derefTable ⟨t, obj.id⟩ = .ok obj :=
  ⟨by rw [getTable, ← hat.tableId, hat.cached], derefTable_of_some hat.table rfl⟩

theorem Looks.trans (h₁ : Looks d d') (h₂ : Looks d' d'') : Looks d d'' :=
  ⟨h₂.tables.trans h₁.tables, h₂.usage.trans h₁.usage, h₂.holds⟩

variable (hd : IndexHolds d)
include hd

theorem IndexHolds.looks : Looks d d := ⟨rfl, rfl, hd⟩

theorem IndexHolds.withCache {c : IteratorCache} (hc : CacheHolds d.tables c) :
    Looks d { d with keyvalCache := c } :=
  ⟨rfl, rfl, { hd with cache := hc }⟩

theorem IndexHolds.handleAt (hp : d.keyvalCache.iteratorToObject[i]? = some (some p)) :
    ∃ o t obj ei, HandleAt d i i p o t obj ei := by
  obtain ⟨o, ho, hid⟩ := hd.cache.live i p hp
  obtain ⟨t, obj, hobj, hobjId⟩ := hd.owned _ _ ho
  obtain ⟨tp, ei, hcached⟩ := hd.cache.cached i p hp
  obtain rfl := hd.cache.cached_table hcached hobj hobjId
  exact ⟨o, t, obj, ei, rfl, hp, ho, hid, hobj, hobjId, hobjId ▸ hcached,
    getObject_of_row hp ho hid⟩

theorem IndexHolds.handle_cases (h : ℤ) :
    (∃ i p o t obj ei, HandleAt d h i p o t obj ei) ∨
      ∃ e, d.getObject h = .error e ∧ IsIteratorException e := by
  rcases d.keyvalCache.get_cases h with ⟨i, p, rfl, hp⟩ | ⟨e, hget, he⟩
  · exact .inl ⟨i, p, hd.handleAt hp⟩
  · exact .inr ⟨e, by rw [DbState.getObject, hget, error_bind], he⟩

/-! ## Looking -/

theorem IndexHolds.cacheTable (hobj : d.tables.tableIds.lookup t = some obj) :
    Looks d (d.cacheTable ⟨t, obj.id⟩).2 ∧
      d.denotes.Extends (d.cacheTable ⟨t, obj.id⟩).2.denotes ∧
      (d.cacheTable ⟨t, obj.id⟩).2.denotes (d.cacheTable ⟨t, obj.id⟩).1 = some (.tableEnd t) ∧
      (d.cacheTable ⟨t, obj.id⟩).2.keyvalCache.tableCache.lookup obj.id =
        some (⟨t, obj.id⟩, (d.cacheTable ⟨t, obj.id⟩).1) := by
  obtain ⟨hc, hextends, hcached⟩ := hd.cache.cacheTable hobj (hd.tableId_lt t obj hobj)
    fun t' obj' hobj' hid => hd.tableId_inj t' t obj' obj hobj' hobj hid
  obtain ⟨-, i, hei, hend⟩ := hc.tableAt _ _ _ hcached
  exact ⟨hd.withCache hc, hextends, denotes_eq_tableEnd.mpr ⟨i, _, hei, hend, rfl⟩, hcached⟩

theorem IndexHolds.addAt {p : RowKey} (ho : d.tables.keyValues.lookup p = some o)
    (hcached : d.keyvalCache.tableCache.lookup (ofLex p).1 = some (tp, ei)) :
    ∃ (i : ℕ) (d' : DbState σ), d.addAt p = .ok ((i : ℤ), d') ∧
      d.addObject ⟨p, o.id⟩ = ((i : ℤ), d') ∧ Looks d d' ∧ d.denotes.Extends d'.denotes ∧
      d'.denotes i = some (.row tp.key (ofLex p).2) ∧
      d'.keyvalCache.iteratorToObject[i]? = some (some ⟨p, o.id⟩) := by
  obtain ⟨hc, hextends, htables, i, hi, hp⟩ := hd.cache.add ho
    (fun p' o' ho' hid => hd.rowId_inj p' p o' o ho' ho hid) ⟨tp, ei, hcached⟩
  have hadd : d.addObject ⟨p, o.id⟩ =
      ((i : ℤ), { d with keyvalCache := (d.keyvalCache.add ⟨p, o.id⟩).2 }) := by
    rw [addObject, hi]
  refine ⟨i, _, ?_, hadd, hd.withCache hc, hextends, ?_, hp⟩
  · simp only [DbState.addAt, ho, hadd]
    rfl
  · exact denotes_eq_row.mpr ⟨i, _, tp, ei, rfl, hp, by rw [htables, hcached], rfl, rfl⟩

omit hd

theorem inTable_cases (id : ℕ) (position : Option RowKey) :
    (inTable id position = none ∧ ∀ p, position = some p → (ofLex p).1 ≠ id) ∨
      ∃ k, inTable id position = some k ∧ position = some (toLex (id, k)) := by
  cases position with
  | none => exact .inl ⟨rfl, nofun⟩
  | some p =>
    by_cases hid : (ofLex p).1 = id
    · refine .inr ⟨(ofLex p).2, by simp [inTable, hid], ?_⟩
      rw [← hid]
      rfl
    · exact .inl ⟨by simp [inTable, hid], by rintro _ ⟨rfl⟩; exact hid⟩

theorem mem_of_least {rows : Table RowKey KeyValueObject} {f : RowKey → Prop} [DecidablePred f]
    {p : RowKey} (hp : least (rows.keys.filter f) = some p) : p ∈ rows :=
  mem_keys.mp (mem_filter.mp (least_eq_some.mp hp).1).1

theorem mem_of_greatest {rows : Table RowKey KeyValueObject} {f : RowKey → Prop} [DecidablePred f]
    {p : RowKey} (hp : greatest (rows.keys.filter f) = some p) : p ∈ rows :=
  mem_keys.mp (mem_filter.mp (greatest_eq_some.mp hp).1).1

theorem mem_of_present {rows : Table RowKey KeyValueObject} {k p : RowKey}
    (hp : (if rows.lookup k ≠ none then some k else none) = some p) : p ∈ rows := by
  split at hp
  · next hk =>
    obtain ⟨o, ho⟩ := ne_none_iff_exists'.mp hk
    exact some.inj hp ▸ mem_of_lookup ho
  · cases hp

include hd

theorem IndexHolds.seek {position : ℕ → Option RowKey}
    (hposition : ∀ id p, position id = some p → p ∈ d.tables.keyValues) :
    ∃ h d', d.seek t position = .ok (h, d') ∧ Looks d d' ∧ d.denotes.Extends d'.denotes ∧
      (d.tables.tableIds.lookup t = none → h = -1) ∧
      ∀ obj, d.tables.tableIds.lookup t = some obj →
        d'.denotes h = some (match inTable obj.id (position obj.id) with
          | some k => .row t k
          | none => .tableEnd t) := by
  cases hobj : d.tables.tableIds.lookup t with
  | none =>
    refine ⟨-1, d, ?_, hd.looks, fun _ _ hd => hd, fun _ => rfl, nofun⟩
    simp only [DbState.seek, DbState.findTable, hobj]
    rfl
  | some obj =>
    obtain ⟨hlooks, hextends, hend, hcached⟩ := hd.cacheTable hobj
    rcases inTable_cases obj.id (position obj.id) with ⟨hin, hout⟩ | ⟨k, hin, hpos⟩
    · refine ⟨(d.cacheTable ⟨t, obj.id⟩).1, (d.cacheTable ⟨t, obj.id⟩).2, ?_, hlooks, hextends,
        nofun, ?_⟩
      · simp only [DbState.seek, DbState.findTable, hobj, map_some]
        cases hpos : position obj.id with
        | none => rfl
        | some itr =>
          simp only [if_pos (hout itr hpos)]
          rfl
      · rintro _ ⟨rfl⟩
        rw [hin]
        exact hend
    · obtain ⟨o, ho⟩ := mem_iff.mp (hposition _ _ hpos)
      obtain ⟨i, d', hadd, -, hlooks', hextends', hrow, -⟩ := hlooks.holds.addAt ho hcached
      refine ⟨i, d', ?_, hlooks.trans hlooks', fun h x hx => hextends' h x (hextends h x hx),
        nofun, ?_⟩
      · simp only [DbState.seek, DbState.findTable, hobj, map_some, hpos, ofLex_toLex, ne_eq,
          not_true_eq_false, if_false]
        exact hadd
      · rintro _ ⟨rfl⟩
        rw [hin]
        exact hrow

omit hd

theorem DbState.seek_end (d : DbState σ) (t : TableKey) :
    d.seek t (fun _ => none) = .ok (d.dbEndI64 t) := by
  unfold seek dbEndI64
  split <;> rfl

include hd

theorem IndexHolds.endOf (t : TableKey) : Looks d (d.dbEndI64 t).2 := by
  obtain ⟨h, d', hrun, hlooks, -⟩ := @IndexHolds.seek σ d t hd (fun _ => none) nofun
  rw [seek_end] at hrun
  rw [Except.ok.inj hrun]
  exact hlooks

omit hd

/-- Where a step in a table leads: to the row at the position, or beyond the rows. -/
def StepsTo (d : DbState σ) (tp : TablePointer) (position : Option RowKey) (beyond : ℤ)
    (x : Result ((ℤ × Option ℕ) × DbState σ)) : Prop :=
  (inTable tp.id position = none ∧ x = .ok ((beyond, none), d)) ∨
    ∃ (k : ℕ) (o : KeyValueObject) (i : ℕ) (d' : DbState σ), inTable tp.id position = some k ∧
      d.tables.keyValues.lookup (toLex (tp.id, k)) = some o ∧ x = .ok (((i : ℤ), some k), d') ∧
      Looks d d' ∧ d.denotes.Extends d'.denotes ∧ d'.denotes i = some (.row tp.key k) ∧
      d'.keyvalCache.iteratorToObject[i]? = some (some ⟨toLex (tp.id, k), o.id⟩)

theorem StepsTo.looks {position : Option RowKey} {beyond : ℤ}
    {x : Result ((ℤ × Option ℕ) × DbState σ)} (hd : IndexHolds d)
    (hx : StepsTo d tp position beyond x) : ∃ r d', x = .ok (r, d') ∧ Looks d d' := by
  rcases hx with ⟨-, hx⟩ | ⟨k, o, i, d', -, -, hx, hlooks, -⟩
  · exact ⟨_, d, hx, hd.looks⟩
  · exact ⟨_, d', hx, hlooks⟩

variable {position : Option RowKey}
  (hcached : d.keyvalCache.tableCache.lookup tp.id = some (tp, ei))
  (hposition : ∀ p, position = some p → p ∈ d.tables.keyValues)
include hd hcached hposition

theorem IndexHolds.stepBackTo : StepsTo d tp position (-1) (d.stepBackTo tp.id position) := by
  rcases inTable_cases tp.id position with ⟨hin, hout⟩ | ⟨k, hin, rfl⟩
  · refine .inl ⟨hin, ?_⟩
    cases position with
    | none => rfl
    | some itr =>
      simp only [stepBackTo, if_pos (hout itr rfl)]
      rfl
  · obtain ⟨o, ho⟩ := mem_iff.mp (hposition _ rfl)
    obtain ⟨i, d', hadd, -, hlooks, hextends, hrow, hp⟩ := hd.addAt ho hcached
    refine .inr ⟨k, o, i, d', hin, ho, ?_, hlooks, hextends, hrow, hp⟩
    simp only [stepBackTo, ofLex_toLex, ne_eq, not_true_eq_false, if_false, hadd]
    rfl

theorem IndexHolds.stepForwardTo : StepsTo d tp position ei (d.stepForwardTo tp.id position) := by
  have hgetEnd : d.keyvalCache.getEndIteratorByTableId tp.id = .ok ei := by
    rw [getEndIteratorByTableId, hcached]
  -- only what is beyond the rows is different
  rcases hd.stepBackTo hcached hposition with ⟨hin, -⟩ | ⟨k, o, i, d', hin, ho, hrun, hrest⟩
  · refine .inl ⟨hin, ?_⟩
    rcases inTable_cases tp.id position with ⟨-, hout⟩ | ⟨k, hk, -⟩
    · cases position with
      | none =>
        simp only [stepForwardTo, hgetEnd]
        rfl
      | some itr =>
        simp only [stepForwardTo, if_pos (hout itr rfl), hgetEnd]
        rfl
    · cases hin.symm.trans hk
  · refine .inr ⟨k, o, i, d', hin, ho, hrun ▸ ?_, hrest⟩
    rcases inTable_cases tp.id position with ⟨hnone, -⟩ | ⟨k', -, rfl⟩
    · cases hin.symm.trans hnone
    · simp only [DbState.stepForwardTo, DbState.stepBackTo, ofLex_toLex, ne_eq, not_true_eq_false,
        if_false]

end Index

section Invariant

variable {s : DbState σ} {maps : ContractMaps} {h : ℤ} {t : TableKey} {k : ℕ}

variable (hs : Represents s maps)
include hs

theorem Represents.index : IndexHolds s where
  tableId_lt := hs.tables.tableId_lt
  tableId_inj := hs.tables.tableId_inj
  owned := hs.tables.owned
  rowId_lt := hs.tables.rowId_lt
  rowId_inj := hs.tables.rowId_inj
  cache := hs.cache

theorem Represents.look {s' : DbState σ} (hlooks : Looks s s') : Represents s' maps :=
  ⟨hlooks.tables ▸ hs.tables, hlooks.holds.cache⟩

theorem Represents.rowAt (hd : s.denotes h = some (.row t k)) :
    ∃ i p obj o ei, RowAt s maps h t k i p obj o ei := by
  obtain ⟨i, p, tp, ei, rfl, hp, hcache, rfl, rfl⟩ := denotes_eq_row.mp hd
  obtain ⟨o, t, obj, ei, hat⟩ := hs.index.handleAt hp
  obtain rfl := hs.cache.cached_table hcache hat.table hat.tableId
  refine ⟨i, p, obj, o, ei, hat, hat.key, ?_⟩
  rw [hs.tables.fiber t obj hat.table, ← hat.key, hat.object]
  rfl

theorem Represents.getObject_cases (h : ℤ) :
    (∃ t k, s.denotes h = some (.row t k)) ∨
      ∃ e, s.getObject h = .error e ∧ Rejects s.denotes h e := by
  rw [or_iff_not_imp_left]
  intro hno
  rcases s.keyvalCache.get_cases h with ⟨i, p, rfl, hi⟩ | ⟨e, hget, he⟩
  · obtain ⟨tp, ei, hcache⟩ := hs.cache.cached i p hi
    exact absurd ⟨tp.key, _, denotes_eq_row.mpr ⟨i, p, tp, ei, rfl, hi, hcache, rfl, rfl⟩⟩ hno
  · exact ⟨e, by rw [DbState.getObject, hget, error_bind], hno, he⟩

end Invariant

/-! ## Searching and walking -/

/-- What is proved of every call: it is refused as the maps allow, or it succeeds and the
invariant holds of the new maps. -/
def StepHolds (bill : UpdateDbUsage σ) (s : DbState σ) (maps : ContractMaps) (c : DbCall) : Prop :=
  (∃ e, s.call bill c = .error e ∧ Refuses maps s.denotes bill c e) ∨
    ∃ out s' maps', s.call bill c = .ok (out, s') ∧
      Accepts maps maps' s.denotes s'.denotes c out ∧ Represents s' maps'

section Walks

variable {bill : UpdateDbUsage σ} {s : DbState σ} {maps : ContractMaps} {h : ℤ}
  {t : TableKey} {k : ℕ} {found : Option ℕ} {obj : TableIdObject}

theorem step_search (hs : Represents s maps) (found : Option ℕ) {c : DbCall}
    {position : ℕ → Option RowKey}
    (hcall : s.call bill c = s.seek t position >>= fun r => pure (.handle r.1 none, r.2))
    (haccepts : ∀ s' : DbState σ, ∀ out, Searches maps maps s.denotes s'.denotes t found out →
      Accepts maps maps s.denotes s'.denotes c out)
    (hfound : ∀ obj, s.tables.tableIds.lookup t = some obj →
      inTable obj.id (position obj.id) = found)
    (hmem : ∀ id p, position id = some p → p ∈ s.tables.keyValues) :
    StepHolds bill s maps c := by
  obtain ⟨h, s', hrun, hlooks, hextends, hnone, hsome⟩ := hs.index.seek hmem
  refine .inr ⟨.handle h none, s', maps, by rw [hcall, hrun]; rfl, haccepts s' _
    ⟨rfl, hextends, h, rfl, fun hempty => ?_, fun hne => ?_⟩, hs.look hlooks⟩
  · cases hobj : s.tables.tableIds.lookup t with
    | none => exact hnone hobj
    | some obj => exact absurd hempty (hs.tables.nonempty t obj hobj)
  · cases hobj : s.tables.tableIds.lookup t with
    | none => exact absurd (hs.tables.absent t hobj) hne
    | some obj =>
      have hdenotes := hsome obj hobj
      rw [hfound obj hobj] at hdenotes
      cases found <;> exact hdenotes

theorem StepsTo.walks {position : Option RowKey} {beyond : ℤ}
    {x : Result ((ℤ × Option ℕ) × DbState σ)} (hx : StepsTo s ⟨t, obj.id⟩ position beyond x)
    (hs : Represents s maps) (hfound : inTable obj.id position = found)
    {P : Handles → ℤ → Prop} (hbeyond : P s.denotes beyond) :
    ∃ h s', x = .ok ((h, found), s') ∧
      Walks maps maps s.denotes s'.denotes t found (P s'.denotes) (.handle h found) ∧
      Represents s' maps := by
  rcases hx with ⟨hnone, hx⟩ | ⟨k, o, i, s', hk, -, hx, hlooks, hextends, hrow, -⟩
  · obtain rfl := hnone.symm.trans hfound
    exact ⟨beyond, s, hx, ⟨rfl, fun _ _ hd => hd, beyond, rfl, hbeyond⟩, hs⟩
  · obtain rfl := hk.symm.trans hfound
    exact ⟨i, s', hx, ⟨rfl, hextends, i, rfl, hrow⟩, hs.look hlooks⟩

theorem findTableByEndIterator_of_lt (c : IteratorCache) (hlt : h < -1) :
    c.findTableByEndIterator h = .ok c.endIteratorToTable[endIteratorToIndex h]? := by
  rw [findTableByEndIterator, ineAssert, ensure_pos hlt]
  rfl

variable (hs : Represents s maps)
include hs

theorem Represents.step_find (id : ℕ) : StepHolds bill s maps (.find t id) := by
  refine step_search hs _ rfl (fun _ _ hsearch => hsearch) (fun obj hobj => ?_)
    fun _ _ => mem_of_present
  rw [hs.tables.fiber t obj hobj]
  cases s.tables.keyValues.lookup (toLex (obj.id, id)) <;> simp [inTable]

theorem Represents.step_lowerbound (id : ℕ) : StepHolds bill s maps (.lowerbound t id) :=
  step_search hs _ rfl (fun _ _ hsearch => hsearch)
    (fun obj hobj => (hs.tables.fiber t obj hobj).lowerBound id) fun _ _ => mem_of_least

theorem Represents.step_upperbound (id : ℕ) : StepHolds bill s maps (.upperbound t id) :=
  step_search hs _ rfl (fun _ _ hsearch => hsearch)
    (fun obj hobj => (hs.tables.fiber t obj hobj).upperBound id) fun _ _ => mem_of_least

theorem Represents.step_end : StepHolds bill s maps (.«end» t) := by
  have hcall : s.call bill (.«end» t) =
      s.seek t (fun _ => none) >>= fun r => pure (.handle r.1 none, r.2) := by
    rw [seek_end]
    rfl
  exact step_search hs none hcall (fun _ _ hsearch => hsearch) (fun _ _ => rfl) nofun

theorem Represents.step_get (bufferSize : ℕ) : StepHolds bill s maps (.get h bufferSize) := by
  obtain ⟨t, k, hd⟩ | ⟨e, herror, hreject⟩ := hs.getObject_cases h
  · obtain ⟨i, p, obj, o, ei, hat⟩ := hs.rowAt hd
    refine .inr ⟨_, s, maps, ?_, ⟨rfl, rfl, t, k, o.row, hd, hat.row, rfl⟩, hs⟩
    rw [call, dbGetI64, hat.get, ok_bind]
    by_cases hsize : bufferSize = 0
    · simp only [hsize, if_true]
      rfl
    · simp only [hsize, if_false]
      rfl
  · refine .inl ⟨e, ?_, hreject⟩
    rw [call, dbGetI64, herror]
    rfl

theorem Represents.step_next : StepHolds bill s maps (.next h) := by
  by_cases hend : h < -1
  · refine .inr ⟨.handle (-1) none, s, maps, ?_, ?_, hs⟩
    · rw [call, dbNextI64, if_pos hend]
      rfl
    · simp only [Accepts, if_pos hend, and_self]
  obtain ⟨t, k, hd⟩ | ⟨e, herror, hreject⟩ := hs.getObject_cases h
  · obtain ⟨i, p, obj, o, ei, hat⟩ := hs.rowAt hd
    have hfiber := (hs.tables.fiber t obj hat.table).upperBound k
    rw [← hat.key] at hfiber
    obtain ⟨-, j, hei, hlast⟩ := hs.cache.tableAt _ _ _ hat.cached
    obtain ⟨h', s', hrun, hwalks, hs'⟩ :=
      (hs.index.stepForwardTo hat.cached fun p' (hp' : upperBound _ p.key = some p') =>
        mem_of_least hp').walks hs hfiber
        (P := fun handles h => handles h = some (.tableEnd t))
        (denotes_eq_tableEnd.mpr ⟨j, _, hei, hlast, rfl⟩)
    refine .inr ⟨.handle h' ((maps t).upperBound k), s', maps, ?_, ?_, hs'⟩
    · rw [call, dbNextI64, if_neg hend, hat.get, ok_bind]
      simp only [← hat.tableId, hrun]
      rfl
    · simp only [Accepts, if_neg hend]
      exact ⟨t, k, hd, hwalks⟩
  · refine .inl ⟨e, ?_, hend, hreject⟩
    rw [call, dbNextI64, if_neg hend, herror]
    rfl

theorem Represents.step_previous_row (hd : s.denotes h = some (.row t k)) :
    StepHolds bill s maps (.previous h) := by
  obtain ⟨i, p, obj, o, ei, hat⟩ := hs.rowAt hd
  have hfiber := (hs.tables.fiber t obj hat.table).priorKey k
  rw [← hat.key] at hfiber
  obtain ⟨h', s', hrun, hwalks, hs'⟩ :=
    (hs.index.stepBackTo hat.cached fun p' (hp' : priorKey _ p.key = some p') =>
      mem_of_greatest hp').walks hs hfiber
      (P := fun _ h => h = -1) rfl
  refine .inr ⟨_, s', maps, ?_, .inr ⟨t, k, hd, hwalks⟩, hs'⟩
  have hnonneg := hat.handle
  rw [call, dbPreviousI64, if_neg (by omega), hat.get, ok_bind]
  simp only [← hat.tableId, hrun]
  rfl

theorem Represents.step_previous_end (hlt : h < -1) {p : TablePointer}
    (hp : s.keyvalCache.endIteratorToTable[endIteratorToIndex h]? = some p)
    (hobj : s.tables.tableIds.lookup p.key = some obj) (hid : obj.id = p.id) :
    StepHolds bill s maps (.previous h) := by
  obtain ⟨t, id⟩ := p
  obtain rfl : obj.id = id := hid
  have hsteps := hs.index.stepBackTo (hs.cache.endOf _ _ hp)
    fun p' (hp' : lastUpTo _ obj.id = some p') => mem_of_greatest hp'
  obtain ⟨h', s', hrun, hwalks, hs'⟩ :=
    hsteps.walks hs (hs.tables.fiber t obj hobj).lastKey (P := fun _ h => h = -1) rfl
  have hd : s.denotes h = some (.tableEnd t) := by
    rw [DbState.denotes, denotes_of_lt hlt, hp]
    rfl
  refine .inr ⟨_, s', maps, ?_, .inl ⟨t, hd, hwalks⟩, hs'⟩
  rw [call, dbPreviousI64, if_pos hlt, findTableByEndIterator_of_lt _ hlt, ok_bind, hp]
  simp only [show s.derefTable ⟨t, obj.id⟩ = _ from derefTable_of_some hobj rfl, ok_bind, hrun]
  rfl

theorem Represents.step_previous (hsafe : s.Safe bill (.previous h)) :
    StepHolds bill s maps (.previous h) := by
  obtain ⟨t, k, hd⟩ | ⟨e, herror, hreject⟩ := hs.getObject_cases h
  · exact hs.step_previous_row hd
  by_cases hlt : h < -1
  · cases hp : s.keyvalCache.endIteratorToTable[endIteratorToIndex h]? with
    | some p =>
      obtain ⟨obj, hobj, hid⟩ := hsafe hlt p hp
      exact hs.step_previous_end hlt hp hobj hid
    | none =>
      refine .inl ⟨⟨.invalidTableIterator, "not a valid end iterator"⟩, ?_, ?_, hreject.1, .inl rfl⟩
      · rw [call, dbPreviousI64, if_pos hlt, findTableByEndIterator_of_lt _ hlt, ok_bind, hp]
        rfl
      · rintro ⟨t, hd⟩
        rw [DbState.denotes, denotes_of_lt hlt, hp] at hd
        cases hd
  · refine .inl ⟨e, ?_, ?_, hreject⟩
    · rw [call, dbPreviousI64, if_neg hlt, herror]
      rfl
    · rintro ⟨t, hd⟩
      obtain ⟨i, tp, rfl, -⟩ := denotes_eq_tableEnd.mp hd
      exact hlt (indexToEndIterator_lt i)

end Walks

end Inery.Chain
