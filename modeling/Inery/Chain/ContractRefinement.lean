import Inery.Chain.ContractHandles

/-!
# The primary-index interface refines ordered maps

The calls that change rows, and whole sequences of calls.  Storing, updating and removing differ in
what becomes of one row and of the object of its table (`RowChange`); that the tables go on holding
the maps is proved once for all three.
-/

namespace Inery.Chain

open Foundation IteratorCache Finmap Finset DbState Table Config Function KeyValueObject Option

variable {σ : Type}

/-! ## Changing rows -/

section Changes

variable {s : DbState σ} {maps : ContractMaps} {h : ℤ} {t : TableKey} {k : ℕ}
  (bill : UpdateDbUsage σ)

theorem charge_cases (s : DbState σ) (receiver payer : Name) (delta : ℤ) :
    (∃ usage, s.charge bill receiver payer delta = .ok { s with usage }) ∨
      ∃ e, s.charge bill receiver payer delta = .error e ∧ ChargeRefused bill receiver e := by
  cases hcharge : bill receiver payer delta s.usage with
  | ok usage => exact .inl ⟨usage, by rw [charge, hcharge]; rfl⟩
  | error e => exact .inr ⟨e, by rw [charge, hcharge]; rfl, payer, delta, s.usage, hcharge⟩

theorem chargeAll_cases (s : DbState σ) (receiver : Name) (charges : List (Name × ℤ)) :
    (∃ usage, s.chargeAll bill receiver charges = .ok { s with usage }) ∨
      ∃ e, s.chargeAll bill receiver charges = .error e ∧ ChargeRefused bill receiver e := by
  induction charges generalizing s with
  | nil => exact .inl ⟨s.usage, rfl⟩
  | cons c charges ih =>
    have hcons : s.chargeAll bill receiver (c :: charges) =
        s.charge bill receiver c.1 c.2 >>= fun s =>
          s.chargeAll bill receiver charges := List.foldlM_cons ..
    rcases charge_cases bill s receiver c.1 c.2 with
      ⟨usage, hcharge⟩ | ⟨e, hcharge, hrefused⟩
    · rw [hcons, hcharge]
      exact ih { s with usage }
    · exact .inr ⟨e, by rw [hcons, hcharge]; rfl, hrefused⟩

variable {tables tables' : ContractTables} {d d' d₁ : DbState σ} {tid : ℕ} {m : Table ℕ Row}
  {p : RowPointer} {o new : KeyValueObject} {obj tab : TableIdObject} {ei : ℤ}

/-- One row of one table changes in one index, and the object of the table with it. -/
structure ChangesRow (tables tables' : ContractTables) (t : TableKey) (tid k : ℕ) : Prop where
  own : ∀ t' obj, tables.tableIds.lookup t' = some obj → (obj.id = tid ↔ t' = t)
  fresh : (∃ obj, tables.tableIds.lookup t = some obj) ∨ tables.nextTableId ≤ tid
  others : ∀ t', t' ≠ t → tables'.tableIds.lookup t' = tables.tableIds.lookup t'
  rows : ∀ p, p ≠ toLex (tid, k) → tables'.keyValues.lookup p = tables.keyValues.lookup p
  object : ∀ obj, tables'.tableIds.lookup t = some obj → obj.id = tid
  tid_lt : tid < tables'.nextTableId
  nextTableId_le : tables.nextTableId ≤ tables'.nextTableId
  rowId : ∀ o, tables'.keyValues.lookup (toLex (tid, k)) = some o →
    o.id < tables'.nextKeyValueId ∧
    ∀ p o', tables.keyValues.lookup p = some o' → o'.id = o.id → p = toLex (tid, k)
  nextKeyValueId_le : tables.nextKeyValueId ≤ tables'.nextKeyValueId

theorem IndexHolds.own (hd : IndexHolds d) {t t' : TableKey} {obj obj' : TableIdObject}
    (hobj : d.tables.tableIds.lookup t = some obj)
    (hobj' : d.tables.tableIds.lookup t' = some obj') :
    obj'.id = obj.id ↔ t' = t := by
  refine ⟨hd.tableId_inj t' t obj' obj hobj' hobj, ?_⟩
  rintro rfl
  cases hobj.symm.trans hobj'
  rfl

theorem ChangesRow.pointer
    (hstep : ChangesRow tables tables' t tid k) {tp : TablePointer}
    (hlt : tp.id < tables.nextTableId)
    (hkeys : ∀ t' obj, tables.tableIds.lookup t' = some obj → obj.id = tp.id → t' = tp.key)
    {t' : TableKey} {obj : TableIdObject} (hobj : tables'.tableIds.lookup t' = some obj)
    (hid : obj.id = tp.id) : t' = tp.key := by
  by_cases heq : t' = t
  · subst heq
    have htid := hstep.object obj hobj
    rcases hstep.fresh with ⟨old, hold⟩ | hle
    · exact hkeys t' old hold (((hstep.own t' old hold).mpr rfl).trans (htid.symm.trans hid))
    · omega
  · exact hkeys t' obj (hstep.others t' heq ▸ hobj) hid

/-- **Step of an index.**  The cache is left alone here; what points to the changed row has to stay
good. -/
theorem IndexHolds.change (hd : IndexHolds d) (hstep : ChangesRow d.tables d'.tables t tid k)
    (hcache : d'.keyvalCache = d.keyvalCache)
    (hlive : ∀ (i : ℕ) p, d.keyvalCache.iteratorToObject[i]? = some (some p) →
      p.key = toLex (tid, k) → ∃ o, d'.tables.keyValues.lookup p.key = some o ∧ o.id = p.id)
    (howned : ∀ p o, d'.tables.keyValues.lookup p = some o →
      ∃ t obj, d'.tables.tableIds.lookup t = some obj ∧ obj.id = (ofLex p).1) : IndexHolds d' where
  tableId_lt t' obj hobj := by
    by_cases heq : t' = t
    · subst heq
      rw [hstep.object obj hobj]
      exact hstep.tid_lt
    · exact (hd.tableId_lt t' obj (hstep.others t' heq ▸ hobj)).trans_le hstep.nextTableId_le
  tableId_inj t₁ t₂ obj₁ obj₂ h₁ h₂ hid := by
    by_cases heq₁ : t₁ = t
    · by_cases heq₂ : t₂ = t
      · rw [heq₁, heq₂]
      · subst heq₁
        exact ((hstep.own t₂ obj₂ (hstep.others t₂ heq₂ ▸ h₂)).mp
          (hid.symm.trans (hstep.object obj₁ h₁))).symm
    · by_cases heq₂ : t₂ = t
      · subst heq₂
        exact (hstep.own t₁ obj₁ (hstep.others t₁ heq₁ ▸ h₁)).mp (hid.trans (hstep.object obj₂ h₂))
      · exact hd.tableId_inj t₁ t₂ obj₁ obj₂ (hstep.others t₁ heq₁ ▸ h₁)
          (hstep.others t₂ heq₂ ▸ h₂) hid
  owned := howned
  rowId_lt p o ho := by
    by_cases hp : p = toLex (tid, k)
    · subst hp
      exact (hstep.rowId o ho).1
    · rw [hstep.rows p hp] at ho
      exact (hd.rowId_lt p o ho).trans_le hstep.nextKeyValueId_le
  rowId_inj p₁ p₂ o₁ o₂ ho₁ ho₂ hid := by
    by_cases hp₁ : p₁ = toLex (tid, k)
    · by_cases hp₂ : p₂ = toLex (tid, k)
      · rw [hp₁, hp₂]
      · subst hp₁
        rw [hstep.rows p₂ hp₂] at ho₂
        exact ((hstep.rowId o₁ ho₁).2 p₂ o₂ ho₂ hid.symm).symm
    · rw [hstep.rows p₁ hp₁] at ho₁
      by_cases hp₂ : p₂ = toLex (tid, k)
      · subst hp₂
        exact (hstep.rowId o₂ ho₂).2 p₁ o₁ ho₁ hid
      · rw [hstep.rows p₂ hp₂] at ho₂
        exact hd.rowId_inj p₁ p₂ o₁ o₂ ho₁ ho₂ hid
  cache := by
    rw [hcache]
    have hc := hd.cache
    refine ⟨hc.objectOf, hc.iteratorOf, fun i p hp => ?_, hc.cached, hc.tableAt, hc.endOf,
      fun i tp hend => ?_⟩
    · by_cases hkey : p.key = toLex (tid, k)
      · exact hlive i p hp hkey
      · rw [hstep.rows p.key hkey]
        exact hc.live i p hp
    · obtain ⟨hlt, hkeys⟩ := hc.pointer i tp hend
      exact ⟨hlt.trans_le hstep.nextTableId_le, fun t' obj => hstep.pointer hlt hkeys⟩

theorem IndexHolds.setRow_step (hd : IndexHolds d) (hobj : d.tables.tableIds.lookup t = some obj)
    (hkey : p.key = toLex (obj.id, k)) (ho : d.tables.keyValues.lookup p.key = some o)
    (hid : new.id = o.id) : ChangesRow d.tables (d.setRow p.key new).tables t obj.id k := by
  refine ⟨fun _ _ => hd.own hobj, .inl ⟨obj, hobj⟩, fun _ _ => rfl, fun p' hp' => ?_,
    fun obj' hobj' => (hd.own hobj hobj').mpr rfl, hd.tableId_lt t obj hobj, le_refl _,
    fun o' ho' => ?_, le_refl _⟩
  · exact lookup_insert_of_ne _ (hkey ▸ hp')
  · have hnew : (d.tables.keyValues.insert p.key new).lookup p.key = some o' := hkey ▸ ho'
    rw [lookup_insert] at hnew
    cases hnew
    rw [hid, ← hkey]
    exact ⟨hd.rowId_lt _ _ ho, fun p' o' ho' hid' => hd.rowId_inj p' p.key o' o ho' ho hid'⟩

theorem IndexHolds.setRow_live (hd : IndexHolds d) (hkey : p.key = toLex (tid, k))
    (ho : d.tables.keyValues.lookup p.key = some o) (hid : new.id = o.id) (i : ℕ) (p' : RowPointer)
    (hp' : d.keyvalCache.iteratorToObject[i]? = some (some p')) (hkey' : p'.key = toLex (tid, k)) :
    ∃ o, (d.setRow p.key new).tables.keyValues.lookup p'.key = some o ∧ o.id = p'.id := by
  obtain ⟨o', ho', hid'⟩ := hd.cache.live i p' hp'
  rw [hkey', ← hkey, ho] at ho'
  cases ho'
  rw [hkey', ← hkey]
  exact ⟨new, lookup_insert _, hid.trans hid'⟩

/-- What storing, updating and removing a row have in common: under one key of one table, the
row and the table object may change, to what the new map of that table asks for. -/
structure RowChange (tables tables' : ContractTables) (maps : ContractMaps) (t : TableKey)
    (tid k : ℕ) (m : Table ℕ Row) : Prop extends ChangesRow tables tables' t tid k where
  fiber : IsFiber tables.keyValues tid row (maps t)
  same : ∀ k', k' ≠ k → m.lookup k' = (maps t).lookup k'
  row : m.lookup k = (tables'.keyValues.lookup (toLex (tid, k))).map row
  table : (tables'.tableIds.lookup t = none ∧ m = ∅) ∨ ∃ obj, tables'.tableIds.lookup t = some obj ∧
    obj.count = m.keys.card ∧ obj.count < 2 ^ 32 ∧ m ≠ ∅

theorem RowChange.counted (hc : RowChange tables tables' maps t tid k m)
    (hobj : tables'.tableIds.lookup t = some obj) :
    obj.count = m.keys.card ∧ obj.count < 2 ^ 32 ∧ m ≠ ∅ := by
  rcases hc.table with ⟨hnone, -⟩ | ⟨obj', hobj', hrest⟩
  · cases hnone.symm.trans hobj
  · cases hobj'.symm.trans hobj
    exact hrest

theorem RowChange.exists_object (hc : RowChange tables tables' maps t tid k m) {k' : ℕ} {row : Row}
    (hrow : m.lookup k' = some row) :
    ∃ obj, tables'.tableIds.lookup t = some obj ∧ obj.id = tid := by
  rcases hc.table with ⟨-, hempty⟩ | ⟨obj, hobj, -⟩
  · rw [hempty] at hrow
    cases hrow
  · exact ⟨obj, hobj, hc.object obj hobj⟩

theorem RowChange.owned (hc : RowChange tables tables' maps t tid k m) (ht : TablesHold tables maps)
    (p : RowKey) (o : KeyValueObject) (ho : tables'.keyValues.lookup p = some o) :
    ∃ t obj, tables'.tableIds.lookup t = some obj ∧ obj.id = (ofLex p).1 := by
  by_cases hp : p = toLex (tid, k)
  · subst hp
    have hrow := hc.row
    rw [ho] at hrow
    obtain ⟨obj, hobj, hid⟩ := hc.exists_object hrow
    exact ⟨t, obj, hobj, hid⟩
  · rw [hc.rows p hp] at ho
    obtain ⟨t', obj, hobj, hid⟩ := ht.owned p o ho
    by_cases heq : t' = t
    · -- another row of the same table, which is in the new map too
      subst heq
      have htid := (hc.own t' obj hobj).mpr rfl
      have hpid : p = toLex (tid, (ofLex p).2) := by
        rw [← htid, hid]
        rfl
      have hk : (ofLex p).2 ≠ k := by
        intro hk
        exact hp (by rw [hpid, hk])
      have hrow := hc.fiber (ofLex p).2
      rw [← hpid, ho] at hrow
      obtain ⟨obj', hobj', hid'⟩ := hc.exists_object ((hc.same _ hk).trans hrow)
      exact ⟨t', obj', hobj', by rw [hid', ← htid, hid]⟩
    · exact ⟨t', obj, (hc.others t' heq).trans hobj, hid⟩

/-- **Step of the tables**, with what else an index is relied on for. -/
theorem Represents.change (hs : Represents s maps)
    (hc : RowChange s.tables d.tables maps t tid k m) (hcache : d.keyvalCache = s.keyvalCache)
    (hlive : ∀ (i : ℕ) p, s.keyvalCache.iteratorToObject[i]? = some (some p) →
      p.key = toLex (tid, k) → ∃ o, d.tables.keyValues.lookup p.key = some o ∧ o.id = p.id) :
    Represents d (update maps t m) := by
  have hindex := hs.index.change hc.toChangesRow hcache hlive (hc.owned hs.tables)
  have hcounted : ∀ t' obj, d.tables.tableIds.lookup t' = some obj →
      obj.count = (update maps t m t').keys.card ∧ obj.count < 2 ^ 32 ∧ update maps t m t' ≠ ∅ := by
    intro t' obj hobj
    by_cases heq : t' = t
    · subst heq
      rw [update_self]
      exact hc.counted hobj
    · have hold := hc.others t' heq ▸ hobj
      rw [update_of_ne heq]
      exact ⟨hs.tables.count t' obj hold, hs.tables.count_lt t' obj hold,
        hs.tables.nonempty t' obj hold⟩
  refine ⟨?_, hindex.cache⟩
  exact
    { owned := hindex.owned
      tableId_lt := hindex.tableId_lt
      tableId_inj := hindex.tableId_inj
      rowId_lt := hindex.rowId_lt
      rowId_inj := hindex.rowId_inj
      absent t' hnone := by
        by_cases heq : t' = t
        · subst heq
          rw [update_self]
          rcases hc.table with ⟨-, hempty⟩ | ⟨obj, hobj, -⟩
          · exact hempty
          · rw [hobj] at hnone
            cases hnone
        · rw [update_of_ne heq]
          exact hs.tables.absent t' (hc.others t' heq ▸ hnone)
      nonempty t' obj hobj := (hcounted t' obj hobj).2.2
      count t' obj hobj := (hcounted t' obj hobj).1
      count_lt t' obj hobj := (hcounted t' obj hobj).2.1
      fiber t' obj hobj k' := by
        by_cases heq : t' = t
        · subst heq
          rw [update_self, hc.object obj hobj]
          by_cases hk : k' = k
          · rw [hk]
            exact hc.row
          · rw [hc.same k' hk, hc.rows _ (by simpa using hk)]
            exact hc.fiber k'
        · have hold : s.tables.tableIds.lookup t' = some obj := hc.others t' heq ▸ hobj
          have hne : toLex (obj.id, k') ≠ toLex (tid, k) := by
            intro hsame
            exact heq ((hc.own t' obj hold).mp (congrArg Prod.fst (toLex_inj.mp hsame)))
          rw [update_of_ne heq, hc.rows _ hne]
          exact hs.tables.fiber t' obj hold k' }

theorem RowAt.mem_keys (hat : RowAt s maps h t k i p obj o ei) : k ∈ (maps t).keys :=
  Finmap.mem_keys.mpr (mem_of_lookup hat.row)

theorem RowAt.setRow_change (hat : RowAt s maps h t k i p obj o ei) (hs : Represents s maps)
    (hid : new.id = o.id) :
    RowChange s.tables (s.setRow p.key new).tables maps t obj.id k
      ((maps t).insert k new.row) := by
  refine ⟨hs.index.setRow_step hat.table hat.key hat.object hid, hs.tables.fiber t obj hat.table,
    fun k' hk' => lookup_insert_of_ne _ hk', ?_,
    .inr ⟨obj, hat.table, ?_, hs.tables.count_lt t obj hat.table, insert_ne_empty _ _ _⟩⟩
  · rw [← hat.key]
    show ((maps t).insert k new.row).lookup k =
      ((s.tables.keyValues.insert p.key new).lookup p.key).map KeyValueObject.row
    rw [lookup_insert, lookup_insert]
    rfl
  · rw [keys_insert, insert_eq_of_mem hat.mem_keys]
    exact hs.tables.count t obj hat.table

theorem Represents.step_update (hs : Represents s maps) (receiver payer : Name) (buffer : Bytes) :
    StepHolds bill s maps (.update receiver h payer buffer) := by
  obtain ⟨t, k, hd⟩ | ⟨e, herror, hreject⟩ := hs.getObject_cases h
  swap
  · refine .inl ⟨e, ?_, .inl hreject⟩
    rw [call, dbUpdateI64, herror]
    rfl
  obtain ⟨i, p, obj, o, ei, hat⟩ := hs.rowAt hd
  obtain ⟨htable, hderef⟩ := hat.deref
  have hrun : s.dbUpdateI64 bill receiver h payer buffer =
      ineAssert (t.code = receiver) .tableAccessViolation "db access violation" >>= fun _ =>
        s.chargeAll bill receiver
          (updateCharges o (if payer = 0 then o.payer else payer) buffer) >>= fun s =>
        pure (s.setRow p.key { o with
          payer := if payer = 0 then o.payer else payer, value := buffer }) := by
    rw [dbUpdateI64, hat.get, ok_bind]
    simp only [htable, hderef, ok_bind]
  by_cases hcode : t.code = receiver
  swap
  · refine .inl ⟨⟨.tableAccessViolation, "db access violation"⟩, ?_,
      .inr (.inl ⟨t, k, hd, hcode, rfl⟩)⟩
    rw [call, hrun, ineAssert, ensure_neg hcode]
    rfl
  rw [ineAssert, ensure_pos hcode, ok_bind] at hrun
  rcases chargeAll_cases bill s receiver
    (updateCharges o (if payer = 0 then o.payer else payer) buffer) with
    ⟨usage, hcharge⟩ | ⟨e, hcharge, hrefused⟩
  swap
  · refine .inl ⟨e, ?_, .inr (.inr hrefused)⟩
    rw [call, hrun, hcharge]
    rfl
  rw [hcharge, ok_bind] at hrun
  let new : KeyValueObject :=
    { o with payer := if payer = 0 then o.payer else payer, value := buffer }
  refine .inr ⟨.done, setRow { s with usage } p.key new, _,
    by rw [call, hrun]; rfl, ⟨rfl, rfl, t, k, o.row, hd, hat.row, hcode, rfl⟩, ?_⟩
  exact hs.change (hat.setRow_change hs rfl) rfl (hs.index.setRow_live hat.key hat.object rfl)

/-! ## Removing rows -/

/-- What `remove` leaves of a cache, for the handle `i` of the row with this id. -/
def IteratorCache.forget (c : IteratorCache) (i id : ℕ) : IteratorCache :=
  { c with
    iteratorToObject := c.iteratorToObject.set i none
    objectToIterator := c.objectToIterator.erase id }

variable {c : IteratorCache} {p : RowPointer}

theorem remove_of_row {i : ℕ} (hp : c.iteratorToObject[i]? = some (some p)) :
    c.remove (i : ℤ) = .ok (c.forget i p.id) := by
  rw [IteratorCache.remove, ineAssert, ensure_pos (by omega), ok_bind, ineAssert,
    ensure_pos (by omega), ok_bind, Int.toNat_natCast, hp]
  rfl

theorem CacheHolds.forget (hcache : CacheHolds tables c) {i : ℕ}
    (hp : c.iteratorToObject[i]? = some (some p)) :
    CacheHolds tables (c.forget i p.id) ∧
    ∀ (j : ℕ) p', (c.forget i p.id).iteratorToObject[j]? = some (some p') →
      j ≠ i ∧ c.iteratorToObject[j]? = some (some p') := by
  have hset : ∀ (j : ℕ) p', (c.iteratorToObject.set i none)[j]? = some (some p') →
      j ≠ i ∧ c.iteratorToObject[j]? = some (some p') := by
    intro j p' hp'
    rw [List.getElem?_set] at hp'
    split at hp'
    · split at hp' <;> cases hp'
    · next hne => exact ⟨Ne.symm hne, hp'⟩
  refine ⟨⟨?_, ?_, ?_, ?_, hcache.tableAt, hcache.endOf, hcache.pointer⟩, hset⟩
  · intro id h hlookup
    obtain ⟨hid, hlookup⟩ := lookup_erase_eq_some.mp hlookup
    obtain ⟨j, p', rfl, hp', hid'⟩ := hcache.objectOf id h hlookup
    refine ⟨j, p', rfl, ?_, hid'⟩
    have hne : i ≠ j := by
      rintro rfl
      rw [hp] at hp'
      obtain rfl := some.inj (some.inj hp')
      exact hid hid'.symm
    rw [IteratorCache.forget, List.getElem?_set_ne hne]
    exact hp'
  · intro j p' hp'
    obtain ⟨hne, hp'⟩ := hset j p' hp'
    have hlookup := hcache.iteratorOf j p' hp'
    refine lookup_erase_eq_some.mpr ⟨fun hid => ?_, hlookup⟩
    rw [hid, hcache.iteratorOf i p hp] at hlookup
    exact hne (Int.ofNat_inj.mp (some.inj hlookup)).symm
  · intro j p' hp'
    exact hcache.live j p' (hset j p' hp').2
  · intro j p' hp'
    exact hcache.cached j p' (hset j p' hp').2

/-- After `remove` the handle stands for a removed row, all others for what they did. -/
theorem denotes_forget {i : ℕ} (hp : c.iteratorToObject[i]? = some (some p)) :
    (c.forget i p.id).denotes = update c.denotes (i : ℤ) (some .removed) := by
  have hi : i < c.iteratorToObject.length := by
    by_contra hge
    rw [List.getElem?_eq_none (by omega)] at hp
    cases hp
  funext h
  by_cases hnonneg : 0 ≤ h
  · obtain ⟨j, rfl⟩ := Int.eq_ofNat_of_zero_le hnonneg
    by_cases hij : j = i
    · subst hij
      rw [update_self, denotes_natCast, forget, List.getElem?_set_self hi]
    · rw [update_of_ne (by omega), denotes_natCast, denotes_natCast,
        forget, List.getElem?_set_ne (Ne.symm hij)]
  · rw [update_of_ne (by omega), IteratorCache.denotes, IteratorCache.denotes,
      if_neg hnonneg, if_neg hnonneg]
    rfl

/-- The tables after a row is removed: the count is one less, and at 0 the table is gone. -/
def withoutRow (s : DbState σ) (t : TableKey) (key : RowKey) (obj : TableIdObject) : DbState σ :=
  if obj.count = 1 then ((s.setCount t obj 0).eraseRow key).eraseTable t
  else (s.setCount t obj (obj.count - 1)).eraseRow key

theorem withoutRow_keyValues (s : DbState σ) (t : TableKey) (key : RowKey) (obj : TableIdObject) :
    (withoutRow s t key obj).tables.keyValues = s.tables.keyValues.erase key := by
  rw [withoutRow]
  split <;> rfl

theorem IndexHolds.withoutRow_step (hd : IndexHolds d)
    (hobj : d.tables.tableIds.lookup t = some obj) (hkey : p.key = toLex (obj.id, k)) :
    ChangesRow d.tables (withoutRow d t p.key obj).tables t obj.id k := by
  refine ⟨fun _ _ => hd.own hobj, .inl ⟨obj, hobj⟩, fun t' ht' => ?_, fun p' hp' => ?_,
    fun obj' hobj' => ?_, ?_, ?_, fun o' ho' => ?_, ?_⟩
  · rw [withoutRow]
    split
    · show ((d.tables.tableIds.insert t _).erase t).lookup t' = _
      rw [lookup_erase_ne ht', lookup_insert_of_ne _ ht']
    · exact lookup_insert_of_ne _ ht'
  · rw [withoutRow_keyValues, lookup_erase_ne (hkey ▸ hp')]
  · rw [withoutRow] at hobj'
    split at hobj'
    · have hnone : ((d.tables.tableIds.insert t _).erase t).lookup t = some obj' := hobj'
      rw [lookup_erase] at hnone
      cases hnone
    · have hsome : (d.tables.tableIds.insert t _).lookup t = some obj' := hobj'
      rw [lookup_insert] at hsome
      cases hsome
      rfl
  · rw [withoutRow]
    split <;> exact hd.tableId_lt t obj hobj
  · rw [withoutRow]
    split <;> exact le_refl _
  · rw [← hkey, withoutRow_keyValues, lookup_erase] at ho'
    cases ho'
  · rw [withoutRow]
    split <;> exact le_refl _

/-- Another handle of a removed row would be the same handle. -/
theorem IndexHolds.forget_live (hd : IndexHolds d) {i j : ℕ} {p' : RowPointer}
    (hp : d.keyvalCache.iteratorToObject[i]? = some (some p))
    (ho : d.tables.keyValues.lookup p.key = some o) (hid : o.id = p.id)
    (hp' : (d.keyvalCache.forget i p.id).iteratorToObject[j]? = some (some p')) :
    p'.key ≠ p.key := by
  intro hkey
  obtain ⟨hne, hp'⟩ := (hd.cache.forget hp).2 j p' hp'
  obtain ⟨o', ho', hid'⟩ := hd.cache.live j p' hp'
  rw [hkey, ho] at ho'
  have hlookup := hd.cache.iteratorOf j p' hp'
  rw [← hid', ← some.inj ho', hid, hd.cache.iteratorOf i p hp] at hlookup
  exact hne (Int.ofNat_inj.mp (some.inj hlookup)).symm

theorem RowAt.withoutRow_change (hat : RowAt s maps h t k i p obj o ei) (hs : Represents s maps) :
    RowChange s.tables (withoutRow s t p.key obj).tables maps t obj.id k ((maps t).erase k) := by
  refine ⟨hs.index.withoutRow_step hat.table hat.key, hs.tables.fiber t obj hat.table,
    fun k' hk' => lookup_erase_ne hk', ?_, ?_⟩
  · rw [← hat.key, withoutRow_keyValues, lookup_erase, lookup_erase]
    rfl
  · have hcount := hs.tables.count t obj hat.table
    have hlt := hs.tables.count_lt t obj hat.table
    have hcard : ((maps t).erase k).keys.card = obj.count - 1 := by
      rw [keys_erase, card_erase_of_mem hat.mem_keys, hcount]
    have hpos : 0 < obj.count := hcount ▸ card_pos.mpr ⟨k, hat.mem_keys⟩
    rw [withoutRow]
    split
    · next hone =>
      refine .inl ⟨?_, eq_empty_of_card_keys (by rw [hcard, hone])⟩
      exact lookup_erase _ _
    · next hone =>
      refine .inr ⟨{ obj with count := u32 (obj.count - 1) }, lookup_insert _, ?_, ?_, ?_⟩
      · show u32 (obj.count - 1) = _
        rw [u32_of_lt (by omega), hcard]
      · exact u32_lt _
      · intro hempty
        rw [hempty] at hcard
        have hzero : (0 : ℕ) = obj.count - 1 := hcard
        omega

def dropRow (d : DbState σ) (t : TableKey) (i : ℕ) (p : RowPointer) (obj : TableIdObject) :
    DbState σ :=
  { withoutRow d t p.key obj with keyvalCache := d.keyvalCache.forget i p.id }

variable {i : ℕ}

theorem HandleAt.dbRemoveI64 (hat : HandleAt d h i p o t obj ei) (receiver : Name) :
    d.dbRemoveI64 bill receiver h =
      ineAssert (t.code = receiver) .tableAccessViolation "db access violation" >>= fun _ =>
      d.charge bill receiver o.payer (-(o.value.length + billableKeyValue)) >>=
        fun d => d.removeRow bill receiver t p obj h := by
  obtain ⟨htable, hderef⟩ := hat.deref
  rw [DbState.dbRemoveI64, hat.get, ok_bind]
  simp only [htable, hderef, ok_bind]

theorem HandleAt.removeRow_cases (hat : HandleAt d h i p o t obj ei) (hpos : 0 < obj.count)
    (hlt : obj.count < 2 ^ 32) (receiver : Name) (usage : σ) :
    (∃ usage', removeRow bill { d with usage } receiver t p obj h =
        .ok { dropRow d t i p obj with usage := usage' }) ∨
      ∃ e, removeRow bill { d with usage } receiver t p obj h = .error e ∧
        ChargeRefused bill receiver e := by
  have hminus : u32 (obj.count + (2 ^ 32 - 1)) = obj.count - 1 := by
    rw [u32]
    omega
  have hforget : d.keyvalCache.remove h = .ok (d.keyvalCache.forget i p.id) := by
    rw [hat.handle]
    exact remove_of_row hat.pointer
  rw [removeRow, hminus]
  by_cases hone : obj.count = 1
  · rw [if_pos (by omega), removeTable, hone, dropRow, withoutRow, if_pos hone]
    rcases charge_cases bill ((setCount { d with usage } t obj 0).eraseRow p.key) receiver
      obj.payer (-billableTableId) with ⟨usage', hcharge⟩ | ⟨e, hcharge, hrefused⟩
    · refine .inl ⟨usage', ?_⟩
      rw [hcharge]
      show d.keyvalCache.remove h >>= _ = _
      rw [hforget]
      rfl
    · exact .inr ⟨e, by rw [hcharge]; rfl, hrefused⟩
  · refine .inl ⟨usage, ?_⟩
    rw [if_neg (by omega), dropRow, withoutRow, if_neg hone]
    show d.keyvalCache.remove h >>= _ = _
    rw [hforget]
    rfl

theorem Represents.step_remove (hs : Represents s maps) (receiver : Name) :
    StepHolds bill s maps (.remove receiver h) := by
  obtain ⟨t, k, hd⟩ | ⟨e, herror, hreject⟩ := hs.getObject_cases h
  swap
  · refine .inl ⟨e, ?_, .inl hreject⟩
    rw [call, dbRemoveI64, herror]
    rfl
  obtain ⟨i, p, obj, o, ei, hat⟩ := hs.rowAt hd
  have hrun := hat.dbRemoveI64 bill receiver
  by_cases hcode : t.code = receiver
  swap
  · refine .inl ⟨⟨.tableAccessViolation, "db access violation"⟩, ?_,
      .inr (.inl ⟨t, k, hd, hcode, rfl⟩)⟩
    rw [call, hrun, ineAssert, ensure_neg hcode]
    rfl
  rw [ineAssert, ensure_pos hcode, ok_bind] at hrun
  rcases charge_cases bill s receiver o.payer
    (-(o.value.length + billableKeyValue)) with ⟨usage, hcharge⟩ | ⟨e, hcharge, hrefused⟩
  swap
  · refine .inl ⟨e, ?_, .inr (.inr hrefused)⟩
    rw [call, hrun, hcharge]
    rfl
  rw [hcharge, ok_bind] at hrun
  have hpos : 0 < obj.count := hs.tables.count t obj hat.table ▸ card_pos.mpr ⟨k, hat.mem_keys⟩
  rcases hat.removeRow_cases bill hpos (hs.tables.count_lt t obj hat.table) receiver usage
    with ⟨usage', hremove⟩ | ⟨e, hremove, hrefused⟩
  · refine .inr ⟨.done, _, update maps t ((maps t).erase k), by rw [call, hrun, hremove]; rfl,
      ⟨rfl, ?_, t, k, hd, hcode, rfl⟩, ?_⟩
    · rw [hat.handle]
      exact denotes_forget hat.pointer
    · have hforgotten : Represents { s with keyvalCache := s.keyvalCache.forget i p.id } maps :=
        ⟨hs.tables, (hs.cache.forget hat.pointer).1⟩
      refine hforgotten.change (hat.withoutRow_change hs) rfl fun j p' hp' hkey => ?_
      exact absurd (hkey.trans hat.key.symm)
        (hs.index.forget_live hat.pointer hat.object hat.id hp')
  · exact .inl ⟨e, by rw [call, hrun, hremove]; rfl, .inr (.inr hrefused)⟩

/-! ## Storing rows -/

/-- The table that a row is stored in: the one that is there, or the one that was just created. -/
structure StoresInto (d d₁ : DbState σ) (t : TableKey) (tab : TableIdObject) : Prop where
  own : ∀ t' obj, d.tables.tableIds.lookup t' = some obj → (obj.id = tab.id ↔ t' = t)
  fresh : d.tables.tableIds.lookup t = some tab ∨
    d.tables.tableIds.lookup t = none ∧ d.tables.nextTableId ≤ tab.id ∧ tab.count = 0
  others : ∀ t', t' ≠ t → d₁.tables.tableIds.lookup t' = d.tables.tableIds.lookup t'
  rows : d₁.tables.keyValues = d.tables.keyValues
  nextRow : d₁.tables.nextKeyValueId = d.tables.nextKeyValueId
  tid_lt : tab.id < d₁.tables.nextTableId
  nextTableId_le : d.tables.nextTableId ≤ d₁.tables.nextTableId
  cache : d₁.keyvalCache = d.keyvalCache

theorem IndexHolds.into_some (hd : IndexHolds d) (hobj : d.tables.tableIds.lookup t = some tab) :
    StoresInto d d t tab :=
  ⟨fun _ _ => hd.own hobj, .inl hobj, fun _ _ => rfl, rfl, rfl, hd.tableId_lt t tab hobj, le_refl _,
    rfl⟩

theorem IndexHolds.into_none (hd : IndexHolds d) (hnone : d.tables.tableIds.lookup t = none)
    (usage : σ) (payer : Name) :
    StoresInto d (createTable { d with usage } t payer).2 t
      { id := d.tables.nextTableId, payer } := by
  refine ⟨fun t' obj hobj => ⟨fun hid => absurd hid (hd.tableId_lt t' obj hobj).ne, ?_⟩,
    .inr ⟨hnone, le_refl _, rfl⟩, fun t' ht' => lookup_insert_of_ne _ ht', rfl, rfl,
    Nat.lt_succ_self _, Nat.le_succ _, rfl⟩
  rintro rfl
  cases hnone.symm.trans hobj

theorem StoresInto.target (hinto : StoresInto s d₁ t tab) (ht : TablesHold s.tables maps) :
    IsFiber s.tables.keyValues tab.id row (maps t) ∧ tab.count = (maps t).keys.card := by
  rcases hinto.fresh with htab | ⟨hnone, hle, hzero⟩
  · exact ⟨ht.fiber t tab htab, ht.count t tab htab⟩
  · rw [ht.absent t hnone]
    refine ⟨fun k' => ?_, hzero⟩
    cases ho : s.tables.keyValues.lookup (toLex (tab.id, k')) with
    | none => rfl
    | some o =>
      obtain ⟨t', obj, hobj, hid⟩ := ht.owned _ _ ho
      have hlt := ht.tableId_lt t' obj hobj
      rw [hid] at hlt
      exact absurd hlt (not_lt.mpr hle)

def withRow (s : DbState σ) (t : TableKey) (tab : TableIdObject) (k : ℕ) (payer : Name)
    (buffer : Bytes) : DbState σ :=
  setCount
    { s with tables := { s.tables with
      keyValues := s.tables.keyValues.insert (toLex (tab.id, k))
        ⟨s.tables.nextKeyValueId, payer, buffer⟩
      nextKeyValueId := s.tables.nextKeyValueId + 1 } } t tab (tab.count + 1)

theorem StoresInto.keyValues (hinto : StoresInto d d₁ t tab) (k : ℕ) (payer : Name)
    (buffer : Bytes) : (withRow d₁ t tab k payer buffer).tables.keyValues =
      d.tables.keyValues.insert (toLex (tab.id, k)) ⟨d.tables.nextKeyValueId, payer, buffer⟩ := by
  rw [← hinto.rows, ← hinto.nextRow]
  rfl

theorem StoresInto.step (hinto : StoresInto d d₁ t tab) (hd : IndexHolds d) (payer : Name)
    (buffer : Bytes) :
    ChangesRow d.tables (withRow d₁ t tab k payer buffer).tables t tab.id k := by
  have hkeys := hinto.keyValues k payer buffer
  refine ⟨hinto.own, ?_, ?_, ?_, ?_, hinto.tid_lt, hinto.nextTableId_le, ?_, ?_⟩
  · exact hinto.fresh.imp (fun hobj => ⟨tab, hobj⟩) fun hnew => hnew.2.1
  · intro t' ht'
    rw [← hinto.others t' ht']
    exact lookup_insert_of_ne _ ht'
  · intro p hp
    rw [hkeys, lookup_insert_of_ne _ hp]
  · intro obj hobj
    have hobj' : (d₁.tables.tableIds.insert t _).lookup t = some obj := hobj
    rw [lookup_insert] at hobj'
    cases hobj'
    rfl
  · intro o ho
    rw [hkeys, lookup_insert] at ho
    cases ho
    refine ⟨?_, fun p o' ho' hid => absurd hid (hd.rowId_lt p o' ho').ne⟩
    show d.tables.nextKeyValueId < d₁.tables.nextKeyValueId + 1
    rw [hinto.nextRow]
    exact Nat.lt_succ_self _
  · show d.tables.nextKeyValueId ≤ d₁.tables.nextKeyValueId + 1
    rw [hinto.nextRow]
    exact Nat.le_succ _

theorem StoresInto.withRow_change (hinto : StoresInto s d₁ t tab) (hs : Represents s maps)
    (hcount : tab.count + 1 < 2 ^ 32) (hk : k ∉ maps t) (payer : Name) (buffer : Bytes) :
    RowChange s.tables (withRow d₁ t tab k payer buffer).tables maps t tab.id k
      ((maps t).insert k ⟨payer, buffer⟩) := by
  obtain ⟨hfiber, htarget⟩ := hinto.target hs.tables
  refine ⟨hinto.step hs.index payer buffer, hfiber,
    fun k' hk' => lookup_insert_of_ne _ hk', ?_,
    .inr ⟨{ tab with count := u32 (tab.count + 1) }, lookup_insert _, ?_, u32_lt _,
      insert_ne_empty _ _ _⟩⟩
  · rw [hinto.keyValues, lookup_insert, lookup_insert]
    rfl
  · show u32 (tab.count + 1) = _
    rw [u32_of_lt hcount, keys_insert,
      card_insert_of_notMem (fun hmem => hk (mem_keys.mp hmem)), htarget]

/-- The common end of both ways to store. -/
def insertRow (d : DbState σ) (receiver : Name) (t : TableKey) (tab : TableIdObject) (payer : Name)
    (k : ℕ) (value : Bytes) (billable : ℤ) : Result (ℤ × DbState σ) := do
  let (obj, d) ← d.createRow (toLex (tab.id, k)) payer value
  let d ← (d.setCount t tab (tab.count + 1)).charge bill receiver payer billable
  pure ((d.cacheTable ⟨t, tab.id⟩).2.addObject ⟨toLex (tab.id, k), obj.id⟩)

theorem dbStoreI64_eq_insertRow (d : DbState σ) (receiver scope table payer : Name) (k : ℕ)
    (buffer : Bytes) :
    d.dbStoreI64 bill receiver scope table payer k buffer =
      d.findOrCreateTable bill receiver ⟨receiver, scope, table⟩ payer >>= fun r =>
        requirePayer payer >>= fun _ =>
        insertRow bill r.2 receiver ⟨receiver, scope, table⟩ r.1 payer k buffer
          (buffer.length + billableKeyValue) := rfl

theorem insertRow_of_unused {s : DbState σ} {tab : TableIdObject}
    (hnone : s.tables.keyValues.lookup (toLex (tab.id, k)) = none) (receiver : Name) (t : TableKey)
    (payer : Name) (value : Bytes) (billable : ℤ) :
    insertRow bill s receiver t tab payer k value billable =
      (withRow s t tab k payer value).charge bill receiver payer billable >>= fun s' =>
        pure ((s'.cacheTable ⟨t, tab.id⟩).2.addObject
          ⟨toLex (tab.id, k), s.tables.nextKeyValueId⟩) := by
  rw [insertRow, createRow, if_neg (not_not.mpr hnone)]
  rfl

theorem insertRow_cases (s : DbState σ) (receiver : Name) (t : TableKey) (tab : TableIdObject)
    (payer : Name) (k : ℕ) (value : Bytes) (billable : ℤ) :
    (∃ e, insertRow bill s receiver t tab payer k value billable = .error e ∧
      ((s.tables.keyValues.lookup (toLex (tab.id, k)) ≠ none ∧ e.kind = .stdLogicError) ∨
        ChargeRefused bill receiver e)) ∨
    (s.tables.keyValues.lookup (toLex (tab.id, k)) = none ∧ ∃ usage,
      bill receiver payer billable s.usage = .ok usage ∧
      insertRow bill s receiver t tab payer k value billable =
        .ok ((cacheTable { withRow s t tab k payer value with usage }
          ⟨t, tab.id⟩).2.addObject ⟨toLex (tab.id, k), s.tables.nextKeyValueId⟩)) := by
  by_cases hnone : s.tables.keyValues.lookup (toLex (tab.id, k)) = none
  swap
  · have hcreate : s.createRow (toLex (tab.id, k)) payer value = .error _ := if_pos hnone
    exact .inl ⟨_, by rw [insertRow, hcreate, error_bind], .inl ⟨hnone, rfl⟩⟩
  have hrun := insertRow_of_unused bill hnone receiver t payer value billable
  cases hcharge : bill receiver payer billable (withRow s t tab k payer value).usage with
  | ok usage => exact .inr ⟨hnone, usage, hcharge, by rw [hrun, charge, hcharge]; rfl⟩
  | error e =>
    exact .inl ⟨e, by rw [hrun, charge, hcharge]; rfl, .inr ⟨payer, billable, _, hcharge⟩⟩

variable {receiver scope table payer : Name} {buffer : Bytes}

theorem StoresInto.step_store (hs : Represents s maps)
    (hinto : StoresInto s d₁ ⟨receiver, scope, table⟩ tab)
    (hrun : s.dbStoreI64 bill receiver scope table payer k buffer =
      requirePayer payer >>= fun _ =>
        insertRow bill d₁ receiver ⟨receiver, scope, table⟩ tab payer k buffer
          (buffer.length + billableKeyValue))
    (hcount : payer ≠ 0 → d₁.tables.keyValues.lookup (toLex (tab.id, k)) = none →
      (∃ usage, bill receiver payer (buffer.length + billableKeyValue) d₁.usage =
        .ok usage) → tab.count + 1 < 2 ^ 32) :
    StepHolds bill s maps (.store receiver scope table payer k buffer) := by
  have hmem : k ∈ maps ⟨receiver, scope, table⟩ ↔
      d₁.tables.keyValues.lookup (toLex (tab.id, k)) ≠ none := by
    rw [← mem_keys, (hinto.target hs.tables).1.mem_keys, mem_keys, hinto.rows, ne_eq,
      lookup_eq_none, not_not]
  by_cases hpayer : payer ≠ 0
  swap
  · have hrefused : requirePayer payer = .error _ := ensure_neg hpayer
    exact .inl ⟨_, by rw [call, hrun, hrefused]; rfl, .inl ⟨not_not.mp hpayer, rfl⟩⟩
  rw [requirePayer, ineAssert, ensure_pos hpayer, ok_bind] at hrun
  rcases insertRow_cases bill d₁ receiver ⟨receiver, scope, table⟩ tab payer k buffer
    (buffer.length + billableKeyValue) with ⟨e, herror, hwhy⟩ | ⟨hnone, usage, hcharge, hok⟩
  · refine .inl ⟨e, by rw [call, hrun, herror]; rfl, ?_⟩
    rw [← hmem] at hwhy
    exact .inr hwhy
  · have hk : k ∉ maps ⟨receiver, scope, table⟩ := by
      rw [hmem, not_not]
      exact hnone
    have hlt := hcount hpayer hnone ⟨usage, hcharge⟩
    -- the invariant with the new row, before the cache is told of it
    have hs₁ : Represents
        ({ withRow d₁ ⟨receiver, scope, table⟩ tab k payer buffer with usage } : DbState σ)
        (update maps ⟨receiver, scope, table⟩
          ((maps ⟨receiver, scope, table⟩).insert k ⟨payer, buffer⟩)) := by
      refine hs.change (hinto.withRow_change hs hlt hk payer buffer)
        hinto.cache fun i p hp hkey => ?_
      obtain ⟨o, ho, -⟩ := hs.cache.live i p hp
      rw [hkey, ← hinto.rows, hnone] at ho
      cases ho
    obtain ⟨hlooks, hextends, -, hcached⟩ := hs₁.index.cacheTable (lookup_insert _)
    obtain ⟨h, s₃, -, hadd, hlooks', hextendd₁, hdenotes, -⟩ :=
      hlooks.holds.addAt (p := toLex (tab.id, k)) (lookup_insert _) hcached
    refine .inr ⟨.handle h none, s₃, _, ?_, ⟨hpayer, hk, rfl, ?_, h, rfl, hdenotes⟩,
      hs₁.look (hlooks.trans hlooks')⟩
    · rw [call, hrun, hok]
      exact congrArg (fun r : ℤ × DbState σ => (Except.ok (DbOutput.handle r.1 none, r.2) :
        Result (DbOutput × DbState σ))) hadd
    · intro h d hd
      refine hextendd₁ h d (hextends h d ?_)
      rw [DbState.denotes] at hd ⊢
      rw [← hd]
      exact congrArg (fun c : IteratorCache => c.denotes h) hinto.cache

theorem Represents.step_store (hs : Represents s maps)
    (hsafe : s.Safe bill (.store receiver scope table payer k buffer)) :
    StepHolds bill s maps (.store receiver scope table payer k buffer) := by
  have hrun := dbStoreI64_eq_insertRow bill s receiver scope table payer k buffer
  cases htab : s.tables.tableIds.lookup ⟨receiver, scope, table⟩ with
  | some tab =>
    rw [findOrCreateTable, htab] at hrun
    exact StoresInto.step_store bill hs (hs.index.into_some htab) hrun
      (hsafe tab htab)
  | none =>
    rw [findOrCreateTable, htab] at hrun
    rcases charge_cases bill s receiver payer billableTableId with
      ⟨usage, hcharge⟩ | ⟨e, hcharge, hrefused⟩
    · simp only [hcharge, ok_bind] at hrun
      exact StoresInto.step_store bill hs (hs.index.into_none htab usage payer) hrun
        fun _ _ _ => (show 0 + 1 < 2 ^ 32 by decide)
    · refine .inl ⟨e, ?_, .inr (.inr hrefused)⟩
      rw [call, hrun]
      simp only [hcharge]
      rfl

/-! ## Sequences of calls -/

/-- **Step.**  A safe call does what it does on maps. -/
theorem Represents.step (hs : Represents s maps) {c : DbCall} (hsafe : s.Safe bill c) :
    StepHolds bill s maps c := by
  cases c with
  | store receiver scope table payer id buffer => exact hs.step_store bill hsafe
  | update receiver iterator payer buffer => exact hs.step_update bill receiver payer buffer
  | remove receiver iterator => exact hs.step_remove bill receiver
  | get iterator bufferSize => exact hs.step_get bufferSize
  | next iterator => exact hs.step_next
  | previous iterator => exact hs.step_previous hsafe
  | find key id => exact hs.step_find id
  | lowerbound key id => exact hs.step_lowerbound id
  | upperbound key id => exact hs.step_upperbound id
  | «end» key => exact hs.step_end

end Changes

/-- Every charge is accepted. -/
def freeUsage : UpdateDbUsage Unit := fun _ _ _ _ => .ok ()

end Inery.Chain
