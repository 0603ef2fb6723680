import Inery.Chain.IndexHandles
import Mathlib.Algebra.Order.BigOperators.Group.Finset

/-!
# End iterators and removed tables

The end of a table is kept by every cache that has seen the table, also when its object is
removed with its last row, whichever index that was in.  All calls of an action are safe except one
kind: a step back from the end of a table that is gone reads the removed object.
-/

namespace Inery.Chain

open Foundation Finmap Finset DbState Table Config

variable {σ : Type}

/-! ## The invariant over all indices -/

def IndexedState.rowCount (s : IndexedState σ) (tid : ℕ) : ℕ :=
  ∑ ty : ObjectType, ((s.rows ty).keys.filter fun p => (ofLex p).1 = tid).card

/-- Every index holds, and tables are there as long as they have rows, which they count. -/
structure Indexed (s : IndexedState σ) : Prop where
  index : ∀ ty, IndexHolds (s.view ty)
  count : ∀ t obj, s.tableIds.lookup t = some obj →
    obj.count = s.rowCount obj.id ∧ 0 < obj.count ∧ obj.count < 2 ^ 32

section Views

variable (s : IndexedState σ) (ty : ObjectType) (d d' : DbState σ)

@[simp] theorem IndexedState.view_put : (s.put ty d).view ty = d := by
  simp only [view, put, Function.update_self]

@[simp] theorem IndexedState.cache_put :
    (s.put ty d).cache ty = d.keyvalCache := Function.update_self ..

@[simp] theorem IndexedState.put_view : s.put ty (s.view ty) = s := by
  simp only [view, put, Function.update_eq_self]

@[simp] theorem IndexedState.put_put : (s.put ty d).put ty d' = s.put ty d' := by
  simp only [put, Function.update_idem]

variable {s ty d d'} {ty' : ObjectType}

theorem IndexedState.view_put_of_ne (hne : ty' ≠ ty) :
    (s.put ty d).view ty' =
      { tables :=
          { tableIds := d.tables.tableIds
            nextTableId := d.tables.nextTableId
            keyValues := s.rows ty'
            nextKeyValueId := s.nextRowId ty' }
        keyvalCache := s.cache ty'
        usage := d.usage } := by
  simp only [view, put, Function.update_of_ne hne]

theorem IndexHolds.congr (hd : IndexHolds d) (htables : d'.tables = d.tables)
    (hcache : d'.keyvalCache = d.keyvalCache) : IndexHolds d' := by
  obtain ⟨hlt, hinj, howned, hrowLt, hrowInj, hc⟩ := hd
  rw [← htables] at hlt hinj howned hrowLt hrowInj hc
  exact ⟨hlt, hinj, howned, hrowLt, hrowInj, hcache ▸ hc⟩

theorem Indexed.look (hs : Indexed s) (hlooks : Looks (s.view ty) d) : Indexed (s.put ty d) := by
  have hids : d.tables.tableIds = s.tableIds := by rw [hlooks.tables]; rfl
  have hnext : d.tables.nextTableId = s.nextTableId := by rw [hlooks.tables]; rfl
  have hrows : (s.put ty d).rows = s.rows := by
    show Function.update s.rows ty d.tables.keyValues = s.rows
    rw [hlooks.tables]
    exact Function.update_eq_self ty s.rows
  refine ⟨fun ty' => ?_, fun t obj hobj => ?_⟩
  · by_cases hne : ty' = ty
    · subst hne
      rw [IndexedState.view_put]
      exact hlooks.holds
    · rw [IndexedState.view_put_of_ne hne, hids, hnext]
      exact (hs.index ty').congr rfl rfl
  · have hcount : (s.put ty d).rowCount obj.id = s.rowCount obj.id := by
      rw [IndexedState.rowCount, hrows]
      rfl
    rw [hcount]
    exact hs.count t obj (hids ▸ hobj)

theorem Indexed.withUsage (hs : Indexed (s.put ty d)) (usage : σ) :
    Indexed (s.put ty { d with usage }) :=
  ⟨fun ty' => (hs.index ty').congr rfl rfl, hs.count⟩

end Views

/-! ## Changing one row -/

section Changes

variable {s : IndexedState σ} {ty ty' : ObjectType} {d : DbState σ} {t : TableKey} {tid k : ℕ}

theorem IndexedState.rowCount_pos {p : RowKey} {o : KeyValueObject}
    (ho : (s.rows ty).lookup p = some o) : 0 < s.rowCount (ofLex p).1 := by
  refine sum_pos' (fun _ _ => Nat.zero_le _) ⟨ty, mem_univ ty, card_pos.mpr ?_⟩
  exact ⟨p, mem_filter.mpr ⟨mem_keys.mpr (mem_of_lookup ho), rfl⟩⟩

theorem IndexedState.rowCount_put (s : IndexedState σ) (ty : ObjectType) (d : DbState σ) (id : ℕ) :
    (s.put ty d).rowCount id + ((s.rows ty).keys.filter fun p => (ofLex p).1 = id).card =
      s.rowCount id + (d.tables.keyValues.keys.filter fun p => (ofLex p).1 = id).card := by
  have hrest : ∑ x ∈ univ.erase ty,
      (((s.put ty d).rows x).keys.filter fun p => (ofLex p).1 = id).card =
      ∑ x ∈ univ.erase ty, ((s.rows x).keys.filter fun p => (ofLex p).1 = id).card := by
    refine sum_congr rfl fun x hx => ?_
    show ((Function.update s.rows ty d.tables.keyValues x).keys.filter _).card = _
    rw [Function.update_of_ne (ne_of_mem_erase hx)]
  have hself : (s.put ty d).rows ty = d.tables.keyValues := Function.update_self ..
  rw [rowCount, rowCount, ← add_sum_erase _ _ (mem_univ ty),
    ← add_sum_erase _ (fun x => ((s.rows x).keys.filter _).card) (mem_univ ty), hrest,
    hself]
  omega

theorem ChangesRow.rowCount_of_ne (hstep : ChangesRow (s.view ty).tables d.tables t tid k) {id : ℕ}
    (hne : id ≠ tid) : (s.put ty d).rowCount id = s.rowCount id := by
  have hsame : (d.tables.keyValues.keys.filter fun p => (ofLex p).1 = id) =
      (s.rows ty).keys.filter fun p => (ofLex p).1 = id := by
    ext p
    rw [mem_filter, mem_filter]
    refine and_congr_left fun hid => ?_
    have hp : p ≠ toLex (tid, k) := by
      rintro rfl
      exact hne hid.symm
    rw [mem_keys, mem_keys, ← lookup_isSome, ← lookup_isSome, hstep.rows p hp]
    rfl
  have hcount := s.rowCount_put ty d id
  rw [hsame] at hcount
  exact Nat.add_right_cancel hcount

/-- **Step of the tables.**  The cache of the changed index is left alone here; what points to the
changed row has to stay good. -/
theorem Indexed.change (hs : Indexed s) (hstep : ChangesRow (s.view ty).tables d.tables t tid k)
    (hcache : d.keyvalCache = s.cache ty)
    (hlive : ∀ (i : ℕ) p, (s.cache ty).iteratorToObject[i]? = some (some p) →
      p.key = toLex (tid, k) → ∃ o, d.tables.keyValues.lookup p.key = some o ∧ o.id = p.id)
    (hcount : (d.tables.tableIds.lookup t = none ∧ (s.put ty d).rowCount tid = 0) ∨
      ∃ obj, d.tables.tableIds.lookup t = some obj ∧ obj.count = (s.put ty d).rowCount tid ∧
        0 < obj.count ∧ obj.count < 2 ^ 32) : Indexed (s.put ty d) := by
  have hother : ∀ {t' obj}, t' ≠ t → d.tables.tableIds.lookup t' = some obj → obj.id ≠ tid := by
    intro t' obj heq hobj hid
    exact heq ((hstep.own t' obj (hstep.others t' heq ▸ hobj)).mp hid)
  have hrows : ∀ {ty' p}, p ≠ toLex (tid, k) →
      ((s.put ty d).rows ty').lookup p = (s.rows ty').lookup p := by
    intro ty' p hp
    show (Function.update s.rows ty d.tables.keyValues ty').lookup p = _
    by_cases hne : ty' = ty
    · subst hne
      rw [Function.update_self]
      exact hstep.rows p hp
    · rw [Function.update_of_ne hne]
  -- a row of any index has its table: the changed one counts it, the others are as before
  have howned : ∀ ty' p o, ((s.put ty d).view ty').tables.keyValues.lookup p = some o →
      ∃ t' obj, d.tables.tableIds.lookup t' = some obj ∧ obj.id = (ofLex p).1 := by
    intro ty' p o ho
    by_cases htid : (ofLex p).1 = tid
    · rcases hcount with ⟨-, hzero⟩ | ⟨obj, hobj, -⟩
      · have hpos : 0 < (s.put ty d).rowCount (ofLex p).1 := IndexedState.rowCount_pos ho
        rw [htid, hzero] at hpos
        exact absurd hpos (Nat.lt_irrefl 0)
      · exact ⟨t, obj, hobj, (hstep.object obj hobj).trans htid.symm⟩
    · have hp : p ≠ toLex (tid, k) := fun hp => htid (congrArg (fun p => (ofLex p).1) hp)
      obtain ⟨t', obj, hobj, hid⟩ := (hs.index ty').owned p o ((hrows hp).symm.trans ho)
      have hne : t' ≠ t := by
        rintro rfl
        exact htid (hid.symm.trans ((hstep.own t' obj hobj).mpr rfl))
      exact ⟨t', obj, (hstep.others t' hne).trans hobj, hid⟩
  refine ⟨fun ty' => ?_, fun t' obj hobj => ?_⟩
  · have hv := hs.index ty'
    have hrow := howned ty'
    by_cases hne : ty' = ty
    · subst hne
      rw [IndexedState.view_put] at hrow ⊢
      exact hv.change hstep hcache hlive hrow
    · -- the rows of another index are as they were
      rw [IndexedState.view_put_of_ne hne] at hrow ⊢
      exact hv.change (k := k)
        { hstep with
          rows := fun _ _ => rfl
          rowId := fun o ho => ⟨hv.rowId_lt _ o ho, fun p o' ho' => hv.rowId_inj p _ o' o ho' ho⟩
          nextKeyValueId_le := le_refl _ } rfl (fun i p hp _ => hv.cache.live i p hp) hrow
  · by_cases heq : t' = t
    · subst heq
      have hsome : d.tables.tableIds.lookup t' = some obj := hobj
      rcases hcount with ⟨hnone, -⟩ | ⟨obj', hobj', hrest⟩
      · cases hnone.symm.trans hsome
      · cases hobj'.symm.trans hsome
        rw [hstep.object obj hsome]
        exact hrest
    · rw [hstep.rowCount_of_ne (hother heq hobj)]
      exact hs.count t' obj (hstep.others t' heq ▸ hobj)

end Changes

/-! ## The calls that change rows -/

/-- What a call may throw: nothing that comes from a removed object, apart from what
`update_db_usage` throws. -/
def Allowed (bill : UpdateDbUsage σ) (e : ChainException) : Prop :=
  e.kind ≠ .undefinedBehaviour ∨ ∃ receiver, ChargeRefused bill receiver e

section Calls

variable {bill : UpdateDbUsage σ} {s : IndexedState σ} {ty : ObjectType} {d : DbState σ}
  {t : TableKey} {h ei : ℤ} {i k : ℕ} {p : RowPointer} {o : KeyValueObject}
  {tab obj : TableIdObject}

theorem IsIteratorException.allowed {e : ChainException} (he : IsIteratorException e) :
    Allowed bill e := by
  refine .inl ?_
  rcases he with he | he
  · rw [he]
    decide
  · rw [he]
    decide

theorem allowed_ends {α : Type} {x : Result α} {P : α → Prop} (h : Ends IsIteratorException P x) :
    Ends (Allowed bill) P x where
  ok := h.ok
  error hx := (h.error hx).allowed

theorem charge_ends (d : DbState σ) (receiver payer : Name) (delta : ℤ) :
    Ends (Allowed bill) (fun d' => ∃ usage, d' = { d with usage })
      (d.charge bill receiver payer delta) := by
  rcases charge_cases bill d receiver payer delta with ⟨usage, hrun⟩ | ⟨e, hrun, he⟩
  · exact .of_ok hrun ⟨usage, rfl⟩
  · exact .of_error hrun (.inr ⟨receiver, he⟩)

theorem chargeAll_ends (d : DbState σ) (receiver : Name) (charges : List (Name × ℤ)) :
    Ends (Allowed bill) (fun d' => ∃ usage, d' = { d with usage })
      (d.chargeAll bill receiver charges) := by
  rcases chargeAll_cases bill d receiver charges with ⟨usage, hrun⟩ | ⟨e, hrun, he⟩
  · exact .of_ok hrun ⟨usage, rfl⟩
  · exact .of_error hrun (.inr ⟨receiver, he⟩)

theorem ineAssert_ends {c : Prop} [Decidable c] {kind : ExceptionKind} {message : String}
    (hkind : kind ≠ .undefinedBehaviour) :
    Ends (Allowed bill) (fun _ => c) (ineAssert c kind message) :=
  .ensure fun _ => .inl hkind

variable (bill) in
theorem IndexHolds.findOrCreateTable (hd : IndexHolds d) (receiver : Name) (t : TableKey)
    (payer : Name) :
    Ends (Allowed bill) (fun r => StoresInto d r.2 t r.1)
      (d.findOrCreateTable bill receiver t payer) := by
  cases hobj : d.tables.tableIds.lookup t with
  | some tab =>
    exact .of_ok (a := (tab, d)) (by rw [DbState.findOrCreateTable, hobj]; rfl) (hd.into_some hobj)
  | none =>
    rw [DbState.findOrCreateTable, hobj]
    refine (charge_ends d receiver payer billableTableId).bind ?_
    rintro _ ⟨usage, rfl⟩
    exact .of_ok rfl (hd.into_none hobj usage payer)

variable (hs : Indexed s)
include hs

theorem Indexed.stores {d₁ : DbState σ} (hinto : StoresInto (s.view ty) d₁ t tab)
    (hcount : tab.count + 1 < 2 ^ 32)
    (hnone : d₁.tables.keyValues.lookup (toLex (tab.id, k)) = none) (payer : Name) (value : Bytes) :
    Indexed (s.put ty (withRow d₁ t tab k payer value)) := by
  have hkeys : (withRow d₁ t tab k payer value).tables.keyValues = (s.rows ty).insert _ _ :=
    hinto.keyValues k payer value
  have hnone' : (s.rows ty).lookup (toLex (tab.id, k)) = none := by
    rw [hinto.rows] at hnone
    exact hnone
  have hlook := hs.index ty
  refine hs.change (hinto.step hlook payer value) hinto.cache (fun i p hp hkey => ?_) (.inr ?_)
  · obtain ⟨o, ho, -⟩ := hlook.cache.live i p hp
    have ho' : (s.rows ty).lookup p.key = some o := ho
    rw [hkey, hnone'] at ho'
    cases ho'
  -- the table counted its rows before, none if it is new
  have hbefore : tab.count = s.rowCount tab.id := by
    rcases hinto.fresh with hobj | ⟨-, hle, hzero⟩
    · exact (hs.count t tab hobj).1
    · rw [hzero]
      refine (sum_eq_zero fun x _ => ?_).symm
      rw [card_eq_zero, filter_eq_empty_iff]
      intro p hp hid
      obtain ⟨o, ho⟩ := mem_iff.mp (mem_keys.mp hp)
      obtain ⟨t', obj, hobj, hid'⟩ := (hs.index x).owned p o ho
      have hlt := hlook.tableId_lt t' obj hobj
      omega
  have hafter : (s.put ty (withRow d₁ t tab k payer value)).rowCount tab.id =
      s.rowCount tab.id + 1 := by
    have hput := s.rowCount_put ty (withRow d₁ t tab k payer value) tab.id
    rw [hkeys, keys_insert, filter_insert,
      if_pos (show (ofLex (toLex (tab.id, k))).1 = tab.id from rfl), card_insert_of_notMem] at hput
    · omega
    · intro hmem
      have hkey := (mem_filter.mp hmem).1
      rw [mem_keys] at hkey
      exact (lookup_eq_none.mp hnone') hkey
  refine ⟨{ tab with count := u32 (tab.count + 1) }, lookup_insert _, ?_, ?_, u32_lt _⟩
  · show u32 (tab.count + 1) = _
    rw [u32_of_lt hcount, hafter, hbefore]
  · show 0 < u32 (tab.count + 1)
    rw [u32_of_lt hcount]
    exact Nat.succ_pos _

theorem Indexed.inserts {d₁ : DbState σ} (hinto : StoresInto (s.view ty) d₁ t tab)
    (receiver payer : Name) (k : ℕ) (value : Bytes) (billable : ℤ)
    (hcount : d₁.tables.keyValues.lookup (toLex (tab.id, k)) = none →
      (∃ usage, bill receiver payer billable d₁.usage = .ok usage) →
        tab.count + 1 < 2 ^ 32) :
    Ends (Allowed bill) (fun r => Indexed (s.put ty r.2))
      (insertRow bill d₁ receiver t tab payer k value billable) := by
  rcases insertRow_cases bill d₁ receiver t tab payer k value billable with
    ⟨e, herror, ⟨-, hkind⟩ | hrefused⟩ | ⟨hnone, usage, hcharge, hrun⟩
  · exact .of_error herror (.inl (by rw [hkind]; decide))
  · exact .of_error herror (.inr ⟨receiver, hrefused⟩)
  have hlt := hcount hnone ⟨usage, hcharge⟩
  refine .of_ok hrun ?_
  -- the new row is in the table, and then gets its handle
  have hrow := hs.stores hinto hlt hnone payer value
  have hcharged := hrow.withUsage usage
  have hview := hcharged.index ty
  rw [IndexedState.view_put] at hview
  have htable : (withRow d₁ t tab k payer value).tables.tableIds.lookup t =
      some { tab with count := u32 (tab.count + 1) } := lookup_insert _
  have hnew : (withRow d₁ t tab k payer value).tables.keyValues.lookup
      (toLex (tab.id, k)) = some ⟨d₁.tables.nextKeyValueId, payer, value⟩ := lookup_insert _
  obtain ⟨hlooks, -, -, hcached⟩ := hview.cacheTable htable
  obtain ⟨i, d', -, hadd, hlooks', -⟩ := hlooks.holds.addAt hnew hcached
  have hfinal : Looks ((s.put ty { withRow d₁ t tab k payer value with usage }).view ty)
      d' := by
    rw [IndexedState.view_put]
    exact hlooks.trans hlooks'
  have hindexed := hcharged.look hfinal
  rw [IndexedState.put_put] at hindexed
  show Indexed (s.put ty (addObject _ _).2)
  rw [hadd]
  exact hindexed

omit hs

theorem store_eq_insertRow (d : DbState σ) (i : SecondaryIndex) (receiver scope table payer : Name)
    (k : ℕ) (secondary : Bytes) :
    d.store bill i receiver scope table payer k secondary = requirePayer payer >>= fun _ =>
      d.findOrCreateTable bill receiver ⟨receiver, scope, table⟩ payer >>= fun r =>
        insertRow bill r.2 receiver ⟨receiver, scope, table⟩ r.1 payer k secondary
          i.billableSize := rfl

theorem Indexed.setRow (hs : Indexed s) {new : KeyValueObject}
    (hat : HandleAt (s.view ty) h i p o t obj ei) (hid : new.id = o.id) :
    Indexed (s.put ty ((s.view ty).setRow p.key new)) := by
  have hview := hs.index ty
  refine hs.change (hview.setRow_step hat.table hat.key hat.object hid) rfl
    (hview.setRow_live hat.key hat.object hid) (.inr ⟨obj, hat.table, ?_⟩)
  have hmem : p.key ∈ (s.rows ty).keys := mem_keys.mpr (mem_of_lookup hat.object)
  have hput := s.rowCount_put ty ((s.view ty).setRow p.key new) obj.id
  have hkeys : ((s.view ty).setRow p.key new).tables.keyValues.keys = (s.rows ty).keys := by
    show ((s.rows ty).insert p.key new).keys = _
    rw [keys_insert, insert_eq_of_mem hmem]
  rw [hkeys] at hput
  rw [Nat.add_right_cancel hput]
  exact hs.count t obj hat.table

theorem Indexed.drops (hs : Indexed s) (hat : HandleAt (s.view ty) h i p o t obj ei) :
    Indexed (s.put ty (dropRow (s.view ty) t i p obj)) := by
  have hview := hs.index ty
  obtain ⟨hcount, hpos, hlt⟩ := hs.count t obj hat.table
  have hrows := withoutRow_keyValues (s.view ty) t p.key obj
  have hforgotten := hs.look (hview.withCache (hview.cache.forget hat.pointer).1)
  have hstep := hview.withoutRow_step hat.table hat.key
  have hafter : (s.put ty (dropRow (s.view ty) t i p obj)).rowCount obj.id + 1 = obj.count := by
    have hput := s.rowCount_put ty (dropRow (s.view ty) t i p obj) obj.id
    have hmem : p.key ∈ (s.rows ty).keys.filter fun q => (ofLex q).1 = obj.id :=
      mem_filter.mpr ⟨mem_keys.mpr (mem_of_lookup hat.object), hat.tableId.symm⟩
    have hrows' : (dropRow (s.view ty) t i p obj).tables.keyValues =
        (s.rows ty).erase p.key := hrows
    rw [hrows', keys_erase, filter_erase, card_erase_of_mem hmem] at hput
    have hcard := card_pos.mpr ⟨_, hmem⟩
    omega
  have hindexed : Indexed ((s.put ty { s.view ty with
      keyvalCache := (s.view ty).keyvalCache.forget i p.id }).put ty
        (dropRow (s.view ty) t i p obj)) := by
    refine hforgotten.change (by rw [IndexedState.view_put]; exact hstep)
      (by rw [IndexedState.cache_put]; rfl) ?_ ?_
    · intro j p' hp' hp'key
      rw [IndexedState.cache_put] at hp'
      rw [← hat.key] at hp'key
      exact absurd hp'key (hview.forget_live hat.pointer hat.object hat.id hp')
    · rw [IndexedState.put_put]
      by_cases hone : obj.count = 1
      · refine .inl ⟨?_, by omega⟩
        rw [dropRow, withoutRow, if_pos hone]
        exact lookup_erase _ _
      · refine .inr ⟨{ obj with count := u32 (obj.count - 1) }, ?_, ?_, ?_, u32_lt _⟩
        · rw [dropRow, withoutRow, if_neg hone]
          exact lookup_insert _
        · show u32 (obj.count - 1) = _
          rw [u32_of_lt (by omega)]
          omega
        · show 0 < u32 (obj.count - 1)
          rw [u32_of_lt (by omega)]
          omega
  rw [IndexedState.put_put] at hindexed
  exact hindexed

theorem Indexed.removes (hs : Indexed s) (hat : HandleAt (s.view ty) h i p o t obj ei)
    (receiver : Name) (usage : σ) :
    Ends (Allowed bill) (fun d' => Indexed (s.put ty d'))
      (removeRow bill { s.view ty with usage } receiver t p obj h) := by
  obtain ⟨-, hpos, hlt⟩ := hs.count t obj hat.table
  rcases hat.removeRow_cases bill hpos hlt receiver usage with
    ⟨usage', hrun⟩ | ⟨e, hrun, hrefused⟩
  · exact .of_ok hrun ((hs.drops hat).withUsage usage')
  · exact .of_error hrun (.inr ⟨receiver, hrefused⟩)

include hs

theorem Indexed.remove_primary (receiver : Name) (h : ℤ) :
    Ends (Allowed bill) (fun d' => Indexed (s.put .keyValue d'))
      ((s.view .keyValue).dbRemoveI64 bill receiver h) := by
  rcases (hs.index .keyValue).handle_cases h with ⟨i, p, o, t, obj, ei, hat⟩ | ⟨e, hget, he⟩
  · rw [hat.dbRemoveI64]
    refine (ineAssert_ends (by decide)).bind fun _ _ => ?_
    refine (charge_ends _ receiver _ _).bind ?_
    rintro _ ⟨usage, rfl⟩
    exact hs.removes hat receiver usage
  · rw [dbRemoveI64, hget]
    exact .of_error rfl (he.allowed)

theorem Indexed.remove_secondary (index : SecondaryIndex) (receiver : Name) (h : ℤ) :
    Ends (Allowed bill) (fun d' => Indexed (s.put (.secondary index) d'))
      ((s.view (.secondary index)).remove bill index receiver h) := by
  rcases (hs.index (.secondary index)).handle_cases h with
    ⟨i, p, o, t, obj, ei, hat⟩ | ⟨e, hget, he⟩
  · obtain ⟨htable, hderef⟩ := hat.deref
    rw [remove, hat.get, ok_bind]
    refine (charge_ends _ receiver _ _).bind ?_
    rintro _ ⟨usage, rfl⟩
    -- the refund changes neither the cache nor the tables
    have hderef' : derefTable { s.view (.secondary index) with usage } ⟨t, obj.id⟩ =
        .ok obj := hderef
    simp only [htable, hderef', ok_bind]
    refine (ineAssert_ends (by decide)).bind fun _ _ => ?_
    exact hs.removes hat receiver usage
  · rw [remove, hget]
    exact .of_error rfl (he.allowed)

/-- Both ways to update: check, charge, replace. -/
theorem Indexed.replaceRow (receiver : Name) (h : ℤ) (charges : KeyValueObject → List (Name × ℤ))
    (new : KeyValueObject → KeyValueObject) {x : Result (DbState σ)}
    (hx : x = do
      let found ← (s.view ty).getObject h
      let tableObj ← (s.view ty).keyvalCache.getTable (ofLex found.1.key).1
      let _ ← (s.view ty).derefTable tableObj
      ineAssert (tableObj.key.code = receiver) .tableAccessViolation "db access violation"
      let d ← (s.view ty).chargeAll bill receiver (charges found.2)
      pure (d.setRow found.1.key (new found.2)))
    (hnew : ∀ o, (new o).id = o.id) :
    Ends (Allowed bill) (fun d' => Indexed (s.put ty d')) x := by
  rcases (hs.index ty).handle_cases h with ⟨i, p, o, t, obj, ei, hat⟩ | ⟨e, hget, he⟩
  · obtain ⟨htable, hderef⟩ := hat.deref
    rw [hx, hat.get, ok_bind]
    simp only [htable, hderef, ok_bind]
    refine (ineAssert_ends (by decide)).bind fun _ _ => ?_
    refine (chargeAll_ends _ receiver _).bind ?_
    rintro _ ⟨usage, rfl⟩
    exact .of_ok rfl ((hs.setRow hat (hnew o)).withUsage usage)
  · rw [hx, hget]
    exact .of_error rfl (he.allowed)

theorem Indexed.seek {position : ℕ → Option RowKey}
    (hposition : ∀ id p, position id = some p → p ∈ s.rows ty) :
    Ends (Allowed bill) (fun r => Indexed (s.put ty r.2)) ((s.view ty).seek t position) := by
  obtain ⟨h, d', hrun, hlooks, -⟩ := (hs.index ty).seek hposition
  exact .of_ok hrun (hs.look hlooks)

theorem Indexed.walk {x : Result ((ℤ × Option ℕ) × DbState σ)}
    (hx : Ends IsIteratorException (fun r => Looks (s.view ty) r.2) x) :
    Ends (Allowed bill) (fun r => Indexed (s.put ty r.2)) x :=
  allowed_ends (hx.mono fun _ hlooks => hs.look hlooks)

theorem Indexed.read (h : ℤ) : Ends (Allowed bill) (fun _ => Indexed (s.put ty (s.view ty)))
      ((s.view ty).getObject h) := by
  rcases (hs.index ty).handle_cases h with ⟨i, p, o, t, obj, ei, hat⟩ | ⟨e, hget, he⟩
  · exact .of_ok hat.get (hs.look (hs.index ty).looks)
  · exact .of_error hget (he.allowed)

theorem Indexed.storeRow {receiver scope table payer : Name} {billable : ℤ} (value : Bytes)
    (hpayer : payer ≠ 0) (hroom : (s.view ty).RoomFor bill receiver scope table payer k billable) :
    Ends (Allowed bill) (fun r => Indexed (s.put ty r.2))
      ((s.view ty).findOrCreateTable bill receiver ⟨receiver, scope, table⟩ payer >>=
        fun r => insertRow bill r.2 receiver ⟨receiver, scope, table⟩ r.1 payer k value
          billable) := by
  cases hobj : (s.view ty).tables.tableIds.lookup ⟨receiver, scope, table⟩ with
  | some tab =>
    rw [findOrCreateTable, hobj]
    exact hs.inserts ((hs.index ty).into_some hobj) receiver payer k value billable
      (hroom tab hobj hpayer)
  | none =>
    refine ((hs.index ty).findOrCreateTable bill receiver _ payer).bind fun r hinto => ?_
    refine hs.inserts hinto receiver payer k value billable fun _ _ => ?_
    rcases hinto.fresh with htab | ⟨-, -, hzero⟩
    · cases hobj.symm.trans htab
    · rw [hzero]
      decide

end Calls

/-! ## One call -/

/-- What a call does with the handle that it is given. -/
inductive IteratorUse where
  | dereference
  | forward
  | backward (rank : KeyValueObject → ℤ)

def ContractCall.takes : ContractCall → Option (ObjectType × ℤ × IteratorUse)
  | .primary (.update _ iterator _ _) => some (.keyValue, iterator, .dereference)
  | .primary (.remove _ iterator) => some (.keyValue, iterator, .dereference)
  | .primary (.get iterator _) => some (.keyValue, iterator, .dereference)
  | .primary (.next iterator) => some (.keyValue, iterator, .forward)
  | .primary (.previous iterator) => some (.keyValue, iterator, .backward fun _ => 0)
  | .secondary i (.update _ iterator _ _) => some (.secondary i, iterator, .dereference)
  | .secondary i (.remove _ iterator) => some (.secondary i, iterator, .dereference)
  | .secondary i (.get iterator) => some (.secondary i, iterator, .dereference)
  | .secondary i (.nextSecondary iterator) => some (.secondary i, iterator, .forward)
  | .secondary i (.nextPrimary iterator) => some (.secondary i, iterator, .forward)
  | .secondary i (.previousSecondary iterator) =>
    some (.secondary i, iterator, .backward fun o => i.rank o.value)
  | .secondary i (.previousPrimary iterator) =>
    some (.secondary i, iterator, .backward fun _ => 0)
  | _ => none

/-- What is checked before the handle is looked at. -/
def ContractCall.check : ContractCall → Result Unit
  | .secondary i (.update _ _ _ key) => checkKey i key
  | _ => pure ()

/-- How a step is returned. -/
def ContractCall.stepOutput : ContractCall → ℤ × Option ℕ → ContractOutput
  | .primary _, (h, key) => .primary (.handle h key)
  | .secondary _ _, (h, key) => .step h key

/-- A row more still fits into the count of the table. -/
def StoreFits (bill : UpdateDbUsage σ) (s : IndexedState σ) : ContractCall → Prop
  | .primary (.store receiver scope table payer id buffer) =>
      (s.view .keyValue).RoomFor bill receiver scope table payer id
        (buffer.length + billableKeyValue)
  | .secondary i (.store receiver scope table payer id key) => i.isNan key = false →
      (s.view (.secondary i)).RoomFor bill receiver scope table payer id i.billableSize
  | _ => True

/-- A step back from the end of a table is taken while that table is there. -/
def StepsBackAlive (s : IndexedState σ) (c : ContractCall) : Prop :=
  ∀ ty h rank, c.takes = some (ty, h, .backward rank) → h < -1 → EndAlive (s.view ty) h

/-- What a call that is given the end of a table may do: refuse to dereference it, stay there, or
step back to the last row that the table has now. -/
def EndBehaves (s : IndexedState σ) (c : ContractCall)
    (x : Result (ContractOutput × IndexedState σ)) : Prop :=
  ∀ ty h use, c.takes = some (ty, h, use) → h < -1 →
    match use with
    | .dereference => x = c.check >>= fun _ =>
      .error ⟨.tableOperationNotPermitted, "dereference of end iterator"⟩
    | .forward => x = .ok (c.stepOutput (-1, none), s)
    | .backward rank => ∃ y, StepsBack rank (s.view ty) h y ∧
        x = y >>= fun r => pure (c.stepOutput r.1, s.put ty r.2)

section OneCall

variable {bill : UpdateDbUsage σ} {s : IndexedState σ} {c : ContractCall}

theorem Indexed.call_primary (hs : Indexed s) {call : DbCall}
    (hfits : StoreFits bill s (.primary call)) (halive : StepsBackAlive s (.primary call)) :
    Ends (Allowed bill) (fun r => Indexed (s.put .keyValue r.2))
      ((s.view .keyValue).call bill call) := by
  have hview := hs.index .keyValue
  cases call with
  | store receiver scope table payer k buffer =>
    rw [call, dbStoreI64_eq_insertRow]
    refine Ends.bind (P := fun r => Indexed (s.put .keyValue r.2)) ?_ fun r hr => .of_ok rfl hr
    by_cases hpayer : payer ≠ 0
    · simp only [requirePayer, ineAssert, ensure_pos hpayer, ok_bind]
      exact hs.storeRow buffer hpayer hfits
    · refine (hview.findOrCreateTable bill receiver _ payer).bind fun r _ => ?_
      exact (ineAssert_ends (by decide)).bind fun _ hne => absurd hne hpayer
  | update receiver h payer buffer =>
    refine (hs.replaceRow receiver h
      (fun o => updateCharges o (if payer = 0 then o.payer else payer) buffer)
      (fun o => { o with payer := if payer = 0 then o.payer else payer, value := buffer })
      rfl fun o => rfl).map fun _ hd => hd
  | remove receiver h =>
    exact (hs.remove_primary receiver h).map fun _ hd => hd
  | get h size =>
    refine ((hs.read h).bind fun r hr => ?_).bind
      (P := fun _ => Indexed (s.put .keyValue (s.view .keyValue))) fun r hr => .of_ok rfl hr
    show Ends _ _ (if size = 0 then _ else _)
    split
    · exact .of_ok rfl hr
    · exact .of_ok rfl hr
  | next h =>
    exact (hs.walk (hview.dbNextI64 h).ends).map fun _ hr => hr
  | previous h =>
    have hends := (hview.dbPreviousI64 h).ends (halive _ h _ rfl)
    exact (hs.walk hends).map fun _ hr => hr
  | find t k =>
    exact (hs.seek fun id p hp => mem_of_present hp).map fun _ hr => hr
  | lowerbound t k | upperbound t k =>
    exact (hs.seek fun id p hp => mem_of_least hp).map fun _ hr => hr
  | «end» t => exact .of_ok rfl (hs.look (hview.endOf t))

variable {ty : ObjectType}

theorem Indexed.search (hs : Indexed s) {t : TableKey} {position : ℕ → Option RowKey}
    (hposition : ∀ id p, position id = some p → p ∈ s.rows ty) :
    Ends (Allowed bill) (fun r => Indexed (s.put ty r.2))
      (reportKeys ((s.view ty).seek t position)) :=
  (hs.seek hposition).map fun _ hr => hr

theorem checkKey_ends (i : SecondaryIndex) (key : Bytes) :
    Ends (Allowed bill) (fun _ => i.isNan key = false) (checkKey i key) :=
  ineAssert_ends (by decide)

theorem Indexed.call_secondary (hs : Indexed s) {i : SecondaryIndex} {call : IndexCall}
    (hfits : StoreFits bill s (.secondary i call)) (halive : StepsBackAlive s (.secondary i call)) :
    Ends (Allowed bill) (fun r => Indexed (s.put (.secondary i) r.2))
      ((s.view (.secondary i)).callIndex bill i call) := by
  have hview := hs.index (.secondary i)
  cases call with
  | store receiver scope table payer k key =>
    by_cases hnan : i.isNan key = false
    swap
    · exact (checkKey_ends i key).bind fun _ hkey => absurd hkey hnan
    have hcheck : checkKey i key = .ok () := by
      rw [checkKey, ineAssert, ensure_pos hnan]
    rw [callIndex, hcheck, ok_bind, store_eq_insertRow]
    refine Ends.bind (P := fun r => Indexed (s.put (.secondary i) r.2)) ?_
      fun r hr => .of_ok rfl hr
    by_cases hpayer : payer ≠ 0
    · simp only [requirePayer, ineAssert, ensure_pos hpayer, ok_bind]
      exact hs.storeRow key hpayer (hfits hnan)
    · exact (ineAssert_ends (by decide)).bind fun _ hne => absurd hne hpayer
  | update receiver h payer key =>
    refine (checkKey_ends i key).bind fun _ _ => ?_
    refine (hs.replaceRow receiver h
      (fun o => payerCharges i o (if payer = 0 then o.payer else payer))
      (fun o => { o with payer := if payer = 0 then o.payer else payer, value := key })
      rfl fun o => rfl).map fun _ hd => hd
  | remove receiver h =>
    exact (hs.remove_secondary i receiver h).map fun _ hd => hd
  | findSecondary t key | lowerboundSecondary t key | upperboundSecondary t key =>
    refine (checkKey_ends i key).bind fun _ _ => ?_
    exact hs.search fun id p hp => SecondaryIndex.mem_of_least hp
  | endSecondary t => exact .of_ok rfl (hs.look (hview.endOf t))
  | nextSecondary h =>
    exact (hs.walk (hview.nextSecondary i h).ends).map fun _ hr => hr
  | previousSecondary h =>
    have hends := (hview.previousSecondary i h).ends (halive _ h _ rfl)
    exact (hs.walk hends).map fun _ hr => hr
  | findPrimary t k =>
    rw [callIndex, findPrimary, dbFindI64]
    exact hs.search fun id p hp => mem_of_present hp
  | lowerboundPrimary t k =>
    rw [callIndex, lowerboundPrimary, dbLowerboundI64]
    exact hs.search fun id p hp => mem_of_least hp
  | upperboundPrimary t k =>
    rw [callIndex, upperboundPrimary, dbUpperboundI64]
    exact hs.search fun id p hp => mem_of_least hp
  | nextPrimary h =>
    exact (hs.walk (hview.dbNextI64 h).ends).map fun _ hr => hr
  | previousPrimary h =>
    have hends := (hview.dbPreviousI64 h).ends (halive _ h _ rfl)
    exact (hs.walk hends).map fun _ hr => hr
  | get h =>
    refine ((hs.read h).bind fun r hr => ?_).bind
      (P := fun _ => Indexed (s.put (.secondary i) (s.view (.secondary i))))
      fun r hr => .of_ok rfl hr
    exact .of_ok rfl hr

theorem Indexed.call_ends (hs : Indexed s) (hfits : StoreFits bill s c)
    (halive : StepsBackAlive s c) :
    Ends (Allowed bill) (fun r => Indexed r.2) (s.call bill c) := by
  cases c with
  | primary call =>
    exact (hs.call_primary hfits halive).map fun _ hr => hr
  | secondary i call =>
    exact (hs.call_secondary hfits halive).map fun _ hr => hr

variable {x : Result (ContractOutput × IndexedState σ)}

theorem endBehaves_iff_of_none (htakes : c.takes = none) :
    EndBehaves s c x ↔ StepsBackAlive s c := by
  constructor <;>
  · intro _ ty h use htakes'
    cases htakes.symm.trans htakes'

theorem endBehaves_iff_of_dereference {h : ℤ} (htakes : c.takes = some (ty, h, .dereference))
    (hx : ∀ e, (s.view ty).getObject h = .error e → x = c.check >>= fun _ => .error e) :
    EndBehaves s c x ↔ StepsBackAlive s c := by
  constructor
  · intro _ ty' h' rank htakes'
    cases htakes.symm.trans htakes'
  · intro _ ty' h' use htakes' hend
    cases htakes.symm.trans htakes'
    exact hx _ (getObject_of_end _ hend)

variable {h : ℤ} {y : Result ((ℤ × Option ℕ) × DbState σ)}
  (hx : x = y >>= fun r => pure (c.stepOutput r.1, s.put ty r.2))
include hx

theorem endBehaves_iff_of_forward (htakes : c.takes = some (ty, h, .forward))
    (hstep : ForwardStep (s.view ty) h y) : EndBehaves s c x ↔ StepsBackAlive s c := by
  constructor
  · intro _ ty' h' rank htakes'
    cases htakes.symm.trans htakes'
  · intro _ ty' h' use htakes' hend
    cases htakes.symm.trans htakes'
    show x = .ok (c.stepOutput (-1, none), s)
    rw [hx, hstep.atEnd hend, ok_bind, IndexedState.put_view]
    rfl

theorem endBehaves_iff_of_backward {rank : KeyValueObject → ℤ}
    (htakes : c.takes = some (ty, h, .backward rank)) (hstep : BackwardStep rank (s.view ty) h y) :
    EndBehaves s c x ↔ StepsBackAlive s c := by
  constructor
  · intro hbehaves ty' h' rank' htakes' hend
    cases htakes.symm.trans htakes'
    by_contra hgone
    obtain ⟨y', hback, hx'⟩ := hbehaves ty h _ htakes hend
    obtain ⟨r, rfl⟩ := hback.returns hgone
    rw [hx, hstep.removed hend hgone, error_bind] at hx'
    cases hx'
  · intro halive ty' h' use htakes' hend
    cases htakes.symm.trans htakes'
    exact ⟨y, hstep.atEnd hend (halive ty h rank htakes hend), hx⟩

omit hx

/-- A call given the end of a table behaves unless it steps back from a table that is gone. -/
theorem Indexed.endBehaves_iff (hs : Indexed s) (c : ContractCall) :
    EndBehaves s c (s.call bill c) ↔ StepsBackAlive s c := by
  cases c with
  | primary call =>
    cases call with
    | update | remove | get =>
      refine endBehaves_iff_of_dereference rfl fun e he => ?_
      simp only [IndexedState.call, call, dbUpdateI64, dbRemoveI64, dbGetI64, he]
      rfl
    | next h =>
      exact endBehaves_iff_of_forward (bind_assoc ..) rfl ((hs.index _).dbNextI64 h)
    | previous h =>
      exact endBehaves_iff_of_backward (bind_assoc ..) rfl ((hs.index _).dbPreviousI64 h)
    | store | find | lowerbound | upperbound | «end» =>
      exact endBehaves_iff_of_none rfl
  | secondary i call =>
    cases call with
    | update receiver h payer key =>
      refine endBehaves_iff_of_dereference rfl fun e he => ?_
      rw [IndexedState.call, callIndex, update, he, ContractCall.check]
      -- a key that is not a number is refused before the handle is looked at
      cases checkKey i key with
      | error e' => rfl
      | ok u => rfl
    | remove | get =>
      refine endBehaves_iff_of_dereference rfl fun e he => ?_
      simp only [IndexedState.call, callIndex, remove, getKeys, he]
      rfl
    | nextSecondary h =>
      exact endBehaves_iff_of_forward (bind_assoc ..) rfl ((hs.index _).nextSecondary i h)
    | nextPrimary h =>
      exact endBehaves_iff_of_forward (bind_assoc ..) rfl ((hs.index _).dbNextI64 h)
    | previousSecondary h =>
      exact endBehaves_iff_of_backward (bind_assoc ..) rfl ((hs.index _).previousSecondary i h)
    | previousPrimary h =>
      exact endBehaves_iff_of_backward (bind_assoc ..) rfl ((hs.index _).dbPreviousI64 h)
    | store | findSecondary | lowerboundSecondary | upperboundSecondary | endSecondary
    | findPrimary | lowerboundPrimary | upperboundPrimary =>
      exact endBehaves_iff_of_none rfl

end OneCall

/-! ## All calls of an action -/

def Throughout (bill : UpdateDbUsage σ) (P : IndexedState σ → ContractCall → Prop) :
    IndexedState σ → List ContractCall → Prop
  | _, [] => True
  | s, c :: rest => P s c ∧ ∀ r, s.call bill c = .ok r → Throughout bill P r.2 rest

/-- No removed object is used, and the ends of tables are used as the tables are. -/
structure Proper (bill : UpdateDbUsage σ) (s : IndexedState σ) (c : ContractCall) : Prop where
  throws : ∀ e, s.call bill c = .error e → Allowed bill e
  atEnd : EndBehaves s c (s.call bill c)

/-- **Removed tables are not used.**  As long as each step back from the end of a table is taken
while the table is there, no call of the action uses a removed object and every end of a table
stands for what the table has at that moment. -/
theorem removed_tables_unused (bill : UpdateDbUsage σ) {s : IndexedState σ}
    (hs : Indexed s) {calls : List ContractCall}
    (hfits : Throughout bill (StoreFits bill) s calls) :
    Throughout bill (Proper bill) s calls ↔ Throughout bill StepsBackAlive s calls := by
  induction calls generalizing s with
  | nil => exact Iff.rfl
  | cons c rest ih =>
    obtain ⟨hfit, hfits⟩ := hfits
    constructor
    · rintro ⟨hproper, hrest⟩
      have halive := (hs.endBehaves_iff c).mp hproper.atEnd
      have hends := hs.call_ends hfit halive
      exact ⟨halive, fun r hr => (ih (hends.ok hr) (hfits r hr)).mp (hrest r hr)⟩
    · rintro ⟨halive, hrest⟩
      have hends := hs.call_ends hfit halive
      refine ⟨⟨fun e he => hends.error he, (hs.endBehaves_iff c).mpr halive⟩, ?_⟩
      exact fun r hr => (ih (hends.ok hr) (hfits r hr)).mpr (hrest r hr)

theorem indexed_empty : Indexed ({ usage := () } : IndexedState Unit) where
  index _ :=
    { tableId_lt := nofun
      tableId_inj := nofun
      owned := nofun
      rowId_lt := nofun
      rowId_inj := nofun
      cache := cacheHolds_empty _ }
  count := nofun

theorem freeUsage_accepts {receiver : Name} {e : ChainException} :
    ¬ ChargeRefused freeUsage receiver e := by
  rintro ⟨payer, delta, usage, hrefused⟩
  cases hrefused

/-- A row is stored, and another index is asked for the end of the table and steps back from it. -/
theorem removed_tables_unused_stored : Throughout freeUsage (Proper freeUsage) { usage := () }
    [.primary (.store 1 2 3 1 5 [7]), .secondary .idx64 (.endSecondary ⟨1, 2, 3⟩),
      .secondary .idx64 (.previousSecondary (-2))] := by
  refine (removed_tables_unused freeUsage indexed_empty ?_).mpr ?_
  · exact ⟨nofun, fun r _ => ⟨trivial, fun r _ => ⟨trivial, fun r _ => trivial⟩⟩⟩
  · refine ⟨nofun, fun r hr =>
      ⟨nofun, fun r' hr' => ⟨fun ty h rank htakes hend => ?_, fun _ _ => trivial⟩⟩⟩
    cases hr
    cases hr'
    cases htakes
    intro p hp
    cases hp
    exact ⟨_, rfl, rfl⟩

/-- The end of the table in one index, a row in another: the row is removed and with it the table,
which is then created again.  The step back reads the removed table object. -/
theorem end_of_removed_table_read :
    (∃ s₁ s₂ s₃ s₄, IndexedState.call freeUsage { usage := () } (.primary (.store 1 2 3 1 5 [7])) =
        .ok (.primary (.handle 0 none), s₁) ∧
      s₁.call freeUsage (.secondary .idx64 (.endSecondary ⟨1, 2, 3⟩)) =
        .ok (.handle (-2) none, s₂) ∧
      s₂.call freeUsage (.primary (.remove 1 0)) = .ok (.primary .done, s₃) ∧
      s₃.call freeUsage (.primary (.store 1 2 3 1 5 [7])) = .ok (.primary (.handle 1 none), s₄) ∧
      s₄.call freeUsage (.secondary .idx64 (.previousSecondary (-2))) = .error removedTable) ∧
    ¬ Throughout freeUsage (Proper freeUsage) { usage := () }
      [.primary (.store 1 2 3 1 5 [7]), .secondary .idx64 (.endSecondary ⟨1, 2, 3⟩),
        .primary (.remove 1 0), .primary (.store 1 2 3 1 5 [7]),
        .secondary .idx64 (.previousSecondary (-2))] := by
  refine ⟨⟨_, _, _, _, rfl, rfl, rfl, rfl, rfl⟩, ?_⟩
  rintro ⟨-, hproper⟩
  obtain ⟨-, hproper⟩ := hproper _ rfl
  obtain ⟨-, hproper⟩ := hproper _ rfl
  obtain ⟨-, hproper⟩ := hproper _ rfl
  obtain ⟨hproper, -⟩ := hproper _ rfl
  rcases hproper.throws _ rfl with hkind | ⟨receiver, hrefused⟩
  · exact hkind rfl
  · exact freeUsage_accepts hrefused

end Inery.Chain
