import Inery.Chain.ContractRefinement

/-!
# Handles of any index

What the rows and the cache of one index may be relied on for, whatever the other indices of the
same tables have: every handle of a row leads to a row that is there, of a table that is there.
Nothing is said about the counts of the tables, which all indices share.
-/

namespace Inery.Chain

open Foundation IteratorCache Finmap Finset DbState Table SecondaryIndex

variable {σ : Type} {d d' d'' : DbState σ} {h : ℤ} {t : TableKey} {obj : TableIdObject}

theorem DbState.getObject_of_end (d : DbState σ) (hend : h < -1) :
    d.getObject h = .error ⟨.tableOperationNotPermitted, "dereference of end iterator"⟩ := by
  have hinvalid : h ≠ -1 := hend.ne
  have hneg : ¬ 0 ≤ h := by omega
  rw [DbState.getObject, IteratorCache.get, ineAssert, ensure_pos hinvalid, ok_bind, ineAssert,
    ensure_neg hneg, error_bind]
  rfl

/-! ## Positions -/

section Positions

variable {rows : Table RowKey KeyValueObject} {i : SecondaryIndex} {p : RowKey}

theorem SecondaryIndex.mem_positions {q : SecondaryPosition} :
    q ∈ i.positions rows ↔ ∃ p o, rows.lookup p = some o ∧ i.position p o = q := by
  rw [positions, Multiset.mem_toFinset, mem_collect]

theorem SecondaryIndex.lookup_rowKey {q : SecondaryPosition} (hq : q ∈ i.positions rows) :
    ∃ o, rows.lookup (rowKey q) = some o ∧ i.position (rowKey q) o = q := by
  obtain ⟨p, o, ho, rfl⟩ := mem_positions.mp hq
  exact ⟨o, ho, rfl⟩

theorem SecondaryIndex.mem_of_least {f : SecondaryPosition → Prop} [DecidablePred f]
    (hp : (least ((i.positions rows).filter f)).map rowKey = some p) : p ∈ rows := by
  obtain ⟨q, hq, rfl⟩ := Option.map_eq_some_iff.mp hp
  obtain ⟨o, ho, -⟩ := lookup_rowKey (mem_filter.mp (least_eq_some.mp hq).1).1
  exact mem_of_lookup ho

theorem SecondaryIndex.mem_of_greatest {f : SecondaryPosition → Prop} [DecidablePred f]
    (hp : (greatest ((i.positions rows).filter f)).map rowKey = some p) : p ∈ rows := by
  obtain ⟨q, hq, rfl⟩ := Option.map_eq_some_iff.mp hp
  obtain ⟨o, ho, -⟩ := lookup_rowKey (mem_filter.mp (greatest_eq_some.mp hq).1).1
  exact mem_of_lookup ho

/-- Where `--itr` leads from the end of a table, in the order of `rank` and the primary key: to its
last row, or out of the table if it has no rows. -/
structure LastOf (rank : KeyValueObject → ℤ) (rows : Table RowKey KeyValueObject) (tId : ℕ)
    (position : Option RowKey) : Prop where
  mem : ∀ p, position = some p → p ∈ rows
  empty : (∀ p, position = some p → (ofLex p).1 ≠ tId) → ∀ k, rows.lookup (toLex (tId, k)) = none
  last : ∀ p o, position = some p → (ofLex p).1 = tId → rows.lookup p = some o →
    ∀ k' o', rows.lookup (toLex (tId, k')) = some o' →
      toLex (rank o', k') ≤ toLex (rank o, (ofLex p).2)

theorem exists_greatest {γ : Type} [LinearOrder γ] {s : Finset (ℕ ×ₗ γ)} {q : ℕ ×ₗ γ} (hq : q ∈ s) :
    ∃ top, greatest (s.filter fun p => (ofLex p).1 ≤ (ofLex q).1) = some top ∧
      (ofLex top).1 = (ofLex q).1 ∧ (ofLex q).2 ≤ (ofLex top).2 := by
  have hmem : q ∈ s.filter fun p => (ofLex p).1 ≤ (ofLex q).1 := mem_filter.mpr ⟨hq, le_refl _⟩
  cases hpos : greatest (s.filter fun p => (ofLex p).1 ≤ (ofLex q).1) with
  | none =>
    rw [greatest_eq_none] at hpos
    exact absurd (hpos ▸ hmem) (notMem_empty _)
  | some top =>
    obtain ⟨htop, hge⟩ := greatest_eq_some.mp hpos
    rcases Prod.Lex.le_iff.mp (hge q hmem) with hlt | ⟨heq, hle⟩
    · exact absurd (mem_filter.mp htop).2 (not_le.mpr hlt)
    · exact ⟨top, rfl, heq.symm, hle⟩

theorem lastOf_primary (rows : Table RowKey KeyValueObject) (tId : ℕ) :
    LastOf (fun _ => 0) rows tId (rows.lastUpTo tId) := by
  refine ⟨fun p hp => mem_of_greatest hp, fun hout k => ?_, fun p o hp htid ho k' o' ho' => ?_⟩
  · cases ho : rows.lookup (toLex (tId, k)) with
    | none => rfl
    | some o =>
      obtain ⟨top, htop, hid, -⟩ := exists_greatest (mem_keys.mpr (mem_of_lookup ho))
      exact absurd hid (hout top htop)
  · obtain ⟨top, htop, -, hle⟩ := exists_greatest (mem_keys.mpr (mem_of_lookup ho'))
    cases htop.symm.trans hp
    exact Prod.Lex.le_iff.mpr (.inr ⟨rfl, hle⟩)

theorem lastOf_secondary (i : SecondaryIndex) (rows : Table RowKey KeyValueObject) (tId : ℕ) :
    LastOf (fun o => i.rank o.value) rows tId (i.lastUpTo rows tId) := by
  have hmem : ∀ {k o}, rows.lookup (toLex (tId, k)) = some o →
      i.position (toLex (tId, k)) o ∈ i.positions rows :=
    fun ho => SecondaryIndex.mem_positions.mpr ⟨_, _, ho, rfl⟩
  refine ⟨fun p hp => SecondaryIndex.mem_of_greatest hp, fun hout k => ?_,
    fun p o hp htid ho k' o' ho' => ?_⟩
  · cases ho : rows.lookup (toLex (tId, k)) with
    | none => rfl
    | some o =>
      obtain ⟨top, htop, hid, -⟩ := exists_greatest (hmem ho)
      exact absurd hid (hout (SecondaryIndex.rowKey top) (congrArg (Option.map _) htop))
  · obtain ⟨q, hq, rfl⟩ := Option.map_eq_some_iff.mp hp
    obtain ⟨o₁, ho₁, hpos⟩ := lookup_rowKey (mem_filter.mp (greatest_eq_some.mp hq).1).1
    rw [ho] at ho₁
    cases ho₁
    obtain ⟨top, htop, -, hle⟩ := exists_greatest (hmem ho')
    cases htop.symm.trans hq
    rw [← hpos] at hle
    exact hle

end Positions

/-! ## Walking -/

section Walking

variable {r : ℤ × Option ℕ}

/-- A step forward from any handle; nothing comes after the end of a table. -/
structure ForwardStep (d : DbState σ) (h : ℤ) (x : Result ((ℤ × Option ℕ) × DbState σ)) : Prop where
  ends : Ends IsIteratorException (fun r => Looks d r.2) x
  atEnd : h < -1 → x = .ok ((-1, none), d)

variable {x : Result ((ℤ × Option ℕ) × DbState σ)} (hd : IndexHolds d)
include hd

theorem IndexHolds.forward (next : RowPointer → KeyValueObject → Option RowKey)
    (hx : x = if h < -1 then pure ((-1, none), d) else d.getObject h >>= fun found =>
      d.stepForwardTo (ofLex found.1.key).1 (next found.1 found.2))
    (hnext : ∀ p o k, next p o = some k → k ∈ d.tables.keyValues) : ForwardStep d h x := by
  by_cases hend : h < -1
  · rw [if_pos hend] at hx
    exact ⟨.of_ok hx hd.looks, fun _ => hx⟩
  · rw [if_neg hend] at hx
    refine ⟨?_, fun hlt => absurd hlt hend⟩
    rcases hd.handle_cases h with ⟨i, p, o, t, obj, ei, hat⟩ | ⟨e, hget, he⟩
    · have hsteps : StepsTo d ⟨t, obj.id⟩ (next p o) ei _ := hd.stepForwardTo hat.cached (hnext p o)
      obtain ⟨r, d', hstep, hlooks⟩ := hsteps.looks hd
      refine .of_ok (a := (r, d')) ?_ hlooks
      rw [hx, hat.get, ok_bind, ← hat.tableId]
      exact hstep
    · exact .of_error (by rw [hx, hget, error_bind]) he

omit hd

variable (rank : KeyValueObject → ℤ)

/-- What a step back from the end of a table has to return: its last row now, in the order of the
index, or nothing. -/
def StepsToLast (d : DbState σ) (tId : ℕ) (x : Result ((ℤ × Option ℕ) × DbState σ)) : Prop :=
  ((∀ k, d.tables.keyValues.lookup (toLex (tId, k)) = none) ∧ x = .ok ((-1, none), d)) ∨
    ∃ (k i : ℕ) (o : KeyValueObject) (d' : DbState σ), x = .ok (((i : ℤ), some k), d') ∧
      d.tables.keyValues.lookup (toLex (tId, k)) = some o ∧
      d'.keyvalCache.iteratorToObject[i]? = some (some ⟨toLex (tId, k), o.id⟩) ∧
      ∀ k' o', d.tables.keyValues.lookup (toLex (tId, k')) = some o' →
        toLex (rank o', k') ≤ toLex (rank o, k)

/-- The table that the end iterator `h` stands for is still there. -/
def EndAlive (d : DbState σ) (h : ℤ) : Prop :=
  ∀ p ∈ d.keyvalCache.endIteratorToTable[endIteratorToIndex h]?,
    ∃ obj, d.tables.tableIds.lookup p.key = some obj ∧ obj.id = p.id

/-- A step back from an end iterator: it is not one of this cache, or the step is taken in the
table as it is now. -/
def StepsBack (d : DbState σ) (h : ℤ) (x : Result ((ℤ × Option ℕ) × DbState σ)) : Prop :=
  match d.keyvalCache.endIteratorToTable[endIteratorToIndex h]? with
  | none => x = .error ⟨.invalidTableIterator, "not a valid end iterator"⟩
  | some p => StepsToLast rank d p.id x

/-- Only the end of a table can be the end of a removed one. -/
theorem StepsBack.returns {rank : KeyValueObject → ℤ} (hback : StepsBack rank d h x)
    (hgone : ¬ EndAlive d h) : ∃ r, x = .ok r := by
  rw [StepsBack] at hback
  cases hp : d.keyvalCache.endIteratorToTable[endIteratorToIndex h]? with
  | none =>
    refine absurd (fun p hmem => ?_) hgone
    rw [hp] at hmem
    cases hmem
  | some p =>
    rw [hp] at hback
    rcases hback with ⟨-, hx⟩ | ⟨k, i, o, d', hx, -⟩
    · exact ⟨_, hx⟩
    · exact ⟨_, hx⟩

/-- A step back from any handle, which reads the table object if it starts at its end. -/
structure BackwardStep (rank : KeyValueObject → ℤ) (d : DbState σ) (h : ℤ)
    (x : Result ((ℤ × Option ℕ) × DbState σ)) : Prop where
  removed : h < -1 → ¬ EndAlive d h → x = .error removedTable
  ends : (h < -1 → EndAlive d h) → Ends IsIteratorException (fun r => Looks d r.2) x
  atEnd : h < -1 → EndAlive d h → StepsBack rank d h x

include hd

theorem IndexHolds.backward
    (prior : RowPointer → KeyValueObject → Option RowKey) (last : ℕ → Option RowKey)
    (hx : x = if h < -1 then
        d.keyvalCache.findTableByEndIterator h >>= fun found => match found with
          | none => .error ⟨.invalidTableIterator, "not a valid end iterator"⟩
          | some tab => d.derefTable tab >>= fun tid => d.stepBackTo tid.id (last tid.id)
      else d.getObject h >>= fun found =>
        d.stepBackTo (ofLex found.1.key).1 (prior found.1 found.2))
    (hprior : ∀ p o k, prior p o = some k → k ∈ d.tables.keyValues)
    (hlast : ∀ tId, LastOf rank d.tables.keyValues tId (last tId)) : BackwardStep rank d h x := by
  by_cases hend : h < -1
  swap
  · rw [if_neg hend] at hx
    refine ⟨fun hlt => absurd hlt hend, fun _ => ?_, fun hlt => absurd hlt hend⟩
    rcases hd.handle_cases h with ⟨i, p, o, t, obj, ei, hat⟩ | ⟨e, hget, he⟩
    · have hsteps : StepsTo d ⟨t, obj.id⟩ (prior p o) (-1) _ :=
        hd.stepBackTo hat.cached (hprior p o)
      obtain ⟨r, d', hstep, hlooks⟩ := hsteps.looks hd
      rw [hat.get, ok_bind, ← hat.tableId] at hx
      exact .of_ok (hx.trans hstep) hlooks
    · exact .of_error (by rw [hx, hget, error_bind]) he
  rw [if_pos hend, findTableByEndIterator_of_lt _ hend, ok_bind] at hx
  cases hp : d.keyvalCache.endIteratorToTable[endIteratorToIndex h]? with
  | none =>
    rw [hp] at hx
    have halive : EndAlive d h := by
      intro p hmem
      rw [hp] at hmem
      cases hmem
    refine ⟨fun _ hgone => absurd halive hgone, fun _ => .of_error hx (.inl rfl), fun _ _ => ?_⟩
    rw [StepsBack, hp]
    exact hx
  | some p =>
    rw [hp] at hx
    have hiff : EndAlive d h ↔ ∃ obj, d.tables.tableIds.lookup p.key = some obj ∧
        obj.id = p.id := by
      rw [EndAlive, hp]
      exact ⟨fun halive => halive p rfl, fun hobj q hq => by cases hq; exact hobj⟩
    have hback : EndAlive d h →
        StepsToLast rank d p.id x ∧ Ends IsIteratorException (fun r => Looks d r.2) x := by
      intro halive
      obtain ⟨obj, hobj, hid⟩ := hiff.mp halive
      simp only [derefTable_of_some hobj hid, ok_bind, hid] at hx
      have hsteps := hd.stepBackTo (hd.cache.endOf _ _ hp) (hlast p.id).mem
      obtain ⟨r, d', hstep, hlooks⟩ := hsteps.looks hd
      refine ⟨?_, .of_ok (hx.trans hstep) hlooks⟩
      rcases inTable_cases p.id (last p.id) with ⟨hnone, hout⟩ | ⟨k, hk, hposition⟩ <;>
        rcases hsteps with ⟨hnone', hstep⟩ | ⟨k', o, i, d', hk', ho, hstep, -, -, -, hi⟩
      · exact .inl ⟨(hlast p.id).empty hout, hx.trans hstep⟩
      · cases hnone.symm.trans hk'
      · cases hnone'.symm.trans hk
      · cases hk.symm.trans hk'
        exact .inr ⟨k, i, o, d', hx.trans hstep, ho, hi, (hlast p.id).last _ o hposition rfl ho⟩
    refine ⟨fun _ hgone => ?_, fun halive => (hback (halive hend)).2, fun _ halive => ?_⟩
    · simp only [derefTable_of_removed fun obj hobj hid => hgone (hiff.mpr ⟨obj, hobj, hid⟩),
        error_bind] at hx
      exact hx
    · rw [StepsBack, hp]
      exact (hback halive).1

theorem IndexHolds.dbNextI64 (h : ℤ) : ForwardStep d h (d.dbNextI64 h) := by
  exact hd.forward (fun p _ => d.tables.keyValues.upperBound p.key) rfl
    fun _ _ _ => mem_of_least

theorem IndexHolds.nextSecondary (i : SecondaryIndex) (h : ℤ) :
    ForwardStep d h (d.nextSecondary i h) :=
  hd.forward (fun p o => i.following d.tables.keyValues p.key o) rfl
    fun _ _ _ => SecondaryIndex.mem_of_least

theorem IndexHolds.dbPreviousI64 (h : ℤ) : BackwardStep (fun _ => 0) d h (d.dbPreviousI64 h) := by
  refine hd.backward _ (fun p _ => d.tables.keyValues.priorKey p.key) d.tables.keyValues.lastUpTo ?_
    (fun _ _ _ => mem_of_greatest) (lastOf_primary _)
  unfold DbState.dbPreviousI64
  split <;> rfl

theorem IndexHolds.previousSecondary (i : SecondaryIndex) (h : ℤ) :
    BackwardStep (fun o => i.rank o.value) d h (d.previousSecondary i h) :=
  hd.backward _ (fun p o => i.preceding d.tables.keyValues p.key o)
    (i.lastUpTo d.tables.keyValues) rfl (fun _ _ _ => SecondaryIndex.mem_of_greatest)
    (lastOf_secondary i _)

end Walking

end Inery.Chain
