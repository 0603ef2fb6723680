import Inery.Chainbase.UndoRefinement

/-!
# Modifiers that throw (`chainbase.hpp`)

`modify` saves the old value and then hands the modifier to the multi-index container, which erases
the element when the modifier throws.  The loops of `undo` then look it up, do not find it and use
the end iterator: the session cannot be undone, and neither can one that it is squashed into.
-/

namespace Inery.Chainbase

open Foundation List Finmap Finset UndoState Table ChangeSet GenericIndex

variable {V : Type} {unique : Uniqueness V}

/-- `modify` with a modifier that throws; the exception goes on to the caller. -/
def GenericIndex.modifyThrowing (s : GenericIndex V) (id : ℕ) : Except Fault (GenericIndex V) :=
  match s.indices.lookup id with
  | none => .error .danglingReference
  | some v => .ok
      { s with
        indices := s.indices.erase id
        stack := s.onHead fun head => head.onModify id v }

def IndexOp.OnObject : IndexOp V → Prop
  | .emplace _ | .modify _ _ | .remove _ => True
  | _ => False

/-- What happens between the start and the end of a session, from `s` to `s'`: operations on
objects, and sessions inside that are squashed or undone.  The flag tells whether a modifier has
thrown, other than in a session that was undone. -/
inductive SessionRun (unique : Uniqueness V) : GenericIndex V → Bool → GenericIndex V → Prop
  | start (s : GenericIndex V) : SessionRun unique s false s
  | object {s s₁ s₂ : GenericIndex V} {threw : Bool} (h : SessionRun unique s threw s₁)
      {op : IndexOp V} (hop : op.OnObject) (hrun : s₁.apply unique op = .ok s₂) :
      SessionRun unique s threw s₂
  | throws {s s₁ s₂ : GenericIndex V} {threw : Bool} (h : SessionRun unique s threw s₁) {id : ℕ}
      (hrun : s₁.modifyThrowing id = .ok s₂) : SessionRun unique s true s₂
  | squashed {s s₁ s₂ : GenericIndex V} {threw threw' : Bool} (h : SessionRun unique s threw s₁)
      (hin : SessionRun unique (s₁.startUndoSession true) threw' s₂) :
      SessionRun unique s (threw || threw') s₂.squash
  | undone {s s₁ s₂ s₃ : GenericIndex V} {threw threw' : Bool} (h : SessionRun unique s threw s₁)
      (hin : SessionRun unique (s₁.startUndoSession true) threw' s₂)
      (hundo : s₂.undo unique = .ok s₃) : SessionRun unique s threw s₃

/-! ## What a finished undo has found -/

variable {t t' : Table ℕ V}

theorem mem_of_eraseNewIds {ids : List ℕ} (h : eraseNewIds ids t = .ok t') :
    (∀ id ∈ ids, id ∈ t) ∧ ∀ id ∈ t', id ∈ t := by
  fun_induction eraseNewIds with
  | case1 =>
    cases h
    exact ⟨forall_mem_nil _, fun _ hid => hid⟩
  | case2 id ids t hmem ih =>
    obtain ⟨hids, hsub⟩ := ih h
    exact ⟨forall_mem_cons.mpr ⟨hmem, fun j hj => (mem_erase.mp (hids j hj)).2⟩,
      fun j hj => (mem_erase.mp (hsub j hj)).2⟩
  | case3 => cases h

variable {items : List (ℕ × V)}

theorem mem_of_restoreOldValues (h : restoreOldValues unique items t = .ok t') :
    ∀ id ∈ items.map Prod.fst, id ∈ t := by
  fun_induction restoreOldValues with
  | case1 => exact forall_mem_nil _
  | case2 | case3 => cases h
  | case4 id v items t hmem _ ih =>
    rw [not_not] at hmem
    refine forall_mem_cons.mpr ⟨hmem, fun j hj => ?_⟩
    rcases mem_insert.mp (ih h j hj) with rfl | hj
    · exact hmem
    · exact hj

variable {s s' : GenericIndex V} {u : UndoState V} {rest : List (UndoState V)}

/-- An undo that has returned found everything it lists. -/
theorem GenericIndex.mem_of_undo (hstack : s.stack = u :: rest) (h : s.undo unique = .ok s') :
    (∀ k ∈ u.newIds, k ∈ s.indices) ∧ ∀ k ∈ u.oldValues, k ∈ s.indices := by
  unfold undo at h
  rw [hstack] at h
  simp only [bind_eq_ok] at h
  obtain ⟨t₁, herase, t₂, hrestore, -⟩ := h
  obtain ⟨hnew, hsub⟩ := mem_of_eraseNewIds herase
  refine ⟨fun k hk => hnew k ?_, fun k hk => hsub k (mem_of_restoreOldValues hrestore k ?_)⟩
  · exact mem_ascending_newIds.mpr hk
  · exact mem_map_fst_orderedRows.mpr (mem_iff.mp hk)

/-- An undo that has returned has rebuilt the table. -/
theorem GenericIndex.undo_restores {before : Table ℕ V} (hstack : s.stack = u :: rest)
    (hundoes : u.changes.Undoes s.indices before) (h : s.undo unique = .ok s') :
    s'.indices = before ∧ s'.nextId = u.oldNextId ∧ s'.stack = rest := by
  unfold undo at h
  rw [hstack] at h
  simp only [bind_eq_ok, pure_eq_ok] at h
  obtain ⟨t₁, herase, t₂, hrestore, t₃, hreinsert, rfl⟩ := h
  refine ⟨ext_lookup fun j => ?_, rfl, rfl⟩
  have h₂ := stored_of_restoreOldValues (nodup_orderedRows _) hrestore
  have h₃ := stored_of_reinsertRemovedValues (nodup_orderedRows _) hreinsert
  rw [h₃.lookup, h₂.lookup, lookup_of_eraseNewIds herase]
  simp only [mem_ascending_newIds]
  exact (hundoes.lookup_before j).symm

/-! ## Sessions -/

/-- The newest undo state lists an object that is not stored any more. -/
def Poisoned (u : UndoState V) (s : GenericIndex V) : Prop :=
  ∃ k, (u.changes.entry k).Listed ∧ k ∉ s.indices ∧ k < s.nextId

theorem Poisoned.undo_fails (h : Poisoned u s) (hstack : s.stack = u :: rest) :
    s.undo unique ≠ .ok s' := by
  intro hundo
  obtain ⟨hnew, hold⟩ := mem_of_undo hstack hundo
  obtain ⟨k, ⟨hcreated | hupdated, -⟩, hgone, -⟩ := h
  · exact hgone (hnew k (of_decide_eq_true hcreated))
  · exact hgone (hold k (lookup_isSome.mp hupdated))

/-- The newest undo state belongs to a session that started from `before`. -/
structure Tracks (before : Contents V) (s : GenericIndex V) (u : UndoState V)
    (rest : List (UndoState V)) : Prop where
  stack_eq : s.stack = u :: rest
  oldNextId_eq : u.oldNextId = before.nextId
  before_lt : ∀ id ∈ before.table, id < before.nextId
  le_nextId : before.nextId ≤ s.nextId
  new_ge : ∀ id ∈ u.newIds, before.nextId ≤ id
  id_lt : ∀ id ∈ s.indices, id < s.nextId
  removed : ∀ id v, u.removedValues.lookup id = some v → id ∉ s.indices ∧ id < s.nextId

/-- What part of a session does to the newest undo state.  Objects that are not stored, and ids
already given out, stay out of it; and it still leads back to `before`, unless a modifier has
thrown. -/
structure Advances (before : Table ℕ V) (s : GenericIndex V) (u : UndoState V)
    (s' : GenericIndex V) (u' : UndoState V) (threw : Bool) : Prop where
  le : s.nextId ≤ s'.nextId
  absent : ∀ k, k ∉ s.indices → k < s.nextId →
    k ∉ s'.indices ∧ u'.changes.entry k = u.changes.entry k
  clean : threw = false → u.changes.Undoes s.indices before → u'.changes.Undoes s'.indices before
  poisoned : threw = true → u.changes.Undoes s.indices before → Poisoned u' s'

def Continues (before : Contents V) (s : GenericIndex V) (u : UndoState V)
    (rest : List (UndoState V)) (s' : GenericIndex V) (threw : Bool) : Prop :=
  ∃ u', Tracks before s' u' rest ∧ Advances before.table s u s' u' threw

section Steps

variable {before : Contents V} {s s₁ s₂ s₃ : GenericIndex V} {u u₁ u₂ : UndoState V}
  {rest : List (UndoState V)} {threw threw₁ threw₂ : Bool}

theorem Advances.refl : Advances before.table s u s u false :=
  ⟨Nat.le_refl _, fun _ hk _ => ⟨hk, rfl⟩, fun _ h => h, nofun⟩

theorem Poisoned.advances {table : Table ℕ V} (h : Poisoned u s)
    (hstep : Advances table s u s₁ u₁ threw) : Poisoned u₁ s₁ := by
  obtain ⟨k, hlisted, hgone, hlt⟩ := h
  obtain ⟨hgone', hentry⟩ := hstep.absent k hgone hlt
  exact ⟨k, hentry ▸ hlisted, hgone', Nat.lt_of_lt_of_le hlt hstep.le⟩

theorem Advances.trans {table : Table ℕ V} (h : Advances table s u s₁ u₁ threw₁)
    (h' : Advances table s₁ u₁ s₂ u₂ threw₂) :
    Advances table s u s₂ u₂ (threw₁ || threw₂) := by
  refine ⟨Nat.le_trans h.le h'.le, fun k hk hlt => ?_, fun hclean hund => ?_, fun hthrew hund => ?_⟩
  · obtain ⟨hk₁, hentry₁⟩ := h.absent k hk hlt
    obtain ⟨hk₂, hentry₂⟩ := h'.absent k hk₁ (Nat.lt_of_lt_of_le hlt h.le)
    exact ⟨hk₂, hentry₂.trans hentry₁⟩
  · obtain ⟨h₁, h₂⟩ := Bool.or_eq_false_iff.mp hclean
    exact h'.clean h₂ (h.clean h₁ hund)
  · cases h₁ : threw₁ with
    | true => exact (h.poisoned h₁ hund).advances h'
    | false =>
      rw [h₁, Bool.false_or] at hthrew
      exact h'.poisoned hthrew (h.clean h₁ hund)

theorem tracks_startUndoSession (hlt : ∀ id ∈ s.indices, id < s.nextId) :
    Tracks ⟨s.indices, s.nextId⟩ (s.startUndoSession true)
      { oldNextId := s.nextId, revision := s.revision + 1 } s.stack :=
  ⟨rfl, rfl, hlt, Nat.le_refl _, fun id hid => absurd hid (notMem_empty _), hlt,
    fun id v hv => by cases hv⟩

variable (h : Tracks before s u rest)
include h

theorem Tracks.startUndoSession : Tracks ⟨s.indices, s.nextId⟩ (s.startUndoSession true)
      { oldNextId := s.nextId, revision := s.revision + 1 } (u :: rest) :=
  h.stack_eq ▸ tracks_startUndoSession h.id_lt

theorem Tracks.emplace {v : V} (hrun : s.emplace unique v = .ok s₁) :
    Continues before s u rest s₁ false := by
  unfold GenericIndex.emplace at hrun
  split at hrun
  · cases hrun
  · next hfree =>
    cases hrun
    have hfresh : s.nextId ∉ s.indices := fun hmem => hfree (.inl hmem)
    refine ⟨u.onCreate s.nextId, ⟨?_, h.oldNextId_eq, h.before_lt, ?_, ?_, ?_, ?_⟩, ?_⟩
    · simp [onHead, h.stack_eq]
    · exact Nat.le_succ_of_le h.le_nextId
    · intro id hid
      rcases mem_insert.mp hid with rfl | hid
      · exact h.le_nextId
      · exact h.new_ge id hid
    · intro id hid
      rcases mem_insert.mp hid with rfl | hid
      · exact Nat.lt_succ_self _
      · exact Nat.lt_succ_of_lt (h.id_lt id hid)
    · intro id w hw
      obtain ⟨hout, hlt⟩ := h.removed id w hw
      refine ⟨fun hid => ?_, Nat.lt_succ_of_lt hlt⟩
      rcases mem_insert.mp hid with rfl | hid
      · exact Nat.lt_irrefl _ hlt
      · exact hout hid
    · refine ⟨Nat.le_succ _, fun k hk hlt => ⟨fun hid => ?_, ?_⟩, fun _ hund => ?_, nofun⟩
      · rcases mem_insert.mp hid with rfl | hid
        · exact Nat.lt_irrefl _ hlt
        · exact hk hid
      · exact entry_congr (mem_insert.trans (or_iff_right (Nat.ne_of_lt hlt))) rfl rfl
      · refine hund.create v (lookup_eq_none.mpr hfresh) (lookup_eq_none.mpr ?_)
        intro hmem
        have hlt := h.before_lt _ hmem
        have hle := h.le_nextId
        omega

variable {id : ℕ}

/-- A change at a stored object that the newest undo state records at that object. -/
theorem Tracks.atObject {f : UndoState V → UndoState V} {indices : Table ℕ V} {v : V}
    {threw : Bool} (hid : s.indices.lookup id = some v)
    (hother : ∀ j, j ≠ id → (j ∈ indices ↔ j ∈ s.indices))
    (hframe : (f u).oldNextId = u.oldNextId) (hnew : (f u).newIds ⊆ u.newIds)
    (hentry : ∀ j, j ≠ id → (f u).changes.entry j = u.changes.entry j)
    (hremoved : (f u).removedValues.lookup id = none ∨ id ∉ indices)
    (hclean : threw = false → u.changes.Undoes s.indices before.table →
      (f u).changes.Undoes indices before.table)
    (hpoisoned : threw = true → u.changes.Undoes s.indices before.table →
      ((f u).changes.entry id).Listed ∧ id ∉ indices) :
    Tracks before { s with indices, stack := s.onHead f } (f u) rest ∧
      Advances before.table s u { s with indices, stack := s.onHead f } (f u) threw := by
  have hmem : id ∈ s.indices := mem_of_lookup hid
  refine ⟨⟨?_, hframe.trans h.oldNextId_eq, h.before_lt, h.le_nextId,
    fun j hj => h.new_ge j (hnew hj), fun j hj => ?_, fun j w hw => ?_⟩,
    ⟨Nat.le_refl _, fun k hk hlt => ?_, hclean, fun hthrew hund => ?_⟩⟩
  · simp [onHead, h.stack_eq]
  · by_cases hj' : j = id
    · subst hj'
      exact h.id_lt j hmem
    · exact h.id_lt j ((hother j hj').mp hj)
  · by_cases hj : j = id
    · subst hj
      rcases hremoved with hnone | hout
      · rw [hnone] at hw
        cases hw
      · exact ⟨hout, h.id_lt j hmem⟩
    · have hsame : u.removedValues.lookup j = some w :=
        (congrArg ChangeEntry.removed (hentry j hj)).symm.trans hw
      obtain ⟨hout, hlt⟩ := h.removed j w hsame
      exact ⟨fun hin => hout ((hother j hj).mp hin), hlt⟩
  · have hk' : k ≠ id := by
      rintro rfl
      exact hk hmem
    exact ⟨fun hin => hk ((hother k hk').mp hin), hentry k hk'⟩
  · obtain ⟨hlisted, hout⟩ := hpoisoned hthrew hund
    exact ⟨id, hlisted, hout, h.id_lt id hmem⟩

theorem Tracks.removed_eq_none {v : V} (hid : s.indices.lookup id = some v) :
    u.removedValues.lookup id = none := by
  by_contra hsome
  obtain ⟨w, hw⟩ := Option.ne_none_iff_exists'.mp hsome
  exact (h.removed id w hw).1 (mem_of_lookup hid)

theorem Tracks.modify {m : V → V} (hrun : s.modify unique id m = .ok s₁) :
    Continues before s u rest s₁ false := by
  unfold GenericIndex.modify at hrun
  split at hrun
  · cases hrun
  · next v hid =>
    split at hrun
    · cases hrun
    · cases hrun
      refine ⟨_, h.atObject (f := fun head => head.onModify id v) hid (fun j hj => ?_)
        onModify_frame.1.1 onModify_frame.2.1.subset
          (fun j hj => (onModify_entry j).trans (if_neg hj)) (.inl ?_)
        (fun _ hund => hund.update (m v) hid onModify_entry) (fun hthrew => by cases hthrew)⟩
      · exact mem_insert.trans (or_iff_right hj)
      · rw [onModify_frame.2.2]
        exact h.removed_eq_none hid

theorem Tracks.remove (hrun : s.remove id = .ok s₁) : Continues before s u rest s₁ false := by
  unfold GenericIndex.remove at hrun
  split at hrun
  · cases hrun
  · next v hid =>
    cases hrun
    refine ⟨_, h.atObject (f := fun head => head.onRemove id v) hid (fun j hj => ?_)
      onRemove_frame.1.1 onRemove_frame.2 (fun j hj => (onRemove_entry j).trans (if_neg hj))
        (.inr ?_)
      (fun _ hund => hund.remove hid onRemove_entry) (fun hthrew => by cases hthrew)⟩
    · exact mem_erase.trans (and_iff_right hj)
    · exact fun hmem => (mem_erase.mp hmem).1 rfl

/-- A modifier that throws leaves the object listed and not stored. -/
theorem Tracks.modifyThrowing (hrun : s.modifyThrowing id = .ok s₁) :
    Continues before s u rest s₁ true := by
  unfold GenericIndex.modifyThrowing at hrun
  split at hrun
  · cases hrun
  · next v hid =>
    cases hrun
    have hgone : id ∉ s.indices.erase id := fun hmem => (mem_erase.mp hmem).1 rfl
    refine ⟨_, h.atObject (f := fun head => head.onModify id v) hid (fun j hj => ?_)
      onModify_frame.1.1 onModify_frame.2.1.subset
        (fun j hj => (onModify_entry j).trans (if_neg hj)) (.inr hgone)
      (fun hthrew => by cases hthrew)
      (fun _ _ => ⟨?_, hgone⟩)⟩
    · exact mem_erase.trans (and_iff_right hj)
    · rw [onModify_entry, if_pos rfl]
      exact ChangeEntry.listed_mergeUpdated (h.removed_eq_none hid)

theorem Tracks.object {op : IndexOp V} (hop : op.OnObject) (hrun : s.apply unique op = .ok s₁) :
    Continues before s u rest s₁ false := by
  cases op with
  | emplace v =>
    cases hemplace : s.emplace unique v with
    | ok s' =>
      simp only [apply, hemplace] at hrun
      cases hrun
      exact h.emplace hemplace
    | error fault =>
      cases fault with
      | logicError =>
        simp only [apply, hemplace] at hrun
        cases hrun
        exact ⟨u, h, .refl⟩
      | abort | danglingReference =>
        simp only [apply, hemplace] at hrun
        cases hrun
  | modify id m => exact h.modify hrun
  | remove id => exact h.remove hrun
  | _ => exact absurd hop id

/-- A session inside, squashed into the current one. -/
theorem Tracks.squash (hin : Tracks ⟨s.indices, s.nextId⟩ s₂ u₂ (u :: rest))
    (hadv : Advances s.indices (s.startUndoSession true)
      { oldNextId := s.nextId, revision := s.revision + 1 } s₂ u₂ threw) :
    Continues before s u rest s₂.squash threw := by
  obtain ⟨hframe, -⟩ := merge_frame u₂ u
  have hsquash : s₂.squash =
      { s₂ with revision := s₂.revision - 1, stack := u₂.merge u :: rest } := by
    simp only [GenericIndex.squash, hin.stack_eq]
  -- what the session inside has not touched
  have habsent : ∀ k, k ∉ s.indices → k < s.nextId →
      k ∉ s₂.indices ∧ u₂.changes.entry k = ⟨false, none, none⟩ := by
    intro k hk hlt
    obtain ⟨hk₂, hentry⟩ := hadv.absent k hk hlt
    exact ⟨hk₂, hentry.trans (by simp [changes, entry])⟩
  have hle : s.nextId ≤ s₂.nextId := hadv.le
  rw [hsquash]
  refine ⟨u₂.merge u, ⟨rfl, hframe.trans h.oldNextId_eq, h.before_lt,
    Nat.le_trans h.le_nextId hle, fun id hid => ?_, hin.id_lt, fun id v hv => ?_⟩,
    ⟨hle, fun k hk hlt => ?_, fun hclean hund => ?_, fun hthrew hund => ?_⟩⟩
  · rcases merge_newIds_subset u₂ u hid with hid | hid
    · exact h.new_ge id hid
    · exact Nat.le_trans h.le_nextId (hin.new_ge id hid)
  · -- removed by the session inside, or before it
    cases hr₂ : u₂.removedValues.lookup id with
    | some w => exact hin.removed id w hr₂
    | none =>
      cases hr : u.removedValues.lookup id with
      | some w =>
        obtain ⟨hout, hlt⟩ := h.removed id w hr
        exact ⟨(habsent id hout hlt).1, Nat.lt_of_lt_of_le hlt hle⟩
      | none =>
        have hnone := ChangeEntry.removed_merge_eq_none (a := u.changes.entry id)
          (b := u₂.changes.entry id) hr hr₂
        rw [← merge_entry] at hnone
        exact absurd (hv.symm.trans hnone) (by simp)
  · obtain ⟨hk₂, hentry⟩ := habsent k hk hlt
    refine ⟨hk₂, ?_⟩
    rw [merge_entry, hentry, ChangeEntry.empty_merge]
  · refine hund.merge (hadv.clean hclean (undoes_empty _)) ?_ (merge_entry u₂ u)
    intro id hid
    by_contra hsome
    obtain ⟨w, hw⟩ := Option.ne_none_iff_exists'.mp hsome
    have hlt := (h.removed id w hw).2
    have hge := hin.new_ge id hid
    simp only at hge
    omega
  · obtain ⟨k, hlisted, hgone, hlt⟩ := hadv.poisoned hthrew (undoes_empty _)
    refine ⟨k, ?_, hgone, hlt⟩
    rw [merge_entry]
    refine hlisted.merge ?_
    -- an object removed before has no entry in the session inside
    by_contra hsome
    obtain ⟨w, hw⟩ := Option.ne_none_iff_exists'.mp hsome
    obtain ⟨hout, hlt'⟩ := h.removed k w hw
    rw [(habsent k hout hlt').2] at hlisted
    simp [ChangeEntry.Listed] at hlisted

omit h

/-- A session inside that was undone: no modifier has thrown in it. -/
theorem Tracks.undone (hin : Tracks ⟨s.indices, s.nextId⟩ s₂ u₂ (u :: rest))
    (hadv : Advances s.indices (s.startUndoSession true)
      { oldNextId := s.nextId, revision := s.revision + 1 } s₂ u₂ threw)
    (hundo : s₂.undo unique = .ok s₃) :
    s₃.indices = s.indices ∧ s₃.nextId = s.nextId ∧ s₃.stack = u :: rest := by
  cases hthrew : threw with
  | true =>
    exact absurd hundo
      ((hadv.poisoned hthrew (undoes_empty _)).undo_fails hin.stack_eq)
  | false =>
    obtain ⟨hindices, hnext, hstack⟩ := undo_restores hin.stack_eq
      (hadv.clean hthrew (undoes_empty _)) hundo
    exact ⟨hindices, hnext.trans hin.oldNextId_eq, hstack⟩

end Steps

theorem SessionRun.tracks {threw : Bool} (hrun : SessionRun unique s threw s')
    {before : Contents V} (h : Tracks before s u rest) :
    Continues before s u rest s' threw := by
  induction hrun generalizing before u rest with
  | start s => exact ⟨u, h, .refl⟩
  | object _ hop hrun ih =>
    obtain ⟨u₁, ht₁, ha₁⟩ := ih h
    obtain ⟨u₂, ht₂, ha₂⟩ := ht₁.object hop hrun
    have ha := ha₁.trans ha₂
    rw [Bool.or_false] at ha
    exact ⟨u₂, ht₂, ha⟩
  | throws _ hrun ih =>
    obtain ⟨u₁, ht₁, ha₁⟩ := ih h
    obtain ⟨u₂, ht₂, ha₂⟩ := ht₁.modifyThrowing hrun
    have ha := ha₁.trans ha₂
    rw [Bool.or_true] at ha
    exact ⟨u₂, ht₂, ha⟩
  | squashed _ _ ih ihin =>
    obtain ⟨u₁, ht₁, ha₁⟩ := ih h
    obtain ⟨u₂, ht₂, ha₂⟩ := ihin ht₁.startUndoSession
    obtain ⟨u₃, ht₃, ha₃⟩ := ht₁.squash ht₂ ha₂
    exact ⟨u₃, ht₃, ha₁.trans ha₃⟩
  | undone _ _ hundo ih ihin =>
    obtain ⟨u₁, ht₁, ha₁⟩ := ih h
    obtain ⟨u₂, ht₂, ha₂⟩ := ihin ht₁.startUndoSession
    obtain ⟨hindices, hnext, hstack⟩ := ht₂.undone ha₂ hundo
    refine ⟨u₁, ⟨hstack, ht₁.oldNextId_eq, ht₁.before_lt, hnext ▸ ht₁.le_nextId, ht₁.new_ge,
      ?_, ?_⟩, ⟨hnext ▸ ha₁.le, ?_, ?_, ?_⟩⟩
    · rw [hindices, hnext]
      exact ht₁.id_lt
    · rw [hindices, hnext]
      exact ht₁.removed
    · rw [hindices]
      exact ha₁.absent
    · rw [hindices]
      exact ha₁.clean
    · intro hthrew hund
      obtain ⟨k, hlisted, hgone, hlt⟩ := ha₁.poisoned hthrew hund
      exact ⟨k, hlisted, hindices ▸ hgone, hnext ▸ hlt⟩

def oneNumber : GenericIndex ℕ := { indices := singleton 0 5, nextId := 1 }

theorem valid_oneNumber : Contents.Valid distinctNumbers ⟨oneNumber.indices, oneNumber.nextId⟩ := by
  have hkey : ∀ id ∈ oneNumber.indices, id = 0 := fun id hid => (mem_singleton _ _ _).mp hid
  refine ⟨fun id hid => ?_, fun i j a b hne ha hb => ?_⟩
  · rw [hkey id hid]
    decide
  · have hi := hkey i (mem_of_lookup ha)
    have hj := hkey j (mem_of_lookup hb)
    exact absurd (hi.trans hj.symm) hne

/-- A modifier throws on the stored number: `undo` does not find the object that it is to
restore. -/
theorem undo_after_throw_dangles :
    ∃ s', SessionRun distinctNumbers (oneNumber.startUndoSession true) true s' ∧
      UndoableInAnyOrder distinctNumbers oneNumber.indices s'.indices ∧
      s'.undo distinctNumbers = .error .danglingReference := by
  have hthrow : (oneNumber.startUndoSession true).modifyThrowing 0 = .ok
      ⟨oneNumber.indices.erase 0, 1, 1,
        [{ oldValues := singleton 0 5, oldNextId := 1, revision := 1 }]⟩ := rfl
  exact ⟨_, .throws (.start _) hthrow, by decide, rfl⟩

/-- **Exceptions in modifiers.** Undoing a session gives the table and the next id of its start back
exactly if no modifier has thrown in it or in a session squashed into it.  (Objects stored both
before and after can be taken back in any order, as `modify` asks of its callers.) -/
theorem undo_restores_iff_no_throw (unique : Uniqueness V) {s s' : GenericIndex V} {threw : Bool}
    (hvalid : Contents.Valid unique ⟨s.indices, s.nextId⟩)
    (hrun : SessionRun unique (s.startUndoSession true) threw s')
    (hany : UndoableInAnyOrder unique s.indices s'.indices) :
    (∃ s'', s'.undo unique = .ok s'' ∧ s''.indices = s.indices ∧ s''.nextId = s.nextId) ↔
      threw = false := by
  obtain ⟨u, htracks, hadv⟩ := hrun.tracks (tracks_startUndoSession hvalid.id_lt)
  constructor
  · rintro ⟨s'', hundo, -⟩
    by_contra hthrew
    exact (hadv.poisoned (by simpa using hthrew) (undoes_empty _)).undo_fails
      htracks.stack_eq hundo
  · intro hclean
    have hund := hadv.clean hclean (undoes_empty _)
    have hany' : UndoableInAnyOrder unique s.indices
        (Contents.table ⟨s'.indices, s'.nextId⟩) := hany
    obtain ⟨t₁, t₂, h₁, h₂, h₃⟩ := undo_loops_ok hund hvalid hany'
    refine ⟨⟨s.indices, u.oldNextId, s'.revision - 1, s.stack⟩, ?_, rfl, htracks.oldNextId_eq⟩
    simp only [undo, htracks.stack_eq]
    simp only at h₁ h₃
    simp [h₁, h₂, h₃]

def numberModified : GenericIndex ℕ :=
  ⟨oneNumber.indices.insert 0 15, 1, 1,
    [{ oldValues := singleton 0 5, oldNextId := 1, revision := 1 }]⟩

/-- A session inside has created another one. -/
def numberAdded : GenericIndex ℕ :=
  ⟨numberModified.indices.insert 1 7, 2, 2,
    { newIds := {1}, oldNextId := 1, revision := 2 } :: numberModified.stack⟩

theorem undo_restores_iff_no_throw_numberAdded :
    SessionRun distinctNumbers (oneNumber.startUndoSession true) false numberAdded.squash ∧
      ∃ s, numberAdded.squash.undo distinctNumbers = .ok s ∧ s.indices = oneNumber.indices ∧
        s.nextId = oneNumber.nextId := by
  have hmodify : (oneNumber.startUndoSession true).apply distinctNumbers (.modify 0 (· + 10)) =
      .ok numberModified := rfl
  have hemplace : (numberModified.startUndoSession true).apply distinctNumbers (.emplace 7) =
      .ok numberAdded := rfl
  have hrun : SessionRun distinctNumbers (oneNumber.startUndoSession true) false
      numberAdded.squash :=
    .squashed (.object (.start _) (by trivial) hmodify) (.object (.start _) (by trivial) hemplace)
  exact ⟨hrun,
    (undo_restores_iff_no_throw distinctNumbers valid_oneNumber hrun (by decide)).mpr rfl⟩

end Inery.Chainbase
