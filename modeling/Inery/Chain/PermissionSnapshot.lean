import Inery.Chain.Permissions

/-!
# Permissions in snapshots (`authorization_manager.cpp`)

A snapshot holds the permissions in the order of their ids, with the name of the parent and the time
of last use in the row.  Loading gives new ids in that order.  A permission comes after its parent,
so the parent is there when it is looked up.
-/

namespace Inery.Chain

open Foundation Chainbase List GenericIndex Table PermissionRow PermissionTables Finmap

structure SnapshotPermission where
  parent : Name
  owner : Name
  name : Name
  lastUpdated : ℤ
  lastUsed : ℤ
  auth : Authority
deriving DecidableEq

def getById {V : Type} (t : Table ℕ V) (i : ℕ) : Result V :=
  match t.lookup i with
  | some v => pure v
  | none => .error ⟨.stdOutOfRange, "unknown key"⟩

theorem getById_of_lookup {V : Type} {t : Table ℕ V} {i : ℕ} {v : V} (h : t.lookup i = some v) :
    getById t i = .ok v := by
  rw [getById, h]
  rfl

namespace PermissionTables

variable (t : PermissionTables)

def toSnapshotRow (p : PermissionRow) : Result SnapshotPermission := do
  let parent ← getById t.permissions.indices p.parent
  let lastUsed ← getById t.usages.indices p.usageId
  pure { parent := parent.name, owner := p.owner, name := p.name, lastUpdated := p.lastUpdated,
         lastUsed, auth := p.auth }

def addToSnapshot : Result (List SnapshotPermission) :=
  (values t.permissions.indices).mapM t.toSnapshotRow

variable (row : SnapshotPermission)

/-- What `from_snapshot_row` asks of the first row. -/
def checkReserved : Result Unit := do
  ineAssert (row.parent = 0) .snapshotException "Unexpected parent name on reserved permission 0"
  ineAssert (row.name = 0) .snapshotException "Unexpected permission name on reserved permission 0"
  ineAssert (row.owner = 0) .snapshotException "Unexpected owner name on reserved permission 0"
  ineAssert (row.auth.accounts.length = 0) .snapshotException
    "Unexpected auth accounts on reserved permission 0"
  ineAssert (row.auth.keys.length = 0) .snapshotException
    "Unexpected auth keys on reserved permission 0"
  ineAssert (row.auth.waits.length = 0) .snapshotException
    "Unexpected auth waits on reserved permission 0"
  ineAssert (row.auth.threshold = 0) .snapshotException
    "Unexpected auth threshold on reserved permission 0"
  ineAssert (row.lastUpdated = 0) .snapshotException
    "Unexpected auth last updated on reserved permission 0"

/-- The parent of the row that is read next. -/
def parentInSnapshot : Result ℕ :=
  if t.permissions.nextId = 0 then do
    checkReserved row
    pure 0
  else if row.parent ≠ 0 then
    match findBy level t.permissions.indices ⟨row.owner, row.parent⟩ with
    | none => .error ⟨.stdOutOfRange, "unknown key"⟩
    | some (id, _) => do
        ineAssert (id ≠ 0) .snapshotException "Unexpected mapping to reserved permission 0"
        pure id
  else pure 0

/-- `from_snapshot_row` in the creation of one permission. -/
def readRow : Result PermissionTables := do
  let parent ← t.parentInSnapshot row
  let value : PermissionRow :=
    { parent, owner := row.owner, name := row.name, lastUpdated := row.lastUpdated,
      auth := row.auth }
  if t.permissions.nextId ≠ 0 then do
    let usages ← stored (t.usages.emplace .onIds row.lastUsed)
    let permissions ← stored (t.permissions.emplace (.on level)
      { value with usageId := t.usages.nextId })
    pure ⟨permissions, usages⟩
  else do
    let permissions ← stored (t.permissions.emplace (.on level) value)
    pure { t with permissions }

def readFromSnapshot (rows : List SnapshotPermission) : Result PermissionTables :=
  rows.foldlM readRow {}

end PermissionTables

/-! ## Usage objects -/

variable {t t' : PermissionTables} {p q : PermissionRow} {i j : ℕ}

/-- Every permission but the reserved one has its own usage object, and they were
created in the same order. -/
structure UsagesMatch (t : PermissionTables) : Prop where
  fresh : t.usages.Fresh
  found : ∀ ⦃i p⦄, t.permissions.indices.lookup i = some p → i ≠ 0 →
    ∃ time, t.usages.indices.lookup p.usageId = some time
  ordered : ∀ ⦃i p j q⦄, i ≠ 0 → t.permissions.indices.lookup i = some p →
    t.permissions.indices.lookup j = some q → i < j → p.usageId < q.usageId
  owned : ∀ ⦃u time⦄, t.usages.indices.lookup u = some time →
    ∃ i p, i ≠ 0 ∧ t.permissions.indices.lookup i = some p ∧ p.usageId = u

/-- Permission 1 is an owner permission and has usage object 0, to which the
reserved permission refers as well. -/
def FirstPermission (t : PermissionTables) : Prop :=
  ∃ p, t.permissions.indices.lookup 1 = some p ∧ p.name = Config.ownerName ∧ p.usageId = 0

namespace UsagesMatch

variable (h : UsagesMatch t)
include h

theorem create (hf : PermissionForest t) (hc : PermissionCreated t p t') : UsagesMatch t' := by
  obtain ⟨time, husages⟩ := hc.usages
  have hzero : t.permissions.nextId ≠ 0 := fun hzero =>
    hc.newId (hzero ▸ mem_of_lookup hf.reserved)
  constructor
  · intro u time' hu
    rw [hc.nextUsageId]
    rw [husages] at hu
    rcases lookup_insert_eq_some.mp hu with ⟨rfl, -⟩ | ⟨-, hu⟩
    · exact Nat.lt_succ_self _
    · exact Nat.lt_succ_of_lt (h.fresh hu)
  · intro j q hq hj
    rw [husages]
    rcases hc.lookup_eq_some.mp hq with ⟨-, rfl⟩ | ⟨-, hq⟩
    · exact ⟨time, hc.usage ▸ lookup_insert _⟩
    · obtain ⟨time', htime⟩ := h.found hq hj
      exact ⟨time', lookup_insert_eq_some.mpr (.inr ⟨Nat.ne_of_lt (h.fresh htime), htime⟩)⟩
  · intro a x b y ha hx hy hab
    rcases hc.lookup_eq_some.mp hx with ⟨rfl, -⟩ | ⟨-, hx'⟩ <;>
      rcases hc.lookup_eq_some.mp hy with ⟨rfl, rfl⟩ | ⟨-, hy'⟩
    · exact absurd hab (Nat.lt_irrefl _)
    · exact absurd (hf.fresh hy') hab.not_gt
    · obtain ⟨time', htime⟩ := h.found hx' ha
      rw [hc.usage]
      exact h.fresh htime
    · exact h.ordered ha hx' hy' hab
  · intro u time' hu
    rw [husages] at hu
    rcases lookup_insert_eq_some.mp hu with ⟨rfl, -⟩ | ⟨-, hu⟩
    · exact ⟨_, p, hzero, hc.lookup_eq_some.mpr (.inl ⟨rfl, rfl⟩), hc.usage⟩
    · obtain ⟨k, q, hk, hq, huse⟩ := h.owned hu
      exact ⟨k, q, hk, hf.lookup_created hc hq, huse⟩

theorem usage_inj (hi : i ≠ 0) (hj : j ≠ 0) (hp : t.permissions.indices.lookup i = some p)
    (hq : t.permissions.indices.lookup j = some q) (heq : p.usageId = q.usageId) : i = j := by
  rcases Nat.lt_trichotomy i j with hlt | rfl | hgt
  · have := h.ordered hi hp hq hlt
    omega
  · rfl
  · have := h.ordered hj hq hp hgt
    omega

theorem remove (hi : i ≠ 0) (hr : PermissionRemoved t i t') : UsagesMatch t' := by
  obtain ⟨p, hp, husages⟩ := hr.usages
  constructor
  · intro u time hu
    rw [hr.nextUsageId]
    rw [husages] at hu
    exact h.fresh (lookup_erase_eq_some.mp hu).2
  · intro j q hq hj
    obtain ⟨hne, hq⟩ := hr.lookup_eq_some.mp hq
    rw [husages, lookup_erase_ne fun heq => hne (h.usage_inj hj hi hq hp heq)]
    exact h.found hq hj
  · intro a x b y ha hx hy hab
    exact h.ordered ha (hr.lookup_eq_some.mp hx).2 (hr.lookup_eq_some.mp hy).2 hab
  · intro u time hu
    rw [husages] at hu
    obtain ⟨hne, hu⟩ := lookup_erase_eq_some.mp hu
    obtain ⟨k, q, hk, hq, rfl⟩ := h.owned hu
    refine ⟨k, q, hk, hr.lookup_eq_some.mpr ⟨?_, hq⟩, rfl⟩
    rintro rfl
    rw [hp] at hq
    cases hq
    exact hne rfl

end UsagesMatch

/-! ## Loading -/

namespace PermissionTables

variable (t : PermissionTables)

def lastUsed (p : PermissionRow) : ℤ := (t.usages.indices.lookup p.usageId).getD 0

def snapshotRow (p : PermissionRow) : SnapshotPermission :=
  { parent := ((t.permissions.indices.lookup p.parent).getD {}).name, owner := p.owner,
    name := p.name, lastUpdated := p.lastUpdated, lastUsed := t.lastUsed p, auth := p.auth }

def renumbered (p : PermissionRow) : PermissionRow :=
  { p with
    parent := position t.permissions.indices p.parent
    usageId := position t.usages.indices p.usageId }

def loaded (done : List PermissionRow) : PermissionTables :=
  ⟨.packed (done.map t.renumbered), .packed (done.tail.map t.lastUsed)⟩

end PermissionTables

/-- Tables that can be written and loaded again. -/
structure Snapshottable (t : PermissionTables) : Prop extends PermissionForest t where
  usages : UsagesMatch t
  first : FirstPermission t

namespace Snapshottable

variable (h : Snapshottable t)
include h

theorem values_eq_cons :
    ∃ rest, orderedRows t.permissions.indices = (0, {}) :: rest ∧
      (∀ e ∈ rest, e.1 ≠ 0) ∧ rest.Pairwise fun a b => a.1 < b.1 := by
  have hpos : (ids t.permissions.indices)[0]? = some 0 := by
    have hid := getElem?_ids_position h.reserved
    rwa [position_zero h.reserved] at hid
  have hsorted := pairwise_ids t.permissions.indices
  unfold ids at hpos hsorted
  rw [pairwise_map] at hsorted
  cases hentries : orderedRows t.permissions.indices with
  | nil =>
    rw [hentries] at hpos
    cases hpos
  | cons e rest =>
    obtain ⟨i, v⟩ := e
    rw [hentries] at hpos hsorted
    obtain rfl : i = 0 := Option.some.inj hpos
    have hlook : t.permissions.indices.lookup 0 = some v :=
      mem_orderedRows.mp (hentries ▸ mem_cons_self)
    rw [h.reserved] at hlook
    cases hlook
    obtain ⟨hfirst, hrest⟩ := pairwise_cons.mp hsorted
    exact ⟨rest, rfl, fun e he => Nat.ne_of_gt (hfirst e he), hrest⟩

theorem ids_usages : ids t.usages.indices = (values t.permissions.indices).tail.map usageId := by
  obtain ⟨rest, hentries, hnonzero, hsorted⟩ := h.values_eq_cons
  have hlook : ∀ e ∈ rest, t.permissions.indices.lookup e.1 = some e.2 := fun e he =>
    mem_orderedRows.mp (hentries ▸ mem_cons_of_mem _ he)
  have htail : (values t.permissions.indices).tail = rest.map Prod.snd := by
    rw [values, hentries]
    rfl
  have hpairwise : (rest.map fun e => e.2.usageId).Pairwise (· < ·) := by
    rw [pairwise_map]
    refine hsorted.imp_of_mem fun {a b} ha hb hab => ?_
    exact h.usages.ordered (hnonzero a ha) (hlook a ha) (hlook b hb) hab
  rw [htail, map_map]
  apply Perm.eq_of_pairwise' (pairwise_ids _) hpairwise
  rw [perm_ext_iff_of_nodup (pairwise_ids _).nodup hpairwise.nodup]
  intro u
  rw [mem_ids, mem_map]
  constructor
  · rintro ⟨time, hu⟩
    obtain ⟨i, p, hi, hp, rfl⟩ := h.usages.owned hu
    have hmem := mem_orderedRows.mpr hp
    rw [hentries] at hmem
    rcases mem_cons.mp hmem with heq | hmem
    · cases heq
      exact absurd rfl hi
    · exact ⟨(i, p), hmem, rfl⟩
  · rintro ⟨e, he, rfl⟩
    exact h.usages.found (hlook e he) (hnonzero e he)

theorem values_usages :
    values t.usages.indices = (values t.permissions.indices).tail.map t.lastUsed := by
  rw [values_eq_map _ 0, h.ids_usages, map_map]
  rfl

section

variable (hp : t.permissions.indices.lookup i = some p)
include hp

theorem lookup_usage : ∃ time, t.usages.indices.lookup p.usageId = some time := by
  by_cases hi : i = 0
  · subst hi
    rw [h.reserved] at hp
    cases hp
    obtain ⟨q, hq, -, husage⟩ := h.first
    obtain ⟨time, htime⟩ := h.usages.found hq (by decide)
    exact ⟨time, husage ▸ htime⟩
  · exact h.usages.found hp hi

theorem lookup_parent :
    ∃ q, t.permissions.indices.lookup p.parent = some q ∧
      (p.parent = 0 → q = {}) ∧ (p.parent ≠ 0 → q.level = ⟨p.owner, q.name⟩ ∧ q.name ≠ 0 ∧
        p.parent < i) := by
  by_cases hparent : p.parent = 0
  · rw [hparent]
    exact ⟨{}, h.reserved, fun _ => rfl, fun hne => absurd rfl hne⟩
  · have hi : i ≠ 0 := by
      rintro rfl
      rw [h.reserved] at hp
      cases hp
      exact hparent rfl
    have hname : p.name ≠ Config.ownerName := fun hname => hparent (h.root hp hname)
    obtain ⟨-, hlt, q, hq, howner⟩ := h.parent hp hi hname
    refine ⟨q, hq, fun hzero => absurd hzero hparent, fun _ => ⟨?_, (h.named hq hparent).2, hlt⟩⟩
    rw [level, howner]

theorem toSnapshotRow_eq : t.toSnapshotRow p = .ok (t.snapshotRow p) := by
  obtain ⟨q, hq, -⟩ := h.lookup_parent hp
  obtain ⟨time, htime⟩ := h.lookup_usage hp
  unfold toSnapshotRow snapshotRow lastUsed
  rw [getById_of_lookup hq, getById_of_lookup htime, hq, htime]
  rfl

end

theorem addToSnapshot_eq : t.addToSnapshot =
    .ok ((values t.permissions.indices).map t.snapshotRow) := by
  unfold addToSnapshot
  have hall : ∀ p ∈ values t.permissions.indices, t.toSnapshotRow p = .ok (t.snapshotRow p) := by
    intro p hp
    obtain ⟨i, hi⟩ := mem_values.mp hp
    exact h.toSnapshotRow_eq hi
  generalize values t.permissions.indices = rows at hall
  induction rows with
  | nil => rfl
  | cons p rows ih =>
    rw [mapM_cons, hall p mem_cons_self, ok_bind, ih fun q hq => hall q (mem_cons_of_mem p hq)]
    rfl

theorem readRow_reserved : (t.loaded []).readRow (t.snapshotRow {}) = .ok (t.loaded [{}]) := by
  obtain ⟨time, htime⟩ := h.lookup_usage h.reserved
  have hzero : t.renumbered {} = {} := by
    unfold renumbered
    rw [position_zero h.reserved, position_zero htime]
  have hname : (t.snapshotRow {}).parent = 0 := by
    unfold snapshotRow
    rw [h.reserved]
    rfl
  have hchecked : checkReserved (t.snapshotRow {}) = .ok () := by
    simp only [checkReserved, hname]
    rfl
  have hparent : (t.loaded []).parentInSnapshot (t.snapshotRow {}) = .ok 0 := by
    unfold parentInSnapshot
    rw [if_pos (show (t.loaded []).permissions.nextId = 0 from rfl), hchecked]
    rfl
  have hemplace : (packed ([] : List PermissionRow)).emplace
      (.on level) {} = .ok (.packed [{}]) :=
    emplace_packed (not_conflicts_numbered not_mem_nil)
  unfold readRow
  rw [hparent, ok_bind, if_neg (fun hne => hne rfl)]
  simp only [loaded, map_nil, map_cons, hzero, tail_nil, tail_cons]
  exact congrArg (fun x => stored x >>= _) hemplace

omit h

variable {done rest : List PermissionRow}

theorem nextId_loaded_ne_zero (hne : done ≠ []) : (t.loaded done).permissions.nextId ≠ 0 := by
  simpa [loaded, packed] using hne

theorem map_level_renumbered (done : List PermissionRow) :
    (done.map t.renumbered).map level = done.map level := by
  rw [map_map]
  rfl

include h

/-- A later row: the parent is found by its name. -/
theorem parentInSnapshot_later (hne : done ≠ [])
    (hvalues : values t.permissions.indices = done ++ p :: rest)
    (hp : t.permissions.indices.lookup i = some p)
    (hpos : position t.permissions.indices i = done.length) :
    (t.loaded done).parentInSnapshot (t.snapshotRow p) =
      .ok (position t.permissions.indices p.parent) := by
  obtain ⟨q, hq, hroot, hbelow⟩ := h.lookup_parent hp
  have hrow : (t.snapshotRow p).parent = q.name := by
    unfold snapshotRow
    rw [hq]
    rfl
  unfold parentInSnapshot
  rw [if_neg (nextId_loaded_ne_zero hne), hrow]
  by_cases hzero : p.parent = 0
  · rw [if_neg (fun hname => hname (by rw [hroot hzero])), hzero, position_zero h.reserved]
    rfl
  · obtain ⟨hlevel, hname, hlt⟩ := hbelow hzero
    have hposlt : position t.permissions.indices p.parent < done.length :=
      hpos ▸ position_lt_position hq hp hlt
    have hposzero : position t.permissions.indices p.parent ≠ 0 := by
      rw [← position_zero h.reserved]
      exact fun heq => hzero (position_inj hq h.reserved heq)
    have hqat : done[position t.permissions.indices p.parent]? = some q := by
      have hget := getElem?_values_position hq
      rwa [hvalues, getElem?_append_left hposlt] at hget
    have hlevels := h.apart.nodup_values
    rw [hvalues, map_append] at hlevels
    have hfind : findBy level (t.loaded done).permissions.indices
        ⟨(t.snapshotRow p).owner, q.name⟩ =
          some (position t.permissions.indices p.parent, t.renumbered q) := by
      refine (findBy_eq_some (keysApart_numbered ?_)).mpr ⟨?_, hlevel⟩
      · rw [map_level_renumbered]
        exact hlevels.of_append_left
      · rw [lookup_numbered, getElem?_map, hqat]
        rfl
    rw [if_pos hname, hfind]
    dsimp only
    rw [ineAssert, ensure_pos hposzero]
    rfl

theorem position_usage (hne : done ≠ [])
    (hvalues : values t.permissions.indices = done ++ p :: rest)
    (hp : t.permissions.indices.lookup i = some p) :
    position t.usages.indices p.usageId = done.tail.length := by
  obtain ⟨time, htime⟩ := h.lookup_usage hp
  have htail : (ids t.usages.indices)[done.tail.length]? = some p.usageId := by
    rw [h.ids_usages, hvalues, tail_append_of_ne_nil hne, map_append,
      getElem?_append_right (by simp), length_map, Nat.sub_self]
    rfl
  have hposition := getElem?_ids_position htime
  exact (List.getElem?_inj (List.getElem?_eq_some_iff.mp hposition).1
    (pairwise_ids t.usages.indices).nodup).mp (hposition.trans htail.symm)

omit h

/-- What reading a row comes to, once its parent is known. -/
theorem readRow_eq {s : PermissionTables} {row : SnapshotPermission} {parent : ℕ}
    {permissions : GenericIndex PermissionRow} {usages : GenericIndex ℤ}
    (hparent : s.parentInSnapshot row = .ok parent) (hnext : s.permissions.nextId ≠ 0)
    (husages : s.usages.emplace .onIds row.lastUsed = .ok usages)
    (hpermissions : s.permissions.emplace (.on level)
      { parent, owner := row.owner, name := row.name, lastUpdated := row.lastUpdated,
        auth := row.auth, usageId := s.usages.nextId } = .ok permissions) :
    s.readRow row = .ok ⟨permissions, usages⟩ := by
  unfold readRow
  rw [hparent, ok_bind, if_pos hnext, husages]
  simp only [stored, ok_bind, hpermissions]
  rfl

include h

theorem readRow_later (hne : done ≠ [])
    (hvalues : values t.permissions.indices = done ++ p :: rest) :
    (t.loaded done).readRow (t.snapshotRow p) = .ok (t.loaded (done ++ [p])) := by
  have hat : (values t.permissions.indices)[done.length]? = some p := by
    rw [hvalues, getElem?_append_right (Nat.le_refl _), Nat.sub_self]
    rfl
  obtain ⟨i, hp, hpos⟩ := exists_position hat
  have hlevels := h.apart.nodup_values
  rw [hvalues, map_append, map_cons] at hlevels
  have hnew : level (t.renumbered p) ∉
      (done.map t.renumbered).map level := by
    rw [map_level_renumbered]
    exact fun hmem => (nodup_append.mp hlevels).2.2 _ hmem _ mem_cons_self rfl
  have hrow : t.renumbered p =
      { parent := position t.permissions.indices p.parent, owner := p.owner, name := p.name,
        lastUpdated := p.lastUpdated, auth := p.auth,
        usageId := (t.loaded done).usages.nextId : PermissionRow } := by
    unfold renumbered
    rw [h.position_usage hne hvalues hp]
    simp [loaded, packed]
  have hpermissions := emplace_packed (not_conflicts_numbered hnew)
  rw [readRow_eq (h.parentInSnapshot_later hne hvalues hp hpos) (nextId_loaded_ne_zero hne)
    (emplace_packed not_conflicts_onIds) (hrow ▸ hpermissions)]
  simp [loaded, tail_append_of_ne_nil hne, snapshotRow, hrow]

theorem foldlM_readRow (hvalues : values t.permissions.indices = done ++ rest) :
    (rest.map t.snapshotRow).foldlM readRow (t.loaded done) = .ok (t.loaded (done ++ rest)) := by
  induction rest generalizing done with
  | nil =>
    rw [append_nil]
    rfl
  | cons p rest ih =>
    have hread : (t.loaded done).readRow (t.snapshotRow p) = .ok (t.loaded (done ++ [p])) := by
      by_cases hne : done = []
      · subst hne
        obtain ⟨entries, hentries, -⟩ := h.values_eq_cons
        rw [values, hentries] at hvalues
        cases hvalues
        exact h.readRow_reserved
      · exact h.readRow_later hne hvalues
    rw [map_cons, foldlM_cons, hread, ok_bind, ih (by simpa using hvalues), append_assoc]
    rfl

omit h

def reloaded (t : PermissionTables) : PermissionTables :=
  ⟨.packed ((values t.permissions.indices).map t.renumbered), .packed (values t.usages.indices)⟩

/-- **A snapshot of the permissions loads.** The permissions and the usage objects get new ids in
the order of the old ones, and the references between them follow. -/
theorem readFromSnapshot_eq (h : Snapshottable t) : ∃ rows, t.addToSnapshot = .ok rows ∧
    readFromSnapshot rows = .ok (reloaded t) := by
  refine ⟨_, h.addToSnapshot_eq, ?_⟩
  have hrun := h.foldlM_readRow (nil_append _).symm
  rw [nil_append] at hrun
  rw [reloaded, h.values_usages]
  exact hrun

theorem lookup_reloaded {k : ℕ} {r : PermissionRow} :
    (reloaded t).permissions.indices.lookup k = some r ↔
      ∃ i p, t.permissions.indices.lookup i = some p ∧
        position t.permissions.indices i = k ∧ t.renumbered p = r := by
  rw [reloaded, packed, lookup_numbered, getElem?_map, Option.map_eq_some_iff]
  constructor
  · rintro ⟨p, hp, rfl⟩
    obtain ⟨i, hi, hpos⟩ := exists_position hp
    exact ⟨i, p, hi, hpos, rfl⟩
  · rintro ⟨i, p, hi, rfl, rfl⟩
    exact ⟨p, getElem?_values_position hi, rfl⟩

include h

theorem position_ne_zero (hp : t.permissions.indices.lookup i = some p) (hi : i ≠ 0) :
    position t.permissions.indices i ≠ 0 := by
  rw [← position_zero h.reserved]
  exact fun heq => hi (position_inj hp h.reserved heq)

theorem ne_zero_of_position (hi : position t.permissions.indices i ≠ 0) : i ≠ 0 := by
  rintro rfl
  exact hi (position_zero h.reserved)

theorem permissionForest_reloaded : PermissionForest (reloaded t) := by
  have hself : t.renumbered {} = {} := by
    obtain ⟨time, htime⟩ := h.lookup_usage h.reserved
    unfold renumbered
    rw [position_zero h.reserved, position_zero htime]
  constructor
  · apply keysApart_numbered
    rw [map_level_renumbered]
    exact h.apart.nodup_values
  · intro k r hr
    obtain ⟨i, p, hp, rfl, -⟩ := lookup_reloaded.mp hr
    simpa [reloaded, packed] using position_lt_length hp
  · exact lookup_reloaded.mpr ⟨0, {}, h.reserved, position_zero h.reserved, hself⟩
  · intro k r hr hk
    obtain ⟨i, p, hp, rfl, rfl⟩ := lookup_reloaded.mp hr
    have hnamed := h.named hp (h.ne_zero_of_position hk)
    exact hnamed
  · intro k r hr hname
    obtain ⟨i, p, hp, rfl, rfl⟩ := lookup_reloaded.mp hr
    change position t.permissions.indices p.parent = 0
    rw [h.root hp hname, position_zero h.reserved]
  · intro k r hr hk hname
    obtain ⟨i, p, hp, rfl, rfl⟩ := lookup_reloaded.mp hr
    obtain ⟨hne, hlt, q, hq, howner⟩ := h.parent hp (h.ne_zero_of_position hk) hname
    exact ⟨h.position_ne_zero hq hne, position_lt_position hq hp hlt, t.renumbered q,
      lookup_reloaded.mpr ⟨p.parent, q, hq, rfl, rfl⟩, howner⟩

theorem usagesMatch_reloaded : UsagesMatch (reloaded t) := by
  have hlook : ∀ u, (reloaded t).usages.indices.lookup u = (values t.usages.indices)[u]? :=
    fun u => lookup_numbered _ u
  constructor
  · intro u time hu
    rw [hlook] at hu
    exact (List.getElem?_eq_some_iff.mp hu).1
  · intro k r hr _
    obtain ⟨i, p, hp, rfl, rfl⟩ := lookup_reloaded.mp hr
    obtain ⟨time, htime⟩ := h.lookup_usage hp
    exact ⟨time, (hlook _).trans (getElem?_values_position htime)⟩
  · intro k r l s hk hr hs hkl
    obtain ⟨i, p, hp, rfl, rfl⟩ := lookup_reloaded.mp hr
    obtain ⟨j, q, hq, rfl, rfl⟩ := lookup_reloaded.mp hs
    obtain ⟨time, htime⟩ := h.lookup_usage hp
    obtain ⟨time', htime'⟩ := h.lookup_usage hq
    exact position_lt_position htime htime' (h.usages.ordered (h.ne_zero_of_position hk) hp hq
      (lt_of_position_lt hp hq hkl))
  · intro u time hu
    rw [hlook] at hu
    obtain ⟨v, hv, rfl⟩ := exists_position hu
    obtain ⟨i, p, hi, hp, rfl⟩ := h.usages.owned hv
    exact ⟨_, _, h.position_ne_zero hp hi, lookup_reloaded.mpr ⟨i, p, hp, rfl, rfl⟩, rfl⟩

theorem reload : Snapshottable (reloaded t) := by
  refine { h.permissionForest_reloaded with usages := h.usagesMatch_reloaded, first := ?_ }
  obtain ⟨p, hp, hname, husage⟩ := h.first
  refine ⟨t.renumbered p, lookup_reloaded.mpr ⟨1, p, hp, position_one h.reserved hp, rfl⟩,
    hname, ?_⟩
  obtain ⟨time, htime⟩ := h.lookup_usage hp
  change position t.usages.indices p.usageId = 0
  rw [husage] at htime ⊢
  exact position_zero htime

end Snapshottable

end Inery.Chain
