import Inery.Chain.Authorization
import Inery.Chainbase.KeyedIndex

/-!
# The permission tables (`authorization_manager.cpp`, `permission_object.hpp`)

A permission names its parent by id; parent 0, reserved by an empty object, means no parent.  The
tables form a forest as long as a permission is created below an existing one of its account and
only removed when nothing is below it.
-/

namespace Inery.Chain

open Foundation Chainbase Finmap Finset GenericIndex Table PermissionIndex Relation.TransGen

namespace Config

def ownerName : Name := 0xa726ab8000000000

end Config

open Config

/-- `permission_object`, under its id. -/
structure PermissionRow where
  usageId : ℕ := 0
  parent : ℕ := 0
  owner : Name := 0
  name : Name := 0
  lastUpdated : ℤ := 0
  auth : Authority := {}
deriving DecidableEq

open PermissionRow

/-- The key of the unique index `by_owner`. -/
def PermissionRow.level (p : PermissionRow) : PermissionLevel := ⟨p.owner, p.name⟩

/-- `permission_index` and `permission_usage_index`; a usage object is its
`last_used`. -/
structure PermissionTables where
  permissions : GenericIndex PermissionRow := {}
  usages : GenericIndex ℤ := {}

structure PermissionContext where
  /-- `public_key_type::which` -/
  which : PublicKey → ℕ
  numSupportedKeyTypes : ℕ
  pendingBlockTime : ℤ

/-- An operation of the database, as the chain sees its failures. -/
def stored {α : Type} : Except Fault α → Result α
  | .ok a => .ok a
  | .error .logicError => .error ⟨.stdLogicError,
      "could not insert object, most likely a uniqueness constraint was violated"⟩
  | .error .abort => .error ⟨.undefinedBehaviour, "abort"⟩
  | .error .danglingReference => .error ⟨.undefinedBehaviour, "dangling reference"⟩

theorem stored_eq_ok {α : Type} {x : Except Fault α} {a : α} : stored x = .ok a ↔ x = .ok a := by
  cases x with
  | ok b => simp [stored]
  | error e => cases e <;> simp [stored]

namespace PermissionTables

variable (t : PermissionTables)

/-- `initialize_database` on empty tables: permission 0 is reserved. -/
def initializeDatabase : Result PermissionTables := do
  let permissions ← stored (emplace (.on level) {} {})
  pure { permissions }

def byOwner : PermissionIndex :=
  byKey level (fun id p => ⟨id, p.parent, p.auth⟩) t.permissions.indices

variable (ctx : PermissionContext)

def checkKeyTypes (auth : Authority) (message : String) : Result Unit :=
  ineAssert (∀ k ∈ auth.keys, ctx.which k.key < ctx.numSupportedKeyTypes)
    .unactivatedKeyType message

/-- `create_permission`: the id of the permission and the tables. -/
def createPermission (account name : Name) (parent : ℕ)
    (auth : Authority) (initialCreationTime : ℤ := 0) : Result (ℕ × PermissionTables) := do
  checkKeyTypes ctx auth "Unactivated key type used when creating permission"
  let creationTime := if initialCreationTime = 0 then ctx.pendingBlockTime else initialCreationTime
  let usages ← stored (t.usages.emplace .onIds creationTime)
  let permissions ← stored (t.permissions.emplace (.on level)
    { usageId := t.usages.nextId, parent, owner := account, name,
      lastUpdated := creationTime, auth })
  pure (t.permissions.nextId, ⟨permissions, usages⟩)

def modifyPermission (id : ℕ) (auth : Authority) : Result PermissionTables := do
  checkKeyTypes ctx auth "Unactivated key type used when modifying permission"
  let permissions ← stored (t.permissions.modify (.on level) id fun p =>
    { p with auth, lastUpdated := ctx.pendingBlockTime })
  pure { t with permissions }

def permission (id : ℕ) : Result PermissionRow :=
  match t.permissions.indices.lookup id with
  | some p => pure p
  | none => .error ⟨.undefinedBehaviour, "dangling reference"⟩

def removePermission (id : ℕ) : Result PermissionTables := do
  let p ← t.permission id
  ineAssert (∀ q ∈ values t.permissions.indices, q.parent ≠ id) .actionValidateException
    "Cannot remove a permission which has children. Remove the children first."
  let usages ← stored (t.usages.remove p.usageId)
  let permissions ← stored (t.permissions.remove id)
  pure ⟨permissions, usages⟩

end PermissionTables

/-! ## The forest -/

variable {t t' : PermissionTables} {p q : PermissionRow} {i j : ℕ}

def PermissionTables.IsParent (t : PermissionTables) (i j : ℕ) : Prop :=
  i ≠ 0 ∧ ∃ p, t.permissions.indices.lookup j = some p ∧ p.parent = i

/-- The owner permissions of the accounts are the roots; every other permission
is below one of its own account, which was there before it. -/
structure PermissionForest (t : PermissionTables) : Prop where
  apart : KeysApart level t.permissions.indices
  fresh : t.permissions.Fresh
  reserved : t.permissions.indices.lookup 0 = some {}
  named : ∀ ⦃i p⦄, t.permissions.indices.lookup i = some p → i ≠ 0 → p.owner ≠ 0 ∧ p.name ≠ 0
  root : ∀ ⦃i p⦄, t.permissions.indices.lookup i = some p → p.name = ownerName → p.parent = 0
  parent : ∀ ⦃i p⦄, t.permissions.indices.lookup i = some p → i ≠ 0 → p.name ≠ ownerName →
    p.parent ≠ 0 ∧ p.parent < i ∧
      ∃ q, t.permissions.indices.lookup p.parent = some q ∧ q.owner = p.owner

namespace PermissionForest

variable (h : PermissionForest t)
include h

theorem lookup_byOwner {level : PermissionLevel} {o : PermissionObject} :
    t.byOwner.lookup level = some o ↔
      ∃ p, t.permissions.indices.lookup o.id = some p ∧ p.level = level ∧
        o = ⟨o.id, p.parent, p.auth⟩ := by
  unfold PermissionTables.byOwner
  rw [lookup_byKey h.apart]
  constructor
  · rintro ⟨i, p, hlook, hlevel, rfl⟩
    exact ⟨p, hlook, hlevel, rfl⟩
  · rintro ⟨p, hlook, hlevel, ho⟩
    exact ⟨o.id, p, hlook, hlevel, ho.symm⟩

theorem lookup_level (hp : t.permissions.indices.lookup i = some p) :
    t.byOwner.lookup p.level = some ⟨i, p.parent, p.auth⟩ :=
  h.lookup_byOwner.mpr ⟨p, hp, rfl, rfl⟩

theorem parentOf_byOwner (hp : t.permissions.indices.lookup i = some p) :
    t.byOwner.parentOf i = some p.parent := by
  unfold parentOf
  generalize hparents : ascending _ = parents
  have hmem : ∀ n, n ∈ parents ↔ n = p.parent := by
    intro n
    rw [← hparents, ← Multiset.mem_coe, coe_ascending, Multiset.mem_join]
    constructor
    · rintro ⟨s, hs, hn⟩
      obtain ⟨level, o, ho, rfl⟩ := mem_collect.mp hs
      obtain ⟨q, hq, -, heq⟩ := h.lookup_byOwner.mp ho
      split at hn
      · next hid =>
        rw [hid, hp] at hq
        cases hq
        rw [heq] at hn
        exact Multiset.mem_singleton.mp hn
      · exact absurd hn (Multiset.notMem_zero n)
    · rintro rfl
      refine ⟨_, mem_collect.mpr ⟨p.level, _, h.lookup_level hp, rfl⟩, ?_⟩
      rw [if_pos rfl]
      exact Multiset.mem_singleton_self _
  cases parents with
  | nil => exact absurd ((hmem _).mpr rfl) List.not_mem_nil
  | cons n rest => rw [(hmem n).mp List.mem_cons_self, List.head?_cons]

theorem lt_of_isParent (hparent : t.IsParent i j) : i < j := by
  obtain ⟨hi, p, hp, rfl⟩ := hparent
  have hj : j ≠ 0 := by
    rintro rfl
    rw [h.reserved] at hp
    cases hp
    exact hi rfl
  by_cases hname : p.name = ownerName
  · exact absurd (h.root hp hname) hi
  · exact (h.parent hp hj hname).2.1

omit h

def idsUpTo (t : PermissionTables) (j : ℕ) : Finset ℕ := t.permissions.indices.keys.filter (· ≤ j)

include h

/-- **The walk ends and finds the ancestors.** -/
theorem walkParents_spec (hi : i ≠ 0) {fuel : ℕ} (hj : t.permissions.indices.lookup j = some q)
    (hfuel : (idsUpTo t j).card ≤ fuel) :
    ∃ b, t.byOwner.walkParents i fuel j = .ok b ∧
      (b = true ↔ Relation.TransGen t.IsParent i j) := by
  -- every round goes to a smaller id in use
  induction fuel generalizing j q with
  | zero =>
    have hmem : j ∈ idsUpTo t j := mem_filter.mpr ⟨mem_keys.mpr (mem_of_lookup hj), Nat.le_refl j⟩
    rw [Nat.le_zero, card_eq_zero] at hfuel
    rw [hfuel] at hmem
    exact absurd hmem (notMem_empty j)
  | succ fuel ih =>
    simp only [walkParents, h.parentOf_byOwner hj]
    split
    · next heq => exact ⟨true, rfl, fun _ => .single ⟨hi, q, hj, heq.symm⟩, fun _ => rfl⟩
    · next hne =>
      split
      · next hzero =>
        refine ⟨false, rfl, fun hfalse => (Bool.false_ne_true hfalse).elim, fun habove => ?_⟩
        obtain ⟨k, -, hk, q', hq', rfl⟩ := tail'_iff.mp habove
        rw [hj] at hq'
        cases hq'
        exact absurd hzero hk
      · next hnonzero =>
        have hparent : t.IsParent q.parent j := ⟨hnonzero, q, hj, rfl⟩
        have hlt := h.lt_of_isParent hparent
        have hname : q.name ≠ ownerName := fun hname => hnonzero (h.root hj hname)
        obtain ⟨-, -, r, hr, -⟩ := h.parent hj (by omega) hname
        have hsub : idsUpTo t q.parent ⊂ idsUpTo t j := by
          rw [ssubset_iff_of_subset]
          · refine ⟨j, mem_filter.mpr
              ⟨mem_keys.mpr (mem_of_lookup hj), Nat.le_refl j⟩, ?_⟩
            intro hmem
            have := (mem_filter.mp hmem).2
            omega
          · intro k hk
            obtain ⟨hk, hle⟩ := mem_filter.mp hk
            exact mem_filter.mpr ⟨hk, by omega⟩
        have hcard := card_lt_card hsub
        obtain ⟨b, hwalk, hb⟩ := ih hr (by omega)
        refine ⟨b, hwalk, hb.trans ⟨fun habove => habove.tail hparent, fun habove => ?_⟩⟩
        obtain ⟨k, hik, hk, q', hq', rfl⟩ := tail'_iff.mp habove
        rw [hj] at hq'
        cases hq'
        exact (Relation.reflTransGen_iff_eq_or_transGen.mp hik).resolve_left
          fun heq => hne heq.symm

theorem card_idsUpTo_le (j : ℕ) : (idsUpTo t j).card ≤ t.byOwner.keys.card + 1 := by
  have hsub : (t.permissions.indices.keys.image fun i =>
      ((t.permissions.indices.lookup i).getD {}).level) ⊆ t.byOwner.keys := by
    intro level hlevel
    obtain ⟨i, hi, rfl⟩ := mem_image.mp hlevel
    obtain ⟨p, hp⟩ := mem_iff.mp (mem_keys.mp hi)
    rw [hp]
    exact mem_keys.mpr (mem_of_lookup (h.lookup_level hp))
  have hinj : Set.InjOn (fun i => ((t.permissions.indices.lookup i).getD {}).level)
      t.permissions.indices.keys := by
    intro i hi k hk heq
    obtain ⟨p, hp⟩ := mem_iff.mp (mem_keys.mp hi)
    obtain ⟨q, hq⟩ := mem_iff.mp (mem_keys.mp hk)
    simp only [hp, hq, Option.getD_some] at heq
    exact h.apart hp hq heq
  calc (idsUpTo t j).card ≤ t.permissions.indices.keys.card := card_le_card (filter_subset _ _)
    _ = _ := (card_image_of_injOn hinj).symm
    _ ≤ t.byOwner.keys.card := card_le_card hsub
    _ ≤ t.byOwner.keys.card + 1 := Nat.le_succ _

theorem getPermission_byOwner (hi : i ≠ 0) (hp : t.permissions.indices.lookup i = some p) :
    t.byOwner.getPermission p.level = .ok ⟨i, p.parent, p.auth⟩ := by
  obtain ⟨howner, hname⟩ := h.named hp hi
  have hfilled : (p.level.actor.empty || p.level.permission.empty) = false := by
    simp [level, Name.empty, howner, hname]
  unfold getPermission
  rw [hfilled, h.lookup_level hp]
  rfl

/-- **`satisfies` answers for ancestors.** -/
theorem satisfies_spec (hi : i ≠ 0) (hj : j ≠ 0) (hp : t.permissions.indices.lookup i = some p)
    (hq : t.permissions.indices.lookup j = some q) :
    ∃ b, t.byOwner.satisfies p.level q.level = .ok b ∧
      (b = true ↔ p.owner = q.owner ∧ Relation.ReflTransGen t.IsParent i j) := by
  unfold satisfies
  rw [h.getPermission_byOwner hi hp, h.getPermission_byOwner hj hq, ok_bind, ok_bind]
  dsimp only
  split
  · next howner => exact ⟨false, rfl, by simp, fun hsame => absurd hsame.1 howner⟩
  · next howner =>
    have howner : p.owner = q.owner := not_not.mp howner
    split
    · next heq =>
      refine ⟨true, rfl, fun _ => ⟨howner, ?_⟩, fun _ => rfl⟩
      rcases heq with rfl | heq
      · exact .refl
      · exact .single ⟨hi, q, hq, heq.symm⟩
    · next hne =>
      obtain ⟨hself, hparent⟩ := not_or.mp hne
      -- the walk starts at the parent, which is the reserved permission below a root
      have hfound : ∃ r, t.permissions.indices.lookup q.parent = some r := by
        by_cases hname : q.name = ownerName
        · exact ⟨{}, (h.root hq hname).symm ▸ h.reserved⟩
        · obtain ⟨-, -, r, hr, -⟩ := h.parent hq hj hname
          exact ⟨r, hr⟩
      obtain ⟨r, hr⟩ := hfound
      obtain ⟨b, hwalk, hb⟩ := h.walkParents_spec hi hr (h.card_idsUpTo_le q.parent)
      refine ⟨b, hwalk, hb.trans ⟨fun habove => ⟨howner, ?_⟩, fun ⟨_, habove⟩ => ?_⟩⟩
      · have hnonzero : q.parent ≠ 0 := by
          intro hzero
          obtain ⟨k, -, hk⟩ := tail'_iff.mp habove
          have := h.lt_of_isParent hk
          omega
        exact habove.to_reflTransGen.tail ⟨hnonzero, q, hq, rfl⟩
      · rcases Relation.ReflTransGen.cases_tail habove with heq | ⟨k, hik, hk, q', hq', rfl⟩
        · exact absurd heq.symm hself
        · rw [hq] at hq'
          cases hq'
          exact (Relation.reflTransGen_iff_eq_or_transGen.mp hik).resolve_left
            fun heq => hparent heq.symm

end PermissionForest

/-! ## Creating, modifying and removing permissions -/

structure PermissionCreated (t : PermissionTables) (p : PermissionRow) (t' : PermissionTables) :
    Prop where
  usage : p.usageId = t.usages.nextId
  newId : t.permissions.nextId ∉ t.permissions.indices
  newName : ∀ j q, t.permissions.indices.lookup j = some q → q.level ≠ p.level
  permissions : t'.permissions.indices = t.permissions.indices.insert t.permissions.nextId p
  nextId : t'.permissions.nextId = t.permissions.nextId + 1
  usages : ∃ time, t'.usages.indices = t.usages.indices.insert t.usages.nextId time
  nextUsageId : t'.usages.nextId = t.usages.nextId + 1

theorem PermissionTables.createPermission_eq_ok {ctx : PermissionContext} {account name : Name}
    {parent id : ℕ} {auth : Authority} {time : ℤ}
    (h : t.createPermission ctx account name parent auth time = .ok (id, t')) :
    id = t.permissions.nextId ∧ ∃ p, PermissionCreated t p t' ∧ p.owner = account ∧
      p.name = name ∧ p.parent = parent ∧ p.auth = auth := by
  simp only [createPermission, bind_eq_ok, stored_eq_ok, pure_eq_ok, Prod.mk.injEq,
    emplace_eq_ok, conflicts_on] at h
  obtain ⟨_, -, usages, ⟨-, rfl⟩, permissions, ⟨⟨hnewId, hnewName⟩, rfl⟩, rfl, rfl⟩ := h
  refine ⟨rfl, _, ⟨rfl, hnewId, ?_, rfl, rfl, ⟨_, rfl⟩, rfl⟩, rfl, rfl, rfl, rfl⟩
  intro j q hq hlevel
  refine hnewName ⟨j, q, ?_, hq, hlevel.symm⟩
  rintro rfl
  exact hnewId (mem_of_lookup hq)

structure PermissionModified (t : PermissionTables) (i : ℕ) (t' : PermissionTables) : Prop where
  row : ∃ p p', t.permissions.indices.lookup i = some p ∧ p'.level = p.level ∧
    p'.parent = p.parent ∧ p'.usageId = p.usageId ∧
    t'.permissions.indices = t.permissions.indices.insert i p'
  nextId : t'.permissions.nextId = t.permissions.nextId
  usages : t'.usages = t.usages

theorem PermissionTables.modifyPermission_eq_ok {ctx : PermissionContext} {auth : Authority}
    (h : t.modifyPermission ctx i auth = .ok t') : PermissionModified t i t' := by
  simp only [modifyPermission, bind_eq_ok, stored_eq_ok, pure_eq_ok, modify_eq_ok] at h
  obtain ⟨_, -, permissions, ⟨p, hp, -, rfl⟩, rfl⟩ := h
  exact ⟨⟨p, { p with auth, lastUpdated := ctx.pendingBlockTime }, hp, rfl, rfl, rfl, rfl⟩,
    rfl, rfl⟩

structure PermissionRemoved (t : PermissionTables) (i : ℕ) (t' : PermissionTables) : Prop where
  childless : ∀ j q, t.permissions.indices.lookup j = some q → q.parent ≠ i
  permissions : t'.permissions.indices = t.permissions.indices.erase i
  nextId : t'.permissions.nextId = t.permissions.nextId
  usages : ∃ p, t.permissions.indices.lookup i = some p ∧
    t'.usages.indices = t.usages.indices.erase p.usageId
  nextUsageId : t'.usages.nextId = t.usages.nextId

theorem PermissionTables.removePermission_eq_ok (h : t.removePermission i = .ok t') :
    PermissionRemoved t i t' := by
  simp only [removePermission, bind_eq_ok, stored_eq_ok, pure_eq_ok, ineAssert_eq_ok,
    remove_eq_ok] at h
  obtain ⟨p, hp, _, hchildless, usages, ⟨_, -, rfl⟩, permissions, ⟨_, -, rfl⟩, rfl⟩ := h
  have hlook : t.permissions.indices.lookup i = some p := by
    unfold permission at hp
    split at hp
    · next heq =>
      cases hp
      exact heq
    · cases hp
  exact ⟨fun j q hq => hchildless q (mem_values.mpr ⟨j, hq⟩), rfl, rfl, ⟨p, hlook, rfl⟩, rfl⟩

theorem PermissionCreated.lookup_eq_some (hc : PermissionCreated t p t') {j : ℕ}
    {q : PermissionRow} :
    t'.permissions.indices.lookup j = some q ↔ j = t.permissions.nextId ∧ p = q ∨
      j ≠ t.permissions.nextId ∧ t.permissions.indices.lookup j = some q := by
  rw [hc.permissions]
  exact lookup_insert_eq_some

theorem PermissionRemoved.lookup_eq_some (hr : PermissionRemoved t i t') {j : ℕ}
    {q : PermissionRow} : t'.permissions.indices.lookup j = some q ↔
      j ≠ i ∧ t.permissions.indices.lookup j = some q := by
  rw [hr.permissions]
  exact lookup_erase_eq_some

namespace PermissionForest

variable (h : PermissionForest t)
include h

theorem lookup_created (hc : PermissionCreated t p t') {j : ℕ} {q : PermissionRow}
    (hq : t.permissions.indices.lookup j = some q) : t'.permissions.indices.lookup j = some q :=
  hc.lookup_eq_some.mpr (.inr ⟨Nat.ne_of_lt (h.fresh hq), hq⟩)

/-- A permission is created with a name, as the owner permission without parent
or below a permission of its account. -/
theorem create (hc : PermissionCreated t p t') (hnamed : p.owner ≠ 0 ∧ p.name ≠ 0)
    (hroot : p.name = ownerName → p.parent = 0)
    (hparent : p.name ≠ ownerName → p.parent ≠ 0 ∧
      ∃ q, t.permissions.indices.lookup p.parent = some q ∧ q.owner = p.owner) :
    PermissionForest t' := by
  constructor
  · rw [hc.permissions]
    exact h.apart.insert fun j q _ hq => hc.newName j q hq
  · intro j q hq
    rw [hc.nextId]
    rcases hc.lookup_eq_some.mp hq with ⟨rfl, -⟩ | ⟨-, hq⟩
    · exact Nat.lt_succ_self _
    · exact Nat.lt_succ_of_lt (h.fresh hq)
  · exact h.lookup_created hc h.reserved
  · intro j q hq hj
    rcases hc.lookup_eq_some.mp hq with ⟨-, rfl⟩ | ⟨-, hq⟩
    · exact hnamed
    · exact h.named hq hj
  · intro j q hq hname
    rcases hc.lookup_eq_some.mp hq with ⟨-, rfl⟩ | ⟨-, hq⟩
    · exact hroot hname
    · exact h.root hq hname
  · intro j q hq hj hname
    rcases hc.lookup_eq_some.mp hq with ⟨rfl, rfl⟩ | ⟨-, hq⟩
    · obtain ⟨hne, r, hr, howner⟩ := hparent hname
      exact ⟨hne, h.fresh hr, r, h.lookup_created hc hr, howner⟩
    · obtain ⟨hne, hlt, r, hr, howner⟩ := h.parent hq hj hname
      exact ⟨hne, hlt, r, h.lookup_created hc hr, howner⟩

theorem of_sameLinks
    (hrows : ∀ {j q'}, t'.permissions.indices.lookup j = some q' →
      ∃ q, t.permissions.indices.lookup j = some q ∧ q'.level = q.level ∧ q'.parent = q.parent)
    (hkept : ∀ {j q}, t.permissions.indices.lookup j = some q →
      (∃ k p, k ≠ 0 ∧ t'.permissions.indices.lookup k = some p ∧ p.parent = j) →
        ∃ q', t'.permissions.indices.lookup j = some q')
    (hnext : t'.permissions.nextId = t.permissions.nextId)
    (hreserved : t'.permissions.indices.lookup 0 = some {}) : PermissionForest t' := by
  have hlevel : ∀ {a b : PermissionRow}, a.level = b.level → a.owner = b.owner ∧ a.name = b.name :=
    fun heq => ⟨congrArg PermissionLevel.actor heq, congrArg PermissionLevel.permission heq⟩
  constructor
  · intro a x b y hx hy hkey
    obtain ⟨x', hx', hlx, -⟩ := hrows hx
    obtain ⟨y', hy', hly, -⟩ := hrows hy
    exact h.apart hx' hy' (hlx.symm.trans (hkey.trans hly))
  · intro j q hq
    obtain ⟨q', hq', -⟩ := hrows hq
    rw [hnext]
    exact h.fresh hq'
  · exact hreserved
  · intro j q hq hj
    obtain ⟨q', hq', hlq, -⟩ := hrows hq
    obtain ⟨howner, hname⟩ := hlevel hlq
    rw [howner, hname]
    exact h.named hq' hj
  · intro j q hq hname
    obtain ⟨q', hq', hlq, hparent⟩ := hrows hq
    rw [hparent]
    exact h.root hq' ((hlevel hlq).2 ▸ hname)
  · intro j q hq hj hname
    obtain ⟨q', hq', hlq, hparent⟩ := hrows hq
    obtain ⟨hne, hlt, r, hr, howner⟩ := h.parent hq' hj ((hlevel hlq).2 ▸ hname)
    obtain ⟨r', hr'⟩ := hkept hr ⟨j, q, hj, hq, hparent⟩
    obtain ⟨r'', hr'', hlr, -⟩ := hrows hr'
    rw [hr] at hr''
    cases hr''
    rw [hparent]
    exact ⟨hne, hlt, r', hr', (hlevel hlr).1.trans (howner.trans (hlevel hlq).1.symm)⟩

theorem remove (hi : i ≠ 0) (hr : PermissionRemoved t i t') : PermissionForest t' := by
  refine h.of_sameLinks ?_ ?_ hr.nextId ?_
  · intro j q' hq'
    exact ⟨q', (hr.lookup_eq_some.mp hq').2, rfl, rfl⟩
  · rintro j q hq ⟨k, p, -, hp, rfl⟩
    exact ⟨q, hr.lookup_eq_some.mpr ⟨hr.childless k p (hr.lookup_eq_some.mp hp).2, hq⟩⟩
  · exact hr.lookup_eq_some.mpr ⟨hi.symm, h.reserved⟩

end PermissionForest

end Inery.Chain
