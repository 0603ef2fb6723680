import Inery.Chain.Accounts

/-!
# The permissions of every account form a tree

What the native actions do to the permission tables is a few creations, one
modification or one removal, each where the forest allows it.  So the forest, the
owner and active permissions of the accounts, and the parent of every permission
are kept along every run, and a snapshot keeps them too.
-/

namespace Inery.Chain

open Foundation Chainbase Finmap GenericIndex PermissionTables Table Config PermissionLevel Option
open AccountObject Snapshottable

variable {t t' t'' : PermissionTables} {p q : PermissionRow} {i j : ℕ} {account : Name}

/-! ## What one change of the tables keeps -/

/-- The owner and the active permission of an account. -/
def HasRoots (t : PermissionTables) (account : Name) : Prop :=
  ∃ i p j q, t.permissions.indices.lookup i = some p ∧ p.level = ⟨account, ownerName⟩ ∧
    p.parent = 0 ∧ t.permissions.indices.lookup j = some q ∧
    q.level = ⟨account, activeName⟩ ∧ q.parent = i

/-- The permissions of `t` that are still there in `t'`, each under the id that
`f` gives it, have kept their names and parents. -/
def SameParents (f : ℕ → ℕ) (t t' : PermissionTables) : Prop :=
  ∀ ⦃i p p'⦄, t.permissions.indices.lookup i = some p →
    t'.permissions.indices.lookup (f i) = some p' → p'.level = p.level ∧ p'.parent = f p.parent

/-- Nothing is lost or changed. -/
def Grows (t t' : PermissionTables) : Prop :=
  ∀ ⦃i p⦄, t.permissions.indices.lookup i = some p → t'.permissions.indices.lookup i = some p

theorem Grows.trans (h : Grows t t') (h' : Grows t' t'') : Grows t t'' :=
  fun _ _ hp => h' (h hp)

/-- Every permission is still there, with its name, its parent and its usage object. -/
def Keeps (t t' : PermissionTables) : Prop :=
  ∀ ⦃i p⦄, t.permissions.indices.lookup i = some p →
    ∃ p', t'.permissions.indices.lookup i = some p' ∧ p'.level = p.level ∧ p'.parent = p.parent ∧
      p'.usageId = p.usageId

theorem Grows.keeps (h : Grows t t') : Keeps t t' := fun _ p hp => ⟨p, h hp, rfl, rfl, rfl⟩

namespace Keeps

variable (h : Keeps t t')
include h

theorem sameParents : SameParents id t t' := by
  intro i p p' hp hp'
  obtain ⟨q, hq, hlevel, hparent, -⟩ := h hp
  rw [id_eq, hq] at hp'
  cases hp'
  exact ⟨hlevel, hparent⟩

theorem hasRoots (hroots : HasRoots t account) : HasRoots t' account := by
  obtain ⟨i, p, j, q, hp, hpl, hpp, hq, hql, hqp⟩ := hroots
  obtain ⟨p', hp', hpl', hpp', -⟩ := h hp
  obtain ⟨q', hq', hql', hqp', -⟩ := h hq
  exact ⟨i, p', j, q', hp', hpl'.trans hpl, hpp'.trans hpp, hq', hql'.trans hql, hqp'.trans hqp⟩

theorem first (hfirst : FirstPermission t) : FirstPermission t' := by
  obtain ⟨p, hp, hname, huse⟩ := hfirst
  obtain ⟨p', hp', hlevel, -, huse'⟩ := h hp
  exact ⟨p', hp', (congrArg PermissionLevel.permission hlevel).trans hname, huse'.trans huse⟩

end Keeps

theorem PermissionCreated.grows (hf : PermissionForest t) (hc : PermissionCreated t p t') :
    Grows t t' := fun _ _ hq => hf.lookup_created hc hq

namespace PermissionRemoved

variable (hr : PermissionRemoved t i t')
include hr

theorem sameParents : SameParents id t t' := by
  intro j q q' hq hq'
  rw [id_eq, hr.lookup_eq_some, hq] at hq'
  cases hq'.2
  exact ⟨rfl, rfl⟩

theorem kept (hp : t.permissions.indices.lookup i = some p)
    (hq : t.permissions.indices.lookup j = some q) (hne : q.level ≠ p.level) :
    t'.permissions.indices.lookup j = some q := by
  refine hr.lookup_eq_some.mpr ⟨?_, hq⟩
  rintro rfl
  rw [hp] at hq
  cases hq
  exact hne rfl

theorem hasRoots (hp : t.permissions.indices.lookup i = some p) (howner : p.name ≠ ownerName)
    (hactive : p.name ≠ activeName) (hroots : HasRoots t account) : HasRoots t' account := by
  obtain ⟨i, r, j, q, hr', hrl, hrp, hq, hql, hqp⟩ := hroots
  refine ⟨i, r, j, q, hr.kept hp hr' fun heq => howner ?_, hrl, hrp,
    hr.kept hp hq fun heq => hactive ?_, hql, hqp⟩
  · exact congrArg PermissionLevel.permission (heq.symm.trans hrl)
  · exact congrArg PermissionLevel.permission (heq.symm.trans hql)

end PermissionRemoved

/-! ## The invariant -/

/-- The permissions are a forest with the owner and active permissions of every
account, and can be written to a snapshot. -/
structure Rooted (db : AccountDatabase) : Prop extends Snapshottable db.authorization where
  accountsApart : KeysApart name db.accounts.indices
  accounts : ∀ ⦃k a⦄, db.accounts.indices.lookup k = some a → HasRoots db.authorization a.name

variable {db db' : AccountDatabase} {ctx : ApplyContext}

theorem Snapshottable.create (h : Snapshottable t) (hc : PermissionCreated t p t')
    (hf : PermissionForest t') : Snapshottable t' :=
  { hf with
    usages := h.usages.create h.toPermissionForest hc
    first := (hc.grows h.toPermissionForest).keeps.first h.first }

theorem Snapshottable.remove (h : Snapshottable t) (hi : i ≠ 0) (hr : PermissionRemoved t i t')
    (hp : t.permissions.indices.lookup i = some p) (howner : p.name ≠ ownerName) :
    Snapshottable t' := by
  refine { h.toPermissionForest.remove hi hr with usages := h.usages.remove hi hr, first := ?_ }
  obtain ⟨q, hq, hname, husage⟩ := h.first
  exact ⟨q, hr.kept hp hq fun heq => howner
    ((congrArg PermissionLevel.permission heq).symm.trans hname), hname, husage⟩

theorem ownerName_ne_zero : ownerName ≠ 0 := by decide

theorem activeName_ne_zero : activeName ≠ 0 := by decide

theorem activeName_ne_ownerName : activeName ≠ ownerName := by decide

theorem PermissionForest.ne_zero (h : PermissionForest t)
    (hp : t.permissions.indices.lookup i = some p) (howner : p.owner ≠ 0) : i ≠ 0 := by
  rintro rfl
  rw [h.reserved] at hp
  cases hp
  exact howner rfl

/-- `create_permission`, where the forest allows the new permission. -/
theorem PermissionForest.createPermission {pctx : PermissionContext} {name : Name}
    {parent newId : ℕ} {auth : Authority} {time : ℤ} (h : PermissionForest t)
    (haccount : account ≠ 0)
    (hname : name ≠ 0) (hroot : name = ownerName → parent = 0)
    (hparent : name ≠ ownerName →
      parent ≠ 0 ∧ ∃ q, t.permissions.indices.lookup parent = some q ∧ q.owner = account)
    (hrun : t.createPermission pctx account name parent auth time = .ok (newId, t')) :
    PermissionForest t' ∧ newId = t.permissions.nextId ∧ newId ≠ 0 ∧ ∃ p, PermissionCreated t p t' ∧
      t'.permissions.indices.lookup newId = some p ∧ p.level = ⟨account, name⟩ ∧
        p.parent = parent := by
  obtain ⟨hid, p, hc, rfl, rfl, rfl, -⟩ := createPermission_eq_ok hrun
  have hforest : PermissionForest t' := h.create hc ⟨haccount, hname⟩ hroot hparent
  have hlook : t'.permissions.indices.lookup newId = some p :=
    hc.lookup_eq_some.mpr (.inl ⟨hid, rfl⟩)
  exact ⟨hforest, hid, hforest.ne_zero hlook haccount, p, hc, hlook, rfl, rfl⟩

structure RootsCreated (t : PermissionTables) (account : Name) (t' : PermissionTables) : Prop where
  forest : PermissionForest t'
  usages : UsagesMatch t'
  grows : Grows t t'
  roots : HasRoots t' account
  first : t.permissions.nextId = 1 → t.usages.nextId = 0 → FirstPermission t'

/-- What `create_permission` asks for the owner and the active permission holds. -/
theorem rootsCreated {owner active : Authority} {time : ℤ} {ownerId activeId : ℕ}
    {pctx : PermissionContext} (hf : PermissionForest t) (hu : UsagesMatch t)
    (haccount : account ≠ 0)
    (howner : t.createPermission pctx account ownerName 0 owner time = .ok (ownerId, t'))
    (hactive : t'.createPermission pctx account activeName ownerId active time =
      .ok (activeId, t'')) : RootsCreated t account t'' := by
  obtain ⟨hf', hid, hnonzero, p, hp, hlookp, hpl, hpparent⟩ := hf.createPermission haccount
    ownerName_ne_zero (fun _ => rfl) (fun hne => absurd rfl hne) howner
  obtain ⟨hf'', -, -, q, hq, hlookq, hql, hqparent⟩ := hf'.createPermission haccount
    activeName_ne_zero (fun heq => absurd heq activeName_ne_ownerName)
    (fun _ => ⟨hnonzero, p, hlookp, congrArg actor hpl⟩) hactive
  have hgrows := hq.grows hf'
  refine ⟨hf'', (hu.create hf hp).create hf' hq, (hp.grows hf).trans hgrows,
    ⟨ownerId, p, activeId, q, hgrows hlookp, hpl, hpparent, hlookq, hql, hqparent⟩, ?_⟩
  intro hnext hnextUsage
  refine ⟨p, hgrows ?_, congrArg PermissionLevel.permission hpl, hp.usage.trans hnextUsage⟩
  rw [← hnext, ← hid]
  exact hlookp

/-! ## The actions -/

/-- A permission found by its name has that name, and is not the reserved one. -/
theorem PermissionForest.getPermission_eq_ok (h : PermissionForest t) {level : PermissionLevel}
    {o : PermissionObject} (hget : t.byOwner.getPermission level = .ok o) :
    level.actor ≠ 0 ∧ level.permission ≠ 0 ∧ o.id ≠ 0 ∧
      ∃ p, t.permissions.indices.lookup o.id = some p ∧ p.level = level ∧ p.parent = o.parent := by
  unfold PermissionIndex.getPermission at hget
  split at hget
  · cases hget
  · next hempty =>
    simp only [Name.empty, Bool.or_eq_true, beq_iff_eq, not_or] at hempty
    split at hget
    · next found hfound =>
      cases hget
      obtain ⟨p, hp, hlevel, heq⟩ := h.lookup_byOwner.mp hfound
      subst hlevel
      exact ⟨hempty.1, hempty.2, h.ne_zero hp hempty.1, p, hp, rfl,
        (congrArg PermissionObject.parent heq).symm⟩
    · cases hget

theorem PermissionForest.findPermission_eq_ok (h : PermissionForest t) {level : PermissionLevel}
    {found : Option PermissionObject} (hfind : t.byOwner.findPermission level = .ok found) :
    level.actor ≠ 0 ∧ level.permission ≠ 0 ∧
      ∀ o, found = some o → o.id ≠ 0 ∧ ∃ p, t.permissions.indices.lookup o.id = some p := by
  unfold PermissionIndex.findPermission at hfind
  split at hfind
  · cases hfind
  · next hempty =>
    simp only [Name.empty, Bool.or_eq_true, beq_iff_eq, not_or] at hempty
    cases hfind
    refine ⟨hempty.1, hempty.2, fun o ho => ?_⟩
    obtain ⟨p, hp, rfl, -⟩ := h.lookup_byOwner.mp ho
    exact ⟨h.ne_zero hp hempty.1, p, hp⟩

namespace AccountDatabase

theorem addMemUsage_eq_ok {delta : ℤ} (h : db.addMemUsage account delta = .ok db') :
    ∃ resources, db' = { db with resources := resources } := by
  simp only [addMemUsage, bind_eq_ok, pure_eq_ok] at h
  obtain ⟨resources, -, rfl⟩ := h
  exact ⟨resources, rfl⟩

structure AccountCreated (db : AccountDatabase) (a : AccountObject) (db' : AccountDatabase) :
    Prop where
  accounts : db'.accounts.indices = db.accounts.indices.insert db.accounts.nextId a
  newName : ∀ k b, k ≠ db.accounts.nextId → db.accounts.indices.lookup k = some b → b.name ≠ a.name

variable {privileged : Bool}

theorem createAccount_eq_ok {a : AccountObject} (h : db.createAccount a privileged = .ok db') :
    db'.authorization = db.authorization ∧ db'.permissionLinks = db.permissionLinks ∧
      AccountCreated db a db' := by
  simp only [createAccount, bind_eq_ok, stored_eq_ok, pure_eq_ok, emplace_eq_ok, conflicts_on] at h
  obtain ⟨_, ⟨⟨-, hnew⟩, rfl⟩, _, -, rfl⟩ := h
  exact ⟨rfl, rfl, rfl, fun k b hk hb hname => hnew ⟨k, b, hk, hb, hname.symm⟩⟩

theorem Rooted.createAccount {a : AccountObject} (h : Rooted db) (hc : AccountCreated db a db')
    (hroots : RootsCreated db.authorization a.name db'.authorization) : Rooted db' := by
  refine ⟨⟨hroots.forest, hroots.usages, hroots.grows.keeps.first h.first⟩, ?_, ?_⟩
  · rw [hc.accounts]
    exact h.accountsApart.insert hc.newName
  · intro k b hb
    rw [hc.accounts] at hb
    rcases lookup_insert_eq_some.mp hb with ⟨-, rfl⟩ | ⟨-, hb⟩
    · exact hroots.roots
    · exact hroots.grows.keeps.hasRoots (h.accounts hb)

variable {owner active : Authority} {time : ℤ}

theorem createPermissions_eq_ok (hf : PermissionForest db.authorization)
    (hu : UsagesMatch db.authorization) (haccount : account ≠ 0)
    (h : db.createPermissions ctx account owner active time = .ok db') :
    db'.accounts = db.accounts ∧ db'.permissionLinks = db.permissionLinks ∧
      RootsCreated db.authorization account db'.authorization := by
  simp only [createPermissions, bind_eq_ok] at h
  obtain ⟨⟨ownerId, t⟩, howner, ⟨activeId, t'⟩, hactive, _, -, hmem⟩ := h
  obtain ⟨_, rfl⟩ := addMemUsage_eq_ok hmem
  exact ⟨rfl, rfl, rootsCreated hf hu haccount howner hactive⟩

theorem newaccount_ne_zero {create : NewAccount} {u : Unit}
    (h : db.checkNewaccount ctx create = .ok u) : create.name ≠ 0 := by
  simp only [checkNewaccount, bind_eq_ok, ineAssert_eq_ok] at h
  obtain ⟨-, -, -, -, -, -, -, hempty, -⟩ := h
  simpa [Name.empty] using hempty

theorem newaccount_keeps {create : NewAccount} (h : Rooted db)
    (hrun : db.newaccount ctx create = .ok db') :
    Rooted db' ∧ Keeps db.authorization db'.authorization ∧
      db'.permissionLinks = db.permissionLinks := by
  simp only [newaccount, bind_eq_ok] at hrun
  obtain ⟨_, hcheck, db₁, hcreate, _, -, _, -, hrun⟩ := hrun
  obtain ⟨hauth, hlinks, hc⟩ := createAccount_eq_ok hcreate
  obtain ⟨hsame, hlinks', hroots⟩ := createPermissions_eq_ok (hauth ▸ h.toPermissionForest)
    (hauth ▸ h.usages) (newaccount_ne_zero hcheck) hrun
  rw [hauth] at hroots
  exact ⟨Rooted.createAccount h ⟨hsame ▸ hc.accounts, hc.newName⟩ hroots, hroots.grows.keeps,
    hlinks'.trans hlinks⟩

theorem Rooted.createPermission (resources : ResourceLimitsManager) (h : Rooted db)
    (hc : PermissionCreated db.authorization p t) (hf : PermissionForest t) :
    Rooted { db with authorization := t, resources := resources } ∧ Keeps db.authorization t := by
  have hkeeps := (hc.grows h.toPermissionForest).keeps
  exact ⟨⟨h.toSnapshottable.create hc hf, h.accountsApart,
    fun k a ha => hkeeps.hasRoots (h.accounts ha)⟩, hkeeps⟩

/-- What anything else in a block leaves alone: it may change the abi of an
account, the authority of a permission and the times of use, and all that is not
an account or a permission. -/
structure OtherChange (db db' : AccountDatabase) : Prop where
  accounts : ∀ k, (db'.accounts.indices.lookup k).map name = (db.accounts.indices.lookup k).map name
  nextId : db'.authorization.permissions.nextId = db.authorization.permissions.nextId
  permissions : ∀ i, (db'.authorization.permissions.indices.lookup i).map
      (fun p => (p.level, p.parent, p.usageId)) =
    (db.authorization.permissions.indices.lookup i).map fun p => (p.level, p.parent, p.usageId)
  reserved : db'.authorization.permissions.indices.lookup 0 =
    db.authorization.permissions.indices.lookup 0
  usages : ∀ u, (db'.authorization.usages.indices.lookup u).isSome =
    (db.authorization.usages.indices.lookup u).isSome
  nextUsageId : db'.authorization.usages.nextId = db.authorization.usages.nextId

namespace OtherChange

variable (hc : OtherChange db db')
include hc

theorem symm : OtherChange db' db where
  accounts k := (hc.accounts k).symm
  nextId := hc.nextId.symm
  permissions i := (hc.permissions i).symm
  reserved := hc.reserved.symm
  usages u := (hc.usages u).symm
  nextUsageId := hc.nextUsageId.symm

theorem keeps : Keeps db.authorization db'.authorization := by
  intro i p hp
  have hmap := hc.permissions i
  rw [hp] at hmap
  obtain ⟨p', hp', heq⟩ := map_eq_some_iff.mp hmap
  simp only [Prod.mk.injEq] at heq
  exact ⟨p', hp', heq⟩

theorem rooted (h : Rooted db) : Rooted db' := by
  have hback := hc.symm.keeps
  have hforest : PermissionForest db'.authorization := by
    refine h.toPermissionForest.of_sameLinks ?_ ?_ hc.nextId (hc.reserved.trans h.reserved)
    · intro j q' hq'
      obtain ⟨q, hq, hlevel, hparent, -⟩ := hback hq'
      exact ⟨q, hq, hlevel.symm, hparent.symm⟩
    · intro j q hq _
      obtain ⟨q', hq', -⟩ := hc.keeps hq
      exact ⟨q', hq'⟩
  have hsome : ∀ {u}, (∃ time, db'.authorization.usages.indices.lookup u = some time) ↔
      ∃ time, db.authorization.usages.indices.lookup u = some time := by
    intro u
    rw [← isSome_iff_exists, ← isSome_iff_exists, hc.usages]
  have husages : UsagesMatch db'.authorization := by
    constructor
    · intro u time hu
      obtain ⟨time', hu'⟩ := hsome.mp ⟨time, hu⟩
      rw [hc.nextUsageId]
      exact h.usages.fresh hu'
    · intro j q' hq' hj
      obtain ⟨q, hq, -, -, huse⟩ := hback hq'
      rw [← huse]
      exact hsome.mpr (h.usages.found hq hj)
    · intro a x b y ha hx hy hab
      obtain ⟨x', hx', -, -, hxuse⟩ := hback hx
      obtain ⟨y', hy', -, -, hyuse⟩ := hback hy
      rw [← hxuse, ← hyuse]
      exact h.usages.ordered ha hx' hy' hab
    · intro u time hu
      obtain ⟨time', hu'⟩ := hsome.mp ⟨time, hu⟩
      obtain ⟨k, q, hk, hq, rfl⟩ := h.usages.owned hu'
      obtain ⟨q', hq', -, -, huse⟩ := hc.keeps hq
      exact ⟨k, q', hk, hq', huse⟩
  have hname : ∀ {k a'}, db'.accounts.indices.lookup k = some a' →
      ∃ a, db.accounts.indices.lookup k = some a ∧ a.name = a'.name := by
    intro k a' ha'
    have hmap := hc.accounts k
    rw [ha'] at hmap
    exact map_eq_some_iff.mp hmap.symm
  refine ⟨⟨hforest, husages, hc.keeps.first h.first⟩, ?_, ?_⟩
  · intro k a l b ha hb heq
    obtain ⟨a', ha', hna⟩ := hname ha
    obtain ⟨b', hb', hnb⟩ := hname hb
    exact h.accountsApart ha' hb' (hna.trans (heq.trans hnb.symm))
  · intro k a' ha'
    obtain ⟨a, ha, heq⟩ := hname ha'
    exact heq ▸ hc.keeps.hasRoots (h.accounts ha)

end OtherChange

theorem otherChange_of_modified (resources : ResourceLimitsManager) (hi : i ≠ 0)
    (hm : PermissionModified db.authorization i t) :
    OtherChange db { db with authorization := t, resources := resources } := by
  obtain ⟨p, p', hp, hlevel, hparent, husage, hrows⟩ := hm.row
  refine ⟨fun _ => rfl, hm.nextId, fun j => ?_, ?_, fun u => by rw [hm.usages], by rw [hm.usages]⟩
  · rw [hrows, lookup_insert_ite]
    split
    · next heq =>
      rw [heq, hp, map_some, map_some, hlevel, hparent, husage]
    · rfl
  · rw [hrows, lookup_insert_ite, if_neg hi.symm]

theorem parentId_eq_ok {update : UpdateAuth} {id : ℕ} (hf : PermissionForest db.authorization)
    (h : db.parentId update = .ok id) (hne : update.permission ≠ ownerName) :
    id ≠ 0 ∧ ∃ q, db.authorization.permissions.indices.lookup id = some q ∧
      q.owner = update.account := by
  rw [parentId, if_pos hne] at h
  simp only [bind_eq_ok, pure_eq_ok] at h
  obtain ⟨o, hget, rfl⟩ := h
  obtain ⟨-, -, hid, q, hq, hlevel, -⟩ := hf.getPermission_eq_ok hget
  exact ⟨hid, q, hq, congrArg actor hlevel⟩

theorem updateauth_keeps {update : UpdateAuth} (h : Rooted db)
    (hrun : db.updateauth ctx update = .ok db') :
    Rooted db' ∧ Keeps db.authorization db'.authorization ∧
      db'.permissionLinks = db.permissionLinks := by
  simp only [updateauth, bind_eq_ok] at hrun
  obtain ⟨_, -, found, hfind, parent, hparent, hrun⟩ := hrun
  obtain ⟨haccount, hpermission, hfound⟩ := h.findPermission_eq_ok hfind
  cases found with
  | some o =>
    simp only [bind_eq_ok] at hrun
    obtain ⟨_, -, t', hmodify, hmem⟩ := hrun
    obtain ⟨resources, rfl⟩ := addMemUsage_eq_ok hmem
    have hc := otherChange_of_modified resources (hfound o rfl).1 (modifyPermission_eq_ok hmodify)
    exact ⟨hc.rooted h, hc.keeps, rfl⟩
  | none =>
    simp only [bind_eq_ok] at hrun
    obtain ⟨⟨newId, t'⟩, hcreate, hmem⟩ := hrun
    obtain ⟨resources, rfl⟩ := addMemUsage_eq_ok hmem
    have hroot : update.permission = ownerName → parent = 0 := by
      intro hroot
      rw [parentId, if_neg fun hne => hne hroot] at hparent
      cases hparent
      rfl
    obtain ⟨hforest, -, -, p, hc, -⟩ := h.toPermissionForest.createPermission haccount hpermission
      hroot (parentId_eq_ok h.toPermissionForest hparent) hcreate
    obtain ⟨hr, hkeeps⟩ := Rooted.createPermission resources h hc hforest
    exact ⟨hr, hkeeps, rfl⟩

/-- A `deleteauth` takes one permission away, which no link names. -/
theorem deleteauth_keeps {remove : DeleteAuth} (h : Rooted db)
    (hrun : db.deleteauth ctx remove = .ok db') :
    Rooted db' ∧ SameParents id db.authorization db'.authorization ∧
      db'.permissionLinks = db.permissionLinks ∧
      (∀ k l, db.permissionLinks.indices.lookup k = some l →
        ¬ (l.account = remove.account ∧ l.requiredPermission = remove.permission)) ∧
      ∀ j q, db.authorization.permissions.indices.lookup j = some q →
        q.level ≠ ⟨remove.account, remove.permission⟩ →
        db'.authorization.permissions.indices.lookup j = some q := by
  simp only [deleteauth, bind_eq_ok, ineAssert_eq_ok] at hrun
  obtain ⟨_, -, _, hactive, _, howner, _, hguard, o, hget, t', hremove, hmem⟩ := hrun
  obtain ⟨_, rfl⟩ := addMemUsage_eq_ok hmem
  obtain ⟨-, -, hid, p, hp, hlevel, -⟩ := h.getPermission_eq_ok hget
  have hname : p.name = remove.permission := congrArg PermissionLevel.permission hlevel
  have hr := removePermission_eq_ok hremove
  refine ⟨⟨h.toSnapshottable.remove hid hr hp (hname ▸ howner), h.accountsApart, fun k a ha => ?_⟩,
    hr.sameParents, rfl, fun k l hl => hguard l (mem_values.mpr ⟨k, hl⟩),
    fun j q hq hne => hr.kept hp hq (hlevel ▸ hne)⟩
  exact hr.hasRoots hp (hname ▸ howner) (hname ▸ hactive) (h.accounts ha)

/-! ## Genesis -/

/-- The tables with the reserved permission only. -/
theorem initialTables {t : PermissionTables} (h : PermissionTables.initializeDatabase = .ok t) :
    PermissionForest t ∧ UsagesMatch t ∧ t.permissions.nextId = 1 ∧ t.usages.nextId = 0 := by
  simp only [PermissionTables.initializeDatabase, bind_eq_ok, stored_eq_ok, pure_eq_ok,
    emplace_eq_ok] at h
  obtain ⟨_, ⟨-, rfl⟩, rfl⟩ := h
  have hlook : ∀ {i p}, (insert 0 ({} : PermissionRow) (∅ : Table ℕ PermissionRow)).lookup i =
      some p → i = 0 ∧ p = {} := by
    intro i p hp
    rcases lookup_insert_eq_some.mp hp with ⟨rfl, rfl⟩ | ⟨-, hp⟩
    · exact ⟨rfl, rfl⟩
    · rw [lookup_empty] at hp
      cases hp
  have hnone : ∀ {i p}, (insert 0 ({} : PermissionRow) (∅ : Table ℕ PermissionRow)).lookup i =
      some p → ¬ i ≠ 0 := fun hp hne => hne (hlook hp).1
  refine ⟨⟨?_, ?_, ?_, ?_, ?_, ?_⟩, ⟨?_, ?_, ?_, ?_⟩, rfl, rfl⟩
  · intro i p j q hp hq _
    rw [(hlook hp).1, (hlook hq).1]
  · intro i p hp
    rw [(hlook hp).1]
    exact Nat.zero_lt_one
  · exact lookup_insert _
  · exact fun i p hp hi => absurd hi (hnone hp)
  · intro i p hp _
    rw [(hlook hp).2]
  · exact fun i p hp hi => absurd hi (hnone hp)
  · intro u time hu
    rw [lookup_empty] at hu
    cases hu
  · exact fun i p hp hi => absurd hi (hnone hp)
  · exact fun i p j q hi hp => absurd hi (hnone hp)
  · intro u time hu
    rw [lookup_empty] at hu
    cases hu

variable {abi : List UInt8}

/-- A native account before the first snapshot can be taken. -/
theorem createNativeAccount_eq_ok (hf : PermissionForest db.authorization)
    (hu : UsagesMatch db.authorization) (haccount : account ≠ 0)
    (h : db.createNativeAccount ctx time account owner active abi privileged = .ok db') :
    RootsCreated db.authorization account db'.authorization ∧
      db'.permissionLinks = db.permissionLinks ∧ ∃ a, a.name = account ∧
        AccountCreated db a db' := by
  simp only [createNativeAccount, bind_eq_ok, pure_eq_ok] at h
  obtain ⟨db₁, hcreate, db₂, hperms, _, -, rfl⟩ := h
  obtain ⟨hauth, hlinks, hc⟩ := createAccount_eq_ok hcreate
  obtain ⟨hsame, hlinks', hroots⟩ :=
    createPermissions_eq_ok (hauth ▸ hf) (hauth ▸ hu) haccount hperms
  rw [hauth] at hroots
  exact ⟨hroots, hlinks'.trans hlinks, { name := account, creationDate := time, abi }, rfl,
    hsame ▸ hc.accounts, hc.newName⟩

theorem createNativeAccount_keeps (hr : Rooted db) (haccount : account ≠ 0)
    (h : db.createNativeAccount ctx time account owner active abi privileged = .ok db') :
    Rooted db' ∧ db'.permissionLinks = db.permissionLinks := by
  obtain ⟨hroots, hlinks, a, rfl, hc⟩ :=
    createNativeAccount_eq_ok hr.toPermissionForest hr.usages haccount h
  exact ⟨Rooted.createAccount hr hc hroots, hlinks⟩

theorem rooted_createPermission {pctx : PermissionContext} {name : Name} {parent newId : ℕ}
    {auth : Authority} (hr : Rooted db) (haccount : account ≠ 0) (hname : name ≠ 0)
    (hne : name ≠ ownerName) (hparent : parent ≠ 0)
    (hq : db.authorization.permissions.indices.lookup parent = some q) (hqowner : q.owner = account)
    (h : db.authorization.createPermission pctx account name parent auth time = .ok (newId, t)) :
    Rooted { db with authorization := t } ∧
      newId ≠ 0 ∧ ∃ p, t.permissions.indices.lookup newId = some p ∧ p.owner = account := by
  obtain ⟨hforest, -, hid, p, hc, hlook, hlevel, -⟩ := hr.toPermissionForest.createPermission
    haccount hname (fun heq => absurd heq hne) (fun _ => ⟨hparent, q, hq, hqowner⟩) h
  exact ⟨(Rooted.createPermission db.resources hr hc hforest).1, hid, p, hlook,
    congrArg actor hlevel⟩

theorem rooted_initializeDatabase {initialKey : PublicKey}
    (h : initializeDatabase ctx initialKey time abi = .ok db) :
    Rooted db ∧ db.permissionLinks = {} := by
  simp only [initializeDatabase, bind_eq_ok, pure_eq_ok] at h
  obtain ⟨t, ht, db₁, hsystem, db₂, hnull, db₃, hproducers, active, hactive, ⟨majorId, t'⟩, hmajor,
    ⟨minorId, t''⟩, hminor, rfl⟩ := h
  obtain ⟨hf, hu, hnext, hnextUsage⟩ := initialTables ht
  obtain ⟨hroots, hlinks₁, a, hname, hc⟩ := createNativeAccount_eq_ok hf hu (by decide) hsystem
  have hnone : ∀ {k b}, (∅ : Table ℕ AccountObject).lookup k ≠ some b := by
    intro k b hb
    rw [lookup_empty] at hb
    cases hb
  have hr₁ : Rooted db₁ := by
    refine ⟨⟨hroots.forest, hroots.usages, hroots.first hnext hnextUsage⟩, ?_, ?_⟩
    · rw [hc.accounts]
      exact KeysApart.insert (fun _ _ _ _ hv => absurd hv hnone) hc.newName
    · intro k b hb
      rw [hc.accounts] at hb
      rcases lookup_insert_eq_some.mp hb with ⟨-, rfl⟩ | ⟨-, hb⟩
      · exact hname ▸ hroots.roots
      · exact absurd hb hnone
  obtain ⟨hr₂, hlinks₂⟩ := createNativeAccount_keeps hr₁ (by decide) hnull
  obtain ⟨hr₃, hlinks₃⟩ := createNativeAccount_keeps hr₂ (by decide) hproducers
  obtain ⟨-, -, hid, q, hq, hlevel, -⟩ := hr₃.getPermission_eq_ok hactive
  obtain ⟨hr₄, hmajorId, p, hp, hpowner⟩ := rooted_createPermission hr₃ (by decide) (by decide)
    (by decide) hid hq (congrArg actor hlevel) hmajor
  obtain ⟨hr₅, -⟩ := rooted_createPermission hr₄ (by decide) (by decide) (by decide) hmajorId hp
    hpowner hminor
  exact ⟨hr₅, hlinks₃.trans (hlinks₂.trans hlinks₁)⟩

/-! ## Snapshots -/

def addToSnapshot (db : AccountDatabase) :
    Result (List AccountObject × List SnapshotPermission) := do
  let permissions ← db.authorization.addToSnapshot
  pure (values db.accounts.indices, permissions)

def readFromSnapshot (rows : List AccountObject × List SnapshotPermission) :
    Result (GenericIndex AccountObject × PermissionTables) := do
  let accounts ← stored (load (.on name) rows.1)
  let authorization ← PermissionTables.readFromSnapshot rows.2
  pure (accounts, authorization)

theorem readFromSnapshot_addToSnapshot (h : Rooted db) : ∃ rows, db.addToSnapshot = .ok rows ∧
    readFromSnapshot rows = .ok (.packed (values db.accounts.indices),
      reloaded db.authorization) := by
  obtain ⟨permissions, hwrite, hread⟩ := h.readFromSnapshot_eq
  refine ⟨(values db.accounts.indices, permissions), ?_, ?_⟩
  · rw [addToSnapshot, hwrite]
    rfl
  · rw [readFromSnapshot, load_values h.accountsApart, hread]
    rfl

theorem rooted_reloaded (h : Rooted db)
    (haccounts : db'.accounts = .packed (values db.accounts.indices))
    (hauth : db'.authorization = reloaded db.authorization) : Rooted db' := by
  refine ⟨hauth ▸ h.reload, ?_, ?_⟩
  · rw [haccounts]
    exact keysApart_numbered h.accountsApart.nodup_values
  · intro k a ha
    rw [haccounts, packed, lookup_numbered] at ha
    obtain ⟨k', ha', -⟩ := exists_position ha
    obtain ⟨i, p, j, q, hp, hpl, hpp, hq, hql, hqp⟩ := h.accounts ha'
    rw [hauth]
    refine ⟨_, _, _, _, lookup_reloaded.mpr ⟨i, p, hp, rfl, rfl⟩, hpl, ?_,
      lookup_reloaded.mpr ⟨j, q, hq, rfl, rfl⟩, hql, ?_⟩
    · change position _ p.parent = 0
      rw [hpp, position_zero h.reserved]
    · exact congrArg (position db.authorization.permissions.indices) hqp

/-! ## Every run -/

inductive Action (db db' : AccountDatabase) : Prop
  | newaccount (ctx : ApplyContext) (create : NewAccount) :
      db.newaccount ctx create = .ok db' → Action db db'
  | updateauth (ctx : ApplyContext) (update : UpdateAuth) :
      db.updateauth ctx update = .ok db' → Action db db'
  | deleteauth (ctx : ApplyContext) (remove : DeleteAuth) :
      db.deleteauth ctx remove = .ok db' → Action db db'

inductive Reached : AccountDatabase → Prop
  | genesis {ctx : ApplyContext} {initialKey : PublicKey} {time : ℤ} {abi : List UInt8}
      {db : AccountDatabase} : initializeDatabase ctx initialKey time abi = .ok db → Reached db
  | action {db db' : AccountDatabase} : Reached db → Action db db' → Reached db'
  | other {db db' : AccountDatabase} : Reached db → OtherChange db db' → Reached db'
  | snapshot {db db' : AccountDatabase} {rows : List AccountObject × List SnapshotPermission} :
      Reached db → db.addToSnapshot = .ok rows →
      readFromSnapshot rows = .ok (db'.accounts, db'.authorization) → Reached db'

theorem Action.keeps (h : Rooted db) (ha : Action db db') :
    Rooted db' ∧ SameParents id db.authorization db'.authorization := by
  cases ha with
  | newaccount ctx create hrun =>
    obtain ⟨hr, hkeeps, -⟩ := newaccount_keeps h hrun
    exact ⟨hr, hkeeps.sameParents⟩
  | updateauth ctx update hrun =>
    obtain ⟨hr, hkeeps, -⟩ := updateauth_keeps h hrun
    exact ⟨hr, hkeeps.sameParents⟩
  | deleteauth ctx remove hrun =>
    obtain ⟨hr, hparents, -⟩ := deleteauth_keeps h hrun
    exact ⟨hr, hparents⟩

theorem Reached.rooted (h : Reached db) : Rooted db := by
  induction h with
  | genesis h => exact (rooted_initializeDatabase h).1
  | action _ ha ih => exact (ha.keeps ih).1
  | other _ hc ih => exact hc.rooted ih
  | snapshot _ hwrite hread ih =>
    obtain ⟨rows, hwrite', hread'⟩ := readFromSnapshot_addToSnapshot ih
    obtain rfl := Except.ok.inj (hwrite.symm.trans hwrite')
    have heq := Except.ok.inj (hread.symm.trans hread')
    exact rooted_reloaded ih (congrArg Prod.fst heq) (congrArg Prod.snd heq)

/-- **The permission forest.** In every database of a run, every account has its owner permission
without parent and its active permission below it; every other permission has a parent of the same
account with a smaller id; `satisfies` returns, and answers for the ancestors; no action replaces
the parent of a permission; and a snapshot can be loaded and keeps the parents. -/
theorem permissions_form_forest (h : Reached db) :
    (∀ k a, db.accounts.indices.lookup k = some a → HasRoots db.authorization a.name) ∧
    (∀ i p, db.authorization.permissions.indices.lookup i = some p → i ≠ 0 →
      (p.name = ownerName ∧ p.parent = 0) ∨
      (p.name ≠ ownerName ∧ p.parent ≠ 0 ∧ p.parent < i ∧
        ∃ q, db.authorization.permissions.indices.lookup p.parent = some q ∧
          q.owner = p.owner)) ∧
    (∀ i p j q, db.authorization.permissions.indices.lookup i = some p → i ≠ 0 →
      db.authorization.permissions.indices.lookup j = some q → j ≠ 0 →
      ∃ b, db.authorization.byOwner.satisfies p.level q.level = .ok b ∧
        (b = true ↔ p.owner = q.owner ∧
          Relation.ReflTransGen db.authorization.IsParent i j)) ∧
    (∀ db', Action db db' → SameParents id db.authorization db'.authorization) ∧
    ∃ rows accounts authorization, db.addToSnapshot = .ok rows ∧
      readFromSnapshot rows = .ok (accounts, authorization) ∧
      SameParents (position db.authorization.permissions.indices) db.authorization
        authorization ∧
      ∀ i p, db.authorization.permissions.indices.lookup i = some p →
        ∃ p', authorization.permissions.indices.lookup
          (position db.authorization.permissions.indices i) = some p' := by
  have hr := h.rooted
  refine ⟨fun k a ha => hr.accounts ha, ?_, ?_, fun db' ha => (ha.keeps hr).2, ?_⟩
  · intro i p hp hi
    by_cases hname : p.name = ownerName
    · exact .inl ⟨hname, hr.root hp hname⟩
    · exact .inr ⟨hname, hr.parent hp hi hname⟩
  · intro i p j q hp hi hq hj
    exact hr.satisfies_spec hi hj hp hq
  · obtain ⟨rows, hwrite, hread⟩ := readFromSnapshot_addToSnapshot hr
    refine ⟨rows, _, _, hwrite, hread, ?_, ?_⟩
    · intro i p p' hp hp'
      obtain ⟨j, q, hq, hpos, rfl⟩ := lookup_reloaded.mp hp'
      obtain rfl := position_inj hq hp hpos
      rw [hp] at hq
      cases hq
      exact ⟨rfl, rfl⟩
    · intro i p hp
      exact ⟨_, lookup_reloaded.mpr ⟨i, p, hp, rfl, rfl⟩⟩

def aliceContext : ApplyContext :=
  { which := fun _ => 0
    numSupportedKeyTypes := 2
    pendingBlockTime := 500000
    actors := [systemAccountName, 0x345c850000000000]
    maxTransactionDelay := 3888000
    checkKeyLists := false
    checkKeyList := fun _ => .ok ()
    keySize := fun _ => 34 }

def aliceDatabase : Result AccountDatabase := do
  let auth : Authority := { threshold := 1, keys := [⟨7, 1⟩] }
  let db ← initializeDatabase aliceContext 1 1 []
  let db ← db.newaccount aliceContext ⟨systemAccountName, 0x345c850000000000, auth, auth⟩
  db.updateauth aliceContext ⟨0x345c850000000000, 0xaba5c48000000000, activeName, auth⟩

theorem permissions_form_forest_alice : ∃ db p, aliceDatabase = .ok db ∧
    db.authorization.permissions.indices.lookup 11 = some p ∧ p.name ≠ ownerName ∧
    p.parent < 11 := by
  obtain ⟨db, hdb, p, hp, hname⟩ : ∃ db, aliceDatabase = .ok db ∧
      ∃ p ∈ db.authorization.permissions.indices.lookup 11, p.name ≠ ownerName := by
    decide +kernel
  have hreached : Reached db := by
    simp only [aliceDatabase, bind_eq_ok] at hdb
    obtain ⟨db₁, hgenesis, db₂, hnew, hupdate⟩ := hdb
    exact .action (.action (.genesis hgenesis) (.newaccount _ _ hnew)) (.updateauth _ _ hupdate)
  obtain ⟨-, hparents, -⟩ := permissions_form_forest hreached
  rcases hparents 11 p hp (by decide) with ⟨howner, -⟩ | ⟨-, -, hlt, -⟩
  · exact absurd howner hname
  · exact ⟨db, p, hdb, hp, hname, hlt⟩

end AccountDatabase

end Inery.Chain
