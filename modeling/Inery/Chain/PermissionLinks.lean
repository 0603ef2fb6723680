import Inery.Chain.AccountPermissions

/-!
# Links to permissions (`inery_contract.cpp`, `authorization_manager.cpp`)

An account may link a contract, or one action of it, to a permission that its actions are to have at
least.  The permission is looked up when the link is made, and `deleteauth` refuses to delete one
that is linked to.  With `only_link_to_existing_permission` no link ever names what is not there.
-/

namespace Inery.Chain

open Foundation Chainbase GenericIndex Table

namespace Config

def billablePermissionLink : ℤ := 144

end Config

open Config

/-- The key of the unique index `by_action_name`. -/
def PermissionLink.key (link : PermissionLink) : Name × Name × Name :=
  (link.account, link.code, link.messageType)

open PermissionLink

/-- What an action reads, with the feature that `linkauth` asks for. -/
structure LinkContext extends ApplyContext where
  /-- `is_builtin_activated( only_link_to_existing_permission )` -/
  onlyLinkToExistingPermission : Bool

namespace AccountDatabase

variable (db : AccountDatabase) (ctx : LinkContext)

/-! ## `linkauth` and `unlinkauth` -/

structure LinkAuth where
  account : Name
  code : Name
  type : Name
  requirement : Name

def findLink (account code type : Name) : Option (ℕ × PermissionLink) :=
  findBy key db.permissionLinks.indices (account, code, type)

/-- The permission that a link asks for is there: one of the account with the feature, one of
anybody before it. -/
def findRequirement (link : LinkAuth) : Bool :=
  if ctx.onlyLinkToExistingPermission then
    (findBy PermissionRow.level db.authorization.permissions.indices
      ⟨link.account, link.requirement⟩).isSome
  else
    (values db.authorization.permissions.indices).any fun p => p.name = link.requirement

/-- The checks of `apply_inery_linkauth` before the link is looked up. -/
def checkLinkauth (link : LinkAuth) : Result Unit := do
  ineAssert (!link.requirement.empty) .actionValidateException
    "Required permission cannot be empty"
  requireAuthorization ctx.toApplyContext link.account
  ineAssert (db.hasAccount link.account) .accountQueryException
    "Failed to retrieve account: ${account}"
  ineAssert (db.hasAccount link.code) .accountQueryException
    "Failed to retrieve code for account: ${account}"
  ineAssert (link.requirement ≠ ineryAnyName → db.findRequirement ctx link)
    .permissionQueryException "Failed to retrieve permission: ${permission}"

/-- `apply_inery_linkauth`. -/
def linkauth (link : LinkAuth) : Result AccountDatabase := Except.mapError ChainException.capture do
    db.checkLinkauth ctx link
    match db.findLink link.account link.code link.type with
    | some (id, existing) =>
      ineAssert (existing.requiredPermission ≠ link.requirement) .actionValidateException
        "Attempting to update required authority, but new requirement is same as old"
      let permissionLinks ← stored (db.permissionLinks.modify (.on key) id fun l =>
        { l with requiredPermission := link.requirement })
      pure { db with permissionLinks }
    | none =>
      let permissionLinks ← stored (db.permissionLinks.emplace (.on key)
        ⟨link.account, link.code, link.type, link.requirement⟩)
      addMemUsage { db with permissionLinks } link.account billablePermissionLink

structure UnlinkAuth where
  account : Name
  code : Name
  type : Name

/-- `apply_inery_unlinkauth`. -/
def unlinkauth (unlink : UnlinkAuth) : Result AccountDatabase := do
  requireAuthorization ctx.toApplyContext unlink.account
  match db.findLink unlink.account unlink.code unlink.type with
  | none => .error ⟨.actionValidateException, "Attempting to unlink authority, but no link found"⟩
  | some (id, link) =>
    let db ← db.addMemUsage link.account (-billablePermissionLink)
    let permissionLinks ← stored (db.permissionLinks.remove id)
    pure { db with permissionLinks }

def authorizationManager : AuthorizationManager where
  permissions := db.authorization.byOwner
  permissionLinks := byKey key (fun _ l => l.requiredPermission)
    db.permissionLinks.indices

/-! ## Sequences of actions -/

/-- The native actions on accounts, permissions and links. -/
inductive NativeAction where
  | newaccount (create : NewAccount)
  | updateauth (update : UpdateAuth)
  | deleteauth (remove : DeleteAuth)
  | linkauth (link : LinkAuth)
  | unlinkauth (unlink : UnlinkAuth)

def applyNative : NativeAction → Result AccountDatabase
  | .newaccount create => db.newaccount ctx.toApplyContext create
  | .updateauth update => db.updateauth ctx.toApplyContext update
  | .deleteauth remove => db.deleteauth ctx.toApplyContext remove
  | .linkauth link => db.linkauth ctx link
  | .unlinkauth unlink => db.unlinkauth ctx unlink

/-- A sequence of actions, each with what it reads.  The changes of one that throws are undone. -/
def applyAll (actions : List (LinkContext × NativeAction)) : AccountDatabase :=
  actions.foldl (fun db a => (db.applyNative a.1 a.2).toOption.getD db) db

/-! ## What an action keeps of the permissions -/

end AccountDatabase

def HasPermission (t : PermissionTables) (level : PermissionLevel) : Prop :=
  ∃ i p, t.permissions.indices.lookup i = some p ∧ p.level = level

variable {t t' : PermissionTables}

theorem Keeps.hasPermission {level : PermissionLevel} (h : Keeps t t')
    (hlevel : HasPermission t level) : HasPermission t' level := by
  obtain ⟨i, p, hp, hl⟩ := hlevel
  obtain ⟨p', hp', hl', -⟩ := h hp
  exact ⟨i, p', hp', hl'.trans hl⟩

theorem HasRoots.active {account : Name} (h : HasRoots t account) :
    HasPermission t ⟨account, activeName⟩ := by
  obtain ⟨-, -, j, q, -, -, -, hq, hql, -⟩ := h
  exact ⟨j, q, hq, hql⟩

namespace AccountDatabase

variable {db db' : AccountDatabase} {actx : ApplyContext} {ctx : LinkContext} {account : Name}

/-! ## The invariant -/

/-- A link names a permission of its account, or any of them. -/
def LinkValid (t : PermissionTables) (link : PermissionLink) : Prop :=
  link.requiredPermission = ineryAnyName ∨
    HasPermission t ⟨link.account, link.requiredPermission⟩

/-- No two links are for the same action, and all are valid. -/
structure Linked (db : AccountDatabase) : Prop extends Rooted db where
  linksApart : KeysApart key db.permissionLinks.indices
  links : ∀ ⦃k l⦄, db.permissionLinks.indices.lookup k = some l → LinkValid db.authorization l

/-- An action that changes no link and keeps the permissions that links name. -/
theorem Linked.of_links (h : Linked db) (hr : Rooted db')
    (heq : db'.permissionLinks = db.permissionLinks)
    (hkept : ∀ k l, db.permissionLinks.indices.lookup k = some l →
      HasPermission db.authorization ⟨l.account, l.requiredPermission⟩ →
      HasPermission db'.authorization ⟨l.account, l.requiredPermission⟩) : Linked db' := by
  refine ⟨hr, heq ▸ h.linksApart, fun k l hl => ?_⟩
  rw [heq] at hl
  exact (h.links hl).imp_right (hkept k l hl)

theorem rooted_of_eq (h : Rooted db) (haccounts : db'.accounts = db.accounts)
    (hauth : db'.authorization = db.authorization) : Rooted db' := by
  refine ⟨hauth ▸ h.toSnapshottable, haccounts ▸ h.accountsApart, fun k a ha => ?_⟩
  rw [haccounts] at ha
  rw [hauth]
  exact h.accounts ha

/-- What `linkauth` has done: the link of the action is there, and names a permission. -/
structure LinkWritten (db : AccountDatabase) (link : LinkAuth) (db' : AccountDatabase) : Prop where
  accounts : db'.accounts = db.accounts
  authorization : db'.authorization = db.authorization
  row : ∃ k l, l.account = link.account ∧ l.requiredPermission = link.requirement ∧
    db'.permissionLinks.indices = db.permissionLinks.indices.insert k l ∧
    ∀ j m, j ≠ k → db.permissionLinks.indices.lookup j = some m → m.key ≠ l.key

variable {link : LinkAuth}

theorem linkauth_eq_ok (hapart : KeysApart key db.permissionLinks.indices)
    (h : db.linkauth ctx link = .ok db') :
    db.checkLinkauth ctx link = .ok () ∧ LinkWritten db link db' := by
  simp only [linkauth, mapError_eq_ok, bind_eq_ok] at h
  obtain ⟨_, hcheck, h⟩ := h
  refine ⟨hcheck, ?_⟩
  cases hfind : db.findLink link.account link.code link.type with
  | some found =>
    obtain ⟨id, existing⟩ := found
    obtain ⟨hrow, hkey⟩ := (findBy_eq_some hapart).mp hfind
    simp only [hfind, bind_eq_ok, ineAssert_eq_ok, stored_eq_ok, pure_eq_ok,
      modify_eq_ok, conflicts_on] at h
    obtain ⟨-, -, _, ⟨l, hl, hnew, rfl⟩, rfl⟩ := h
    rw [hrow] at hl
    cases hl
    refine ⟨rfl, rfl, id, { existing with requiredPermission := link.requirement },
      congrArg Prod.fst hkey, rfl, rfl, ?_⟩
    intro j m hj hm hkeys
    exact hnew ⟨j, m, hj, hm, hkeys.symm⟩
  | none =>
    simp only [hfind, bind_eq_ok, stored_eq_ok, emplace_eq_ok, conflicts_on] at h
    obtain ⟨_, ⟨⟨-, hnew⟩, rfl⟩, hmem⟩ := h
    obtain ⟨_, rfl⟩ := addMemUsage_eq_ok hmem
    refine ⟨rfl, rfl, _, _, rfl, rfl, rfl, ?_⟩
    intro j m hj hm hkeys
    exact hnew ⟨j, m, hj, hm, hkeys.symm⟩

theorem LinkWritten.linked (h : Linked db) (hw : LinkWritten db link db')
    (hvalid : link.requirement = ineryAnyName ∨
      HasPermission db.authorization ⟨link.account, link.requirement⟩) :
    Linked db' := by
  obtain ⟨k, l, haccount, hrequired, hrows, hnew⟩ := hw.row
  refine ⟨rooted_of_eq h.toRooted hw.accounts hw.authorization, ?_, ?_⟩
  · rw [hrows]
    exact h.linksApart.insert hnew
  · intro j m hm
    rw [hw.authorization]
    rw [hrows] at hm
    rcases lookup_insert_eq_some.mp hm with ⟨-, rfl⟩ | ⟨-, hm⟩
    · rw [LinkValid, haccount, hrequired]
      exact hvalid
    · exact h.links hm

/-- The checks with the feature find the permission among those of the account. -/
theorem checkLinkauth_valid {u : Unit} (hf : PermissionForest db.authorization)
    (hfeature : ctx.onlyLinkToExistingPermission = true) (h : db.checkLinkauth ctx link = .ok u) :
    link.requirement = ineryAnyName ∨
      HasPermission db.authorization ⟨link.account, link.requirement⟩ := by
  simp only [checkLinkauth, bind_eq_ok, ineAssert_eq_ok] at h
  obtain ⟨-, -, -, -, -, -, -, -, hfound⟩ := h
  by_cases hany : link.requirement = ineryAnyName
  · exact .inl hany
  · refine .inr ?_
    have hsome := hfound hany
    rw [findRequirement, if_pos hfeature, Option.isSome_iff_exists] at hsome
    obtain ⟨⟨i, p⟩, hfind⟩ := hsome
    obtain ⟨hp, hl⟩ := (findBy_eq_some hf.apart).mp hfind
    exact ⟨i, p, hp, hl⟩

theorem unlinkauth_eq_ok {unlink : UnlinkAuth} (h : db.unlinkauth ctx unlink = .ok db') :
    db'.accounts = db.accounts ∧ db'.authorization = db.authorization ∧
      ∃ k, db'.permissionLinks.indices = db.permissionLinks.indices.erase k := by
  simp only [unlinkauth, bind_eq_ok] at h
  obtain ⟨-, -, h⟩ := h
  cases hfind : db.findLink unlink.account unlink.code unlink.type with
  | none =>
    rw [hfind] at h
    cases h
  | some found =>
    simp only [hfind, bind_eq_ok, stored_eq_ok, pure_eq_ok, remove_eq_ok] at h
    obtain ⟨db₁, hmem, _, ⟨_, -, rfl⟩, rfl⟩ := h
    obtain ⟨_, rfl⟩ := addMemUsage_eq_ok hmem
    exact ⟨rfl, rfl, found.1, rfl⟩

theorem Linked.applyNative {action : NativeAction} (h : Linked db)
    (hfeature : ctx.onlyLinkToExistingPermission = true)
    (hrun : db.applyNative ctx action = .ok db') : Linked db' := by
  cases action with
  | newaccount create =>
    obtain ⟨hr, hkeeps, hlinks⟩ := newaccount_keeps h.toRooted hrun
    exact h.of_links hr hlinks fun _ _ _ => hkeeps.hasPermission
  | updateauth update =>
    obtain ⟨hr, hkeeps, hlinks⟩ := updateauth_keeps h.toRooted hrun
    exact h.of_links hr hlinks fun _ _ _ => hkeeps.hasPermission
  | deleteauth remove =>
    obtain ⟨hr, -, hlinks, hguard, hkept⟩ := deleteauth_keeps h.toRooted hrun
    refine h.of_links hr hlinks fun k l hl ⟨i, p, hp, hlevel⟩ => ⟨i, p, hkept i p hp ?_, hlevel⟩
    intro heq
    rw [hlevel, PermissionLevel.mk.injEq] at heq
    exact hguard k l hl heq
  | linkauth link =>
    obtain ⟨hcheck, hw⟩ := linkauth_eq_ok h.linksApart hrun
    exact hw.linked h (checkLinkauth_valid h.toPermissionForest hfeature hcheck)
  | unlinkauth unlink =>
    obtain ⟨haccounts, hauth, k, hrows⟩ := unlinkauth_eq_ok hrun
    refine ⟨rooted_of_eq h.toRooted haccounts hauth, hrows ▸ h.linksApart.erase, ?_⟩
    intro j l hl
    rw [hrows] at hl
    exact hauth ▸ h.links (lookup_erase_eq_some.mp hl).2

theorem Linked.applyAll {actions : List (LinkContext × NativeAction)} (h : Linked db)
    (hfeature : ∀ a ∈ actions, a.1.onlyLinkToExistingPermission = true) :
    Linked (db.applyAll actions) := by
  induction actions generalizing db with
  | nil => exact h
  | cons a rest ih =>
    refine ih ?_ fun b hb => hfeature b (List.mem_cons_of_mem _ hb)
    change Linked ((db.applyNative a.1 a.2).toOption.getD db)
    cases hrun : db.applyNative a.1 a.2 with
    | ok db' => exact h.applyNative (hfeature a List.mem_cons_self) hrun
    | error e => exact h

theorem linked_initializeDatabase {initialKey : PublicKey} {time : ℤ} {abi : List UInt8}
    (h : initializeDatabase actx initialKey time abi = .ok db) : Linked db := by
  obtain ⟨hr, hnone⟩ := rooted_initializeDatabase h
  refine ⟨hr, ?_, ?_⟩
  · intro i v j w hv
    rw [hnone, Finmap.lookup_empty] at hv
    cases hv
  · intro k l hl
    rw [hnone, Finmap.lookup_empty] at hl
    cases hl

/-- What `lookup_minimum_permission` returns is the name of a link, or `active` where none is. -/
theorem lookupMinimumPermission_eq_ok {authorizer scope act name : Name}
    (hapart : KeysApart key db.permissionLinks.indices)
    (h : db.authorizationManager.lookupMinimumPermission authorizer scope act = .ok (some name)) :
    name = activeName ∨ name ≠ ineryAnyName ∧
      ∃ k l, db.permissionLinks.indices.lookup k = some l ∧ l.account = authorizer ∧
        l.requiredPermission = name := by
  have hfound : ∀ {linked}, db.authorizationManager.lookupLinkedPermission authorizer scope act =
      some linked → ∃ k l, db.permissionLinks.indices.lookup k = some l ∧ l.account = authorizer ∧
        l.requiredPermission = linked := by
    intro linked hlook
    obtain ⟨type, hlook⟩ : ∃ type, db.authorizationManager.permissionLinks.lookup
        (authorizer, scope, type) = some linked := by
      unfold AuthorizationManager.lookupLinkedPermission at hlook
      split at hlook
      · next required hrequired => exact ⟨act, hrequired.trans hlook⟩
      · exact ⟨_, hlook⟩
    obtain ⟨k, l, hl, hkey, hreq⟩ := (lookup_byKey hapart).mp hlook
    exact ⟨k, l, hl, congrArg Prod.fst hkey, hreq⟩
  unfold AuthorizationManager.lookupMinimumPermission at h
  dsimp only at h
  split at h
  on_goal 1 => obtain ⟨_, -, h⟩ := bind_eq_ok.mp h
  all_goals
    split at h
    · cases h
      exact .inl rfl
    · next linked hlook =>
      split at h
      · cases h
      · next hany =>
        cases h
        exact .inr ⟨hany, hfound hlook⟩

/-! ## Every sequence of actions -/

theorem hasAccount_eq_true (hapart : KeysApart AccountObject.name db.accounts.indices) :
    db.hasAccount account = true ↔
      ∃ k a, db.accounts.indices.lookup k = some a ∧ a.name = account := by
  rw [hasAccount, Option.isSome_iff_exists]
  constructor
  · rintro ⟨⟨k, a⟩, hfind⟩
    exact ⟨k, a, (findBy_eq_some hapart).mp hfind⟩
  · rintro ⟨k, a, ha⟩
    exact ⟨(k, a), (findBy_eq_some hapart).mpr ha⟩

/-- **Links name permissions.** With `only_link_to_existing_permission` from the start, whatever
accounts, permissions and links are made and taken away, every link names a permission of its
account or `inery.any`, and the minimum permission that is looked up for an account is one of its
permissions.  A name that is no account has neither: `active` is returned. -/
theorem links_name_permissions {initialKey : PublicKey} {time : ℤ} {abi : List UInt8}
    {genesis : AccountDatabase}
    (hgenesis : initializeDatabase actx initialKey time abi = .ok genesis)
    (actions : List (LinkContext × NativeAction))
    (hfeature : ∀ a ∈ actions, a.1.onlyLinkToExistingPermission = true) :
    (∀ k l, (genesis.applyAll actions).permissionLinks.indices.lookup k = some l →
      l.requiredPermission = ineryAnyName ∨
        HasPermission (genesis.applyAll actions).authorization ⟨l.account, l.requiredPermission⟩) ∧
    ∀ authorizer scope act name,
      (genesis.applyAll actions).authorizationManager.lookupMinimumPermission authorizer scope act =
        .ok (some name) →
      HasPermission (genesis.applyAll actions).authorization ⟨authorizer, name⟩ ∨
        (genesis.applyAll actions).hasAccount authorizer = false ∧ name = activeName := by
  have h : Linked (genesis.applyAll actions) :=
    (linked_initializeDatabase hgenesis).applyAll hfeature
  refine ⟨h.links, fun authorizer scope act name hlook => ?_⟩
  rcases lookupMinimumPermission_eq_ok h.linksApart hlook with rfl | ⟨hany, k, l, hl, rfl, rfl⟩
  · cases hexists : (genesis.applyAll actions).hasAccount authorizer with
    | false => exact .inr ⟨rfl, rfl⟩
    | true =>
      obtain ⟨k, a, ha, rfl⟩ := (hasAccount_eq_true h.accountsApart).mp hexists
      exact .inl (h.accounts ha).active
  · exact .inl ((h.links hl).resolve_left hany)

/-- The account `alice` links an action of the system contract to a permission of its own, and may
then not delete it. -/
def aliceLinks : List (LinkContext × NativeAction) :=
  let auth : Authority := { threshold := 1, keys := [⟨7, 1⟩] }
  let ctx : LinkContext := { aliceContext with onlyLinkToExistingPermission := true }
  [(ctx, .newaccount ⟨systemAccountName, 0x345c850000000000, auth, auth⟩),
    (ctx, .updateauth ⟨0x345c850000000000, 0xaba5c48000000000, activeName, auth⟩),
    (ctx, .linkauth ⟨0x345c850000000000, systemAccountName, 5, 0xaba5c48000000000⟩),
    (ctx, .deleteauth ⟨0x345c850000000000, 0xaba5c48000000000⟩)]

theorem links_name_permissions_alice : ∃ genesis l,
    initializeDatabase aliceContext 1 1 [] = .ok genesis ∧
    (genesis.applyAll aliceLinks).permissionLinks.indices.lookup 0 = some l ∧
    l.requiredPermission ≠ ineryAnyName ∧
    HasPermission (genesis.applyAll aliceLinks).authorization
      ⟨l.account, l.requiredPermission⟩ := by
  obtain ⟨genesis, hgenesis, l, hl, hany⟩ : ∃ db, initializeDatabase aliceContext 1 1 [] = .ok db ∧
      ∃ l ∈ (db.applyAll aliceLinks).permissionLinks.indices.lookup 0,
        l.requiredPermission ≠ ineryAnyName := by
    decide +kernel
  obtain ⟨hlinks, -⟩ := links_name_permissions hgenesis aliceLinks (by decide)
  exact ⟨genesis, l, hgenesis, hl, hany, (hlinks 0 l hl).resolve_left hany⟩

/-- No account has the name 1, and so no permission of it can be there; its minimum permission
is `active` all the same. -/
theorem lookupMinimumPermission_no_account : ∃ genesis,
    initializeDatabase aliceContext 1 1 [] = .ok genesis ∧
    (genesis.applyAll []).authorizationManager.lookupMinimumPermission 1 systemAccountName 5 =
      .ok (some activeName) ∧
    ¬ HasPermission (genesis.applyAll []).authorization ⟨1, activeName⟩ := by
  obtain ⟨genesis, hgenesis, hminimum, hnone⟩ : ∃ db,
      initializeDatabase aliceContext 1 1 [] = .ok db ∧
      db.authorizationManager.lookupMinimumPermission 1 systemAccountName 5 =
        .ok (some activeName) ∧
      findBy PermissionRow.level db.authorization.permissions.indices
        ⟨1, activeName⟩ = none := by
    decide +kernel
  refine ⟨genesis, hgenesis, hminimum, ?_⟩
  rintro ⟨i, p, hp, hl⟩
  exact findBy_eq_none.mp hnone i p hp hl

end AccountDatabase

end Inery.Chain
