import Inery.Chain.UsedKeys

/-!
# The authorization manager (`authorization_manager.cpp`)

`check_authorization` makes sure that each declared authorization is good enough for its action, and
asks the checker for all of them.  `get_required_keys` asks the checker for the same authorizations
with a set of candidate keys and reports the keys that were used.  This module says when the
reported keys pass the check.
-/

namespace Inery.Chain

open Foundation List Finmap Finset Config PermissionLevel AuthorityChecker

/-! ## Actions -/

/-- The data of an action, as far as the authorization manager unpacks it. -/
inductive ActionData where
  | updateauth (account permission parent : Name)
  | deleteauth (account permission : Name)
  | linkauth (account code type : Name)
  | unlinkauth (account code type : Name)
  | canceldelay (cancelingAuth : PermissionLevel) (trxId : Digest)
  | other
deriving DecidableEq

structure NamedAction extends Action where
  name : Name
  data : ActionData := .other
deriving DecidableEq

namespace ActionName

def updateauth : Name := 0xd5526ca8dacb4000

def deleteauth : Name := 0x4aa2aca8dacb4000

def linkauth : Name := 0x8ba7036b2d000000

def unlinkauth : Name := 0xd4e2e9c0dacb4000

def canceldelay : Name := 0x41a685452a89bc00

end ActionName

open ActionName

/-- The data does not unpack as the type that the action's name stands for. -/
def unpackException : ChainException :=
  ⟨.otherChainException, "datastream attempted to ${method} past the end"⟩

/-! ## The tables -/

/-- `generated_transaction_object`: what `canceldelay` looks at. -/
structure DelayedTransaction where
  sender : Name
  /-- the authorizations of the actions of the packed transaction -/
  authorizations : List PermissionLevel
  delayUntil : ℤ
  published : ℤ

structure AuthorizationManager where
  permissions : PermissionIndex
  /-- the required permission, by account, code and message type -/
  permissionLinks : Table (Name × Name × Name) Name := ∅
  /-- by transaction id -/
  generatedTransactions : Table Digest DelayedTransaction := ∅
  configuration : ChainConfig := {}
  /-- `is_builtin_activated( fix_linkauth_restriction )` -/
  fixLinkauthRestriction : Bool := false

namespace PermissionIndex

variable (permissions : PermissionIndex)

def parentOf (id : ℕ) : Option ℕ :=
  (ascending ((permissions.collect fun _ permission =>
    if permission.id = id then ({permission.parent} : Multiset ℕ) else ∅).join)).head?

/-- The loop of `permission_object::satisfies`: walk up from `parent` until a
child of `id` or a permission without parent.  A parent that is missing, or a
cycle of parents, is not defined. -/
def walkParents (id : ℕ) : ℕ → ℕ → Result Bool
  | 0, _ => .error ⟨.undefinedBehaviour, "the parents of a permission do not end"⟩
  | fuel + 1, parent =>
    match permissions.parentOf parent with
    | none => .error ⟨.undefinedBehaviour, "end iterator dereferenced"⟩
    | some grandparent =>
      if id = grandparent then pure true
      else if grandparent = 0 then pure false
      else walkParents id fuel grandparent

/-- `permission.satisfies( other, … )`. -/
def satisfies (level other : PermissionLevel) : Result Bool := do
  let permission ← permissions.getPermission level
  let min ← permissions.getPermission other
  if level.actor ≠ other.actor then pure false
  else if permission.id = min.id ∨ permission.id = min.parent then pure true
  else permissions.walkParents permission.id (permissions.keys.card + 1) min.parent

def findPermission (level : PermissionLevel) : Result (Option PermissionObject) :=
  if level.actor.empty || level.permission.empty then .error invalid
  else pure (permissions.lookup level)

end PermissionIndex

namespace AuthorizationManager

variable (m : AuthorizationManager)

/-! ## Minimum permissions -/

/-- `lookup_linked_permission`: the link of the action, else that of the whole contract. -/
def lookupLinkedPermission (authorizer scope actName : Name) : Option Name :=
  match m.permissionLinks.lookup (authorizer, scope, actName) with
  | some required => some required
  | none => m.permissionLinks.lookup (authorizer, scope, 0)

def lookupMinimumPermission (authorizer scope actName : Name) : Result (Option Name) := do
  if scope = systemAccountName then
    ineAssert (actName ≠ updateauth ∧ actName ≠ deleteauth ∧
      actName ≠ linkauth ∧ actName ≠ unlinkauth ∧
      actName ≠ canceldelay) .unlinkableMinPermissionAction
      "cannot call lookup_minimum_permission on native actions that are not allowed to be linked to minimum permissions"
  match m.lookupLinkedPermission authorizer scope actName with
  | none => pure (some activeName)
  | some linked => pure (if linked = ineryAnyName then none else some linked)

def soleAuthorization (auths : List PermissionLevel) (message : String) : Result PermissionLevel :=
  match auths with
  | [auth] => pure auth
  | _ => .error ⟨.irrelevantAuthException, message⟩

def checkUpdateauthAuthorization (account permission parent : Name)
    (auths : List PermissionLevel) : Result Unit := do
  let auth ← soleAuthorization auths
    "updateauth action should only have one declared authorization"
  ineAssert (auth.actor = account) .irrelevantAuthException
    "the owner of the affected permission needs to be the actor of the declared authorization"
  -- a new permission is created with the authority of its parent
  let min := match ← m.permissions.findPermission ⟨account, permission⟩ with
    | some _ => permission
    | none => parent
  let _ ← m.permissions.getPermission ⟨account, min⟩
  ineAssert ((← m.permissions.satisfies auth ⟨account, min⟩) = true) .irrelevantAuthException
    "updateauth action declares irrelevant authority '${auth}'; minimum authority is ${min}"

def checkDeleteauthAuthorization (account permission : Name) (auths : List PermissionLevel) :
    Result Unit := do
  let auth ← soleAuthorization auths
    "deleteauth action should only have one declared authorization"
  ineAssert (auth.actor = account) .irrelevantAuthException
    "the owner of the permission to delete needs to be the actor of the declared authorization"
  let _ ← m.permissions.getPermission ⟨account, permission⟩
  ineAssert ((← m.permissions.satisfies auth ⟨account, permission⟩) = true)
    .irrelevantAuthException
    "updateauth action declares irrelevant authority '${auth}'; minimum authority is ${min}"

def checkLinkauthAuthorization (account code type : Name) (auths : List PermissionLevel) :
    Result Unit := do
  let auth ← soleAuthorization auths "link action should only have one declared authorization"
  ineAssert (auth.actor = account) .irrelevantAuthException
    "the owner of the linked permission needs to be the actor of the declared authorization"
  if code = systemAccountName ∨ ¬ m.fixLinkauthRestriction then
    ineAssert (type ≠ updateauth) .actionValidateException
      "Cannot link inery::updateauth to a minimum permission"
    ineAssert (type ≠ deleteauth) .actionValidateException
      "Cannot link inery::deleteauth to a minimum permission"
    ineAssert (type ≠ linkauth) .actionValidateException
      "Cannot link inery::linkauth to a minimum permission"
    ineAssert (type ≠ unlinkauth) .actionValidateException
      "Cannot link inery::unlinkauth to a minimum permission"
    ineAssert (type ≠ canceldelay) .actionValidateException
      "Cannot link inery::canceldelay to a minimum permission"
  match ← m.lookupMinimumPermission account code type with
  | none => pure ()
  | some linked =>
    ineAssert ((← m.permissions.satisfies auth ⟨account, linked⟩) = true)
      .irrelevantAuthException
      "link action declares irrelevant authority '${auth}'; minimum authority is ${min}"

def checkUnlinkauthAuthorization (account code type : Name) (auths : List PermissionLevel) :
    Result Unit := do
  let auth ← soleAuthorization auths "unlink action should only have one declared authorization"
  ineAssert (auth.actor = account) .irrelevantAuthException
    "the owner of the linked permission needs to be the actor of the declared authorization"
  match m.lookupLinkedPermission account code type with
  | none => .error ⟨.transactionException,
      "cannot unlink non-existent permission link of account '${account}' for actions matching '${code}::${action}'"⟩
  | some unlinked =>
    if unlinked = ineryAnyName then pure ()
    else
      ineAssert ((← m.permissions.satisfies auth ⟨account, unlinked⟩) = true)
        .irrelevantAuthException
        "unlink action declares irrelevant authority '${auth}'; minimum authority is ${min}"

/-- Returns the delay of the transaction to be cancelled. -/
def checkCanceldelayAuthorization (cancelingAuth : PermissionLevel) (trxId : Digest)
    (auths : List PermissionLevel) : Result ℤ := do
  let auth ← soleAuthorization auths
    "canceldelay action should only have one declared authorization"
  ineAssert ((← m.permissions.satisfies auth cancelingAuth) = true) .irrelevantAuthException
    "canceldelay action declares irrelevant authority '${auth}'; specified authority to satisfy is ${min}"
  match m.generatedTransactions.lookup trxId with
  | none => .error ⟨.txNotFound,
      "cannot cancel trx_id=${tid}, there is no deferred transaction with that transaction id"⟩
  | some delayed =>
    ineAssert (delayed.sender = 0) .txNotFound
      "cannot cancel trx_id=${tid}, there is no deferred transaction with that transaction id"
    ineAssert (cancelingAuth ∈ delayed.authorizations) .actionValidateException
      "canceling_auth in canceldelay action was not found as authorization in the original delayed transaction"
    pure (delayed.delayUntil - delayed.published)

/-! ## `check_authorization` -/

/-- The native actions that are checked specially: whether the action is one of
them, and the delay at which its authorizations are to be satisfied. -/
def specialCase (act : NamedAction) (delay : ℤ) : Result (Bool × ℤ) :=
  if act.account = systemAccountName then
    if act.name = updateauth then
      match act.data with
      | .updateauth account permission parent => do
          m.checkUpdateauthAuthorization account permission parent act.authorization
          pure (true, delay)
      | _ => .error unpackException
    else if act.name = deleteauth then
      match act.data with
      | .deleteauth account permission => do
          m.checkDeleteauthAuthorization account permission act.authorization
          pure (true, delay)
      | _ => .error unpackException
    else if act.name = linkauth then
      match act.data with
      | .linkauth account code type => do
          m.checkLinkauthAuthorization account code type act.authorization
          pure (true, delay)
      | _ => .error unpackException
    else if act.name = unlinkauth then
      match act.data with
      | .unlinkauth account code type => do
          m.checkUnlinkauthAuthorization account code type act.authorization
          pure (true, delay)
      | _ => .error unpackException
    else if act.name = canceldelay then
      match act.data with
      | .canceldelay cancelingAuth trxId => do
          let cancelled ← m.checkCanceldelayAuthorization cancelingAuth trxId act.authorization
          pure (true, max delay cancelled)
      | _ => .error unpackException
    else
      pure (false, delay)
  else
    pure (false, delay)

def checkMinimumPermission (act : NamedAction) (declaredAuth : PermissionLevel) : Result Unit := do
  match ← m.lookupMinimumPermission declaredAuth.actor act.account act.name with
  | none => pure ()
  | some min =>
    let _ ← m.permissions.getPermission ⟨declaredAuth.actor, min⟩
    ineAssert ((← m.permissions.satisfies declaredAuth ⟨declaredAuth.actor, min⟩) = true)
      .irrelevantAuthException
      "action declares irrelevant authority '${auth}'; minimum authority is ${min}"

abbrev PermissionsToSatisfy := Table PermissionLevel ℤ

/-- Keep the shortest delay. -/
def requirePermission (permissions : PermissionsToSatisfy) (level : PermissionLevel) (delay : ℤ) :
    PermissionsToSatisfy :=
  match permissions.lookup level with
  | none => permissions.insert level delay
  | some existing => if delay < existing then permissions.insert level delay else permissions

/-- One declared authorization of an action. -/
def requireDeclared (satisfiedAuthorizations : Finset PermissionLevel) (act : NamedAction)
    (special : Bool) (delay : ℤ) (permissions : PermissionsToSatisfy)
    (declaredAuth : PermissionLevel) : Result PermissionsToSatisfy := do
  if ¬ special then
    m.checkMinimumPermission act declaredAuth
  pure (if declaredAuth ∈ satisfiedAuthorizations then permissions
    else requirePermission permissions declaredAuth delay)

variable (actions : List NamedAction)

/-- The first loop of `check_authorization`, over the actions. -/
def permissionsToSatisfy (effectiveDelay : ℤ)
    (satisfiedAuthorizations : Finset PermissionLevel) : Result PermissionsToSatisfy :=
  actions.foldlM (fun permissions act => do
    let (special, delay) ← m.specialCase act effectiveDelay
    act.authorization.foldlM
      (m.requireDeclared satisfiedAuthorizations act special delay) permissions) ∅

/-- `fc::microseconds::maximum()`. -/
def maximumDelay : ℤ := 2 ^ 63 - 1

def effectiveProvidedDelay (providedDelay : ℤ) : ℤ :=
  if m.configuration.maxTransactionDelay.toNat * 1000000 ≤ providedDelay then maximumDelay
  else providedDelay

def makeAuthChecker (keys : Finset PublicKey) (permissions : Finset PermissionLevel)
    (delay : ℤ) : AuthorityChecker where
  permissions := m.permissions
  recursionDepthLimit := m.configuration.maxAuthorityDepth
  providedKeys := keys
  providedPermissions := permissions
  providedDelay := delay

def ascendingLevels (levels : Finset PermissionLevel) : List PermissionLevel :=
  (ascending (levels.val.map rank)).map fun n =>
    ⟨.ofNat (n / 2 ^ 64), .ofNat n⟩

/-- The second loop: every permission is satisfied; returns the marks. -/
def satisfyAll (checker : AuthorityChecker) (permissions : List (PermissionLevel × ℤ))
    (usedKeys : Finset PublicKey) : Result (Finset PublicKey) :=
  permissions.foldlM (fun usedKeys p => do
    let (r, usedKeys) := (checker.withDelay p.2).satisfied p.1 usedKeys
    ineAssert (r = true) .unsatisfiedAuthorization
      "transaction declares authority '${auth}', but does not have signatures for it under a provided delay of ${provided_delay} ms, provided permissions ${provided_permissions}, provided keys ${provided_keys}, and a delay max limit of ${delay_max_limit_ms} ms"
    pure usedKeys) usedKeys

def checkAuthorization (providedKeys : Finset PublicKey)
    (providedPermissions : Finset PermissionLevel) (providedDelay : ℤ)
    (allowUnusedKeys : Bool := false) (satisfiedAuthorizations : Finset PermissionLevel := ∅) :
    Result Unit := do
  let effectiveDelay := m.effectiveProvidedDelay providedDelay
  let checker := m.makeAuthChecker providedKeys providedPermissions effectiveDelay
  let permissions ← m.permissionsToSatisfy actions effectiveDelay satisfiedAuthorizations
  let usedKeys ← satisfyAll checker ((ascendingLevels permissions.keys).map fun level =>
    (level, (permissions.lookup level).getD effectiveDelay)) ∅
  if ¬ allowUnusedKeys then
    ineAssert (usedKeys = providedKeys) .txIrrelevantSig
      "transaction bears irrelevant signatures from these keys: ${keys}"

variable {m}

variable {act : NamedAction} {delay delay' : ℤ} {special : Bool}

variable {permissions : PermissionsToSatisfy}

theorem lookup_requirePermission {level q : PermissionLevel} :
    (requirePermission permissions level delay).lookup q =
      if q = level then some (((permissions.lookup level).map (min delay)).getD delay)
      else permissions.lookup q := by
  unfold requirePermission
  cases hlookup : permissions.lookup level with
  | none =>
    rw [Table.lookup_insert_ite]
    rfl
  | some existing =>
    show (if delay < existing then permissions.insert level delay else permissions).lookup q = _
    by_cases hlt : delay < existing
    · rw [if_pos hlt, Table.lookup_insert_ite]
      simp [min_eq_left hlt.le]
    · rw [if_neg hlt]
      split
      · next heq =>
        rw [heq, hlookup]
        simp [min_eq_right (not_lt.mp hlt)]
      · rfl

/-- The permissions to satisfy are the declared ones, none with a shorter delay. -/
structure Requires (declared : List PermissionLevel) (delay : ℤ)
    (permissions : PermissionsToSatisfy) : Prop where
  mem : ∀ level, level ∈ permissions.keys ↔ level ∈ declared
  delay_le : ∀ level d, permissions.lookup level = some d → delay ≤ d

theorem Requires.require {declared : List PermissionLevel}
    (h : Requires declared delay permissions) (hdelay : delay ≤ delay') (level : PermissionLevel) :
    Requires (declared ++ [level]) delay (requirePermission permissions level delay') := by
  constructor
  · intro q
    rw [List.mem_append, List.mem_singleton, ← h.mem q, Finmap.mem_keys, Finmap.mem_keys,
      ← lookup_isSome, ← lookup_isSome, lookup_requirePermission]
    split
    · next heq => simp [heq]
    · next hne => simp [hne]
  · intro q d hd
    rw [lookup_requirePermission] at hd
    split at hd
    · cases hlookup : permissions.lookup level with
      | none =>
        rw [hlookup] at hd
        cases hd
        exact hdelay
      | some existing =>
        rw [hlookup] at hd
        cases hd
        exact le_min hdelay (h.delay_le level existing hlookup)
    · exact h.delay_le q d hd

theorem requireDeclared_eq_ok {permissions' : PermissionsToSatisfy} {declaredAuth : PermissionLevel}
    (h : m.requireDeclared ∅ act special delay permissions declaredAuth = .ok permissions') :
    permissions' = requirePermission permissions declaredAuth delay := by
  cases special with
  | true => exact (pure_eq_ok.mp h).symm
  | false =>
    have hbind : (m.checkMinimumPermission act declaredAuth >>= fun _ =>
        pure (requirePermission permissions declaredAuth delay)) = .ok permissions' := h
    obtain ⟨-, -, hpure⟩ := bind_eq_ok.mp hbind
    exact (pure_eq_ok.mp hpure).symm

theorem Requires.authorizations {declared auths : List PermissionLevel}
    {permissions' : PermissionsToSatisfy} (h : Requires declared delay permissions)
    (hdelay : delay ≤ delay')
    (hrun : auths.foldlM (m.requireDeclared ∅ act special delay') permissions = .ok permissions') :
    Requires (declared ++ auths) delay permissions' := by
  induction auths generalizing declared permissions with
  | nil =>
    obtain rfl := pure_eq_ok.mp hrun
    rw [append_nil]
    exact h
  | cons auth auths ih =>
    rw [foldlM_cons, bind_eq_ok] at hrun
    obtain ⟨permissions₁, hstep, hrest⟩ := hrun
    obtain rfl := requireDeclared_eq_ok hstep
    rw [show declared ++ auth :: auths = (declared ++ [auth]) ++ auths by simp]
    exact ih (h.require hdelay auth) hrest

variable (m)

def AuthoritiesFit : Prop := (m.makeAuthChecker ∅ ∅ 0).AuthoritiesFit

variable {m} {actions : List NamedAction} {candidateKeys requiredKeys : Finset PublicKey}
  {delay : ℤ} {permissions : PermissionsToSatisfy}

end AuthorizationManager

end Inery.Chain
