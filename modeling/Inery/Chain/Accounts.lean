import Inery.Chain.Names
import Inery.Chain.PermissionSnapshot

/-!
# Accounts and their permissions (`inery_contract.cpp`, `controller.cpp`)

The native actions that create accounts and change permissions, and the database that
`initialize_database` sets up.  Every account keeps the `owner` and the `active` permission that it
starts with, and no permission gets another parent.
-/

namespace Inery.Chain

open Foundation Chainbase Config

namespace Name

/-- `to_string().find( "inery." ) == 0`. -/
def startsWithInery (n : Name) : Bool := "inery.".toList.isPrefixOf n.toChars

end Name

/-! ## The database -/

structure AccountObject where
  name : Name
  creationDate : ℤ
  abi : List UInt8 := []
deriving DecidableEq

/-- `account_metadata_object`, as far as the permissions go. -/
structure AccountMetadata where
  name : Name
  privileged : Bool := false
deriving DecidableEq

structure PermissionLink where
  account : Name
  code : Name
  messageType : Name
  requiredPermission : Name
deriving DecidableEq

structure AccountDatabase where
  accounts : GenericIndex AccountObject := {}
  accountMetadata : GenericIndex AccountMetadata := {}
  authorization : PermissionTables := {}
  permissionLinks : GenericIndex PermissionLink := {}
  resources : ResourceLimitsManager := .initializeDatabase

/-- What an action reads of its context and of the controller. -/
structure ApplyContext extends PermissionContext where
  /-- the actors of the authorizations of the action -/
  actors : List Name
  maxTransactionDelay : ℕ
  /-- `enforce_whiteblacklist && is_producing_block()` -/
  checkKeyLists : Bool
  checkKeyList : PublicKey → Result Unit
  /-- `fc::raw::pack_size` of a key -/
  keySize : PublicKey → ℕ

namespace Config

def nullAccountName : Name := 0x74d57f027a8c4000

def producersAccountName : Name := 0x74d57f02b7a27000

def majorityProducersPermissionName : Name := 0xade89048cfa5c000

def minorityProducersPermissionName : Name := 0xade89049d3a5c000

def ineryCodeName : Name := 0x74d57f01144a8000

def overheadPerAccountMemBytes : ℤ := 2048

/-- `billable_size_v<permission_object>`. -/
def billablePermission : ℤ := 288

end Config

def Authority.billableSize (keySize : PublicKey → ℕ) (auth : Authority) : ℤ :=
  auth.accounts.length * 32 + auth.waits.length * 16 +
    (auth.keys.map fun k => (16 + keySize k.key : ℤ)).sum

namespace AccountDatabase

variable (db : AccountDatabase) (ctx : ApplyContext) (account : Name)

def requireAuthorization : Result Unit :=
  ineAssert (account ∈ ctx.actors) .missingAuthException "missing authority of ${account}"

def addMemUsage (memDelta : ℤ) : Result AccountDatabase := do
  let resources ← db.resources.addPendingMemUsage account memDelta
  pure { db with resources }

def hasAccount : Bool := (findBy AccountObject.name db.accounts.indices account).isSome

/-- The loop of `validate_authority_precondition` over the accounts. -/
def checkAuthorityAccount (a : PermissionLevelWeight) : Result Unit := do
  ineAssert (db.hasAccount a.permission.actor) .actionValidateException
    "account '${account}' does not exist"
  if a.permission.permission = ownerName ∨ a.permission.permission = activeName then
    pure ()
  else if a.permission.permission = ineryCodeName then pure ()
  else
    match db.authorization.byOwner.getPermission a.permission with
    | .ok _ => pure ()
    | .error e => .error (if e.kind = .permissionQueryException then
        ⟨.actionValidateException, "permission '${perm}' does not exist"⟩ else e)

def validateAuthorityPrecondition (auth : Authority) : Result Unit := do
  auth.accounts.forM db.checkAuthorityAccount
  if ctx.checkKeyLists then auth.keys.forM fun k => ctx.checkKeyList k.key
  else pure ()

/-! ## `newaccount` -/

structure NewAccount where
  creator : Name
  name : Name
  owner : Authority
  active : Authority

/-- The checks of `apply_inery_newaccount` before anything is created. -/
def checkNewaccount (create : NewAccount) : Result Unit := do
  requireAuthorization ctx create.creator
  ineAssert create.owner.validate .actionValidateException "Invalid owner authority"
  ineAssert create.active.validate .actionValidateException "Invalid active authority"
  ineAssert (!create.name.empty) .actionValidateException "account name cannot be empty"
  ineAssert (create.name.toChars.length ≤ 12) .actionValidateException
    "account names can only be 12 chars long"
  match findBy AccountMetadata.name db.accountMetadata.indices create.creator with
  | none => .error ⟨.stdOutOfRange, "unknown key"⟩
  | some (_, creator) =>
    ineAssert (creator.privileged || !create.name.startsWithInery) .actionValidateException
      "only privileged accounts can have names that start with 'inery.'"
  ineAssert (!db.hasAccount create.name) .accountNameExistsException
    "Cannot create account named ${name}, as that name is already taken"

def createAccount (account : AccountObject) (privileged : Bool) : Result AccountDatabase := do
  let accounts ← stored (db.accounts.emplace (.on AccountObject.name) account)
  let accountMetadata ← stored (db.accountMetadata.emplace (.on AccountMetadata.name)
    { name := account.name, privileged })
  pure { db with accounts, accountMetadata }

/-- The owner and the active permission of an account, and what they are billed. -/
def createPermissions (owner active : Authority) (initialCreationTime : ℤ := 0) :
    Result AccountDatabase := do
  let (ownerId, authorization) ← db.authorization.createPermission ctx.toPermissionContext account
    ownerName 0 owner initialCreationTime
  let (_, authorization) ← authorization.createPermission ctx.toPermissionContext account
    activeName ownerId active initialCreationTime
  let resources ← db.resources.initializeAccount account
  let memDelta := overheadPerAccountMemBytes + 2 * billablePermission +
    owner.billableSize ctx.keySize + active.billableSize ctx.keySize
  addMemUsage { db with authorization, resources } account memDelta

/-- `apply_inery_newaccount`. -/
def newaccount (create : NewAccount) : Result AccountDatabase := do
  db.checkNewaccount ctx create
  let db ← db.createAccount { name := create.name, creationDate := ctx.pendingBlockTime } false
  db.validateAuthorityPrecondition ctx create.owner
  db.validateAuthorityPrecondition ctx create.active
  db.createPermissions ctx create.name create.owner create.active

/-! ## `updateauth` -/

structure UpdateAuth where
  account : Name
  permission : Name
  parent : Name
  auth : Authority

/-- The checks of `apply_inery_updateauth` before the permissions are looked up. -/
def checkUpdateauth (update : UpdateAuth) : Result Unit := do
  requireAuthorization ctx update.account
  ineAssert (!update.permission.empty) .actionValidateException
    "Cannot create authority with empty name"
  ineAssert (!update.permission.startsWithInery) .actionValidateException
    "Permission names that start with 'inery.' are reserved"
  ineAssert (update.permission ≠ update.parent) .actionValidateException
    "Cannot set an authority as its own parent"
  ineAssert (db.hasAccount update.account) .stdOutOfRange "unknown key"
  ineAssert update.auth.validate .actionValidateException "Invalid authority: ${auth}"
  ineAssert (update.permission = activeName → update.parent = ownerName)
    .actionValidateException "Cannot change active authority's parent from owner"
  if update.permission = ownerName then
    ineAssert update.parent.empty .actionValidateException "Cannot change owner authority's parent"
  else
    ineAssert (!update.parent.empty) .actionValidateException
      "Only owner permission can have empty parent"
  match update.auth.waits.getLast? with
  | none => pure ()
  | some wait =>
    ineAssert (wait.waitSec.toNat ≤ ctx.maxTransactionDelay) .actionValidateException
      "Cannot set delay longer than max_transacton_delay, which is ${max_delay} seconds"
  db.validateAuthorityPrecondition ctx update.auth

def parentId (update : UpdateAuth) : Result ℕ :=
  if update.permission ≠ ownerName then do
    let parent ← db.authorization.byOwner.getPermission ⟨update.account, update.parent⟩
    pure parent.id
  else pure 0

/-- `apply_inery_updateauth`. -/
def updateauth (update : UpdateAuth) : Result AccountDatabase := do
  db.checkUpdateauth ctx update
  let permission ← db.authorization.byOwner.findPermission ⟨update.account, update.permission⟩
  let parentId ← db.parentId update
  let newSize := billablePermission + update.auth.billableSize ctx.keySize
  match permission with
  | some permission =>
    ineAssert (parentId = permission.parent) .actionValidateException
      "Changing parent authority is not currently supported"
    let authorization ← db.authorization.modifyPermission ctx.toPermissionContext permission.id
      update.auth
    let oldSize := billablePermission + permission.auth.billableSize ctx.keySize
    addMemUsage { db with authorization } update.account (newSize - oldSize)
  | none =>
    let (_, authorization) ← db.authorization.createPermission ctx.toPermissionContext
      update.account update.permission parentId update.auth
    addMemUsage { db with authorization } update.account newSize

/-! ## `deleteauth` -/

structure DeleteAuth where
  account : Name
  permission : Name

/-- `apply_inery_deleteauth`. -/
def deleteauth (remove : DeleteAuth) : Result AccountDatabase := do
  requireAuthorization ctx remove.account
  ineAssert (remove.permission ≠ activeName) .actionValidateException
    "Cannot delete active authority"
  ineAssert (remove.permission ≠ ownerName) .actionValidateException
    "Cannot delete owner authority"
  ineAssert (∀ link ∈ Table.values db.permissionLinks.indices,
      ¬ (link.account = remove.account ∧ link.requiredPermission = remove.permission))
    .actionValidateException
    "Cannot delete a linked authority. Unlink the authority first. This authority is linked to ${code}::${type}."
  let permission ← db.authorization.byOwner.getPermission ⟨remove.account, remove.permission⟩
  let oldSize := billablePermission + permission.auth.billableSize ctx.keySize
  let authorization ← db.authorization.removePermission permission.id
  addMemUsage { db with authorization } remove.account (-oldSize)

/-! ## Genesis -/

def createNativeAccount (initialTimestamp : ℤ) (name : Name) (owner active : Authority)
    (abi : List UInt8 := []) (isPrivileged : Bool := false) : Result AccountDatabase := do
  let db ← db.createAccount { name, creationDate := initialTimestamp, abi } isPrivileged
  let db ← db.createPermissions ctx name owner active initialTimestamp
  db.resources.verifyAccountMemUsage name
  pure db

/-- `initialize_database`, with the abi of the system account. -/
def initializeDatabase (initialKey : PublicKey) (initialTimestamp : ℤ)
    (ineryAbi : List UInt8) : Result AccountDatabase := do
  let authorization ← PermissionTables.initializeDatabase
  let db : AccountDatabase := { authorization }
  let systemAuth : Authority := { threshold := 1, keys := [⟨initialKey, 1⟩] }
  let emptyAuthority : Authority := { threshold := 1 }
  let activeProducersAuthority : Authority :=
    { threshold := 1, accounts := [⟨⟨systemAccountName, activeName⟩, 1⟩] }
  let db ← db.createNativeAccount ctx initialTimestamp systemAccountName systemAuth
    systemAuth ineryAbi true
  let db ← db.createNativeAccount ctx initialTimestamp nullAccountName emptyAuthority
    emptyAuthority
  let db ← db.createNativeAccount ctx initialTimestamp producersAccountName emptyAuthority
    activeProducersAuthority
  let activePermission ← db.authorization.byOwner.getPermission
    ⟨producersAccountName, activeName⟩
  let (majorityId, authorization) ← db.authorization.createPermission ctx.toPermissionContext
    producersAccountName majorityProducersPermissionName activePermission.id
    activeProducersAuthority initialTimestamp
  let (_, authorization) ← authorization.createPermission ctx.toPermissionContext
    producersAccountName minorityProducersPermissionName majorityId
    activeProducersAuthority initialTimestamp
  pure { db with authorization }

end AccountDatabase

end Inery.Chain
