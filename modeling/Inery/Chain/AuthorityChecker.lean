import Inery.Chain.TransactionContext
import Inery.Chain.BlockHeader
import Inery.Foundation.Tally

/-!
# Authorities and the authority checker (`authority.hpp`, `authority_checker.hpp`)

An authority is a threshold with weighted keys, account permissions and waits.  The checker
evaluates account permissions in turn, down to a depth limit; verdicts are kept in a cache, and the
keys used are marked.  Next to it stand the same evaluation without the cache, and one that gives no
answer where the limit or a cycle would cut it off; the later modules compare the three.
-/

namespace Inery.Chain

open Foundation List

/-! ## Authorities -/

/-- The actor and the permission in one number, in the order of `operator<`. -/
def PermissionLevel.rank (level : PermissionLevel) : ℕ :=
  level.actor.toNat * 2 ^ 64 + level.permission.toNat

open PermissionLevel

theorem PermissionLevel.rank_injective : Function.Injective rank := by
  rintro ⟨a, p⟩ ⟨a', p'⟩ h
  have hp := p.toNat_lt
  have hp' := p'.toNat_lt
  simp only [rank] at h
  obtain rfl : a = a' := UInt64.toNat.inj (by omega)
  obtain rfl : p = p' := UInt64.toNat.inj (by omega)
  rfl

instance : LinearOrder PermissionLevel := LinearOrder.lift' rank rank_injective

structure PermissionLevelWeight where
  permission : PermissionLevel
  weight : UInt16
deriving DecidableEq

structure WaitWeight where
  waitSec : UInt32
  weight : UInt16
deriving DecidableEq

structure Authority where
  threshold : UInt32 := 0
  keys : List KeyWeight := []
  accounts : List PermissionLevelWeight := []
  waits : List WaitWeight := []
deriving DecidableEq

/-- What the checker sorts: an account permission, a key or a wait. -/
inductive MetaPermission where
  | account (permission : PermissionLevelWeight)
  | key (permission : KeyWeight)
  | wait (permission : WaitWeight)
deriving DecidableEq

namespace MetaPermission

def weight : MetaPermission → ℕ
  | .account permission => permission.weight.toNat
  | .key permission => permission.weight.toNat
  | .wait permission => permission.weight.toNat

def priority : MetaPermission → ℕ
  | .account _ => 1
  | .key _ => 2
  | .wait _ => 3

/-- `std::greater` on the pairs of weight and priority. -/
def Greater (a b : MetaPermission) : Prop :=
  b.weight < a.weight ∨ (b.weight = a.weight ∧ b.priority < a.priority)

instance : DecidableRel Greater := fun a b => by
  unfold Greater
  infer_instance

theorem weight_lt (mp : MetaPermission) : mp.weight < 2 ^ 16 := by
  cases mp with
  | account permission | key permission | wait permission => exact permission.weight.toNat_lt

end MetaPermission

open MetaPermission

namespace Authority

/-- Everything that can carry weight, in the order in which the checker inserts it. -/
def entries (auth : Authority) : List MetaPermission :=
  auth.accounts.map .account ++ auth.keys.map .key ++ auth.waits.map .wait

/-- The multimap that the checker walks: each insertion goes behind the entries
that are not smaller. -/
def metaPermissions (auth : Authority) : List MetaPermission :=
  auth.entries.foldl (fun permissions mp => permissions.orderedInsert Greater mp) []

theorem metaPermissions_perm (auth : Authority) : auth.metaPermissions.Perm auth.entries := by
  suffices h : ∀ es ps : List MetaPermission,
      (es.foldl (fun permissions mp => permissions.orderedInsert Greater mp)
        ps).Perm (ps ++ es) by
    exact h auth.entries []
  intro es
  induction es with
  | nil =>
    intro ps
    rw [append_nil]
    exact Perm.refl ps
  | cons e es ih =>
    intro ps
    refine (ih _).trans (((perm_orderedInsert _ e ps).append_right es).trans ?_)
    exact perm_middle.symm

variable {auth : Authority}

theorem mem_metaPermissions {mp : MetaPermission} : mp ∈ auth.metaPermissions ↔ mp ∈ auth.entries :=
  auth.metaPermissions_perm.mem_iff

theorem account_mem_entries {a : PermissionLevelWeight} :
    account a ∈ auth.entries ↔ a ∈ auth.accounts := by
  simp [entries]

def validate (auth : Authority) : Bool :=
  decide (auth.keys.length + auth.accounts.length + auth.waits.length ≤ 2 ^ 16) &&
  decide (auth.threshold ≠ 0) &&
  decide ((auth.keys.map KeyWeight.key).IsChain (· < ·)) &&
  decide ((auth.accounts.map PermissionLevelWeight.permission).IsChain (· < ·)) &&
  decide (auth.waits.head?.map WaitWeight.waitSec ≠ some 0) &&
  decide ((auth.waits.map WaitWeight.waitSec).IsChain (· < ·)) &&
  decide (auth.threshold.toNat ≤ (auth.keys.map KeyWeight.weight ++
    auth.accounts.map PermissionLevelWeight.weight ++ auth.waits.map WaitWeight.weight).foldl
      (fun total weight => u32 (total + weight.toNat)) 0)

/-- The weights of any entries sum up without wrapping around. -/
def Fits (auth : Authority) : Prop := (auth.entries.map weight).sum < 2 ^ 32

theorem fits_of_validate (h : auth.validate = true) : auth.Fits := by
  have hlength : auth.entries.length ≤ 2 ^ 16 := by
    simp only [validate, Bool.and_eq_true, decide_eq_true_eq] at h
    simp only [entries, length_append, length_map]
    omega
  have hsum : (auth.entries.map weight).sum ≤ auth.entries.length * (2 ^ 16 - 1) := by
    have := sum_le_card_nsmul (auth.entries.map weight) (2 ^ 16 - 1) (by
      intro w hw
      obtain ⟨mp, -, rfl⟩ := mem_map.mp hw
      exact Nat.le_sub_one_of_lt mp.weight_lt)
    simpa using this
  unfold Fits
  omega

end Authority

/-! ## Permissions -/

/-- `permission_object`; the owner and the name are its key. -/
structure PermissionObject where
  id : ℕ
  parent : ℕ
  auth : Authority
deriving DecidableEq

abbrev PermissionIndex := Table PermissionLevel PermissionObject

namespace PermissionIndex

/-- What `get_permission` and `find_permission` say to an empty name. -/
def invalid : ChainException := ⟨.invalidPermission, "Invalid permission"⟩

/-- `authorization_manager::get_permission`.  What is not a chain exception already is rethrown
as a `permission_query_exception`. -/
def getPermission (permissions : PermissionIndex) (level : PermissionLevel) :
    Result PermissionObject :=
  if level.actor.empty || level.permission.empty then .error invalid
  else
    match permissions.lookup level with
    | some permission => .ok permission
    | none => .error ⟨.permissionQueryException, "Failed to retrieve permission: ${level}"⟩

end PermissionIndex

/-! ## The checker -/

inductive PermissionCacheStatus where
  | beingEvaluated
  | permissionUnsatisfied
  | permissionSatisfied
deriving DecidableEq

abbrev PermissionCache := Table PermissionLevel PermissionCacheStatus

/-- `permission_status_in_cache`: the entry of the permission, else the one of
its actor with an empty permission name. -/
def permissionStatusInCache (permissions : PermissionCache) (level : PermissionLevel) :
    Option PermissionCacheStatus :=
  match permissions.lookup level with
  | some status => some status
  | none => permissions.lookup ⟨level.actor, 0⟩

/-- The members of `authority_checker` that a check does not change; the delay
in microseconds. -/
structure AuthorityChecker where
  permissions : PermissionIndex
  recursionDepthLimit : UInt16
  providedKeys : Finset PublicKey
  providedPermissions : Finset PermissionLevel := ∅
  providedDelay : ℤ := 0

/-- What a check changes: the marks of the provided keys and the cache. -/
structure CheckState where
  usedKeys : Finset PublicKey
  cachedPermissions : PermissionCache

def CheckState.withStatus (s : CheckState) (level : PermissionLevel)
    (status : PermissionCacheStatus) : CheckState :=
  { s with cachedPermissions := s.cachedPermissions.insert level status }

namespace AuthorityChecker

variable (c : AuthorityChecker)

/-- `override_provided_delay`. -/
def withDelay (delay : ℤ) : AuthorityChecker := { c with providedDelay := delay }

/-- The function that the authorization manager passes, `get_permission(p).auth`.
The exception of a missing permission is caught where it is called.  An empty name, which no
stored authority has, counts as missing too; the source would throw `invalid_permission`. -/
def permissionToAuthority (level : PermissionLevel) : Option Authority :=
  ((c.permissions.getPermission level).toOption).map PermissionObject.auth

def initializePermissionCache : PermissionCache :=
  Table.fill c.providedPermissions .permissionSatisfied

/-- The three calls of `weight_tally_visitor`: does the entry add its weight?
Account permissions and marks are left to the caller. -/
def visit {m : Type → Type} [Monad m] (markUsed : PublicKey → m Unit)
    (visitPermission : PermissionLevel → m Bool) : MetaPermission → m Bool
  | .wait permission => pure (decide (permission.waitSec.toNat * 1000000 ≤ c.providedDelay))
  | .key permission =>
    if permission.key ∈ c.providedKeys then do
      markUsed permission.key
      pure true
    else
      pure false
  | .account permission => visitPermission permission.permission

/-- The loop of `satisfied( authority, … )`, with the 32-bit sum of the visitor. -/
def tallyEntries {m : Type → Type} [Monad m] (markUsed : PublicKey → m Unit)
    (visitPermission : PermissionLevel → m Bool) (auth : Authority) : m Bool :=
  tally weight (fun total weight => u32 (total + weight)) auth.threshold.toNat
    (c.visit markUsed visitPermission) auth.metaPermissions 0

def markUsedKey (key : PublicKey) : StateM CheckState Unit :=
  modify fun s => { s with usedKeys := insert key s.usedKeys }

/-- `satisfied( authority, cached_permissions, depth )`: the marks are taken
back if the authority is not satisfied, the cache stays. -/
def satisfiedAuthority (visitPermission : PermissionLevel → StateM CheckState Bool)
    (auth : Authority) : StateM CheckState Bool := do
  let keys := (← get).usedKeys
  let r ← c.tallyEntries markUsedKey visitPermission auth
  unless r do
    modify fun s => { s with usedKeys := keys }
  pure r

def setStatus (level : PermissionLevel) (status : PermissionCacheStatus) : StateM CheckState Unit :=
  modify fun s => s.withStatus level status

/-- The visitor at an account permission, with as many levels left as the
recursion depth is below the limit: is the permission satisfied? -/
def visitPermission : ℕ → PermissionLevel → StateM CheckState Bool
  | 0, level => do
      let s ← get
      pure (permissionStatusInCache s.cachedPermissions level = some .permissionSatisfied)
  | remaining + 1, level => do
      let s ← get
      match permissionStatusInCache s.cachedPermissions level with
      | some status => pure (status = .permissionSatisfied)
      | none =>
        match c.permissionToAuthority level with
        -- if the permission doesn't exist, continue without it
        | none => pure false
        | some auth => do
            setStatus level .beingEvaluated
            let r ← c.satisfiedAuthority (visitPermission remaining) auth
            setStatus level (if r then .permissionSatisfied else .permissionUnsatisfied)
            pure r

/-- `satisfied( permission )` with a cache of its own, from the marks left by
earlier calls: the verdict and the marks. -/
def satisfied (level : PermissionLevel) (usedKeys : Finset PublicKey) : Bool × Finset PublicKey :=
  let (r, s) := c.visitPermission c.recursionDepthLimit.toNat level
    ⟨usedKeys, c.initializePermissionCache⟩
  (r, s.usedKeys)

/-! ## The evaluation without the cache -/

def Provided (level : PermissionLevel) : Prop :=
  level ∈ c.providedPermissions ∨ ⟨level.actor, 0⟩ ∈ c.providedPermissions

instance (level : PermissionLevel) : Decidable (c.Provided level) := by
  unfold Provided
  infer_instance

/-- Each account permission is evaluated where it occurs.  One that is being
evaluated already counts as unsatisfied. -/
def visitUncached : ℕ → List PermissionLevel → PermissionLevel → Marked (Finset PublicKey) Bool
  | remaining, path, level =>
    if c.Provided level then pure true
    else if level ∈ path then pure false
    else
      match remaining, c.permissionToAuthority level with
      | remaining + 1, some auth =>
        (c.tallyEntries (fun key => .mark {key})
          (visitUncached remaining (level :: path)) auth).revert
      | _, _ => pure false

def satisfiedUncached (level : PermissionLevel) (usedKeys : Finset PublicKey) :
    Bool × Finset PublicKey :=
  let r := c.visitUncached c.recursionDepthLimit.toNat [] level
  (r.value, usedKeys ∪ r.marks)

/-- The evaluation that has no answer if it meets a permission of the database
at the depth limit, or one that is being evaluated already. -/
def evaluate : ℕ → List PermissionLevel → PermissionLevel → Option Bool
  | remaining, path, level =>
    if c.Provided level then some true
    else if level ∈ path then none
    else
      match remaining, c.permissionToAuthority level with
      | _, none => some false
      | 0, some _ => none
      | remaining + 1, some auth =>
        c.tallyEntries (fun _ => some ()) (evaluate remaining (level :: path)) auth

/-- The evaluation of a permission is not cut off: it meets neither the depth
limit nor a cycle. -/
def Completes (level : PermissionLevel) : Prop :=
  c.evaluate c.recursionDepthLimit.toNat [] level ≠ none

instance (level : PermissionLevel) : Decidable (c.Completes level) := by
  unfold Completes
  infer_instance

end AuthorityChecker

end Inery.Chain
