import Inery.Chain.AuthorityCache

/-!
# The keys a check marks as used

The marks made for an authority are taken back if it is not satisfied, while the verdicts on the
permissions below it stay in the cache: such a permission can be counted later on without its keys
being marked again.  If no permission is reached along two paths, the cache plays no part, and the
check succeeds with just the marked keys and marks all of them.
-/

namespace Inery.Chain

open Foundation List Finset Marked Authority

namespace AuthorityChecker

variable (c : AuthorityChecker)

/-! ## Shared permissions -/

/-- The permission is not provided, and an authority of it refers to another one. -/
def Delegates (level q : PermissionLevel) : Prop :=
  ¬ c.Provided level ∧ ∃ auth a, c.permissionToAuthority level = some auth ∧
    a ∈ auth.accounts ∧ a.permission = q

def Below : PermissionLevel → PermissionLevel → Prop := Relation.ReflTransGen c.Delegates

def Evaluable (level : PermissionLevel) : Prop :=
  ¬ c.Provided level ∧ c.permissionToAuthority level ≠ none

variable {c} {c' : AuthorityChecker} {level : PermissionLevel} {auth : Authority} {s : CheckState}
  {n : ℕ} {path : List PermissionLevel} {a : PermissionLevelWeight}

variable (c) in
/-- Nothing that can be evaluated lies below both entries. -/
def Apart (e e' : MetaPermission) : Prop :=
  ∀ a a', e = .account a → e' = .account a' → ∀ r, c.Below a.permission r →
    c.Below a'.permission r → ¬ c.Evaluable r

variable (c) in
/-- Nothing is known about what lies below the permission. -/
def Untouched (level : PermissionLevel) (cache : PermissionCache) : Prop :=
  ∀ r, c.Below level r → ¬ c.Provided r → cache.lookup r = none

variable (c) in
/-- Only what can be evaluated below the permission has changed. -/
def TouchesBelow (level : PermissionLevel) (cache cache' : PermissionCache) : Prop :=
  ∀ r, ¬ (c.Below level r ∧ c.Evaluable r) → cache'.lookup r = cache.lookup r

variable (c) in
/-- The loop of an authority, in step with the one without the cache: what the
entries left refer to has not been touched. -/
structure InStep (auth : Authority) (s : CheckState) (es : List MetaPermission)
    (marks : Finset PublicKey) (t : CheckState) : Prop where
  used : t.usedKeys = s.usedKeys ∪ marks
  fits : c.CacheFits t.cachedPermissions
  accounts : ∀ a, .account a ∈ es → a ∈ auth.accounts
  apart : es.Pairwise c.Apart
  untouched : ∀ a, .account a ∈ es → c.Untouched a.permission t.cachedPermissions
  touches : ∀ r, (∀ a ∈ auth.accounts, ¬ (c.Below a.permission r ∧ c.Evaluable r)) →
    t.cachedPermissions.lookup r = s.cachedPermissions.lookup r

variable (c) in
/-- A visit with the cache does the same as one without. -/
structure SameVisit (level : PermissionLevel) (s : CheckState)
    (plain : Marked (Finset PublicKey) Bool) (x : Bool × CheckState) : Prop where
  verdict : x.1 = plain.value
  used : x.2.usedKeys = s.usedKeys ∪ plain.marks
  fits : c.CacheFits x.2.cachedPermissions
  touches : c.TouchesBelow level s.cachedPermissions x.2.cachedPermissions

variable {es : List MetaPermission} {marks : Finset PublicKey} {t : CheckState} {e : MetaPermission}

theorem InStep.mark (h : c.InStep auth s (e :: es) marks t) {keys used : Finset PublicKey}
    (hused : used = t.usedKeys ∪ keys) :
    c.InStep auth s es (marks ∪ keys) { t with usedKeys := used } where
  used := by
    show used = _
    rw [hused, h.used, union_assoc]
  fits := h.fits
  accounts := fun a ha => h.accounts a (mem_cons_of_mem e ha)
  apart := h.apart.of_cons
  untouched := fun a ha => h.untouched a (mem_cons_of_mem e ha)
  touches := h.touches

theorem InStep.account {plain : Marked (Finset PublicKey) Bool} {x : Bool × CheckState}
    (h : c.InStep auth s (.account a :: es) marks t) (hx : c.SameVisit a.permission t plain x) :
    c.InStep auth s es (marks ⊔ plain.marks) x.2 where
  used := by
    show x.2.usedKeys = s.usedKeys ∪ (marks ∪ plain.marks)
    rw [hx.used, h.used, union_assoc]
  fits := hx.fits
  accounts := fun b hb => h.accounts b (mem_cons_of_mem _ hb)
  apart := h.apart.of_cons
  untouched := by
    intro b hb r hr hp
    have hapart := rel_of_pairwise_cons h.apart hb
    rw [hx.touches r fun hra => hapart a b rfl rfl r hra.1 hr hra.2]
    exact h.untouched b (mem_cons_of_mem _ hb) r hr hp
  touches := by
    intro r hr
    rw [hx.touches r (hr a (h.accounts a mem_cons_self))]
    exact h.touches r hr

variable {keys : Finset PublicKey}

end AuthorityChecker

end Inery.Chain
