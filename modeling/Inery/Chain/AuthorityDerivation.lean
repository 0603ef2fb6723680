import Inery.Chain.AuthorityChecker

/-!
# What a satisfied permission means

A derivation is a tree: its leaves are provided permissions, and at every other node the provided
keys, the waits within the delay and the permissions derived below carry the weight of an authority.
The checker accepts a permission only if there is such a tree.  The proof keeps the permissions in
the order in which they were found satisfied, since each rests on those before it.  The depth of the
tree is not bounded by the limit: a verdict may be used again further down.
-/

namespace Inery.Chain

open Foundation List Finmap Table MetaPermission

namespace AuthorityChecker

variable (c : AuthorityChecker)

/-! ## Derivations -/

/-- The permission is reached from `root` by following account permissions of
authorities `depth` times. -/
inductive Delegated (root : PermissionLevel) : ℕ → PermissionLevel → Prop
  | root : Delegated root 0 root
  | step {depth : ℕ} {level : PermissionLevel} {auth : Authority} {a : PermissionLevelWeight} :
      Delegated root depth level → c.permissionToAuthority level = some auth →
      a ∈ auth.accounts → Delegated root (depth + 1) a.permission

/-- Derivation trees of bounded height.  `above` is the path from the root, and
`allowed` restricts which authority may stand below which path. -/
inductive Derivation (allowed : List PermissionLevel → PermissionLevel → Prop) :
    List PermissionLevel → ℕ → PermissionLevel → Prop
  | provided {above : List PermissionLevel} {height : ℕ} {level : PermissionLevel} :
      c.Provided level → Derivation allowed above (height + 1) level
  | authority {above : List PermissionLevel} {height : ℕ} {level : PermissionLevel}
      {auth : Authority} {counted : List MetaPermission} :
      allowed above level → c.permissionToAuthority level = some auth →
      counted.Subperm auth.entries →
      auth.threshold.toNat ≤ (counted.map weight).sum →
      (∀ k, .key k ∈ counted → k.key ∈ c.providedKeys) →
      (∀ w, .wait w ∈ counted → (w.waitSec.toNat * 1000000 : ℤ) ≤ c.providedDelay) →
      (∀ a, .account a ∈ counted → Derivation allowed (level :: above) height a.permission) →
      Derivation allowed above (height + 1) level

variable {c}

variable {above : List PermissionLevel} {level : PermissionLevel}

theorem Derivation.mono {allowed : List PermissionLevel → PermissionLevel → Prop} {h h' : ℕ}
    (hle : h ≤ h') (hd : c.Derivation allowed above h level) :
    c.Derivation allowed above h' level := by
  induction hd generalizing h' with
  | provided hp =>
    obtain ⟨k, rfl⟩ := Nat.exists_eq_add_of_le hle
    rw [show ∀ n, n + 1 + k = (n + k) + 1 by omega]
    exact .provided hp
  | authority hallowed hauth hsub hsum hkeys hwaits _ ih =>
    obtain ⟨k, rfl⟩ := Nat.exists_eq_add_of_le hle
    rw [show ∀ n, n + 1 + k = (n + k) + 1 by omega]
    exact .authority hallowed hauth hsub hsum hkeys hwaits
      fun a ha => ih a ha (Nat.le_add_right _ _)

variable (c)

def grants (derived : PermissionLevel → Bool) : MetaPermission → Bool
  | .wait permission => decide (permission.waitSec.toNat * 1000000 ≤ c.providedDelay)
  | .key permission => decide (permission.key ∈ c.providedKeys)
  | .account permission => derived permission.permission

/-- Is there a derivation of this height? -/
def derivable : ℕ → PermissionLevel → Bool
  | 0, _ => false
  | height + 1, level => decide (c.Provided level) ||
      match c.permissionToAuthority level with
      | none => false
      | some auth => decide (auth.threshold.toNat ≤
          ((auth.entries.filter (c.grants (derivable height))).map weight).sum)

variable {c}

theorem sum_weight_le {counted entries : List MetaPermission} (h : counted.Subperm entries) :
    (counted.map weight).sum ≤ (entries.map weight).sum := by
  obtain ⟨counted', hperm, hsub⟩ := h
  rw [← (hperm.map weight).sum_eq]
  exact (hsub.map weight).sum_le_sum fun _ _ => Nat.zero_le _

theorem derivable_of_derivation {allowed : List PermissionLevel → PermissionLevel → Prop}
    {height : ℕ} (h : c.Derivation allowed above height level) :
    c.derivable height level = true := by
  induction h with
  | provided hp => simp [derivable, hp]
  | @authority above height level auth counted _ hauth hsub hsum hkeys hwaits _ ih =>
    have hgrants : ∀ e ∈ counted, c.grants (c.derivable height) e = true := by
      intro e he
      cases e with
      | account a => exact ih a he
      | key k => exact decide_eq_true (hkeys k he)
      | wait w => exact decide_eq_true (hwaits w he)
    have hsub' : counted.Subperm (auth.entries.filter (c.grants (c.derivable height))) := by
      have hfilter := hsub.filter (c.grants (c.derivable height))
      rwa [filter_eq_self.mpr hgrants] at hfilter
    simp only [derivable, hauth, Bool.or_eq_true, decide_eq_true_eq]
    exact .inr (hsum.trans (sum_weight_le hsub'))

/-! ## The cache -/

theorem permissionToAuthority_eq_some {auth : Authority}
    (h : c.permissionToAuthority level = some auth) :
    level.permission ≠ 0 ∧ level ∈ c.permissions.keys := by
  unfold permissionToAuthority PermissionIndex.getPermission at h
  split at h
  · cases h
  · next hempty =>
    split at h
    · next permission hlookup =>
      refine ⟨?_, mem_keys.mpr (mem_of_lookup hlookup)⟩
      intro hzero
      simp [Name.empty, hzero] at hempty
    · cases h

variable (c)

/-- Where a permission is provided, or has no name, the cache is as it was initialized. -/
def CacheFits (cache : PermissionCache) : Prop :=
  ∀ level, c.Provided level ∨ level.permission = 0 →
    cache.lookup level = c.initializePermissionCache.lookup level

variable {c}

theorem CacheFits.initial : c.CacheFits c.initializePermissionCache := fun _ _ => rfl

variable {cache : PermissionCache}

theorem CacheFits.insert {auth : Authority} {status : PermissionCacheStatus}
    (h : c.CacheFits cache) (hauth : c.permissionToAuthority level = some auth)
    (hlevel : ¬ c.Provided level) : c.CacheFits (cache.insert level status) := by
  intro q hq
  rw [lookup_insert_ite, if_neg]
  · exact h q hq
  · rintro rfl
    rcases hq with hq | hq
    · exact hlevel hq
    · exact (permissionToAuthority_eq_some hauth).1 hq

theorem CacheFits.status_of_provided (h : c.CacheFits cache) (hlevel : c.Provided level) :
    permissionStatusInCache cache level = some .permissionSatisfied := by
  have hinit := lookup_fill c.providedPermissions PermissionCacheStatus.permissionSatisfied
  unfold permissionStatusInCache
  rw [h level (.inl hlevel), initializePermissionCache, hinit]
  by_cases hmem : level ∈ c.providedPermissions
  · rw [if_pos hmem]
  · rw [if_neg hmem]
    show cache.lookup ⟨level.actor, 0⟩ = _
    rw [h ⟨level.actor, 0⟩ (.inr rfl), initializePermissionCache, hinit,
      if_pos (hlevel.resolve_left hmem)]

theorem CacheFits.status_of_not_provided (h : c.CacheFits cache) (hlevel : ¬ c.Provided level) :
    permissionStatusInCache cache level = cache.lookup level := by
  have hinit := lookup_fill c.providedPermissions PermissionCacheStatus.permissionSatisfied
  unfold permissionStatusInCache
  cases hlookup : cache.lookup level with
  | some status => rfl
  | none =>
    show cache.lookup ⟨level.actor, 0⟩ = none
    rw [h ⟨level.actor, 0⟩ (.inr rfl), initializePermissionCache, hinit,
      if_neg fun hmem => hlevel (.inr hmem)]

/-- No entry is lost or changed. -/
def CacheExtends (cache cache' : PermissionCache) : Prop :=
  ∀ level status, cache.lookup level = some status → cache'.lookup level = some status

theorem CacheExtends.refl (cache : PermissionCache) : CacheExtends cache cache :=
  fun _ _ h => h

theorem CacheExtends.trans {a b d : PermissionCache} (hab : CacheExtends a b)
    (hbd : CacheExtends b d) : CacheExtends a d :=
  fun level status h => hbd level status (hab level status h)

/-! ## Runs of the visitor -/

variable {visitor : PermissionLevel → StateM CheckState Bool} {auth : Authority} {s : CheckState}
  {level : PermissionLevel} {n : ℕ}

theorem satisfiedAuthority_run : c.satisfiedAuthority visitor auth s =
    ((c.tallyEntries markUsedKey visitor auth s).1,
      if (c.tallyEntries markUsedKey visitor auth s).1 then
        (c.tallyEntries markUsedKey visitor auth s).2
      else
        { (c.tallyEntries markUsedKey visitor auth s).2 with usedKeys := s.usedKeys }) := by
  show (let x := c.tallyEntries markUsedKey visitor auth s
    (do
      unless x.1 do
        modify fun s' : CheckState => { s' with usedKeys := s.usedKeys }
      pure x.1 : StateM CheckState Bool) x.2) = _
  cases h : (c.tallyEntries markUsedKey visitor auth s).1 <;> simp [h] <;> rfl

theorem satisfiedAuthority_verdict : (c.satisfiedAuthority visitor auth s).1 =
    (c.tallyEntries markUsedKey visitor auth s).1 := by
  rw [satisfiedAuthority_run]

theorem satisfiedAuthority_cache : (c.satisfiedAuthority visitor auth s).2.cachedPermissions =
    (c.tallyEntries markUsedKey visitor auth s).2.cachedPermissions := by
  rw [satisfiedAuthority_run]
  split <;> rfl

theorem run_get_bind {α : Type} (f : CheckState → StateM CheckState α) (s : CheckState) :
    (get >>= f) s = f s s := rfl

theorem visitPermission_of_status {status : PermissionCacheStatus}
    (h : permissionStatusInCache s.cachedPermissions level = some status) :
    c.visitPermission n level s = (decide (status = .permissionSatisfied), s) := by
  cases n with
  | zero =>
    show (decide (permissionStatusInCache s.cachedPermissions level = _), s) = _
    rw [h]
    simp
  | succ n =>
    rw [visitPermission, run_get_bind, h]
    rfl

theorem visitPermission_of_none (h : permissionStatusInCache s.cachedPermissions level = none)
    (hauth : n = 0 ∨ c.permissionToAuthority level = none) :
    c.visitPermission n level s = (false, s) := by
  cases n with
  | zero =>
    show (decide (permissionStatusInCache s.cachedPermissions level = _), s) = _
    rw [h]
    simp
  | succ n =>
    rw [visitPermission, run_get_bind, h, hauth.resolve_left (Nat.succ_ne_zero n)]
    rfl

variable (c) in
def evaluation (n : ℕ) (level : PermissionLevel) (auth : Authority) (s : CheckState) :
    Bool × CheckState :=
  c.satisfiedAuthority (c.visitPermission n) auth (s.withStatus level .beingEvaluated)

theorem visitPermission_of_authority (h : permissionStatusInCache s.cachedPermissions level = none)
    (hauth : c.permissionToAuthority level = some auth) :
    c.visitPermission (n + 1) level s =
      ((c.evaluation n level auth s).1, (c.evaluation n level auth s).2.withStatus level
        (if (c.evaluation n level auth s).1 then .permissionSatisfied
        else .permissionUnsatisfied)) := by
  rw [visitPermission, run_get_bind, h, hauth]
  rfl

/-- **What a visit can do.** The permission is provided, or in the cache, or
not to be evaluated; or it is evaluated. -/
theorem visitPermission_cases (hfits : c.CacheFits s.cachedPermissions) (n : ℕ)
    (level : PermissionLevel) :
    (c.Provided level ∧ c.visitPermission n level s = (true, s)) ∨
    (¬ c.Provided level ∧ ∃ status, s.cachedPermissions.lookup level = some status ∧
      c.visitPermission n level s = (decide (status = .permissionSatisfied), s)) ∨
    (¬ c.Provided level ∧ s.cachedPermissions.lookup level = none ∧
      (n = 0 ∨ c.permissionToAuthority level = none) ∧
      c.visitPermission n level s = (false, s)) ∨
    (¬ c.Provided level ∧ s.cachedPermissions.lookup level = none ∧
      ∃ m auth, n = m + 1 ∧ c.permissionToAuthority level = some auth ∧
        c.visitPermission n level s =
          ((c.evaluation m level auth s).1, (c.evaluation m level auth s).2.withStatus level
            (if (c.evaluation m level auth s).1 then .permissionSatisfied
            else .permissionUnsatisfied))) := by
  by_cases hp : c.Provided level
  · exact .inl ⟨hp, visitPermission_of_status (hfits.status_of_provided hp)⟩
  have hstatus := hfits.status_of_not_provided hp
  cases hlookup : s.cachedPermissions.lookup level with
  | some status =>
    exact .inr (.inl ⟨hp, status, rfl, visitPermission_of_status (hstatus.trans hlookup)⟩)
  | none =>
    rw [hlookup] at hstatus
    cases hauth : c.permissionToAuthority level with
    | none =>
      exact .inr (.inr (.inl ⟨hp, rfl, .inr rfl, visitPermission_of_none hstatus (.inr hauth)⟩))
    | some auth =>
      cases n with
      | zero =>
        exact .inr (.inr (.inl ⟨hp, rfl, .inl rfl, visitPermission_of_none hstatus (.inl rfl)⟩))
      | succ m =>
        exact .inr (.inr (.inr ⟨hp, rfl, m, auth, rfl, rfl,
          visitPermission_of_authority hstatus hauth⟩))

/-! ## Soundness -/

variable (c)

/-- Permissions found satisfied, the last one first: each rests on provided
keys and permissions, waits, and the permissions found before it. -/
inductive Found (root : PermissionLevel) : List PermissionLevel → Prop
  | nil : Found root []
  | cons {found : List PermissionLevel} {depth : ℕ} {level : PermissionLevel} {auth : Authority}
      {counted : List MetaPermission} :
      Found root found → level ∉ found → depth < c.recursionDepthLimit.toNat →
      c.Delegated root depth level → c.permissionToAuthority level = some auth →
      counted.Subperm auth.entries →
      auth.threshold.toNat ≤ (counted.map weight).sum →
      (∀ k, .key k ∈ counted → k.key ∈ c.providedKeys) →
      (∀ w, .wait w ∈ counted → (w.waitSec.toNat * 1000000 : ℤ) ≤ c.providedDelay) →
      (∀ a, .account a ∈ counted → c.Provided a.permission ∨ a.permission ∈ found) →
      Found root (level :: found)

/-- No permission stands below itself, and every authority belongs to a
permission that the evaluation can reach. -/
def LoopFree (root : PermissionLevel) (above : List PermissionLevel) (level : PermissionLevel) :
    Prop :=
  level ∉ above ∧ ∃ depth < c.recursionDepthLimit.toNat, c.Delegated root depth level

/-- The cache says what has been found. -/
structure SoundCache (root : PermissionLevel) (cache : PermissionCache) : Prop where
  fits : c.CacheFits cache
  found : ∃ found, c.Found root found ∧ ∀ level, ¬ c.Provided level →
    (cache.lookup level = some .permissionSatisfied ↔ level ∈ found)

variable {c} {root : PermissionLevel}

theorem Found.derivation {found : List PermissionLevel} (h : c.Found root found)
    (habove : ∀ p ∈ found, p ∉ above) (hlevel : level ∈ found) :
    c.Derivation (c.LoopFree root) above (found.length + 1) level := by
  induction h generalizing above level with
  | nil => exact absurd hlevel not_mem_nil
  | @cons found depth p auth counted _ hnew hdepth hdel hauth hsub hsum hkeys hwaits haccounts ih =>
    rw [forall_mem_cons] at habove
    rcases mem_cons.mp hlevel with rfl | hlevel
    · refine .authority ⟨habove.1, depth, hdepth, hdel⟩ hauth hsub hsum hkeys hwaits ?_
      intro a ha
      rcases haccounts a ha with hp | hfound
      · exact .provided hp
      · refine ih (fun p hp hmem => ?_) hfound
        rcases mem_cons.mp hmem with rfl | hmem
        · exact hnew hp
        · exact habove.2 p hp hmem
    · exact (ih habove.2 hlevel).mono (Nat.le_succ _)

theorem Found.length_le {found : List PermissionLevel} (h : c.Found root found) :
    found.length ≤ c.permissions.keys.card := by
  have hfacts : found.Nodup ∧ ∀ p ∈ found, p ∈ c.permissions.keys := by
    induction h with
    | nil => exact ⟨nodup_nil, nofun⟩
    | cons _ hnew _ _ hauth _ _ _ _ _ ih =>
      exact ⟨nodup_cons.mpr ⟨hnew, ih.1⟩,
        forall_mem_cons.mpr ⟨(permissionToAuthority_eq_some hauth).2, ih.2⟩⟩
  rw [← toFinset_card_of_nodup hfacts.1]
  exact Finset.card_le_card fun p hp => hfacts.2 p (mem_toFinset.mp hp)

theorem SoundCache.insert {status : PermissionCacheStatus} (h : c.SoundCache root cache)
    (hauth : c.permissionToAuthority level = some auth) (hlevel : ¬ c.Provided level)
    (hold : cache.lookup level ≠ some .permissionSatisfied)
    (hnew : status ≠ .permissionSatisfied) : c.SoundCache root (cache.insert level status) := by
  obtain ⟨found, hfound, hiff⟩ := h.found
  refine ⟨h.fits.insert hauth hlevel, found, hfound, fun q hq => ?_⟩
  rw [lookup_insert_ite]
  split
  · next heq =>
    subst heq
    rw [← hiff q hq]
    simp [hold, hnew]
  · exact hiff q hq

variable (c) in
/-- What an entry that adds its weight rests on. -/
def Supported (cache : PermissionCache) : MetaPermission → Prop
  | .wait w => (w.waitSec.toNat * 1000000 : ℤ) ≤ c.providedDelay
  | .key k => k.key ∈ c.providedKeys
  | .account a => c.Provided a.permission ∨
      cache.lookup a.permission = some .permissionSatisfied

variable {e : MetaPermission}

theorem Supported.extends {cache' : PermissionCache} (h : c.Supported cache e)
    (hext : CacheExtends cache cache') : c.Supported cache' e := by
  cases e with
  | wait w => exact h
  | key k => exact h
  | account a => exact h.imp_right (hext _ _)

theorem SoundCache.satisfied {depth : ℕ} {counted : List MetaPermission}
    (h : c.SoundCache root cache) (hdepth : depth < c.recursionDepthLimit.toNat)
    (hdel : c.Delegated root depth level) (hauth : c.permissionToAuthority level = some auth)
    (hlevel : ¬ c.Provided level) (hopen : cache.lookup level = some .beingEvaluated)
    (hsub : counted.Subperm auth.entries) (hsum : auth.threshold.toNat ≤ (counted.map weight).sum)
    (hsupported : ∀ e ∈ counted, c.Supported cache e) :
    c.SoundCache root (cache.insert level .permissionSatisfied) := by
  obtain ⟨found, hfound, hiff⟩ := h.found
  have hnew : level ∉ found := by
    rw [← hiff level hlevel, hopen]
    simp
  refine ⟨h.fits.insert hauth hlevel, level :: found, ?_, fun q hq => ?_⟩
  · refine hfound.cons hnew hdepth hdel hauth hsub hsum (fun k hk => hsupported _ hk)
      (fun w hw => hsupported _ hw) fun a ha => ?_
    rcases hsupported _ ha with hp | hsat
    · exact .inl hp
    · by_cases hp : c.Provided a.permission
      · exact .inl hp
      · exact .inr ((hiff _ hp).mp hsat)
  · rw [lookup_insert_ite, mem_cons]
    split
    · next heq => simp [heq]
    · next hne =>
      rw [hiff q hq]
      exact ⟨.inr, fun h => h.resolve_left hne⟩

variable (c) in
/-- A visit is sound: it keeps the cache sound, loses no entry, and accepts
only what is supported afterwards. -/
def SoundVisit (root : PermissionLevel) (e : MetaPermission) (s : CheckState)
    (x : Bool × CheckState) : Prop :=
  c.SoundCache root x.2.cachedPermissions ∧
  CacheExtends s.cachedPermissions x.2.cachedPermissions ∧
  (x.1 = true → c.Supported x.2.cachedPermissions e)

variable (hs : c.SoundCache root s.cachedPermissions)
include hs

theorem SoundVisit.unchanged {b : Bool} (h : b = true → c.Supported s.cachedPermissions e) :
    c.SoundVisit root e s (b, s) :=
  ⟨hs, .refl _, h⟩

theorem visit_sound
    (hvisitor : ∀ a, e = .account a → c.SoundVisit root e s (visitor a.permission s)) :
    c.SoundVisit root e s (c.visit markUsedKey visitor e s) := by
  cases e with
  | wait w => exact .unchanged hs fun h => by simpa [Supported] using h
  | key k =>
    by_cases hk : k.key ∈ c.providedKeys
    · simp only [visit, if_pos hk]
      exact ⟨hs, .refl _, fun _ => hk⟩
    · simp only [visit, if_neg hk]
      exact .unchanged hs fun h => by cases h
  | account a => exact hvisitor a rfl

theorem tallyEntries_sound
    (hvisitor : ∀ a ∈ auth.accounts, ∀ t, c.SoundCache root t.cachedPermissions →
      c.SoundVisit root (.account a) t (visitor a.permission t)) :
    c.SoundCache root (c.tallyEntries markUsedKey visitor auth s).2.cachedPermissions ∧
    CacheExtends s.cachedPermissions
      (c.tallyEntries markUsedKey visitor auth s).2.cachedPermissions ∧
    ((c.tallyEntries markUsedKey visitor auth s).1 = true →
      ∃ counted : List MetaPermission, counted.Subperm auth.entries ∧
        auth.threshold.toNat ≤ (counted.map weight).sum ∧
        ∀ e ∈ counted, c.Supported
          (c.tallyEntries markUsedKey visitor auth s).2.cachedPermissions e) := by
  have hvisit : ∀ e ∈ auth.metaPermissions, ∀ t, c.SoundCache root t.cachedPermissions →
      c.SoundVisit root e t (c.visit markUsedKey visitor e t) := by
    intro e he t ht
    refine visit_sound ht fun a ha => ?_
    subst ha
    exact hvisitor a (Authority.account_mem_entries.mp (Authority.mem_metaPermissions.mp he)) t ht
  let I : CheckState → Prop := fun t => c.SoundCache root t.cachedPermissions ∧
    CacheExtends s.cachedPermissions t.cachedPermissions
  have hI : ∀ e ∈ auth.metaPermissions, ∀ t, I t → I (c.visit markUsedKey visitor e t).2 :=
    fun e he t ht => ⟨(hvisit e he t ht.1).1, ht.2.trans (hvisit e he t ht.1).2.1⟩
  have hstart : I s := ⟨hs, .refl _⟩
  have hkept : I (c.tallyEntries markUsedKey visitor auth s).2 := tally_invariant I hI hstart
  refine ⟨hkept.1, hkept.2, fun htrue => ?_⟩
  obtain ⟨counted, hsub, hsum, hsupported⟩ := tally_counted (fun a b => Nat.mod_le _ _) I
    (fun t e => c.Supported t.cachedPermissions e)
    (fun e he t ht => ⟨hI e he t ht, fun e' he' => he'.extends (hvisit e he t ht.1).2.1,
      (hvisit e he t ht.1).2.2⟩) hstart (Prod.ext htrue rfl)
  rw [Nat.zero_add] at hsum
  exact ⟨counted, hsub.subperm.trans auth.metaPermissions_perm.subperm, hsum, hsupported⟩

omit hs

/-- **The visitor is sound.** It keeps the cache sound, changes no entry, and
a permission that it accepts is provided or has been found. -/
theorem visitPermission_sound (n : ℕ) (hn : n ≤ c.recursionDepthLimit.toNat)
    (hs : c.SoundCache root s.cachedPermissions) {a : PermissionLevelWeight}
    (hlevel : c.Delegated root (c.recursionDepthLimit.toNat - n) a.permission) :
    c.SoundVisit root (.account a) s (c.visitPermission n a.permission s) := by
  induction n using Nat.strong_induction_on generalizing a s with
  | h n ih =>
    rcases visitPermission_cases hs.fits n a.permission with ⟨hp, hrun⟩ |
      ⟨hp, status, hlookup, hrun⟩ | ⟨hp, hlookup, -, hrun⟩ |
      ⟨hp, hlookup, m, auth, rfl, hauth, hrun⟩
    · rw [hrun]
      exact .unchanged hs fun _ => .inl hp
    · rw [hrun]
      refine .unchanged hs fun hsat => .inr ?_
      rw [of_decide_eq_true hsat] at hlookup
      exact hlookup
    · rw [hrun]
      exact .unchanged hs fun h => by cases h
    · have hstart : c.SoundCache root
          (s.withStatus a.permission .beingEvaluated).cachedPermissions :=
        hs.insert hauth hp (by simp [hlookup]) nofun
      -- the entries of the authority are one level further down
      obtain ⟨hsound, hext, hcounted⟩ := tallyEntries_sound hstart
        fun b hb t ht => ih m (Nat.lt_succ_self m) (by omega) ht (by
          have hdel := hlevel.step hauth hb
          rwa [show c.recursionDepthLimit.toNat - (m + 1) + 1 =
            c.recursionDepthLimit.toNat - m by omega] at hdel)
      rw [← satisfiedAuthority_cache] at hsound hext hcounted
      rw [← satisfiedAuthority_verdict] at hcounted
      have hopen := hext a.permission .beingEvaluated (lookup_insert _)
      have hextends : ∀ status, CacheExtends s.cachedPermissions
          ((c.evaluation m a.permission auth s).2.withStatus a.permission
            status).cachedPermissions := by
        intro status q st hq
        have hne : q ≠ a.permission := by
          rintro rfl
          rw [hlookup] at hq
          cases hq
        exact (lookup_insert_of_ne _ hne).trans
          (hext q st ((lookup_insert_of_ne _ hne).trans hq))
      rw [hrun]
      cases hverdict : (c.evaluation m a.permission auth s).1 with
      | false => exact ⟨hsound.insert hauth hp (by simp [hopen]) nofun, hextends _,
          fun h => by cases h⟩
      | true =>
        obtain ⟨counted, hsub, hsum, hsupported⟩ := hcounted hverdict
        exact ⟨hsound.satisfied (by omega) hlevel hauth hp hopen hsub hsum hsupported,
          hextends _, fun _ => .inr (lookup_insert _)⟩

/-- **Authorization is sound.** Whatever the permissions, also cyclic ones, if the checker accepts a
permission then there is a derivation tree for it, in which no permission stands below itself and
every authority belongs to a permission fewer than limit delegations away; the tree is at most one
higher than there are permissions.  Counted weights that `validate` accepts do not wrap around. -/
theorem satisfied_sound (c : AuthorityChecker) (level : PermissionLevel)
    (usedKeys : Finset PublicKey) (h : (c.satisfied level usedKeys).1 = true) :
    c.Derivation (fun above p => p ∉ above ∧
        ∃ depth < c.recursionDepthLimit.toNat, c.Delegated level depth p)
      [] (c.permissions.keys.card + 1) level ∧
    ∀ (auth : Authority) (counted : List MetaPermission), auth.validate = true →
      counted.Subperm auth.entries → (counted.map MetaPermission.weight).sum < 2 ^ 32 := by
  constructor
  · have hinit : c.SoundCache level c.initializePermissionCache := by
      refine ⟨.initial, [], .nil, fun q hq => ?_⟩
      rw [initializePermissionCache, lookup_fill, if_neg fun hmem => hq (.inl hmem)]
      simp
    obtain ⟨hsound, -, hsupported⟩ := visitPermission_sound
      (s := ⟨usedKeys, c.initializePermissionCache⟩) (a := ⟨level, 1⟩)
      c.recursionDepthLimit.toNat le_rfl hinit (by rw [Nat.sub_self]; exact .root)
    obtain ⟨found, hfound, hiff⟩ := hsound.found
    by_cases hp : c.Provided level
    · exact .provided hp
    · have hmem := (hiff level hp).mp ((hsupported h).resolve_left hp)
      exact (hfound.derivation (fun p _ => not_mem_nil) hmem).mono
        (Nat.succ_le_succ hfound.length_le)
  · intro auth counted hvalid hsub
    exact lt_of_le_of_lt (sum_weight_le hsub) (Authority.fits_of_validate hvalid)

end AuthorityChecker

def active (account : Name) : PermissionLevel := ⟨account, Config.activeName⟩

def Authority.equalWeights (threshold : UInt32) (keys : List PublicKey) (accounts : List Name) :
    Authority where
  threshold := threshold
  keys := keys.map fun key => ⟨key, 1⟩
  accounts := accounts.map fun account => ⟨active account, 1⟩

def PermissionIndex.ofActive (rows : List (Name × Authority)) : PermissionIndex :=
  rows.foldl (fun permissions row => permissions.insert (active row.1) ⟨row.1.toNat, 0, row.2⟩) ∅

namespace AuthorityChecker

/-- With a limit of 2: the first account asks for all the others, each of which
delegates to the one before it, down to a key. -/
def staircase : AuthorityChecker where
  permissions := .ofActive [(1, .equalWeights 4 [] [2, 3, 4, 5]), (2, .equalWeights 1 [10] []),
    (3, .equalWeights 1 [] [2]), (4, .equalWeights 1 [] [3]), (5, .equalWeights 1 [] [4])]
  recursionDepthLimit := 2
  providedKeys := {10}

theorem satisfied_sound_staircase :
    staircase.Derivation (fun above p => p ∉ above ∧
      ∃ depth < staircase.recursionDepthLimit.toNat, staircase.Delegated (active 1) depth p)
      [] (staircase.permissions.keys.card + 1) (active 1) :=
  (satisfied_sound staircase (active 1) ∅ (by decide +kernel)).1

/-- It is accepted, and no derivation of it is within the limit. -/
theorem staircase_too_high :
    (staircase.satisfied (active 1) ∅).1 = true ∧
    ∀ allowed, ¬ staircase.Derivation allowed []
      (staircase.recursionDepthLimit.toNat + 2) (active 1) := by
  refine ⟨by decide +kernel, fun allowed h => ?_⟩
  exact absurd (derivable_of_derivation h) (by decide +kernel)

end AuthorityChecker

end Inery.Chain
