import Inery.Chain.AuthorityDerivation

/-!
# What the permission cache does to answers

A verdict in the cache was reached on one path and is used on another.  Where the depth limit or a
cycle cut the first evaluation off, the cache changes answers.  Where nothing is cut off, the
checker agrees with the evaluation that has no cache.
-/

namespace Inery.Chain

open Foundation Option

namespace AuthorityChecker

variable {c c' : AuthorityChecker} {level : PermissionLevel} {auth : Authority} {s : CheckState}
  {n : ℕ} {path : List PermissionLevel} {b : Bool}

/-! ## Evaluations that are not cut off -/

variable (h : c.evaluate n path level = some b)
include h

/-- An answer has one of three grounds. -/
theorem evaluate_eq_some :
    (c.Provided level ∧ b = true) ∨
    (¬ c.Provided level ∧ level ∉ path ∧ c.permissionToAuthority level = none ∧ b = false) ∨
    (¬ c.Provided level ∧ level ∉ path ∧ ∃ m auth, n = m + 1 ∧
      c.permissionToAuthority level = some auth ∧
      c.tallyEntries (fun _ => some ()) (c.evaluate m (level :: path)) auth = some b) := by
  unfold evaluate at h
  by_cases hp : c.Provided level
  · rw [if_pos hp] at h
    exact .inl ⟨hp, (some.inj h).symm⟩
  rw [if_neg hp] at h
  by_cases hpath : level ∈ path
  · rw [if_pos hpath] at h
    cases h
  rw [if_neg hpath] at h
  cases hauth : c.permissionToAuthority level with
  | none =>
    rw [hauth] at h
    exact .inr (.inl ⟨hp, hpath, rfl, (some.inj h).symm⟩)
  | some auth =>
    rw [hauth] at h
    cases n with
    | zero => cases h
    | succ m => exact .inr (.inr ⟨hp, hpath, m, auth, rfl, rfl, h⟩)

/-- **Answers do not depend on the path**, nor on the levels left. -/
theorem evaluate_unique {n' : ℕ} {path' : List PermissionLevel} {b' : Bool}
    (h' : c.evaluate n' path' level = some b') : b = b' := by
  induction n using Nat.strong_induction_on generalizing n' path path' level b b' with
  | h n ih =>
    rcases evaluate_eq_some h with ⟨hp, rfl⟩ | ⟨hp, -, hauth, rfl⟩ |
      ⟨hp, -, m, auth, rfl, hauth, htally⟩ <;>
    rcases evaluate_eq_some h' with ⟨hp', rfl⟩ | ⟨hp', -, hauth', rfl⟩ |
      ⟨hp', -, m', auth', rfl, hauth', htally'⟩
    · rfl
    · exact absurd hp hp'
    · exact absurd hp hp'
    · exact absurd hp' hp
    · rfl
    · rw [hauth] at hauth'
      cases hauth'
    · exact absurd hp' hp
    · rw [hauth] at hauth'
      cases hauth'
    · obtain rfl := some.inj (hauth.symm.trans hauth')
      refine tally_exact_unique (fun e _ a a' he he' => ?_) htally htally'
      cases e with
      | wait w | key k => exact some.inj (he.symm.trans he')
      | account a => exact ih m (Nat.lt_succ_self m) he he'

/-! ## The checker -/

omit h

variable (c) in
/-- Permissions on the path are being evaluated; every other entry is an answer. -/
structure CacheAgrees (path : List PermissionLevel) (cache : PermissionCache) : Prop where
  fits : c.CacheFits cache
  entry : ∀ level status, ¬ c.Provided level → cache.lookup level = some status →
    (status = .beingEvaluated ∧ level ∈ path) ∨
    ∃ n path', c.evaluate n path' level = some (decide (status = .permissionSatisfied))

theorem CacheAgrees.open {cache : PermissionCache} (h : c.CacheAgrees path cache)
    (hauth : c.permissionToAuthority level = some auth) (hp : ¬ c.Provided level) :
    c.CacheAgrees (level :: path) (cache.insert level .beingEvaluated) := by
  refine ⟨h.fits.insert hauth hp, fun q status hq hlookup => ?_⟩
  rcases Table.lookup_insert_eq_some.mp hlookup with ⟨rfl, rfl⟩ | ⟨-, hlookup⟩
  · exact .inl ⟨rfl, List.mem_cons_self⟩
  · rcases h.entry q status hq hlookup with ⟨hopen, hmem⟩ | hanswer
    · exact .inl ⟨hopen, List.mem_cons_of_mem level hmem⟩
    · exact .inr hanswer

theorem CacheAgrees.close {cache : PermissionCache} (h : c.CacheAgrees (level :: path) cache)
    (hauth : c.permissionToAuthority level = some auth) (hp : ¬ c.Provided level)
    (hanswer : c.evaluate n path level = some b) :
    c.CacheAgrees path (cache.insert level
      (if b then .permissionSatisfied else .permissionUnsatisfied)) := by
  refine ⟨h.fits.insert hauth hp, fun q status hq hlookup => ?_⟩
  rcases Table.lookup_insert_eq_some.mp hlookup with ⟨rfl, rfl⟩ | ⟨hne, hlookup⟩
  · refine .inr ⟨n, path, ?_⟩
    rw [hanswer]
    cases b <;> rfl
  · rcases h.entry q status hq hlookup with ⟨hopen, hmem⟩ | hanswer
    · exact .inl ⟨hopen, (List.mem_cons.mp hmem).resolve_left hne⟩
    · exact .inr hanswer

/-- **The checker gives every answer there is.** -/
theorem visitPermission_of_evaluate (hs : c.CacheAgrees path s.cachedPermissions)
    (h : c.evaluate n path level = some b) :
    (c.visitPermission n level s).1 = b ∧
      c.CacheAgrees path (c.visitPermission n level s).2.cachedPermissions := by
  induction n using Nat.strong_induction_on generalizing path level b s with
  | h n ih =>
    rcases visitPermission_cases hs.fits n level with ⟨hp, hrun⟩ |
      ⟨hp, status, hlookup, hrun⟩ | ⟨hp, hlookup, hnone, hrun⟩ |
      ⟨hp, hlookup, m, auth, rfl, hauth, hrun⟩
    · rw [hrun]
      rcases evaluate_eq_some h with ⟨-, rfl⟩ | ⟨hp', -⟩ | ⟨hp', -⟩
      · exact ⟨rfl, hs⟩
      · exact absurd hp hp'
      · exact absurd hp hp'
    · rw [hrun]
      refine ⟨?_, hs⟩
      rcases hs.entry level status hp hlookup with ⟨-, hmem⟩ | ⟨n', path', hanswer⟩
      · -- a permission on the path has no answer here
        rcases evaluate_eq_some h with ⟨hp', -⟩ | ⟨-, hpath, -⟩ | ⟨-, hpath, -⟩
        · exact absurd hp' hp
        · exact absurd hmem hpath
        · exact absurd hmem hpath
      · exact evaluate_unique hanswer h
    · rw [hrun]
      rcases evaluate_eq_some h with ⟨hp', -⟩ | ⟨-, -, -, rfl⟩ | ⟨-, -, m, auth, rfl, hauth, -⟩
      · exact absurd hp' hp
      · exact ⟨rfl, hs⟩
      · rw [hauth] at hnone
        rcases hnone with hnone | hnone <;> cases hnone
    · rcases evaluate_eq_some h with ⟨hp', -⟩ | ⟨-, -, hauth', -⟩ |
        ⟨-, -, m', auth', hm, hauth', htally⟩
      · exact absurd hp' hp
      · rw [hauth] at hauth'
        cases hauth'
      · obtain rfl : m = m' := Nat.succ.inj hm
        obtain rfl := some.inj (hauth.symm.trans hauth')
        have hstart : c.CacheAgrees (level :: path)
            (s.withStatus level .beingEvaluated).cachedPermissions := hs.open hauth hp
        have hloop : (c.tallyEntries markUsedKey (c.visitPermission m) auth
              (s.withStatus level .beingEvaluated)).1 = b ∧
            c.CacheAgrees (level :: path) (c.tallyEntries markUsedKey (c.visitPermission m) auth
              (s.withStatus level .beingEvaluated)).2.cachedPermissions := by
          refine tally_of_exact
            (fun t : CheckState => c.CacheAgrees (level :: path) t.cachedPermissions)
            (fun e _ t a ht he => ?_) hstart htally
          cases e with
          | wait w => exact ⟨some.inj he, ht⟩
          | key k =>
            by_cases hk : k.key ∈ c.providedKeys
            · simp only [visit, if_pos hk] at he ⊢
              exact ⟨some.inj he, ht⟩
            · simp only [visit, if_neg hk] at he ⊢
              exact ⟨some.inj he, ht⟩
          | account a => exact ih m (Nat.lt_succ_self m) ht he
        rw [← satisfiedAuthority_verdict, ← satisfiedAuthority_cache] at hloop
        obtain ⟨hverdict, hagrees⟩ := hloop
        rw [hrun, evaluation, hverdict]
        exact ⟨rfl, hagrees.close hauth hp h⟩

theorem satisfied_of_evaluate {usedKeys : Finset PublicKey}
    (h : c.evaluate c.recursionDepthLimit.toNat [] level = some b) :
    (c.satisfied level usedKeys).1 = b := by
  refine (visitPermission_of_evaluate (s := ⟨usedKeys, c.initializePermissionCache⟩)
    ⟨.initial, fun q status hq hlookup => ?_⟩ h).1
  rw [initializePermissionCache, Table.lookup_fill, if_neg fun hmem => hq (.inl hmem)] at hlookup
  cases hlookup

/-! ## The evaluation without the cache -/

theorem visitUncached_of_provided (hp : c.Provided level) :
    c.visitUncached n path level = ⟨true, ∅⟩ := by
  unfold visitUncached
  rw [if_pos hp]
  rfl

/-- Nothing is evaluated: the permission is on the path, or at the limit, or missing. -/
theorem visitUncached_of_none (hp : ¬ c.Provided level)
    (h : level ∈ path ∨ n = 0 ∨ c.permissionToAuthority level = none) :
    c.visitUncached n path level = ⟨false, ∅⟩ := by
  unfold visitUncached
  rw [if_neg hp]
  by_cases hpath : level ∈ path
  · rw [if_pos hpath]
    rfl
  · rw [if_neg hpath]
    rcases h.resolve_left hpath with rfl | hauth
    · rfl
    · rw [hauth]
      cases n <;> rfl

theorem visitUncached_of_authority (hp : ¬ c.Provided level) (hpath : level ∉ path)
    (hauth : c.permissionToAuthority level = some auth) :
    c.visitUncached (n + 1) path level =
      (c.tallyEntries (fun key => .mark {key})
        (c.visitUncached n (level :: path)) auth).revert := by
  conv_lhs => unfold visitUncached
  rw [if_neg hp, if_neg hpath, hauth]

include h

/-- **The evaluation without the cache gives every answer there is.** -/
theorem visitUncached_of_evaluate : (c.visitUncached n path level).value = b := by
  induction n using Nat.strong_induction_on generalizing path level b with
  | h n ih =>
    rcases evaluate_eq_some h with ⟨hp, rfl⟩ | ⟨hp, -, hauth, rfl⟩ |
      ⟨hp, hpath, m, auth, rfl, hauth, htally⟩
    · rw [visitUncached_of_provided hp]
    · rw [visitUncached_of_none hp (.inr (.inr hauth))]
    · rw [visitUncached_of_authority hp hpath hauth, Marked.value_revert]
      refine tally_marked_of_exact (fun e _ a he => ?_) htally
      cases e with
      | wait w => exact some.inj he
      | key k =>
        by_cases hk : k.key ∈ c.providedKeys
        · simp only [visit, if_pos hk] at he ⊢
          exact some.inj he
        · simp only [visit, if_neg hk] at he ⊢
          exact some.inj he
      | account a => exact ih m (Nat.lt_succ_self m) he

/-! ## More keys, another order -/

omit h

/-- The same authorities, up to the order of their entries, and at least the
same keys, permissions and delay provided. -/
structure ProvidesMore (c c' : AuthorityChecker) : Prop where
  keys : c.providedKeys ⊆ c'.providedKeys
  permissions : c.providedPermissions ⊆ c'.providedPermissions
  delay : c.providedDelay ≤ c'.providedDelay
  authority : ∀ level auth, c.permissionToAuthority level = some auth →
    ∃ auth', c'.permissionToAuthority level = some auth' ∧ auth'.threshold = auth.threshold ∧
      auth'.entries.Perm auth.entries

variable (c) in
/-- Weights sum up without wrapping around. -/
def AuthoritiesFit : Prop := ∀ level auth, c.permissionToAuthority level = some auth → auth.Fits

theorem AuthoritiesFit.sum_weight (hfit : c.AuthoritiesFit)
    (hauth : c.permissionToAuthority level = some auth) :
    (auth.metaPermissions.map MetaPermission.weight).sum < 2 ^ 32 := by
  rw [(auth.metaPermissions_perm.map MetaPermission.weight).sum_eq]
  exact hfit level auth hauth

theorem ProvidesMore.provided (h : c.ProvidesMore c') (hp : c.Provided level) : c'.Provided level :=
  hp.imp (fun hmem => h.permissions hmem) (fun hmem => h.permissions hmem)

theorem ProvidesMore.evaluate {n' : ℕ} {path' : List PermissionLevel} (hmore : c.ProvidesMore c')
    (hfit : c.AuthoritiesFit) (h : c.evaluate n path level = some true)
    (h' : c'.evaluate n' path' level = some b) : b = true := by
  induction n using Nat.strong_induction_on generalizing n' path path' level b with
  | h n ih =>
    rcases evaluate_eq_some h' with ⟨-, rfl⟩ | ⟨hp', -, hauth', rfl⟩ |
      ⟨hp', -, m', auth', rfl, hauth', htally'⟩
    · rfl
    · rcases evaluate_eq_some h with ⟨hp, -⟩ | ⟨-, -, -, hfalse⟩ | ⟨-, -, m, auth, -, hauth, -⟩
      · exact absurd (hmore.provided hp) hp'
      · exact hfalse.symm
      · obtain ⟨auth', hsome, -⟩ := hmore.authority level auth hauth
        rw [hauth'] at hsome
        cases hsome
    · rcases evaluate_eq_some h with ⟨hp, -⟩ | ⟨-, -, -, hfalse⟩ |
        ⟨-, -, m, auth, rfl, hauth, htally⟩
      · exact absurd (hmore.provided hp) hp'
      · cases hfalse
      · obtain ⟨_, hsome, hthreshold, hperm⟩ := hmore.authority level auth hauth
        obtain rfl := some.inj (hauth'.symm.trans hsome)
        have hperm' : auth.metaPermissions.Perm auth'.metaPermissions :=
          auth.metaPermissions_perm.trans
            (hperm.symm.trans auth'.metaPermissions_perm.symm)
        rw [tallyEntries, hthreshold] at htally'
        cases b with
        | true => rfl
        | false =>
          refine absurd htally' (tally_exact_mono (fun a b => Nat.mod_le _ _)
            (fun a b hab => u32_of_lt hab) (hfit.sum_weight hauth) hperm'
            (fun e _ he he' => ?_) htally)
          cases e with
          | wait w =>
            have hw := of_decide_eq_true (some.inj he)
            have hw' := of_decide_eq_false (some.inj he')
            exact hw' (hw.trans hmore.delay)
          | key k =>
            by_cases hk : k.key ∈ c.providedKeys
            · simp only [visit, if_pos (hmore.keys hk)] at he'
              cases he'
            · simp only [visit, if_neg hk] at he
              cases he
          | account a => cases ih m (Nat.lt_succ_self m) he he'

/-- **The cache is transparent where nothing is cut off.** If the evaluation without the cache meets
neither the depth limit nor a cycle, the checker gives the same answer.  Then more keys, permissions
or delay, or another order of entries, do not make a satisfied permission unsatisfied, unless they
make the evaluation be cut off. -/
theorem cache_transparent (c : AuthorityChecker) (level : PermissionLevel)
    (usedKeys : Finset PublicKey) (h : c.Completes level) :
    (c.satisfied level usedKeys).1 = (c.satisfiedUncached level usedKeys).1 ∧
    ∀ c' : AuthorityChecker, c.ProvidesMore c' → c.AuthoritiesFit → c'.Completes level →
      (c.satisfied level usedKeys).1 = true → (c'.satisfied level usedKeys).1 = true := by
  obtain ⟨b, hb⟩ := ne_none_iff_exists'.mp h
  constructor
  · rw [satisfied_of_evaluate hb]
    exact (visitUncached_of_evaluate hb).symm
  · intro c' hmore hfit h' htrue
    obtain ⟨b', hb'⟩ := ne_none_iff_exists'.mp h'
    rw [satisfied_of_evaluate hb] at htrue
    rw [satisfied_of_evaluate hb']
    exact hmore.evaluate hfit (htrue ▸ hb) hb'

/-- The first account delegates to two others in the given order, the second
to the third, and the third to the fourth, which has a key. -/
def shadowed (order : List Name) (limit : UInt16) : AuthorityChecker where
  permissions := .ofActive [(1, .equalWeights 1 [] order), (2, .equalWeights 1 [] [3]),
    (3, .equalWeights 1 [] [4]), (4, .equalWeights 1 [10] [])]
  recursionDepthLimit := limit
  providedKeys := {10}

theorem cache_transparent_shadowed :
    (shadowed [2, 3] 6).Completes (active 1) ∧
    ((shadowed [2, 3] 6).satisfied (active 1) ∅).1 =
      ((shadowed [2, 3] 6).satisfiedUncached (active 1) ∅).1 :=
  ⟨by decide +kernel, (cache_transparent (shadowed [2, 3] 6) (active 1) ∅ (by decide +kernel)).1⟩

/-- The second account asks for the fourth and a key that is not provided; the
fourth for key 11 or the fifth.  The third account is two delegations away
from the fifth, which has key 10. -/
def shortened (keys : Finset PublicKey) : AuthorityChecker where
  permissions := .ofActive [(1, .equalWeights 1 [] [2, 3]), (2, .equalWeights 2 [12] [4]),
    (3, .equalWeights 1 [] [6]), (4, .equalWeights 1 [11] [5]), (5, .equalWeights 1 [10] []),
    (6, .equalWeights 1 [] [7]), (7, .equalWeights 1 [] [5])]
  recursionDepthLimit := 4
  providedKeys := keys

/-- The cache changes answers.  With a limit of 3, the third account is found unsatisfied below the
second, where its evaluation is cut off, and stays so; in the other order it is satisfied.  In the
second graph the fifth account is reached within the limit only without key 11. -/
theorem cache_changes_answers :
    ((shadowed [2, 3] 3).satisfied (active 1) ∅).1 = false ∧
    ((shadowed [2, 3] 3).satisfiedUncached (active 1) ∅).1 = true ∧
    ((shadowed [3, 2] 3).satisfied (active 1) ∅).1 = true ∧
    ((shortened {10}).satisfied (active 1) ∅).1 = true ∧
    ((shortened {10, 11}).satisfied (active 1) ∅).1 = false := by
  decide +kernel

end AuthorityChecker

end Inery.Chain
