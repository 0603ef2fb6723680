import Inery.Chain.Accounts
import Inery.Chainbase.ReferenceCount
import Mathlib.Order.Interval.Finset.Nat

/-!
# Contract code (`inery_contract.cpp`, `code_object.hpp`)

The code of a contract is stored once, under its hash, however many accounts run it; the accounts
have the hash.  `setcode` moves an account from one code object to another, and counts.
-/

namespace Inery.Chain

open Foundation Chainbase List Finmap GenericIndex Table Option

structure CodeObject where
  codeHash : Digest
  code : List UInt8
  codeRefCount : UInt64
  firstBlockUsed : UInt32
  vmType : UInt8 := 0
  vmVersion : UInt8 := 0
deriving DecidableEq

/-- The key of the unique index `by_code_hash`. -/
abbrev CodeKey := Digest × UInt8 × UInt8

def CodeObject.key (c : CodeObject) : CodeKey := (c.codeHash, c.vmType, c.vmVersion)

/-- `account_metadata_object`, with the fields of the contract. -/
structure CodeMetadata extends AccountMetadata where
  codeSequence : UInt64 := 0
  codeHash : Digest := 0
  lastCodeUpdate : ℤ := 0
  vmType : UInt8 := 0
  vmVersion : UInt8 := 0
deriving DecidableEq

/-- What the account's code is found by. -/
def CodeMetadata.codeKey (a : CodeMetadata) : CodeKey := (a.codeHash, a.vmType, a.vmVersion)

structure CodeDatabase where
  accountMetadata : GenericIndex CodeMetadata := {}
  codes : GenericIndex CodeObject := {}
  resources : ResourceLimitsManager := .initializeDatabase

structure SetCodeContext extends ApplyContext where
  headBlockNum : UInt32
  /-- `wasm_interface::validate` -/
  validate : List UInt8 → Result Unit

structure SetCode where
  account : Name
  vmtype : UInt8
  vmversion : UInt8
  code : List UInt8

namespace Config

def setcodeMemBytesMultiplier : ℤ := 10

end Config

namespace CodeDatabase

section

-- `fc::sha256::hash`
variable (sha256 : List UInt8 → Digest) (db : CodeDatabase) (ctx : SetCodeContext)

/-! ## `setcode` -/

/-- The hash of the code, whose length is passed in 32 bits; all zeros for no code. -/
def codeHash (code : List UInt8) : Digest :=
  if code = [] then 0 else sha256 (code.take (code.length % 2 ^ 32))

def validateCode (code : List UInt8) : Result Unit :=
  if code = [] then pure () else ctx.validate code

def findAccount (account : Name) : Result (ℕ × CodeMetadata) :=
  match findBy (fun a : CodeMetadata => a.name) db.accountMetadata.indices account with
  | none => .error ⟨.stdOutOfRange, "unknown key"⟩
  | some found => pure found

/-- `db.get<code_object, by_code_hash>`. -/
def getCode (key : CodeKey) : Result (ℕ × CodeObject) :=
  match findBy CodeObject.key db.codes.indices key with
  | none => .error ⟨.stdOutOfRange, "unknown key"⟩
  | some found => pure found

def dropReference (id : ℕ) (old : CodeObject) : Result (GenericIndex CodeObject) :=
  if old.codeRefCount = 1 then stored (db.codes.remove id)
  else stored (db.codes.modify (.on CodeObject.key) id fun o =>
    { o with codeRefCount := o.codeRefCount - 1 })

/-- The old code of an account that has one is released.  Returns its billed size. -/
def releaseCode (account : CodeMetadata) (codeHash : Digest) :
    Result (ℤ × GenericIndex CodeObject) :=
  if account.codeHash ≠ 0 then do
    let (id, old) ← db.getCode account.codeKey
    ineAssert (old.codeHash ≠ codeHash) .setExactCode
      "contract is already running this version of code"
    let codes ← db.dropReference id old
    pure (old.code.length * Config.setcodeMemBytesMultiplier, codes)
  else pure (0, db.codes)

def newCode (act : SetCode) (codeHash : Digest) : CodeObject where
  codeHash
  code := act.code
  codeRefCount := 1
  firstBlockUsed := ctx.headBlockNum + 1
  vmType := act.vmtype
  vmVersion := act.vmversion

def addReference (codes : GenericIndex CodeObject) (act : SetCode) (codeHash : Digest) :
    Result (GenericIndex CodeObject) :=
  match findBy CodeObject.key codes.indices (codeHash, act.vmtype, act.vmversion) with
  | some (id, _) => stored (codes.modify (.on CodeObject.key) id fun o =>
    { o with codeRefCount := o.codeRefCount + 1 })
  | none => stored (codes.emplace (.on CodeObject.key) (newCode ctx act codeHash))

/-- The new code, if there is one, is retained. -/
def retainCode (codes : GenericIndex CodeObject) (act : SetCode) (codeHash : Digest) :
    Result (GenericIndex CodeObject) :=
  if act.code ≠ [] then addReference ctx codes act codeHash else pure codes

def updateAccount (act : SetCode) (codeHash : Digest) (a : CodeMetadata) : CodeMetadata :=
  { a with
    codeSequence := a.codeSequence + 1
    codeHash
    vmType := act.vmtype
    vmVersion := act.vmversion
    lastCodeUpdate := ctx.pendingBlockTime }

/-- `add_mem_usage` of the difference, if there is one. -/
def billCode (account : Name) (oldSize newSize : ℤ) : Result ResourceLimitsManager :=
  if newSize ≠ oldSize then db.resources.addPendingMemUsage account (newSize - oldSize)
  else pure db.resources

/-- `apply_inery_setcode`. -/
def setcode (act : SetCode) : Result CodeDatabase := do
  AccountDatabase.requireAuthorization ctx.toApplyContext act.account
  ineAssert (act.vmtype = 0) .invalidContractVmType "code should be 0"
  ineAssert (act.vmversion = 0) .invalidContractVmVersion "version should be 0"
  validateCode ctx act.code
  let hash := codeHash sha256 act.code
  let (id, account) ← db.findAccount act.account
  ineAssert (act.code ≠ [] ∨ account.codeHash ≠ 0) .setExactCode "contract is already cleared"
  let newSize := act.code.length * Config.setcodeMemBytesMultiplier
  let (oldSize, codes) ← db.releaseCode account hash
  let codes ← retainCode ctx codes act hash
  let accountMetadata ← stored (db.accountMetadata.modify (.on fun a : CodeMetadata => a.name) id
    (updateAccount ctx act hash))
  let resources ← db.billCode act.account oldSize newSize
  pure { accountMetadata, codes, resources }

/-- The metadata and the usage of a new account, which has a name and no code. -/
def newaccount (name : Name) : Result CodeDatabase := do
  ineAssert (!name.empty) .actionValidateException "account name cannot be empty"
  let accountMetadata ← stored (db.accountMetadata.emplace (.on fun a : CodeMetadata => a.name)
    { name })
  let resources ← db.resources.initializeAccount name
  pure { db with accountMetadata, resources }

/-- The code that `get_instantiated_module` finds for an account with a contract. -/
def contract (a : CodeMetadata) : Option (List UInt8) :=
  if a.codeHash = 0 then none else (db.getCode a.codeKey).toOption.map fun found => found.2.code

/-! ## Sequences of actions -/

inductive CodeAction where
  | newaccount (name : Name)
  | setcode (ctx : SetCodeContext) (act : SetCode)

def applyAction : CodeAction → Result CodeDatabase
  | .newaccount name => db.newaccount name
  | .setcode ctx act => db.setcode sha256 ctx act

/-- The database after an action.  The changes of one that throws are undone. -/
def afterAction (action : CodeAction) : CodeDatabase :=
  (db.applyAction sha256 action).toOption.getD db

def afterActions (actions : List CodeAction) : CodeDatabase := actions.foldl (afterAction sha256) db

end

variable {sha256 : List UInt8 → Digest} {db db' : CodeDatabase} {ctx : SetCodeContext}
  {act : SetCode}

/-! ## The invariant -/

/-- The references to code: the keys of the accounts with a contract. -/
def references (accounts : Table ℕ CodeMetadata) : Multiset CodeKey :=
  (collect accounts fun _ a => a.codeKey).filter fun k => k.1 ≠ 0

/-- The names of the accounts are unique and not empty, the code objects count the accounts that
refer to them, and each is under the hash of its code. -/
structure CodesCounted (sha256 : List UInt8 → Digest) (db : CodeDatabase) : Prop extends
    Counted CodeObject.key (fun c => c.codeRefCount.toNat)
      (references db.accountMetadata.indices) db.codes.indices where
  namesApart : KeysApart (fun a : CodeMetadata => a.name) db.accountMetadata.indices
  named : ∀ ⦃k a⦄, db.accountMetadata.indices.lookup k = some a → a.name ≠ 0
  hashed : ∀ ⦃j c⦄, db.codes.indices.lookup j = some c → c.codeHash = codeHash sha256 c.code

variable {accounts : Table ℕ CodeMetadata} {key : CodeKey}

theorem mem_references :
    key ∈ references accounts ↔
      key.1 ≠ 0 ∧ ∃ k a, accounts.lookup k = some a ∧ a.codeKey = key := by
  rw [references, Multiset.mem_filter, mem_collect, and_comm]

theorem card_references_lt (hapart : KeysApart (fun a : CodeMetadata => a.name) accounts)
    (hnamed : ∀ k a, accounts.lookup k = some a → a.name ≠ 0) :
    (references accounts).card < 2 ^ 64 := by
  have hkeys : accounts.keys.card ≤ (Finset.Ico 1 (2 ^ 64)).card := by
    refine Finset.card_le_card_of_injOn
      (fun k => ((accounts.lookup k).map fun a => a.name.toNat).getD 0) ?_ ?_
    · intro k hk
      obtain ⟨a, ha⟩ := mem_iff.mp (mem_keys.mp hk)
      have hne : a.name.toNat ≠ 0 := fun hzero => hnamed k a ha (UInt64.toNat.inj hzero)
      simp only [ha, map_some, getD_some, Finset.coe_Ico, Set.mem_Ico]
      exact ⟨Nat.one_le_iff_ne_zero.mpr hne, a.name.toNat_lt⟩
    · intro j hj k hk heq
      obtain ⟨a, ha⟩ := mem_iff.mp (mem_keys.mp hj)
      obtain ⟨b, hb⟩ := mem_iff.mp (mem_keys.mp hk)
      simp only [ha, hb, map_some, getD_some] at heq
      exact hapart ha hb (UInt64.toNat.inj heq)
  calc (references accounts).card
      ≤ (collect accounts fun _ a => a.codeKey).card :=
        Multiset.card_le_card (Multiset.filter_le _ _)
    _ = accounts.keys.card := card_collect _ _
    _ ≤ (Finset.Ico 1 (2 ^ 64)).card := hkeys
    _ < 2 ^ 64 := by
      rw [Nat.card_Ico]
      exact Nat.sub_lt (by decide) Nat.one_pos

/-! ## One `setcode` -/

/-- The code objects count these references. -/
abbrev CountedBy (refs : Multiset CodeKey) (codes : Table ℕ CodeObject) : Prop :=
  Counted CodeObject.key (fun c => c.codeRefCount.toNat) refs codes

def FewerCodes (codes codes' : Table ℕ CodeObject) : Prop :=
  ∀ ⦃j c'⦄, codes'.lookup j = some c' →
    ∃ c, codes.lookup j = some c ∧ c.key = c'.key ∧ c.code = c'.code

variable {id : ℕ}

theorem getCode_eq_ok {c : CodeObject} (hapart : KeysApart CodeObject.key db.codes.indices) :
    db.getCode key = .ok (id, c) ↔ db.codes.indices.lookup id = some c ∧ c.key = key := by
  rw [← findBy_eq_some hapart]
  unfold getCode
  cases findBy CodeObject.key db.codes.indices key with
  | none => exact ⟨nofun, nofun⟩
  | some found => exact ⟨fun h => congrArg some (Except.ok.inj h), fun h => by cases h; rfl⟩

theorem toNat_sub_one {n : UInt64} (hn : n ≠ 0) : (n - 1).toNat = n.toNat - 1 := by
  have hpos : (1 : UInt64) ≤ n := by
    rw [UInt64.le_iff_toNat_le]
    exact Nat.one_le_iff_ne_zero.mpr fun hzero => hn (UInt64.toNat.inj hzero)
  exact UInt64.toNat_sub_of_le n 1 hpos

theorem toNat_add_one {n : UInt64} (hn : n.toNat + 1 < 2 ^ 64) : (n + 1).toNat = n.toNat + 1 := by
  rw [UInt64.toNat_add]
  exact Nat.mod_eq_of_lt hn

variable {codes : GenericIndex CodeObject}

theorem dropReference_eq_ok {old : CodeObject} {rest : Multiset CodeKey}
    (h : CountedBy (key ::ₘ rest) db.codes.indices)
    (hold : db.codes.indices.lookup id = some old) (hkey : old.key = key)
    (hrun : db.dropReference id old = .ok codes) :
    CountedBy rest codes.indices ∧ FewerCodes db.codes.indices codes.indices := by
  subst hkey
  have hpos : old.codeRefCount ≠ 0 := by
    intro hzero
    have hcount : old.codeRefCount.toNat = _ := h.counted hold
    rw [hzero, Multiset.count_cons_self] at hcount
    exact absurd hcount.symm (Nat.succ_ne_zero _)
  unfold dropReference at hrun
  split at hrun
  · next hone =>
    simp only [stored_eq_ok, remove_eq_ok] at hrun
    obtain ⟨-, -, rfl⟩ := hrun
    refine ⟨h.release_last hold rfl (congrArg UInt64.toNat hone), ?_⟩
    intro j c hc
    exact ⟨c, (lookup_erase_eq_some.mp hc).2, rfl, rfl⟩
  · next hmany =>
    simp only [stored_eq_ok, modify_eq_ok] at hrun
    obtain ⟨c, hc, -, rfl⟩ := hrun
    rw [hold] at hc
    cases hc
    refine ⟨h.release hold rfl rfl (fun hone => hmany (UInt64.toNat.inj hone))
      (toNat_sub_one hpos), ?_⟩
    intro j c hc
    rcases lookup_insert_eq_some.mp hc with ⟨rfl, rfl⟩ | ⟨-, hc⟩
    · exact ⟨old, hold, rfl, rfl⟩
    · exact ⟨c, hc, rfl, rfl⟩

variable {hash : Digest}

theorem addReference_eq_ok {refs : Multiset CodeKey} {codes' : GenericIndex CodeObject}
    (h : CountedBy refs codes.indices)
    (hcard : refs.card + 1 < 2 ^ 64) (hrun : addReference ctx codes act hash = .ok codes') :
    CountedBy ((hash, act.vmtype, act.vmversion) ::ₘ refs) codes'.indices ∧
    FewerCodes codes'.indices codes.indices ∧
    ∀ j c', codes'.indices.lookup j = some c' →
      (∃ c, codes.indices.lookup j = some c ∧ c.key = c'.key ∧ c.code = c'.code) ∨
        c'.codeHash = hash ∧ c'.code = act.code := by
  unfold addReference at hrun
  split at hrun
  · next id c hfind =>
    obtain ⟨hc, hkey⟩ := (findBy_eq_some h.apart).mp hfind
    simp only [stored_eq_ok, modify_eq_ok] at hrun
    obtain ⟨v, hv, -, rfl⟩ := hrun
    rw [hc] at hv
    cases hv
    have hlt : c.codeRefCount.toNat + 1 < 2 ^ 64 := by
      have hcount : c.codeRefCount.toNat = _ := h.counted hc
      have hle := Multiset.count_le_card c.key refs
      omega
    refine ⟨hkey ▸ h.retain hc rfl (toNat_add_one hlt), ?_, ?_⟩
    · intro j d hd
      by_cases hj : j = id
      · subst hj
        rw [hc] at hd
        cases hd
        exact ⟨_, lookup_insert _, rfl, rfl⟩
      · exact ⟨d, (lookup_insert_of_ne _ hj).trans hd, rfl, rfl⟩
    · intro j d hd
      rcases lookup_insert_eq_some.mp hd with ⟨rfl, rfl⟩ | ⟨-, hd⟩
      · exact .inl ⟨c, hc, rfl, rfl⟩
      · exact .inl ⟨d, hd, rfl, rfl⟩
  · next hfind =>
    simp only [stored_eq_ok, emplace_eq_ok] at hrun
    obtain ⟨⟨hfresh, -⟩, rfl⟩ := hrun
    have hfresh := lookup_eq_none.mpr hfresh
    have hnew := findBy_eq_none.mp hfind
    refine ⟨h.retain_first (v := newCode ctx act hash) hfresh hnew rfl, ?_, ?_⟩
    · intro j d hd
      exact ⟨d, lookup_insert_of_none hfresh hd, rfl, rfl⟩
    · intro j d hd
      rcases lookup_insert_eq_some.mp hd with ⟨-, rfl⟩ | ⟨-, hd⟩
      · exact .inr ⟨rfl, rfl⟩
      · exact .inl ⟨d, hd, rfl, rfl⟩

structure CodeSet (sha256 : List UInt8 → Digest) (ctx : SetCodeContext) (db : CodeDatabase)
    (act : SetCode) (db' : CodeDatabase) (id : ℕ) (a : CodeMetadata) : Prop where
  account : db.accountMetadata.indices.lookup id = some a
  vm : act.vmtype = 0 ∧ act.vmversion = 0
  cleared : act.code ≠ [] ∨ a.codeHash ≠ 0
  accounts : db'.accountMetadata.indices =
    db.accountMetadata.indices.insert id (updateAccount ctx act (codeHash sha256 act.code) a)
  codes : ∃ oldSize codes, db.releaseCode a (codeHash sha256 act.code) = .ok (oldSize, codes) ∧
    retainCode ctx codes act (codeHash sha256 act.code) = .ok db'.codes

theorem setcode_eq_ok
    (hapart : KeysApart (fun a : CodeMetadata => a.name) db.accountMetadata.indices)
    (h : db.setcode sha256 ctx act = .ok db') : ∃ id a, CodeSet sha256 ctx db act db' id a := by
  simp only [setcode, bind_eq_ok, pure_eq_ok, ineAssert_eq_ok, stored_eq_ok, modify_eq_ok] at h
  obtain ⟨-, -, -, htype, -, hversion, -, -, ⟨id, a⟩, hfind, -, hcleared, ⟨oldSize, codes⟩,
    hrelease, codes', hretain, accounts, ⟨b, hb, -, rfl⟩, resources, -, rfl⟩ := h
  have ha : db.accountMetadata.indices.lookup id = some a := by
    unfold findAccount at hfind
    split at hfind
    · cases hfind
    · next found hfound =>
      cases hfind
      exact ((findBy_eq_some hapart).mp hfound).1
  rw [ha] at hb
  cases hb
  exact ⟨id, a, ha, ⟨htype, hversion⟩, hcleared, rfl, oldSize, codes, hrelease, hretain⟩

def ownReference (key : CodeKey) : Multiset CodeKey := if key.1 ≠ 0 then {key} else 0

variable {a : CodeMetadata}

theorem references_insert_of_some (ha : accounts.lookup id = some a) (a' : CodeMetadata) :
    ownReference a.codeKey + references (accounts.insert id a') =
      ownReference a'.codeKey + references accounts := by
  have hcollect := collect_insert_of_some (w := a') (fun _ a => a.codeKey) ha
  have hfilter := congrArg (Multiset.filter fun k : CodeKey => k.1 ≠ 0) hcollect
  rw [Multiset.filter_cons, Multiset.filter_cons] at hfilter
  exact hfilter

theorem references_erase (ha : accounts.lookup id = some a) :
    references accounts = ownReference a.codeKey + references (accounts.erase id) := by
  rw [references, collect_erase _ ha, Multiset.filter_cons]
  rfl

theorem releaseCode_eq_ok {oldSize : ℤ} {rest : Multiset CodeKey}
    (h : CountedBy (ownReference a.codeKey + rest) db.codes.indices)
    (hrun : db.releaseCode a hash = .ok (oldSize, codes)) :
    (a.codeHash ≠ 0 → a.codeHash ≠ hash) ∧
      CountedBy rest codes.indices ∧
      FewerCodes db.codes.indices codes.indices := by
  unfold releaseCode at hrun
  split at hrun
  · next hne =>
    rw [ownReference, if_pos (show a.codeKey.1 ≠ 0 from hne), Multiset.singleton_add] at h
    simp only [bind_eq_ok, pure_eq_ok, ineAssert_eq_ok] at hrun
    obtain ⟨⟨id, old⟩, hget, -, hdiffer, codes', hdrop, heq⟩ := hrun
    obtain ⟨-, rfl⟩ := Prod.mk.inj heq
    obtain ⟨hold, hkey⟩ := (getCode_eq_ok h.apart).mp hget
    refine ⟨fun _ hsame => hdiffer ?_, dropReference_eq_ok h hold hkey hdrop⟩
    exact (congrArg Prod.fst hkey).trans hsame
  · next hzero =>
    cases hrun
    rw [ownReference, if_neg (show ¬ a.codeKey.1 ≠ 0 from hzero), Multiset.zero_add] at h
    exact ⟨fun hne => absurd hne hzero, h, fun j c hc => ⟨c, hc, rfl, rfl⟩⟩

theorem retainCode_eq_ok {refs : Multiset CodeKey} {codes' : GenericIndex CodeObject}
    (hhash : hash ≠ 0 ↔ act.code ≠ []) (h : CountedBy refs codes.indices)
    (hcard : (ownReference (hash, act.vmtype, act.vmversion) + refs).card < 2 ^ 64)
    (hrun : retainCode ctx codes act hash = .ok codes') :
    CountedBy (ownReference (hash, act.vmtype, act.vmversion) + refs) codes'.indices ∧
    FewerCodes codes'.indices codes.indices ∧
    ∀ j c', codes'.indices.lookup j = some c' →
      (∃ c, codes.indices.lookup j = some c ∧ c.key = c'.key ∧ c.code = c'.code) ∨
        c'.codeHash = hash ∧ c'.code = act.code := by
  unfold retainCode at hrun
  by_cases hcode : act.code = []
  · rw [if_neg (not_not.mpr hcode)] at hrun
    cases hrun
    rw [ownReference, if_neg fun hne => hhash.mp hne hcode, Multiset.zero_add]
    exact ⟨h, fun j c hc => ⟨c, hc, rfl, rfl⟩, fun j c hc => .inl ⟨c, hc, rfl, rfl⟩⟩
  · rw [if_pos hcode] at hrun
    have hown : ownReference (hash, act.vmtype, act.vmversion) =
        {(hash, act.vmtype, act.vmversion)} := if_pos (hhash.mpr hcode)
    rw [hown, Multiset.singleton_add] at hcard ⊢
    rw [Multiset.card_cons] at hcard
    exact addReference_eq_ok h hcard hrun

/-! ## The code of an account -/

def HasCode (codes : Table ℕ CodeObject) (key : CodeKey) (code : List UInt8) : Prop :=
  ∃ j c, codes.lookup j = some c ∧ c.key = key ∧ c.code = code

theorem contract_eq_some {code : List UInt8} (hapart : KeysApart CodeObject.key db.codes.indices) :
    db.contract a = some code ↔ a.codeHash ≠ 0 ∧ HasCode db.codes.indices a.codeKey code := by
  unfold contract
  split
  · next hzero => exact ⟨nofun, fun h => absurd hzero h.1⟩
  · next hne =>
    rw [map_eq_some_iff]
    constructor
    · rintro ⟨⟨j, c⟩, hget, rfl⟩
      cases hrun : db.getCode a.codeKey with
      | error e =>
        rw [hrun] at hget
        cases hget
      | ok found =>
        rw [hrun] at hget
        cases hget
        obtain ⟨hc, hkey⟩ := (getCode_eq_ok hapart).mp hrun
        exact ⟨hne, j, c, hc, hkey, rfl⟩
    · rintro ⟨-, j, c, hc, hkey, rfl⟩
      refine ⟨(j, c), ?_, rfl⟩
      rw [(getCode_eq_ok hapart).mpr ⟨hc, hkey⟩]
      rfl

variable (h : CodesCounted sha256 db)
include h

theorem CodesCounted.contract_cases (ha : db.accountMetadata.indices.lookup id = some a) :
    a.codeHash = 0 ∧ db.contract a = none ∨
      ∃ code, db.contract a = some code ∧ a.codeHash ≠ 0 ∧
        HasCode db.codes.indices a.codeKey code ∧ codeHash sha256 code = a.codeHash := by
  by_cases hzero : a.codeHash = 0
  · exact .inl ⟨hzero, if_pos hzero⟩
  · obtain ⟨j, c, hc, hkey⟩ := h.found (mem_references.mpr ⟨hzero, id, a, ha, rfl⟩)
    refine .inr ⟨c.code, (contract_eq_some h.apart).mpr ⟨hzero, j, c, hc, hkey, rfl⟩, hzero,
      ⟨j, c, hc, hkey, rfl⟩, ?_⟩
    rw [← h.hashed hc]
    exact congrArg Prod.fst hkey

theorem codeHash_eq_of_contract {id' : ℕ} {a' : CodeMetadata} (h' : CodesCounted sha256 db')
    (ha : db.accountMetadata.indices.lookup id = some a)
    (ha' : db'.accountMetadata.indices.lookup id' = some a')
    (heq : db'.contract a' = db.contract a) : a'.codeHash = a.codeHash := by
  rcases h.contract_cases ha with ⟨hzero, hnone⟩ | ⟨code, hsome, -, -, hhash⟩
  · rcases h'.contract_cases ha' with ⟨hzero', -⟩ | ⟨code', hsome', -⟩
    · exact hzero'.trans hzero.symm
    · rw [hsome', hnone] at heq
      cases heq
  · rcases h'.contract_cases ha' with ⟨-, hnone'⟩ | ⟨code', hsome', -, -, hhash'⟩
    · rw [hsome, hnone'] at heq
      cases heq
    · rw [hsome, hsome'] at heq
      cases heq
      exact hhash'.symm.trans hhash

/-! ## Every sequence of actions -/

omit h

def CodeAction.Hashes (sha256 : List UInt8 → Digest) : CodeAction → Prop
  | .newaccount _ => True
  | .setcode _ act => act.code ≠ [] → codeHash sha256 act.code ≠ 0

include h

/-- The effect of a `setcode` on the other accounts and on the one that it is for. -/
theorem CodeSet.keeps (hnonzero : act.code ≠ [] → codeHash sha256 act.code ≠ 0)
    (hs : CodeSet sha256 ctx db act db' id a) :
    CodesCounted sha256 db' ∧ a.codeHash ≠ codeHash sha256 act.code ∧
      ∀ j b, j ≠ id → db.accountMetadata.indices.lookup j = some b →
        db'.contract b = db.contract b := by
  have hhash : codeHash sha256 act.code ≠ 0 ↔ act.code ≠ [] :=
    ⟨fun hne hnil => hne (if_pos hnil), hnonzero⟩
  obtain ⟨oldSize, codes, hrelease, hretain⟩ := hs.codes
  have hrest := references_erase hs.account
  -- the keys of the accounts afterwards: the old reference is replaced by the new one
  have hrefs : references db'.accountMetadata.indices =
      ownReference (codeHash sha256 act.code, act.vmtype, act.vmversion) +
        references (db.accountMetadata.indices.erase id) := by
    have hinsert := references_insert_of_some hs.account
      (updateAccount ctx act (codeHash sha256 act.code) a)
    rw [← hs.accounts, hrest, add_left_comm] at hinsert
    exact add_left_cancel hinsert
  have hnames : KeysApart (fun a : CodeMetadata => a.name) db'.accountMetadata.indices := by
    rw [hs.accounts]
    exact h.namesApart.insert fun j b hj hb hname => hj (h.namesApart hb hs.account hname)
  have hnamed : ∀ ⦃k b⦄, db'.accountMetadata.indices.lookup k = some b → b.name ≠ 0 := by
    intro k b hb
    rw [hs.accounts] at hb
    rcases lookup_insert_eq_some.mp hb with ⟨-, rfl⟩ | ⟨-, hb⟩
    · have hne := h.named hs.account
      exact hne
    · exact h.named hb
  obtain ⟨hdiffer, hreleased, hfewer⟩ := releaseCode_eq_ok (hrest ▸ h.toCounted) hrelease
  obtain ⟨hretained, hmore, hnew⟩ := retainCode_eq_ok hhash hreleased
    (hrefs ▸ card_references_lt hnames hnamed) hretain
  have hhashed : ∀ ⦃j c⦄, db'.codes.indices.lookup j = some c →
      c.codeHash = codeHash sha256 c.code := by
    intro j c hc
    rcases hnew j c hc with ⟨d, hd, hkey, hcode⟩ | ⟨hh, hcode⟩
    · obtain ⟨e, he, hkey', hcode'⟩ := hfewer hd
      rw [← hcode, ← hcode', ← h.hashed he]
      exact (congrArg Prod.fst (hkey'.trans hkey)).symm
    · rw [hh, hcode]
  have h' : CodesCounted sha256 db' := ⟨hrefs ▸ hretained, hnames, hnamed, hhashed⟩
  refine ⟨h', ?_, ?_⟩
  · by_cases hzero : a.codeHash = 0
    · rw [hzero]
      exact (hnonzero (hs.cleared.resolve_right (not_not.mpr hzero))).symm
    · exact hdiffer hzero
  · intro j b hj hb
    rcases h.contract_cases hb with ⟨hzero, hnone⟩ | ⟨code, hsome, hne, ⟨k, c, hc, hkey, rfl⟩, -⟩
    · rw [hnone]
      exact if_pos hzero
    · rw [hsome]
      refine (contract_eq_some h'.apart).mpr ⟨hne, ?_⟩
      -- the key of the other account is still referred to after the release
      have hmem : b.codeKey ∈ references (db.accountMetadata.indices.erase id) := by
        exact mem_references.mpr ⟨hne, j, b, lookup_erase_eq_some.mpr ⟨hj, hb⟩, rfl⟩
      obtain ⟨k', d, hd, hdkey⟩ := hreleased.found hmem
      obtain ⟨e, he, hekey, hecode⟩ := hfewer hd
      obtain rfl := h.apart hc he (hkey.trans (hdkey.symm.trans hekey.symm))
      rw [hc] at he
      cases he
      obtain ⟨f, hf, hfkey, hfcode⟩ := hmore hd
      exact ⟨k, f, hf, hfkey.trans hdkey, hfcode.trans hecode.symm⟩

omit h

theorem newaccount_eq_ok {name : Name} (h : db.newaccount name = .ok db') :
    name ≠ 0 ∧ db'.codes = db.codes ∧ ∃ id, db.accountMetadata.indices.lookup id = none ∧
      db'.accountMetadata.indices = db.accountMetadata.indices.insert id { name } ∧
      ∀ j b, db.accountMetadata.indices.lookup j = some b → b.name ≠ name := by
  simp only [newaccount, bind_eq_ok, pure_eq_ok, ineAssert_eq_ok, stored_eq_ok,
    emplace_eq_ok, conflicts_on] at h
  obtain ⟨-, hempty, accounts, ⟨⟨hfresh, hnew⟩, rfl⟩, resources, -, rfl⟩ := h
  have hfresh := lookup_eq_none.mpr hfresh
  refine ⟨by simpa [Name.empty] using hempty, rfl, _, hfresh, rfl, fun j b hb hname => ?_⟩
  refine hnew ⟨j, b, ?_, hb, hname.symm⟩
  rintro rfl
  rw [hfresh] at hb
  cases hb

include h

theorem CodesCounted.newaccount {name : Name} (hrun : db.newaccount name = .ok db') :
    CodesCounted sha256 db' := by
  obtain ⟨hne, hcodes, id, hfresh, haccounts, hnew⟩ := newaccount_eq_ok hrun
  have hrefs : references db'.accountMetadata.indices = references db.accountMetadata.indices := by
    rw [haccounts, references, collect_insert_of_none _ _ hfresh, Multiset.filter_cons_of_neg]
    · rfl
    · exact not_not.mpr rfl
  refine ⟨hrefs ▸ hcodes ▸ h.toCounted, ?_, ?_, hcodes ▸ h.hashed⟩
  · rw [haccounts]
    exact h.namesApart.insert fun j b _ hb => hnew j b hb
  · intro k b hb
    rw [haccounts] at hb
    rcases lookup_insert_eq_some.mp hb with ⟨-, rfl⟩ | ⟨-, hb⟩
    · exact hne
    · exact h.named hb

/-- **Step lemma.** The invariant is kept, and the accounts whose `code_sequence` changes are those
whose code changes. -/
theorem CodesCounted.afterAction {action : CodeAction} (hhash : action.Hashes sha256) :
    CodesCounted sha256 (db.afterAction sha256 action) ∧
      ∀ id a, db.accountMetadata.indices.lookup id = some a →
        ∃ a', (db.afterAction sha256 action).accountMetadata.indices.lookup id = some a' ∧
          (a'.codeSequence = a.codeSequence ↔
            (db.afterAction sha256 action).contract a' = db.contract a) := by
  cases hrun : db.applyAction sha256 action with
  | error e =>
    have heq : db.afterAction sha256 action = db := congrArg (·.toOption.getD db) hrun
    rw [heq]
    exact ⟨h, fun id a ha => ⟨a, ha, iff_of_true rfl rfl⟩⟩
  | ok db' =>
    have heq : db.afterAction sha256 action = db' := congrArg (·.toOption.getD db) hrun
    rw [heq]
    cases action with
    | newaccount name =>
      obtain ⟨-, hcodes, new, hfresh, haccounts, -⟩ := newaccount_eq_ok hrun
      refine ⟨h.newaccount hrun, fun id a ha => ⟨a, ?_, iff_of_true rfl ?_⟩⟩
      · rw [haccounts]
        exact lookup_insert_of_none hfresh ha
      · unfold contract getCode
        rw [hcodes]
    | setcode ctx act =>
      obtain ⟨id, a, hs⟩ := setcode_eq_ok h.namesApart hrun
      obtain ⟨h', hdiffer, hothers⟩ := hs.keeps h hhash
      refine ⟨h', fun j b hb => ?_⟩
      by_cases hj : j = id
      · subst hj
        rw [hs.account] at hb
        cases hb
        have ha' : db'.accountMetadata.indices.lookup j =
            some (updateAccount ctx act (codeHash sha256 act.code) a) := by
          rw [hs.accounts, lookup_insert]
        refine ⟨_, ha', iff_of_false ?_ fun hsame => ?_⟩
        · exact fun hseq => absurd (UInt64.add_eq_left.mp hseq) (by decide)
        · exact hdiffer (codeHash_eq_of_contract h h' hs.account ha' hsame).symm
      · refine ⟨b, ?_, iff_of_true rfl (hothers j b hj hb)⟩
        rw [hs.accounts, lookup_insert_of_ne _ hj, hb]

/-- **Run lemma.** -/
theorem CodesCounted.afterActions {actions : List CodeAction}
    (hhash : ∀ action ∈ actions, action.Hashes sha256) :
    CodesCounted sha256 (db.afterActions sha256 actions) := by
  induction actions generalizing db with
  | nil => exact h
  | cons action rest ih =>
    exact ih (h.afterAction (hhash action mem_cons_self)).1
      fun b hb => hhash b (mem_cons_of_mem _ hb)

omit h

theorem codesCounted_empty : CodesCounted sha256 {} := by
  have hnone : ∀ {V : Type} {i : ℕ} {v : V}, (∅ : Table ℕ V).lookup i ≠ some v := by
    intro V i v hv
    rw [lookup_empty] at hv
    cases hv
  exact ⟨Counted.empty, fun _ _ _ _ hv => absurd hv hnone, fun _ _ hv => absurd hv hnone,
    fun _ _ hv => absurd hv hnone⟩

/-- **Code is counted.** Whatever accounts are created and whatever code they set, replace or clear,
every code object counts the accounts with its key, and there is at least one; the code of every
account with a hash is found; and an action changes the `code_sequence` of an account exactly if it
changes its code.  No code has the hash that stands for no code. -/
theorem code_references_counted (sha256 : List UInt8 → Digest) (actions : List CodeAction)
    (hhash : ∀ action ∈ actions, action.Hashes sha256) (db : CodeDatabase)
    (hdb : db = ({} : CodeDatabase).afterActions sha256 actions) :
    (∀ j c, db.codes.indices.lookup j = some c → 0 < c.codeRefCount ∧ c.codeRefCount.toNat =
      (Table.collect db.accountMetadata.indices fun _ a => a.codeKey).count c.key) ∧
    (∀ id a, db.accountMetadata.indices.lookup id = some a → a.codeHash ≠ 0 →
      ∃ found, db.getCode a.codeKey = .ok found) ∧
    ∀ action : CodeAction, action.Hashes sha256 → ∀ id a,
      db.accountMetadata.indices.lookup id = some a →
      ∃ a', (db.afterAction sha256 action).accountMetadata.indices.lookup id = some a' ∧
        (a'.codeSequence ≠ a.codeSequence ↔
          (db.afterAction sha256 action).contract a' ≠ db.contract a) := by
  have h : CodesCounted sha256 db := hdb ▸ codesCounted_empty.afterActions hhash
  refine ⟨fun j c hc => ?_, fun id a ha hne => ?_, fun action haction id a ha => ?_⟩
  · have hmem := h.held hc
    have hcount : c.codeRefCount.toNat = _ := h.counted hc
    have hpos : 0 < c.codeRefCount.toNat := hcount ▸ Multiset.count_pos.mpr hmem
    refine ⟨hpos, hcount.trans ?_⟩
    exact Multiset.count_filter_of_pos (mem_references.mp hmem).1
  · obtain ⟨j, c, hc, hkey⟩ := h.found (mem_references.mpr ⟨hne, id, a, ha, rfl⟩)
    exact ⟨(j, c), (getCode_eq_ok h.apart).mpr ⟨hc, hkey⟩⟩
  · obtain ⟨a', ha', hiff⟩ := (h.afterAction haction).2 id a ha
    exact ⟨a', ha', not_congr hiff⟩

def sharedCode : List CodeAction :=
  let ctx : SetCodeContext :=
    { which := fun _ => 0
      numSupportedKeyTypes := 2
      pendingBlockTime := 500000
      actors := [1, 2]
      maxTransactionDelay := 3888000
      checkKeyLists := false
      checkKeyList := fun _ => .ok ()
      keySize := fun _ => 34
      headBlockNum := 1
      validate := fun _ => .ok () }
  [.newaccount 1, .newaccount 2, .setcode ctx ⟨1, 0, 0, [7]⟩, .setcode ctx ⟨2, 0, 0, [7]⟩]

theorem code_references_counted_shared : ∃ db c,
    db = ({} : CodeDatabase).afterActions (fun code => BitVec.ofNat 256 (code.length + 1))
      sharedCode ∧
    db.codes.indices.lookup 0 = some c ∧ c.codeRefCount = 2 ∧
    (Table.collect db.accountMetadata.indices fun _ a => a.codeKey).count c.key = 2 := by
  have hrun : ((({} : CodeDatabase).afterActions (fun code => BitVec.ofNat 256 (code.length + 1))
      sharedCode).codes.indices.lookup 0).any (fun c => c.codeRefCount = 2) = true := by
    decide +kernel
  obtain ⟨c, hc, hcount⟩ := (any_eq_true _ _).mp hrun
  have hcount : c.codeRefCount = 2 := by simpa using hcount
  have hhash : ∀ action ∈ sharedCode,
      action.Hashes fun code => BitVec.ofNat 256 (code.length + 1) := by
    intro action haction
    simp only [sharedCode, mem_cons, not_mem_nil, or_false] at haction
    rcases haction with rfl | rfl | rfl | rfl
    · trivial
    · trivial
    · exact fun _ => by decide
    · exact fun _ => by decide
  obtain ⟨hcounted, -⟩ := code_references_counted _ sharedCode hhash _ rfl
  refine ⟨_, c, rfl, hc, hcount, ?_⟩
  rw [← (hcounted 0 c hc).2, hcount]
  rfl

end CodeDatabase

end Inery.Chain
