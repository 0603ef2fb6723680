import Inery.Chain.ApplyContext
import Inery.Chain.Permissions
import Inery.Chain.SecondaryIndices

/-!
# What actions charge for (`apply_context.cpp`)

Rows and deferred transactions are paid for by an account of the contract's choice.  Every charge
and refund goes through `add_mem_usage`, which changes the usage of the account at once and keeps
the sum of the changes of the action, account by account, for the check at its end.
-/

namespace Inery.Chain.Apply

open Foundation Chainbase List

/-! ## `add_mem_usage` -/

namespace AccountDeltas

/-- `emplace`, and `+=` where the account has an entry. -/
def addTo (account : Name) (delta : ℤ) : List (Name × ℤ) → List (Name × ℤ)
  | [] => [(account, delta)]
  | (a, d) :: rest =>
    if account < a then (account, delta) :: (a, d) :: rest
    else if account = a then (a, d + delta) :: rest
    else (a, d) :: addTo account delta rest

theorem mem_addTo {account a : Name} {delta d : ℤ} {l : List (Name × ℤ)}
    (h : (a, d) ∈ addTo account delta l) : a = account ∨ a ∈ l.map Prod.fst := by
  fun_induction addTo with
  | case1 => simp_all
  | case2 | case3 | case4 => grind

/-- An account below the first is below all that have an entry. -/
theorem lt_of_lt_head {account : Name} {e : Name × ℤ} {rest : List (Name × ℤ)}
    (h : (e :: rest).Pairwise (·.1 < ·.1)) (hlt : account < e.1) : ∀ f ∈ e :: rest, account < f.1 :=
  forall_mem_cons.mpr ⟨hlt, fun f hf => UInt64.lt_trans hlt ((pairwise_cons.mp h).1 f hf)⟩

theorem addTo_sorted {l : List (Name × ℤ)} (account : Name) (delta : ℤ)
    (h : l.Pairwise (·.1 < ·.1)) : (addTo account delta l).Pairwise (·.1 < ·.1) := by
  fun_induction addTo with
  | case1 => exact pairwise_singleton ..
  | case2 _ _ _ hlt => exact pairwise_cons.mpr ⟨lt_of_lt_head h hlt, h⟩
  | case3 => simpa using h
  | case4 a d rest hge hne ih =>
    obtain ⟨hhead, hrest⟩ := pairwise_cons.mp h
    refine pairwise_cons.mpr ⟨fun f hf => ?_, ih hrest⟩
    rcases mem_addTo hf with hf | hf
    · rw [hf]
      exact UInt64.lt_of_le_of_ne (UInt64.not_lt.mp hge) (Ne.symm hne)
    · obtain ⟨f', hf', heq⟩ := mem_map.mp hf
      exact heq ▸ hhead f' hf'

def add (d : AccountDeltas) (account : Name) (delta : ℤ) : AccountDeltas :=
  ⟨addTo account delta d.deltas, addTo_sorted account delta d.sorted⟩

def get (d : AccountDeltas) (account : Name) : ℤ := (d.deltas.lookup account).getD 0

end AccountDeltas

/-- What `add_mem_usage` changes, in the resource manager, the transaction and the context. -/
structure MemUsage where
  resources : ResourceLimitsManager
  validateMemUsage : Finset Name := ∅
  accountMemDeltas : AccountDeltas := {}

namespace MemUsage

/-- `transaction_context::add_mem_usage`. -/
def addToTransaction (u : MemUsage) (account : Name) (memDelta : ℤ) : Result MemUsage := do
  let resources ← u.resources.addPendingMemUsage account memDelta
  pure { u with
    resources
    validateMemUsage :=
      if 0 < memDelta then insert account u.validateMemUsage else u.validateMemUsage }

/-- `apply_context::add_mem_usage`.  The sum is an `int64_t`. -/
def addMemUsage (u : MemUsage) (account : Name) (memDelta : ℤ) : Result MemUsage := do
  let u ← u.addToTransaction account memDelta
  let sum := u.accountMemDeltas.get account + memDelta
  ineAssert (-2 ^ 63 ≤ sum ∧ sum < 2 ^ 63) .undefinedBehaviour "signed overflow"
  pure { u with accountMemDeltas := u.accountMemDeltas.add account memDelta }

end MemUsage

/-! ## The state of the chain -/

structure GeneratedTransaction where
  trxId : Digest
  sender : Name
  senderId : BitVec 128
  payer : Name
  delayUntil : ℤ
  expiration : ℤ
  published : ℤ
  packedTrx : Bytes
deriving DecidableEq

namespace GeneratedTransaction

def bySenderId (g : GeneratedTransaction) : Name × BitVec 128 := (g.sender, g.senderId)

def unique : Uniqueness GeneratedTransaction :=
  ⟨fun a b => a.trxId = b.trxId ∨ a.bySenderId = b.bySenderId, fun a b => by simp [eq_comm]⟩

end GeneratedTransaction

open GeneratedTransaction

/-- The chain, as far as the calls that charge reach; `rest` is what else it has. -/
structure MemChain (ρ : Type) where
  tables : IndexedState Unit
  resources : ResourceLimitsManager
  validateMemUsage : Finset Name := ∅
  generatedTransactions : GenericIndex GeneratedTransaction := {}
  memCorrections : Table Name ℕ := ∅
  rest : ρ

namespace MemChain

variable {ρ : Type}

/-- The part that `add_mem_usage` changes. -/
def usage (c : MemChain ρ) (deltas : AccountDeltas) : MemUsage :=
  { resources := c.resources, validateMemUsage := c.validateMemUsage, accountMemDeltas := deltas }

def put (c : MemChain ρ) (u : MemUsage) : AccountDeltas × MemChain ρ :=
  (u.accountMemDeltas, { c with resources := u.resources, validateMemUsage := u.validateMemUsage })

def addToMemCorrection (c : MemChain ρ) (account : Name) (memBytes : ℕ) : MemChain ρ :=
  let old := (c.memCorrections.lookup account).getD 0
  { c with memCorrections := c.memCorrections.insert account (u64 (old + memBytes)) }

end MemChain

/-- The calls that do not schedule actions: those of the database, of deferred transactions, and the
charges of native handlers.  `other` are those that charge nothing. -/
inductive MemOp (ρ : Type) where
  | db (call : ContractCall)
  | scheduleDeferredTransaction (senderId : BitVec 128) (payer : Name) (trx : Wire.Transaction)
      (replaceExisting : Bool)
  | cancelDeferredTransaction (senderId : BitVec 128) (sender : Name)
  | addMemUsage (account : Name) (memDelta : ℤ)
  | other (f : ApplyContext → ρ → Result ρ)

structure GenerationContext where
  senderTrxId : Digest
  senderId : BitVec 128
  sender : Name
deriving DecidableEq

/-- What deferred transactions need beyond the `Host`. -/
structure Deferral (ρ : Type) where
  sha256 : Bytes → Digest
  /-- `trx_context.id`. -/
  id : Digest
  senderAvoidsWhitelistBlacklistEnforcement : Name → Bool
  validateReferencedAccounts : Wire.Transaction → Bool → MemChain ρ → Result Unit
  noDuplicateDeferredId : Bool
  replaceDeferred : Bool
  /-- `validate_and_extract_extensions`, which knows one type. -/
  extractExtensions : Wire.Transaction → Result (List GenerationContext)
  packContext : GenerationContext → Bytes
  pendingBlockTime : ℤ
  setReferenceBlock : Wire.Transaction → Wire.Transaction
  basePerTransactionNetUsage : ℕ
  deferredTrxExpirationWindow : ℕ
  addNetUsage : ℕ → ρ → Result ρ
  /-- `check_authorization` of the actions, for the delay. -/
  checkAuthorization : ApplyContext → Wire.Transaction → MemChain ρ → Result Unit
  allSubjectiveMitigationsDisabled : Bool
  isMemBillingInNotifyAllowed : Bool

namespace Config

def billableGeneratedTransaction : ℕ := 272

def transactionIdNetUsage : ℕ := 32

end Config

/-! ## The calls -/

section Calls

variable {ρ : Type} (host : Host (MemChain ρ) (MemOp ρ)) (deferral : Deferral ρ)

namespace ApplyContext

variable (ctx : ApplyContext)

def requireAuthorization (account : Name) : Result Unit :=
  ineAssert (ctx.hasAuthorization account = true) .missingAuthException
    "missing authority of ${account}"

variable (c : MemChain ρ)

def checkDbUsage (payer : Name) (delta : ℤ) : Result Unit :=
  if 0 < delta ∧ !(ctx.privileged || payer == ctx.receiver || host.memRestrictions c) then do
    ineAssert (deferral.isMemBillingInNotifyAllowed = true ∨ ctx.receiver = ctx.act.account)
      .subjectiveBlockProductionException "Cannot charge MEM to other accounts during notify."
    ctx.requireAuthorization payer
  else pure ()

def updateDbUsage : UpdateDbUsage MemUsage :=
  fun _ payer delta u => do
    ctx.checkDbUsage host deferral c payer delta
    u.addMemUsage payer delta

def callDb (call : ContractCall) : Result (AccountDeltas × MemChain ρ) := do
  let tables : IndexedState MemUsage := { c.tables with usage := c.usage ctx.accountMemDeltas }
  let (_, tables) ← tables.call (ctx.updateDbUsage host deferral c) call
  pure ({ c with tables := { tables with usage := () } }.put tables.usage)

/-! ### Deferred transactions -/

variable (senderId : BitVec 128)

/-- The extension of a deferred transaction names the transaction that has sent it. -/
def checkGeneration (generation : GenerationContext) : Result Unit := do
  ineAssert (generation.sender = ctx.receiver) .otherChainException
    "deferred transaction generaction context contains mismatching sender"
  ineAssert (generation.senderId = senderId) .otherChainException
    "deferred transaction generaction context contains mismatching sender_id"
  ineAssert (generation.senderTrxId = deferral.id) .otherChainException
    "deferred transaction generaction context contains mismatching sender_trx_id"

variable (trx : Wire.Transaction)

/-- The extension is checked, or added. -/
def extendDeferred : Result Wire.Transaction := do
  let exts ← deferral.extractExtensions trx
  match exts with
  | [] =>
    let generation : GenerationContext := ⟨deferral.id, senderId, ctx.receiver⟩
    pure { trx with
      transactionExtensions :=
        trx.transactionExtensions ++ [(0, deferral.packContext generation)] }
  | [generation] => do
      ctx.checkGeneration deferral senderId generation
      pure trx
  | _ => .error ⟨.otherChainException,
      "only the deferred_transaction_generation_context extension is currently supported for deferred transactions"⟩

/-- Extension, expiration and reference block of a deferred transaction. -/
def prepareDeferred : Result Wire.Transaction :=
  if deferral.noDuplicateDeferredId then do
    let trx ← ctx.extendDeferred deferral senderId trx
    pure { trx with expiration := 0, refBlockNum := 0, refBlockPrefix := 0 }
  else
    pure (deferral.setReferenceBlock
      { trx with expiration := .ofInt ((deferral.pendingBlockTime + 999999) / 1000000) })

variable (payer : Name)

/-- Whom an unprivileged contract may make pay for a deferred transaction. -/
def checkDeferredPayer : Result Unit :=
  if payer = ctx.receiver then pure ()
  else if host.memRestrictions c then do
    ineAssert (ctx.receiver = ctx.act.account) .actionValidateException
      "cannot bill MEM usage of deferred transactions to another account within notify context"
    ineAssert (ctx.hasAuthorization payer = true) .actionValidateException
      "cannot bill MEM usage of deferred transaction to another account that has not authorized the action: ${payer}"
  else ctx.requireAuthorization payer

/-- The authorization of the actions.  Where a contract may still send to itself without it, a
failure counts only for the producer. -/
def checkDeferredActions : Result Unit :=
  match deferral.checkAuthorization ctx trx c with
  | .ok () => pure ()
  | .error e =>
    if host.restrictActionToSelf c || !trx.actions.all (·.account = ctx.receiver) then .error e
    else if host.isProducingBlock then
      .error ⟨.subjectiveBlockProductionException,
        if e.kind.isFc then
          "Authorization failure with sent deferred transaction consisting only of actions to self"
        else
          "Unexpected exception occurred validating sent deferred transaction consisting only of actions to self"⟩
    else pure ()

def authorizeDeferred (trx : Wire.Transaction) : Result Unit :=
  if !host.skipAuthCheck && !ctx.privileged then do
    ctx.checkDeferredPayer host c payer
    ctx.checkDeferredActions host deferral c trx
  else pure ()

/-- What a deferred transaction is billed. -/
def deferredMemBytes (packedTrx : Bytes) : ℕ :=
  Config.billableGeneratedTransaction + packedTrx.length

/-- A deferred transaction that is replaced is paid back.  Before `replace_deferred` that was
forgotten, and is put down to be corrected later. -/
def refundReplaced (old : GeneratedTransaction) : Result (MemUsage × MemChain ρ) :=
  if deferral.replaceDeferred then do
    let u ← (c.usage ctx.accountMemDeltas).addMemUsage old.payer (-(deferredMemBytes old.packedTrx))
    pure (u, c)
  else
    let c := c.addToMemCorrection old.payer (deferredMemBytes old.packedTrx)
    pure (c.usage ctx.accountMemDeltas, c)

/-- `create<generated_transaction_object>`, and `set`. -/
def createDeferred
    (trx : Wire.Transaction) (replacedId : Option Digest) : Result (MemChain ρ × Bytes) :=
  match Wire.transactionFormat.pack trx with
  | none => .error ⟨.otherChainException, "value.size() <= MAX_SIZE_OF_BYTE_ARRAYS"⟩
  | some packedTrx => do
      let published := deferral.pendingBlockTime
      let delayUntil := published + trx.delaySec.toNat * 1000000
      let gtx : GeneratedTransaction :=
        { trxId := replacedId.getD (deferral.sha256 packedTrx)
          sender := ctx.receiver
          senderId, payer, published, delayUntil
          expiration := delayUntil + deferral.deferredTrxExpirationWindow * 1000000
          packedTrx }
      let generatedTransactions ← stored (c.generatedTransactions.emplace unique gtx)
      pure ({ c with generatedTransactions }, packedTrx)

/-- The deferred transaction takes its place, or that of the one with the same sender id. -/
def storeDeferred
    (trx : Wire.Transaction) (replaceExisting : Bool) : Result (MemUsage × MemChain ρ × Bytes) :=
  match findBy bySenderId c.generatedTransactions.indices
      (ctx.receiver, senderId) with
  | none => do
      let r ← ctx.createDeferred deferral c senderId payer trx none
      pure (c.usage ctx.accountMemDeltas, r)
  | some (id, old) => do
      ineAssert (replaceExisting = true) .deferredTxDuplicate
        "deferred transaction with the same sender_id and payer already exists"
      ineAssert (deferral.replaceDeferred || !host.isProducingBlock ||
          deferral.allSubjectiveMitigationsDisabled) .subjectiveBlockProductionException
        "Replacing a deferred transaction is temporarily disabled."
      let (u, c) ← ctx.refundReplaced deferral c old
      let generatedTransactions ← stored (c.generatedTransactions.remove id)
      let r ← ctx.createDeferred deferral { c with generatedTransactions } senderId payer trx
        (if deferral.replaceDeferred then none else some old.trxId)
      pure (u, r)

def scheduleDeferredTransaction (trx : Wire.Transaction) (replaceExisting : Bool) :
    Result (AccountDeltas × MemChain ρ) := do
  ineAssert (trx.contextFreeActions.length = 0) .otherChainException
    "context free actions are not currently allowed in generated transactions"
  let enforceActorWhitelistBlacklist := host.enforceWhiteblacklist && host.isProducingBlock &&
    !deferral.senderAvoidsWhitelistBlacklistEnforcement ctx.receiver
  deferral.validateReferencedAccounts trx enforceActorWhitelistBlacklist c
  let trx ← ctx.prepareDeferred deferral senderId trx
  let rest ← deferral.addNetUsage
    (deferral.basePerTransactionNetUsage + Config.transactionIdNetUsage) c.rest
  ctx.authorizeDeferred host deferral { c with rest } payer trx
  let (u, c, packedTrx) ← ctx.storeDeferred host deferral { c with rest } senderId payer trx
    replaceExisting
  ineAssert (host.memRestrictions c = true ∨ deferral.isMemBillingInNotifyAllowed = true ∨
      ctx.receiver = ctx.act.account ∨ ctx.receiver = payer ∨ ctx.privileged = true)
    .subjectiveBlockProductionException "Cannot charge MEM to other accounts during notify."
  let u ← u.addMemUsage payer (deferredMemBytes packedTrx)
  pure (c.put u)

def cancelDeferredTransaction (sender : Name) : Result (AccountDeltas × MemChain ρ) :=
  match findBy bySenderId c.generatedTransactions.indices
      (sender, senderId) with
  | none => pure (ctx.accountMemDeltas, c)
  | some (id, gto) => do
      let u ← (c.usage ctx.accountMemDeltas).addMemUsage gto.payer
        (-(deferredMemBytes gto.packedTrx))
      let generatedTransactions ← stored (c.generatedTransactions.remove id)
      pure ({ c with generatedTransactions }.put u)

def performMem : MemOp ρ → Result (AccountDeltas × MemChain ρ)
  | .db call => ctx.callDb host deferral c call
  | .scheduleDeferredTransaction senderId payer trx replaceExisting =>
    ctx.scheduleDeferredTransaction host deferral c senderId payer trx replaceExisting
  | .cancelDeferredTransaction senderId sender => ctx.cancelDeferredTransaction c senderId sender
  | .addMemUsage account memDelta => do
      let u ← (c.usage ctx.accountMemDeltas).addMemUsage account memDelta
      pure (c.put u)
  | .other f => do
      let rest ← f ctx c.rest
      pure (ctx.accountMemDeltas, { c with rest })

end ApplyContext

end Calls

/-- A chain whose calls are these.  Features do not change while an action runs, and the sequences
of a receipt are no usage. -/
structure MemHost (ρ : Type) extends Host (MemChain ρ) (MemOp ρ) where
  deferral : Deferral ρ
  memRestrictionsActivated : Bool
  perform_eq : ∀ o ctx c, perform o ctx c = ctx.performMem toHost deferral c o
  memRestrictions_eq : ∀ c, memRestrictions c = memRestrictionsActivated
  nextGlobalSequence_resources : ∀ c, (nextGlobalSequence c).2.resources = c.resources
  nextRecvSequence_resources : ∀ {a c r}, nextRecvSequence a c = .ok r → r.2.resources = c.resources
  nextAuthSequence_resources : ∀ {a c r}, nextAuthSequence a c = .ok r → r.2.resources = c.resources

end Inery.Chain.Apply
