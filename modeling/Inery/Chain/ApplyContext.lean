import Inery.Chain.PackedTransaction

/-!
# Executing actions (`apply_context.cpp`, `transaction_context.cpp`)

The traces of a transaction stand in one vector.  An action is scheduled by appending its trace, and
executed in a context of its own, with every account that is notified of it; its inline actions are
executed when all of them have run.  What runs is whatever sequence of calls the `Host` says, for
the state of the chain and of the transaction at that time.
-/

namespace Inery.Chain.Apply

open Foundation

/-! ## Traces -/

theorem sorted_nil : ([] : List (Name × ℤ)).Pairwise (·.1 < ·.1) := .nil

structure AccountDeltas where
  deltas : List (Name × ℤ) := []
  sorted : deltas.Pairwise (·.1 < ·.1) := by exact sorted_nil
deriving DecidableEq

structure ActionReceipt where
  receiver : Name
  actDigest : Digest
  globalSequence : ℕ
  recvSequence : ℕ
  authSequence : Table Name ℕ := ∅
  codeSequence : ℕ
  abiSequence : ℕ
deriving DecidableEq

/-- `action_trace`: what the execution of actions reads and writes. -/
structure ActionTrace where
  actionOrdinal : ℕ
  creatorActionOrdinal : ℕ
  closestUnnotifiedAncestorActionOrdinal : ℕ
  receipt : Option ActionReceipt := none
  receiver : Name
  act : Wire.Action
  contextFree : Bool
  accountMemDeltas : AccountDeltas := {}
deriving DecidableEq

/-- `apply_context`: the ordinals and queues, and what its calls ask it for. -/
structure ApplyContext where
  receiver : Name
  act : Wire.Action
  contextFree : Bool
  recurseDepth : ℕ
  firstReceiverActionOrdinal : ℕ
  actionOrdinal : ℕ
  privileged : Bool := false
  notified : List (Name × ℕ) := []
  inlineActions : List ℕ := []
  cfaInlineActions : List ℕ := []
  accountMemDeltas : AccountDeltas := {}
deriving DecidableEq

/-- One `exec_one` that has returned.  `checkedAt` is the chain as it was when the recursion into
the action was allowed; an input action needs no such check. -/
structure Execution (ω : Type) where
  actionOrdinal : ℕ
  firstReceiverActionOrdinal : ℕ
  receiver : Name
  recurseDepth : ℕ
  checkedAt : Option ω

/-- What executing a transaction works on: its traces and receipts, and the chain.  `history` is
kept for the proofs only. -/
structure ExecState (ω : Type) where
  actionTraces : List ActionTrace := []
  executed : List ActionReceipt := []
  chain : ω
  history : List (Execution ω) := []

/-! ## What runs -/

/-- A call of a contract or of a native handler.  `op` are those that do not schedule actions. -/
inductive HostCall (op : Type) where
  | requireRecipient (recipient : Name)
  | executeInline (a : Wire.Action)
  | executeContextFreeInline (a : Wire.Action)
  | operation (o : op)
  | throw (e : ChainException)

structure Host (ω op : Type) where
  sha256 : Wire.Action → Digest
  /-- `db.get<account_metadata_object,by_name>` and `is_privileged`. -/
  isPrivileged : Name → ω → Result Bool
  /-- Whether the account has code. -/
  hasCode : Name → ω → Bool
  findApplyHandler : Name → Name → Name →
    Option (ApplyContext → List ActionTrace → ω → List (HostCall op))
  /-- `wasm_interface::apply`. -/
  apply : ApplyContext → List ActionTrace → ω → List (HostCall op)
  perform : op → ApplyContext → ω → Result (AccountDeltas × ω)
  /-- A new context, with empty iterator caches. -/
  enter : ω → ω
  forwardSetcode : ω → Bool
  memRestrictions : ω → Bool
  restrictActionToSelf : ω → Bool
  enforceWhiteblacklist : Bool
  isProducingBlock : Bool
  checkContractList : Name → Result Unit
  checkActionList : Name → Name → Result Unit
  checkActorList : List Name → Result Unit
  /-- The timer, at each of its uses. -/
  checktime : ApplyContext → ω → ℕ → Result Unit
  isAccount : Name → ω → Bool
  findPermission : PermissionLevel → ω → Bool
  skipAuthCheck : Bool
  /-- `check_authorization` of one action, with the inherited authorizations. -/
  checkAuthorization : ApplyContext → Wire.Action → List PermissionLevel → ω → Result Unit
  maxInlineActionSize : ω → ℕ
  maxNonprivilegedInlineActionSize : ℕ
  maxInlineActionDepth : ω → ℕ
  nextGlobalSequence : ω → ℕ × ω
  nextRecvSequence : Name → ω → Result (ℕ × ω)
  nextAuthSequence : Name → ω → Result (ℕ × ω)
  codeSequence : Name → ω → Result ℕ
  abiSequence : Name → ω → Result ℕ
  /-- `schedule_transaction`, of a delayed transaction. -/
  scheduleTransaction : ω → Result ω

variable {ω op : Type} (host : Host ω op)

/-! ## Scheduling -/

namespace ExecState

def getActionTrace (s : ExecState ω) (actionOrdinal : ℕ) : Result ActionTrace := do
  ineAssert (0 < actionOrdinal ∧ actionOrdinal ≤ s.actionTraces.length) .transactionException
    "action_ordinal ${ordinal} is outside allowed range [1,${max}]"
  match s.actionTraces[actionOrdinal - 1]? with
  | some trace => pure trace
  | none => .error ⟨.undefinedBehaviour, "read beyond the end of a vector"⟩

def scheduleAction (s : ExecState ω) (act : Wire.Action) (receiver : Name) (contextFree : Bool)
    (creatorActionOrdinal closestUnnotifiedAncestorActionOrdinal : ℕ) : ℕ × ExecState ω :=
  let actionOrdinal := u32 (s.actionTraces.length + 1)
  let trace : ActionTrace :=
    { actionOrdinal, creatorActionOrdinal, closestUnnotifiedAncestorActionOrdinal
      receiver, act, contextFree }
  (actionOrdinal, { s with actionTraces := s.actionTraces ++ [trace] })

end ExecState

namespace ApplyContext

def create (s : ExecState ω) (actionOrdinal depth : ℕ) : Result ApplyContext := do
  let trace ← s.getActionTrace actionOrdinal
  pure
    { receiver := trace.receiver, act := trace.act, contextFree := trace.contextFree,
      recurseDepth := depth, firstReceiverActionOrdinal := actionOrdinal, actionOrdinal }

variable (ctx : ApplyContext) (s : ExecState ω)

/-- `schedule_action`: the vector may have moved, so `act` is looked up again. -/
def scheduleAction (act : Wire.Action) (receiver : Name)
    (contextFree : Bool) : Result (ℕ × ApplyContext × ExecState ω) := do
  let (ordinal, s) := s.scheduleAction act receiver contextFree ctx.actionOrdinal
    ctx.firstReceiverActionOrdinal
  let trace ← s.getActionTrace ctx.actionOrdinal
  pure (ordinal, { ctx with act := trace.act }, s)

def hasRecipient (code : Name) : Bool := ctx.notified.any (·.1 = code)

def hasAuthorization (account : Name) : Bool := ctx.act.authorization.any (·.actor = account)

/-- `require_recipient`: the action that is being executed, for another receiver. -/
def requireRecipient (recipient : Name) : Result (ApplyContext × ExecState ω) :=
  if ctx.hasRecipient recipient then pure (ctx, s)
  else do
    let trace ← s.getActionTrace ctx.actionOrdinal
    let (ordinal, ctx, s) ← ctx.scheduleAction s trace.act recipient false
    pure ({ ctx with notified := ctx.notified ++ [(recipient, ordinal)] }, s)

/-! ### Sending actions -/

variable (a : Wire.Action) (chain : ω)

/-- The actors of an action exist, and have the permissions it names. -/
def checkActors : Result Unit := a.authorization.forM fun auth => do
    ineAssert (host.isAccount auth.actor chain = true) .actionValidateException
      "inline action's authorizing actor ${account} does not exist"
    ineAssert (host.findPermission auth chain = true) .actionValidateException
      "inline action's authorizations include a non-existent permission: ${permission}"

def checkActorList : Result Unit :=
  if host.enforceWhiteblacklist && host.isProducingBlock then
    host.checkActorList (a.authorization.map PermissionLevel.actor)
  else pure ()

/-- The size that a producer accepts from a contract that is not privileged. -/
def checkInlineSize : Result Unit :=
  ineAssert (!ctx.privileged && host.isProducingBlock →
      a.data.length < min (host.maxInlineActionSize chain) host.maxNonprivilegedInlineActionSize)
    .inlineActionTooBigNonprivileged "inline action too big for nonprivileged account ${account}"

def inheritedAuthorizations : List PermissionLevel :=
  if !host.restrictActionToSelf chain && a.account == ctx.receiver &&
      ctx.receiver == ctx.act.account && host.isProducingBlock then
    a.authorization.filter (· ∈ ctx.act.authorization)
  else []

/-- The authorization of an inline action.  Where a contract may still send to itself without it,
a failure counts only for the producer. -/
def authorizeInline : Result Unit :=
  if !host.skipAuthCheck && !ctx.privileged then
    match host.checkAuthorization ctx a (inheritedAuthorizations host ctx a chain) chain with
    | .ok () => pure ()
    | .error e =>
      if host.restrictActionToSelf chain || !(a.account == ctx.receiver) then .error e
      else if host.isProducingBlock then
        .error ⟨.subjectiveBlockProductionException,
          if e.kind.isFc then "Authorization failure with inline action sent to self"
          else "Unexpected exception occurred validating inline action sent to self"⟩
      else pure ()
  else pure ()

def executeInline : Result (ApplyContext × ExecState ω) := do
  ineAssert (host.isAccount a.account s.chain = true) .actionValidateException
    "inline action's code account ${account} does not exist"
  checkActors host a s.chain
  checkActorList host a
  ctx.checkInlineSize host a s.chain
  ctx.authorizeInline host a s.chain
  let (ordinal, ctx, s) ← ctx.scheduleAction s a a.account false
  pure ({ ctx with inlineActions := ctx.inlineActions ++ [ordinal] }, s)

def executeContextFreeInline : Result (ApplyContext × ExecState ω) := do
  ineAssert (host.isAccount a.account s.chain = true) .actionValidateException
    "inline action's code account ${account} does not exist"
  ineAssert (a.authorization.length = 0) .actionValidateException
    "context-free actions cannot have authorizations"
  ctx.checkInlineSize host a s.chain
  let (ordinal, ctx, s) ← ctx.scheduleAction s a a.account true
  pure ({ ctx with cfaInlineActions := ctx.cfaInlineActions ++ [ordinal] }, s)

/-! ## `exec_one` -/

def call : HostCall op → Result (ApplyContext × ExecState ω)
  | .requireRecipient recipient => ctx.requireRecipient s recipient
  | .executeInline a => ctx.executeInline host s a
  | .executeContextFreeInline a => ctx.executeContextFreeInline host s a
  | .operation o => do
      let (accountMemDeltas, chain) ← host.perform o ctx s.chain
      pure ({ ctx with accountMemDeltas }, { s with chain })
  | .throw e => .error e

def callAll (calls : List (HostCall op)) : Result (ApplyContext × ExecState ω) :=
  calls.foldlM (fun r c => r.1.call host r.2 c) (ctx, s)

/-- The lists of contracts and actions of the producer. -/
def checkLists : Result Unit :=
  if host.enforceWhiteblacklist && host.isProducingBlock then do
    host.checkContractList ctx.receiver
    host.checkActionList ctx.act.account ctx.act.name
  else pure ()

def applyNative : Result (ApplyContext × ExecState ω) :=
  match host.findApplyHandler ctx.receiver ctx.act.account ctx.act.name with
  | some native => do
      ctx.checkLists host
      ctx.callAll host s (native ctx s.actionTraces s.chain)
  | none => pure (ctx, s)

/-- `N(setcode)`. -/
def setcodeName : Name := 0xc2b28a2540000000

def applyContract : Result (ApplyContext × ExecState ω) :=
  if host.hasCode ctx.receiver s.chain &&
      (!(ctx.act.account == Config.systemAccountName && ctx.act.name == setcodeName &&
        ctx.receiver == Config.systemAccountName) || host.forwardSetcode s.chain) then do
    ctx.checkLists host
    ctx.callAll host s (host.apply ctx s.actionTraces s.chain)
  else pure (ctx, s)

def checkMemDelta (account : Name) (delta : ℤ) : Result Unit :=
  if 0 < delta ∧ account ≠ ctx.receiver then do
    ineAssert (ctx.receiver = ctx.act.account) .unauthorizedMemUsageIncrease
      "unprivileged contract cannot increase MEM usage of another account within a notify context: ${account}"
    ineAssert (ctx.hasAuthorization account = true) .unauthorizedMemUsageIncrease
      "unprivileged contract cannot increase MEM usage of another account that has not authorized the action: ${account}"
  else pure ()

/-- The timer is looked at once in `checktime_interval` rounds. -/
def pollTimer (i : ℕ) : Result Unit :=
  if i ≠ 0 ∧ i % 10 = 0 then host.checktime ctx chain i else pure ()

def checkMemDeltas : Result Unit :=
  ctx.accountMemDeltas.deltas.zipIdx.forM fun ((account, delta), i) => do
    ctx.pollTimer host chain i
    ctx.checkMemDelta account delta

/-- What an unprivileged contract may have charged. -/
def checkMemRestrictions : Result Unit :=
  if !ctx.privileged && host.memRestrictions chain then ctx.checkMemDeltas host chain else pure ()

/-- `r.auth_sequence[auth.actor] = next_auth_sequence( auth.actor )`, for every authorization. -/
def nextAuthSequences (authorization : List PermissionLevel) (chain : ω) :
    Result (Table Name ℕ × ω) :=
  authorization.foldlM (fun r auth => do
    let (sequence, chain) ← host.nextAuthSequence auth.actor r.2
    pure (r.1.insert auth.actor sequence, chain)) (∅, chain)

def makeReceipt : Result (ActionReceipt × ω) := do
  let (globalSequence, chain) := host.nextGlobalSequence chain
  let (recvSequence, chain) ← host.nextRecvSequence ctx.receiver chain
  let codeSequence ← host.codeSequence ctx.act.account chain
  let abiSequence ← host.abiSequence ctx.act.account chain
  let (authSequence, chain) ← nextAuthSequences host ctx.act.authorization chain
  let receipt : ActionReceipt :=
    { receiver := ctx.receiver, actDigest := host.sha256 ctx.act
      globalSequence, recvSequence, authSequence, codeSequence, abiSequence }
  pure (receipt, chain)

def finalizeTrace (checkedAt : Option ω) (ctx : ApplyContext) (s : ExecState ω)
    (receipt : ActionReceipt) : Result (ApplyContext × ExecState ω) := do
  let trace ← s.getActionTrace ctx.actionOrdinal
  let execution : Execution ω :=
    { actionOrdinal := ctx.actionOrdinal
      firstReceiverActionOrdinal := ctx.firstReceiverActionOrdinal
      receiver := ctx.receiver
      recurseDepth := ctx.recurseDepth
      checkedAt }
  pure ({ ctx with accountMemDeltas := {} },
    { s with
      actionTraces := s.actionTraces.set (ctx.actionOrdinal - 1)
        { trace with receipt := some receipt, accountMemDeltas := ctx.accountMemDeltas }
      executed := s.executed ++ [receipt]
      history := s.history ++ [execution] })

/-- What `exec_one` runs, and the check of what it has charged. -/
def applyOne : Result (ApplyContext × ExecState ω) := do
  let privileged ← host.isPrivileged ctx.receiver s.chain
  let (ctx, s) ← ({ ctx with privileged } : ApplyContext).applyNative host s
  let (ctx, s) ← ctx.applyContract host s
  ctx.checkMemRestrictions host s.chain
  pure (ctx, s)

def execOne (checkedAt : Option ω) (ctx : ApplyContext) (s : ExecState ω) :
    Result (ApplyContext × ExecState ω) := do
  let (ctx, s) ← (ctx.applyOne host s).mapError ChainException.capture
  let (receipt, chain) ← ctx.makeReceipt host s.chain
  ctx.finalizeTrace checkedAt { s with chain } receipt

/-! ## `exec` -/

/-- The loop over the accounts to notify, which grows while it runs.  The timer ends it if need
be. -/
def notifyAll (checkedAt : Option ω) :
    ℕ → ℕ → ApplyContext → ExecState ω → Result (ApplyContext × ExecState ω)
  | 0, _, _, _ => .error ⟨.deadlineException, "deadline exceeded ${billing_timer}us"⟩
  | time + 1, i, ctx, s =>
    match ctx.notified[i]? with
    | none => pure (ctx, s)
    | some (receiver, actionOrdinal) => do
        let (ctx, s) ←
          ({ ctx with receiver, actionOrdinal } : ApplyContext).execOne host checkedAt s
        notifyAll checkedAt time (u32 (i + 1)) ctx s

def checkDepth : Result Unit :=
  ineAssert (0 < ctx.cfaInlineActions.length ∨ 0 < ctx.inlineActions.length →
      ctx.recurseDepth < host.maxInlineActionDepth chain)
    .transactionException "max inline action depth per transaction reached"

end ApplyContext

/-- `execute_action`: `exec` in a new context. -/
def executeAction : ℕ → ℕ → ℕ → Option ω → ExecState ω → Result (ExecState ω)
  | 0, _, _, _, _ => .error ⟨.deadlineException, "deadline exceeded ${billing_timer}us"⟩
  | time + 1, actionOrdinal, depth, checkedAt, s => do
      let ctx ← ApplyContext.create s actionOrdinal depth
      let ctx : ApplyContext := { ctx with notified := [(ctx.receiver, actionOrdinal)] }
      let (ctx, s) ← ctx.execOne host checkedAt { s with chain := host.enter s.chain }
      let (ctx, s) ← ctx.notifyAll host checkedAt time 1 s
      ctx.checkDepth host s.chain
      let s' ← ctx.cfaInlineActions.foldlM
        (fun s' ordinal => executeAction time ordinal (depth + 1) (some s.chain) s') s
      ctx.inlineActions.foldlM
        (fun s' ordinal => executeAction time ordinal (depth + 1) (some s.chain) s') s'

/-! ## Transactions -/

/-- The input actions, which no action has created. -/
def scheduleInputs (s : ExecState ω) (acts : List Wire.Action) (contextFree : Bool) : ExecState ω :=
  acts.foldl (fun s act => (s.scheduleAction act act.account contextFree 0 0).2) s

/-- `transaction_context::exec`. -/
def exec (time : ℕ) (isInitialized applyContextFree : Bool) (delay : ℕ) (trx : Wire.Transaction)
    (chain : ω) : Result (ExecState ω) := do
  ineAssert (isInitialized = true) .transactionException "must first initialize"
  let s := scheduleInputs { chain } (if applyContextFree then trx.contextFreeActions else []) true
  let s := scheduleInputs s (if delay = 0 then trx.actions else []) false
  let numOriginalActionsToExecute := u32 s.actionTraces.length
  let s ← (List.range' 1 numOriginalActionsToExecute).foldlM
    (fun s i => executeAction host time i 0 none s) s
  if delay ≠ 0 then do
    let chain ← host.scheduleTransaction s.chain
    pure { s with chain }
  else pure s

/-- `apply_onerror`: the failed transaction is delivered to its sender. -/
def applyOnerror (time : ℕ) (onerror : Wire.Action) (sender : Name) (chain : ω) :
    Result (ExecState ω) :=
  let (ordinal, s) := ({ chain } : ExecState ω).scheduleAction onerror sender false 0 0
  executeAction host time ordinal 0 none s

end Inery.Chain.Apply
