import Inery.Chain.DbCharges
import Inery.Chain.MemBilling
import Inery.Chain.ResourceUsage
import Inery.Chain.TraceTree

/-!
# Who pays for an action

The check at the end of `exec_one` looks at the sums that the context has kept.  Every call changes
the usage of the accounts by what it adds to these sums, so the sums are what the usage has changed
by since the action began, and the check is about the usage of the accounts.
-/

namespace Inery.Chain.Apply

open Foundation Relation List ApplyContext ExecState

/-! ## The sums -/

namespace AccountDeltas

theorem lookup_addTo (account a : Name) (delta : ℤ) {l : List (Name × ℤ)}
    (h : l.Pairwise (·.1 < ·.1)) : ((addTo account delta l).lookup a).getD 0 =
      (l.lookup a).getD 0 + if a = account then delta else 0 := by
  fun_induction addTo with
  | case1 | case3 => grind
  | case2 e d rest hlt =>
    -- an account below the first has no entry yet
    have hnone : ((e, d) :: rest).lookup account = none := by
      rw [lookup_eq_none_iff]
      exact fun f hf => bne_iff_ne.mpr (UInt64.ne_of_lt (lt_of_lt_head h hlt f hf))
    grind
  | case4 _ _ _ _ _ ih =>
    have hrest := ih (pairwise_cons.mp h).2
    grind

theorem get_add (d : AccountDeltas) (account a : Name) (delta : ℤ) :
    (d.add account delta).get a = d.get a + if a = account then delta else 0 :=
  lookup_addTo account a delta d.sorted

theorem mem_of_get {d : AccountDeltas} {a : Name} (h : 0 < d.get a) : (a, d.get a) ∈ d.deltas := by
  rw [get] at h ⊢
  cases hlook : d.deltas.lookup a with
  | none =>
    rw [hlook] at h
    exact absurd h (lt_irrefl 0)
  | some δ =>
    obtain ⟨l₁, l₂, hl, -⟩ := lookup_eq_some_iff.mp hlook
    rw [hl]
    exact mem_append_right _ (mem_cons_self ..)

end AccountDeltas

/-! ## What calls add -/

def memUsageOf (m : ResourceLimitsManager) (a : Name) : ℕ :=
  ((m.usage.lookup a).map ResourceUsage.memUsage).getD 0

/-- The usage has changed by what the sums have changed by. -/
def Tracks (u u' : MemUsage) : Prop :=
  ∀ a, (memUsageOf u'.resources a : ℤ) - memUsageOf u.resources a =
    u'.accountMemDeltas.get a - u.accountMemDeltas.get a

theorem Tracks.refl (u : MemUsage) : Tracks u u := fun a => by rw [Int.sub_self, Int.sub_self]

theorem Tracks.trans {u u' u'' : MemUsage} (h : Tracks u u') (h' : Tracks u' u'') :
    Tracks u u'' := by
  intro a
  have := h a
  have := h' a
  omega

theorem addPendingMemUsage_usage {m m' : ResourceLimitsManager} {account : Name} {delta : ℤ}
    (h : m.addPendingMemUsage account delta = .ok m') (a : Name) :
    (memUsageOf m' a : ℤ) = memUsageOf m a + if a = account then delta else 0 := by
  obtain ⟨rfl, rfl⟩ | ⟨usage, husage, hunder, rfl⟩ :=
    ResourceLimitsManager.addPendingMemUsage_cases h
  · rw [ite_self, Int.add_zero]
  · rw [memUsageOf, ResourceLimitsManager.setUsage, Table.lookup_insert_ite]
    by_cases ha : a = account
    · rw [if_pos ha, if_pos ha, ha, memUsageOf, husage]
      show ((usage.memUsage + delta).toNat : ℤ) = usage.memUsage + delta
      omega
    · rw [if_neg ha, if_neg ha, Int.add_zero]
      rfl

theorem MemUsage.addMemUsage_tracks {u u' : MemUsage} {account : Name} {delta : ℤ}
    (h : u.addMemUsage account delta = .ok u') : Tracks u u' := by
  obtain ⟨u₁, hadd, h⟩ := bind_eq_ok.mp h
  obtain ⟨_, -, h⟩ := bind_eq_ok.mp h
  obtain ⟨resources, hresources, hadd⟩ := bind_eq_ok.mp hadd
  cases hadd
  cases h
  intro a
  have husage := addPendingMemUsage_usage hresources a
  have hsum := u.accountMemDeltas.get_add account a delta
  show (memUsageOf resources a : ℤ) - _ = (u.accountMemDeltas.add account delta).get a - _
  omega

section Calls

variable {ρ : Type} {host : Host (MemChain ρ) (MemOp ρ)} {deferral : Deferral ρ}
  {ctx : ApplyContext} {c c' : MemChain ρ} {deltas : AccountDeltas}

theorem MemChain.usage_put (c : MemChain ρ) (u : MemUsage) : (c.put u).2.usage (c.put u).1 = u :=
  rfl

variable {u : MemUsage}

theorem Tracks.of_put {u' : MemUsage} (h : Tracks u u') (hput : c.put u' = (deltas, c')) :
    Tracks u (c'.usage deltas) := by
  have husage := c.usage_put u'
  rw [hput] at husage
  rwa [husage]

theorem Tracks.of_charges {u' : MemUsage}
    (h : ReflTransGen (Charge (ctx.updateDbUsage host deferral c)) u u') : Tracks u u' := by
  induction h with
  | refl => exact .refl _
  | tail _ hcharge ih =>
    obtain ⟨receiver, payer, delta, hcharge⟩ := hcharge
    obtain ⟨_, -, hcharge⟩ := bind_eq_ok.mp hcharge
    exact ih.trans (MemUsage.addMemUsage_tracks hcharge)

theorem callDb_tracks {call : ContractCall}
    (h : ctx.callDb host deferral c call = .ok (deltas, c')) :
    Tracks (c.usage ctx.accountMemDeltas) (c'.usage deltas) := by
  obtain ⟨⟨out, tables⟩, hcall, h⟩ := bind_eq_ok.mp h
  refine Tracks.of_put ?_ (Except.ok.inj h)
  exact .of_charges
    ((IndexedState.charges_call (ctx.updateDbUsage host deferral c) _ call).ok hcall)

theorem refundReplaced_tracks {old : GeneratedTransaction}
    (h : ctx.refundReplaced deferral c old = .ok (u, c')) :
    Tracks (c.usage ctx.accountMemDeltas) u := by
  rw [refundReplaced] at h
  split at h
  · obtain ⟨u', hadd, h⟩ := bind_eq_ok.mp h
    cases h
    exact MemUsage.addMemUsage_tracks hadd
  · cases h
    exact .refl _

variable {senderId : BitVec 128}

theorem storeDeferred_tracks {payer : Name} {trx : Wire.Transaction} {replaceExisting : Bool}
    {packedTrx : Bytes}
    (h : ctx.storeDeferred host deferral c senderId payer trx replaceExisting =
      .ok (u, c', packedTrx)) :
    Tracks (c.usage ctx.accountMemDeltas) u := by
  rw [storeDeferred] at h
  split at h
  · obtain ⟨r, -, h⟩ := bind_eq_ok.mp h
    cases h
    exact .refl _
  · simp only [bind_eq_ok, pure_eq_ok] at h
    obtain ⟨_, -, _, -, ⟨u', c₁⟩, hrefund, generatedTransactions, -, r, -, ⟨⟩⟩ := h
    exact refundReplaced_tracks hrefund

theorem scheduleDeferredTransaction_tracks {payer : Name} {trx : Wire.Transaction}
    {replaceExisting : Bool}
    (h : ctx.scheduleDeferredTransaction host deferral c senderId payer trx replaceExisting =
      .ok (deltas, c')) :
    Tracks (c.usage ctx.accountMemDeltas) (c'.usage deltas) := by
  simp only [scheduleDeferredTransaction, bind_eq_ok] at h
  obtain ⟨_, -, _, -, trx', -, rest, -, _, -, ⟨u, c₁, packedTrx⟩, hstore, _, -, u', hadd, h⟩ := h
  have hstored := storeDeferred_tracks hstore
  exact (hstored.trans (MemUsage.addMemUsage_tracks hadd)).of_put (Except.ok.inj h)

theorem cancelDeferredTransaction_tracks {sender : Name}
    (h : ctx.cancelDeferredTransaction c senderId sender = .ok (deltas, c')) :
    Tracks (c.usage ctx.accountMemDeltas) (c'.usage deltas) := by
  rw [cancelDeferredTransaction] at h
  split at h
  · cases h
    exact .refl _
  · obtain ⟨u, hadd, h⟩ := bind_eq_ok.mp h
    obtain ⟨generatedTransactions, -, h⟩ := bind_eq_ok.mp h
    exact (MemUsage.addMemUsage_tracks hadd).of_put (Except.ok.inj h)

theorem performMem_tracks {o : MemOp ρ} (h : ctx.performMem host deferral c o = .ok (deltas, c')) :
    Tracks (c.usage ctx.accountMemDeltas) (c'.usage deltas) := by
  cases o with
  | db call => exact callDb_tracks h
  | scheduleDeferredTransaction senderId payer trx replaceExisting =>
    exact scheduleDeferredTransaction_tracks h
  | cancelDeferredTransaction senderId sender => exact cancelDeferredTransaction_tracks h
  | addMemUsage account memDelta =>
    obtain ⟨u, hadd, h⟩ := bind_eq_ok.mp h
    exact (MemUsage.addMemUsage_tracks hadd).of_put (Except.ok.inj h)
  | other f =>
    obtain ⟨rest, -, h⟩ := bind_eq_ok.mp h
    cases h
    exact .refl _

end Calls

/-! ## Contexts -/

/-- The calls of `exec_one` that `exec` makes: for the receiver of the action, then for those that
are notified of it. -/
inductive CallsExecOne {ω op : Type} (host : Host ω op) : ApplyContext → ExecState ω → Prop
  | first {s : ExecState ω} {actionOrdinal depth : ℕ} {ctx : ApplyContext}
      (hcreate : create s actionOrdinal depth = .ok ctx) :
      CallsExecOne host { ctx with notified := [(ctx.receiver, actionOrdinal)] }
        { s with chain := host.enter s.chain }
  | notice {ctx ctx' : ApplyContext} {s s' : ExecState ω} {checkedAt : Option ω} {receiver : Name}
      {actionOrdinal : ℕ} (hcalled : CallsExecOne host ctx s)
      (hrun : ctx.execOne host checkedAt s = .ok (ctx', s'))
      (hmem : (receiver, actionOrdinal) ∈ ctx'.notified) :
      CallsExecOne host { ctx' with receiver, actionOrdinal } s'

/-- What stays the same, and what is kept, while an action runs. -/
structure Running {ρ : Type} (ctx : ApplyContext) (s : ExecState (MemChain ρ)) (ctx' : ApplyContext)
    (s' : ExecState (MemChain ρ)) : Prop where
  receiver : ctx'.receiver = ctx.receiver
  privileged : ctx'.privileged = ctx.privileged
  act : s'.actionTraces.length < 2 ^ 32 → ctx'.act = ctx.act
  plan : s.plan <+: s'.plan
  tracks : Tracks (s.chain.usage ctx.accountMemDeltas) (s'.chain.usage ctx'.accountMemDeltas)

section Contexts

variable {ρ : Type} {host : MemHost ρ} {ctx ctx' ctx'' : ApplyContext}
  {s s' s'' : ExecState (MemChain ρ)}

theorem Running.refl (ctx : ApplyContext) (s : ExecState (MemChain ρ)) : Running ctx s ctx s :=
  ⟨rfl, rfl, fun _ => rfl, prefix_refl _, .refl _⟩

theorem Running.trans (h : Running ctx s ctx' s') (h' : Running ctx' s' ctx'' s'') :
    Running ctx s ctx'' s'' := by
  refine ⟨h'.receiver.trans h.receiver, h'.privileged.trans h.privileged, fun hsmall => ?_,
    h.plan.trans h'.plan, h.tracks.trans h'.tracks⟩
  exact (h'.act hsmall).trans (h.act (lt_of_le_of_lt (length_le_of_plan h'.plan) hsmall))

variable (h : Points ctx s)
include h

theorem Points.schedules {q : Queue} {t trace : ActionTrace}
    (hcall : Schedules ctx s q t trace ctx' s') : Points ctx' s' ∧ Running ctx s ctx' s' := by
  have hsteady := hcall.steady
  have hact : s'.actionTraces.length < 2 ^ 32 → ctx'.act = ctx.act := by
    intro hsmall
    obtain ⟨_, _, _, rfl⟩ := hcall.fields
    exact h.schedules_act hcall hsmall
  refine ⟨⟨?_, fun hsmall r o hmem => ?_⟩, hsteady.receiver, ?_, hact, hcall.plan_grows, ?_⟩
  · rw [hsteady.receiver, hsteady.actionOrdinal]
    exact hsteady.notified.subset h.current
  · rw [hact hsmall]
    have hold : ∀ r o, (r, o) ∈ ctx.notified → ∃ t, s'.plan[o - 1]? = some t ∧ t.act = ctx.act := by
      intro r o hmem
      have hle := length_le_of_plan hcall.plan_grows
      obtain ⟨t', ht', hact'⟩ := h.notices (lt_of_le_of_lt hle hsmall) r o hmem
      exact ⟨t', getElem?_of_grown hcall.plan_grows ht', hact'⟩
    rcases hcall.notified with heq | ⟨recipient, hq, heq⟩
    · rw [heq] at hmem
      exact hold r o hmem
    · rw [heq] at hmem
      rcases mem_append.mp hmem with hmem | hmem
      · exact hold r o hmem
      · cases mem_singleton.mp hmem
        exact ⟨t, h.notice hcall hsmall hq⟩
  · obtain ⟨_, _, _, rfl⟩ := hcall.fields
    rfl
  · obtain ⟨_, _, _, rfl⟩ := hcall.fields
    rw [hcall.state]
    exact .refl _

theorem Points.call {c : HostCall (MemOp ρ)} (hcall : ctx.call host.toHost s c = .ok (ctx', s')) :
    Points ctx' s' ∧ Running ctx s ctx' s' := by
  rcases call_cases hcall with
    ⟨rfl, rfl⟩ | ⟨o, deltas, chain, hperform, rfl, rfl⟩ | ⟨q, t, trace, hschedules⟩
  · exact ⟨h, .refl _ _⟩
  · rw [host.perform_eq] at hperform
    exact ⟨⟨h.current, h.notices⟩, rfl, rfl, fun _ => rfl, prefix_refl _,
      performMem_tracks hperform⟩
  · exact h.schedules hschedules

/-- What runs in `exec_one`, and the check at its end. -/
theorem Points.applyOne (hrun : ctx.applyOne host.toHost s = .ok (ctx', s')) :
    ∃ privileged, host.isPrivileged ctx.receiver s.chain = .ok privileged ∧ Points ctx' s' ∧
      Running { ctx with privileged } s ctx' s' ∧
      ctx'.checkMemRestrictions host.toHost s'.chain = .ok () := by
  obtain ⟨privileged, hprivileged, hcheck, hkeeps⟩ := applyOne_keeps hrun
  obtain ⟨hpoints, hrunning⟩ := hkeeps
    (fun ctx₁ s₁ => Points ctx₁ s₁ ∧ Running { ctx with privileged } s ctx₁ s₁)
    (by
      rintro ctx₁ s₁ c ctx₂ s₂ ⟨h₁, hrunning⟩ hcall
      obtain ⟨h₂, hrunning'⟩ := h₁.call hcall
      exact ⟨h₂, hrunning.trans hrunning'⟩)
    ⟨⟨h.current, h.notices⟩, .refl _ _⟩
  exact ⟨privileged, hprivileged, hpoints, hrunning, hcheck⟩

/-! ## The receipt -/

omit h

theorem nextAuthSequences_resources {authorization : List PermissionLevel}
    {t : Table Name ℕ} {c : MemChain ρ} {r : Table Name ℕ × MemChain ρ}
    (h : authorization.foldlM (fun r auth => do
      let (sequence, chain) ← host.nextAuthSequence auth.actor r.2
      pure (r.1.insert auth.actor sequence, chain)) (t, c) = (.ok r : Result _)) :
    r.2.resources = c.resources := by
  refine foldlM_keeps (fun r => r.2.resources) ?_ h
  intro r auth r' hnext
  obtain ⟨⟨sequence, chain⟩, hsequence, hnext⟩ := bind_eq_ok.mp hnext
  cases hnext
  exact host.nextAuthSequence_resources hsequence

theorem makeReceipt_resources {c : MemChain ρ} {r : ActionReceipt × MemChain ρ}
    (h : ctx.makeReceipt host.toHost c = .ok r) : r.2.resources = c.resources := by
  simp only [makeReceipt, bind_eq_ok, pure_eq_ok] at h
  obtain ⟨⟨recvSequence, c₁⟩, hrecv, codeSequence, -, abiSequence, -, ⟨authSequence, c₂⟩, hauth,
    ⟨⟩⟩ := h
  calc c₂.resources = c₁.resources := nextAuthSequences_resources hauth
    _ = (host.nextGlobalSequence c).2.resources := host.nextRecvSequence_resources hrecv
    _ = c.resources := host.nextGlobalSequence_resources c

theorem finalizeTrace_leaves {ω : Type} {ctx ctx' : ApplyContext} {s s' : ExecState ω}
    {checkedAt : Option ω} {receipt : ActionReceipt}
    (h : ctx.finalizeTrace checkedAt s receipt = .ok (ctx', s')) :
    ctx' = { ctx with accountMemDeltas := {} } ∧ s'.plan = s.plan ∧ s'.chain = s.chain := by
  obtain ⟨trace, htrace, h⟩ := bind_eq_ok.mp h
  rw [getActionTrace_eq_ok] at htrace
  cases h
  exact ⟨rfl, plan_withReceipt htrace.2 receipt ctx.accountMemDeltas
    (record ctx.firstReceiverActionOrdinal ctx.recurseDepth checkedAt
      (ctx.receiver, ctx.actionOrdinal)) s.chain, rfl⟩

include h

/-- What `exec_one` does to the usage, and what it has checked. -/
theorem Points.execOne {checkedAt : Option (MemChain ρ)}
    (hrun : ctx.execOne host.toHost checkedAt s = .ok (ctx', s')) :
    ∃ privileged ctx₁ s₁, host.isPrivileged ctx.receiver s.chain = .ok privileged ∧
      Running { ctx with privileged } s ctx₁ s₁ ∧
      ctx₁.checkMemRestrictions host.toHost s₁.chain = .ok () ∧
      s'.chain.resources = s₁.chain.resources ∧ ctx' = { ctx₁ with accountMemDeltas := {} } ∧
      s'.plan = s₁.plan ∧ Points ctx' s' := by
  obtain ⟨⟨ctx₁, s₁⟩, happly, hrun⟩ := bind_eq_ok.mp hrun
  rw [mapError_eq_ok] at happly
  obtain ⟨⟨receipt, chain⟩, hreceipt, hrun⟩ := bind_eq_ok.mp hrun
  obtain ⟨rfl, hplan, hchain⟩ := finalizeTrace_leaves hrun
  change s'.plan = s₁.plan at hplan
  obtain ⟨privileged, hprivileged, h₁, hrunning, hcheck⟩ := h.applyOne happly
  refine ⟨privileged, ctx₁, s₁, hprivileged, hrunning, hcheck, ?_, rfl, hplan, h₁.current,
    fun hsmall => ?_⟩
  · rw [hchain]
    exact makeReceipt_resources hreceipt
  · rw [← s'.length_plan, hplan, length_plan] at hsmall
    rw [hplan]
    exact h₁.notices hsmall

omit h

/-- `exec_one` starts without sums, with an action and accounts to notify of it. -/
theorem CallsExecOne.starts (h : CallsExecOne host.toHost ctx s) :
    ctx.accountMemDeltas = {} ∧ Points ctx s := by
  induction h with
  | first hcreate =>
    obtain ⟨trace, htrace, hcreate⟩ := bind_eq_ok.mp hcreate
    rw [getActionTrace_eq_ok] at htrace
    cases hcreate
    refine ⟨rfl, mem_singleton.mpr rfl, fun _ r o hmem => ?_⟩
    cases mem_singleton.mp hmem
    exact ⟨_, plan_of_trace htrace.2, rfl⟩
  | notice hcalled hrun hmem ih =>
    obtain ⟨privileged, ctx₁, s₁, -, -, -, -, hctx, -, hpoints⟩ := ih.2.execOne hrun
    exact ⟨congrArg accountMemDeltas hctx, hmem, hpoints.notices⟩

/-! ## The check -/

theorem checkMemDelta_of_deltas {ω op : Type} {host : Host ω op} {ctx : ApplyContext} {chain : ω}
    (h : ctx.checkMemDeltas host chain = .ok ()) {a : Name} {δ : ℤ}
    (hmem : (a, δ) ∈ ctx.accountMemDeltas.deltas) : ctx.checkMemDelta a δ = .ok () := by
  obtain ⟨i, hi⟩ := mem_iff_getElem?.mp hmem
  have hmem' : ((a, δ), i) ∈ ctx.accountMemDeltas.deltas.zipIdx := mk_mem_zipIdx_iff_getElem?.mpr hi
  obtain ⟨_, -, hcheck⟩ := bind_eq_ok.mp (forM_passed h hmem')
  exact hcheck

/-- **An unprivileged contract charges only accounts that have authorized its action.**  Whatever it
and the native handlers call, an account other than the receiver whose usage is higher after
`exec_one` has authorized the action, and the action was not a notification. -/
theorem unprivileged_charges_authorized (host : MemHost ρ)
    (hactive : host.memRestrictionsActivated = true) {checkedAt : Option (MemChain ρ)}
    (hcalled : CallsExecOne host.toHost ctx s)
    (hunprivileged : host.isPrivileged ctx.receiver s.chain = .ok false)
    (hrun : ctx.execOne host.toHost checkedAt s = .ok (ctx', s')) :
    ctx'.receiver = ctx.receiver ∧ (s'.actionTraces.length < 2 ^ 32 → ctx'.act = ctx.act) ∧
    ∀ a, a ≠ ctx.receiver →
      memUsageOf s.chain.resources a < memUsageOf s'.chain.resources a →
      ctx'.receiver = ctx'.act.account ∧ ctx'.hasAuthorization a = true := by
  obtain ⟨hstart, hpoints⟩ := hcalled.starts
  obtain ⟨privileged, ctx₁, s₁, hprivileged, hrunning, hcheck, hresources, rfl, hplan, -⟩ :=
    hpoints.execOne hrun
  rw [hunprivileged] at hprivileged
  cases hprivileged
  refine ⟨hrunning.receiver, fun hsmall => hrunning.act ?_, fun a hne hlt => ?_⟩
  · rwa [← s₁.length_plan, ← hplan, length_plan]
  · -- the sums started at zero, so this one is the increase
    have htracks := hrunning.tracks a
    have hzero : ctx.accountMemDeltas.get a = 0 := by
      rw [hstart]
      rfl
    have hpos : 0 < ctx₁.accountMemDeltas.get a := by
      rw [hresources] at hlt
      change (memUsageOf s₁.chain.resources a : ℤ) - memUsageOf s.chain.resources a =
        ctx₁.accountMemDeltas.get a - ctx.accountMemDeltas.get a at htracks
      omega
    rw [checkMemRestrictions, hrunning.privileged, host.memRestrictions_eq, hactive] at hcheck
    have hdelta := checkMemDelta_of_deltas hcheck (AccountDeltas.mem_of_get hpos)
    rw [checkMemDelta, if_pos ⟨hpos, fun h => hne (h.trans hrunning.receiver)⟩] at hdelta
    obtain ⟨_, hnotify, hauthorized⟩ := bind_eq_ok.mp hdelta
    exact ⟨ineAssert_eq_ok.mp hnotify, ineAssert_eq_ok.mp hauthorized⟩

end Contexts

/-! ## A contract that charges -/

/-- Nothing is asked of a deferred transaction. -/
def openDeferral : Deferral Unit where
  sha256 packedTrx := BitVec.ofNat 256 packedTrx.length
  id := 0
  senderAvoidsWhitelistBlacklistEnforcement _ := false
  validateReferencedAccounts _ _ _ := .ok ()
  noDuplicateDeferredId := true
  replaceDeferred := true
  extractExtensions _ := .ok []
  packContext _ := []
  pendingBlockTime := 0
  setReferenceBlock := id
  basePerTransactionNetUsage := 12
  deferredTrxExpirationWindow := 600
  addNetUsage _ := .ok
  checkAuthorization _ _ _ := .ok ()
  allSubjectiveMitigationsDisabled := false
  isMemBillingInNotifyAllowed := false

/-- Account 1 stores a row and schedules a transaction, both at the expense of account 2. -/
def chargingCalls : List (HostCall (MemOp Unit)) :=
  [.operation (.db (.primary (.store 1 0 0 2 7 [1, 2, 3]))),
    .operation (.scheduleDeferredTransaction 5 2 {} true)]

/-- A chain with one contract, but for its calls. -/
def chargingBase : Host (MemChain Unit) (MemOp Unit) :=
  openHost (fun _ _ _ => chargingCalls) fun _ _ _ => .error ⟨.otherChainException, ""⟩

def chargingHost : MemHost Unit where
  toHost := { chargingBase with
    perform := fun o ctx c => ctx.performMem chargingBase openDeferral c o }
  deferral := openDeferral
  memRestrictionsActivated := true
  perform_eq _ _ _ := rfl
  memRestrictions_eq _ := rfl
  nextGlobalSequence_resources _ := rfl
  nextRecvSequence_resources h := by
    cases h
    rfl
  nextAuthSequence_resources h := by
    cases h
    rfl

/-- An action of account 1 that account 2 has authorized. -/
def chargingState : ExecState (MemChain Unit) where
  actionTraces := [{ actionOrdinal := 1, creatorActionOrdinal := 0
                     closestUnnotifiedAncestorActionOrdinal := 0, receiver := 1
                     contextFree := false
                     act := { account := 1, name := 0, authorization := [⟨2, 0⟩] } }]
  chain := { tables := { usage := () }, rest := ()
             resources.usage := (Finmap.insert 1 {} ∅ : Table Name ResourceUsage).insert 2 {} }

def chargingContext : ApplyContext :=
  { receiver := 1, act := { account := 1, name := 0, authorization := [⟨2, 0⟩] }
    contextFree := false, recurseDepth := 0, firstReceiverActionOrdinal := 1, actionOrdinal := 1 }

theorem unprivileged_charges_authorized_stored : ∃ ctx' s',
    ({ chargingContext with notified := [(1, 1)] } : ApplyContext).execOne chargingHost.toHost none
      chargingState = .ok (ctx', s') ∧
    memUsageOf chargingState.chain.resources 2 < memUsageOf s'.chain.resources 2 ∧
    ctx'.receiver = ctx'.act.account ∧ ctx'.hasAuthorization 2 = true := by
  have hcreate : create chargingState 1 0 = .ok chargingContext := rfl
  obtain ⟨⟨ctx', s'⟩, hrun, hlt⟩ : ∃ r,
      ({ chargingContext with notified := [(1, 1)] } : ApplyContext).execOne
        chargingHost.toHost none chargingState = .ok r ∧
      memUsageOf chargingState.chain.resources 2 < memUsageOf r.2.chain.resources 2 := by
    decide +kernel
  exact ⟨ctx', s', hrun, hlt, (unprivileged_charges_authorized chargingHost rfl (.first hcreate) rfl
    hrun).2.2 2 (by decide) hlt⟩

end Inery.Chain.Apply
