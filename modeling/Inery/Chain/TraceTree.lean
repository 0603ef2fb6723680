import Inery.Chain.ApplyContext

/-!
# The tree of action traces

Ordinals are positions in the vector of traces, so a trace that is scheduled gets an ordinal above
those of the actions that it comes from.  Every ordinal waits in one queue: with the accounts to
notify of some context, or with its inline actions.  Both are worked off before the context is left,
so the executions of a transaction are, but for their order, its traces.

Ordinals are 32 bits wide.  A trace that got a wrapped one would get ordinal 0, which no trace can
be looked up by, so a transaction that has come to its end had no such trace.
-/

namespace Inery.Chain.Apply

open Foundation List Config ApplyContext List.Perm

variable {ω op : Type} {host : Host ω op}

theorem getElem?_of_grown {α : Type} {l m : List α} {i : ℕ} {x : α} (h : l <+: m)
    (hx : l[i]? = some x) : m[i]? = some x := by
  obtain ⟨r, rfl⟩ := h
  rw [List.getElem?_append_left (List.getElem?_eq_some_iff.mp hx).1, hx]

/-! ## The plan -/

def ActionTrace.scheduled (t : ActionTrace) : ActionTrace :=
  { t with receipt := none, accountMemDeltas := {} }

/-- What has been scheduled. -/
def ExecState.plan (s : ExecState ω) : List ActionTrace := s.actionTraces.map ActionTrace.scheduled

@[simp] theorem ExecState.length_plan (s : ExecState ω) : s.plan.length = s.actionTraces.length :=
  length_map ..

variable {s : ExecState ω} {t : ActionTrace}

theorem ExecState.plan_of_trace {i : ℕ} (h : s.actionTraces[i]? = some t) :
    s.plan[i]? = some t.scheduled := by
  rw [plan, getElem?_map, h]
  rfl

theorem ExecState.trace_of_plan {i : ℕ} (h : s.plan[i]? = some t) :
    ∃ t', s.actionTraces[i]? = some t' ∧ t'.scheduled = t := by
  rw [plan, getElem?_map] at h
  exact Option.map_eq_some_iff.mp h

theorem getActionTrace_eq_ok {o : ℕ} :
    s.getActionTrace o = .ok t ↔ 0 < o ∧ s.actionTraces[o - 1]? = some t := by
  rw [ExecState.getActionTrace]
  constructor
  · intro h
    obtain ⟨_, hrange, h⟩ := bind_eq_ok.mp h
    rw [ineAssert_eq_ok] at hrange
    refine ⟨hrange.1, ?_⟩
    split at h
    · next trace htrace => rw [htrace, Except.ok.inj h]
    · cases h
  · rintro ⟨hpos, ht⟩
    have hlt := (List.getElem?_eq_some_iff.mp ht).1
    rw [ineAssert, ensure_pos ⟨hpos, by omega⟩, ok_bind, ht]
    rfl

/-- The ordinals of the traces, the receipts of what has been executed. -/
structure Consistent (s : ExecState ω) : Prop where
  numbered : ∀ i t, s.plan[i]? = some t → t.actionOrdinal = u32 (i + 1)
  receipts : ∀ e ∈ s.history, 0 < e.actionOrdinal ∧
    ∃ t, s.actionTraces[e.actionOrdinal - 1]? = some t ∧ t.receipt ≠ none
  executed : s.executed.length = s.history.length

/-- The traces that one state has and the other has not. -/
def since (s₀ s : ExecState ω) : List ActionTrace := s.plan.drop s₀.plan.length

theorem plan_eq_append {s₀ : ExecState ω} (h : s₀.plan <+: s.plan) :
    s.plan = s₀.plan ++ since s₀ s := by
  obtain ⟨new, hnew⟩ := h
  rw [since, ← hnew, drop_left]

theorem since_self (s : ExecState ω) : since s s = [] := drop_length ..

theorem since_trans {s₀ s₁ s₂ : ExecState ω} (h₁ : s₀.plan <+: s₁.plan) (h₂ : s₁.plan <+: s₂.plan) :
    since s₀ s₂ = since s₀ s₁ ++ since s₁ s₂ := by
  obtain ⟨new₁, hnew₁⟩ := h₁
  obtain ⟨new₂, hnew₂⟩ := h₂
  rw [since, since, since, ← hnew₂, drop_left, ← hnew₁, drop_left, append_assoc, drop_left]

/-! ## Scheduling -/

/-- Where the ordinal of a scheduled action waits. -/
inductive Queue where
  | notified (recipient : Name)
  | cfaInline
  | inline

def ApplyContext.enqueue (ctx : ApplyContext) (ordinal : ℕ) : Queue → ApplyContext
  | .notified recipient => { ctx with notified := ctx.notified ++ [(recipient, ordinal)] }
  | .cfaInline => { ctx with cfaInlineActions := ctx.cfaInlineActions ++ [ordinal] }
  | .inline => { ctx with inlineActions := ctx.inlineActions ++ [ordinal] }

/-- A call schedules the action of the trace `t`; `trace` is that of the action at hand. -/
structure Schedules (ctx : ApplyContext) (s : ExecState ω) (q : Queue) (t trace : ActionTrace)
    (ctx' : ApplyContext) (s' : ExecState ω) : Prop where
  scheduled : t.scheduled = t
  ordinal : t.actionOrdinal = u32 (s.actionTraces.length + 1)
  creator : t.creatorActionOrdinal = ctx.actionOrdinal
  closest : t.closestUnnotifiedAncestorActionOrdinal = ctx.firstReceiverActionOrdinal
  state : s' = { s with actionTraces := s.actionTraces ++ [t] }
  current : 0 < ctx.actionOrdinal ∧ s'.actionTraces[ctx.actionOrdinal - 1]? = some trace
  context : ctx' = ({ ctx with act := trace.act } : ApplyContext).enqueue t.actionOrdinal q
  notice : ∀ recipient, q = .notified recipient → t.receiver = recipient ∧
    ctx.hasRecipient recipient = false ∧
    ∃ trace', s.actionTraces[ctx.actionOrdinal - 1]? = some trace' ∧ t.act = trace'.act

theorem schedules_of_run {ctx ctx₁ ctx' : ApplyContext} {s' : ExecState ω} {act : Wire.Action}
    {receiver : Name} {contextFree : Bool} {ordinal : ℕ} {q : Queue}
    (h : ctx.scheduleAction s act receiver contextFree = .ok (ordinal, ctx₁, s'))
    (hctx : ctx' = ctx₁.enqueue ordinal q)
    (hnotice : ∀ recipient, q = .notified recipient → receiver = recipient ∧
      ctx.hasRecipient recipient = false ∧
        ∃ trace, s.actionTraces[ctx.actionOrdinal - 1]? = some trace ∧ act = trace.act) :
    ∃ t trace, Schedules ctx s q t trace ctx' s' := by
  rw [scheduleAction] at h
  obtain ⟨trace, htrace, h⟩ := bind_eq_ok.mp h
  rw [getActionTrace_eq_ok] at htrace
  cases h
  exact ⟨_, trace, rfl, rfl, rfl, rfl, rfl, htrace, hctx, hnotice⟩

theorem call_cases {ctx ctx' : ApplyContext} {s' : ExecState ω} {c : HostCall op}
    (h : ctx.call host s c = .ok (ctx', s')) :
    (ctx' = ctx ∧ s' = s) ∨
    (∃ o deltas chain, host.perform o ctx s.chain = .ok (deltas, chain) ∧
      ctx' = { ctx with accountMemDeltas := deltas } ∧ s' = { s with chain }) ∨
    ∃ q t trace, Schedules ctx s q t trace ctx' s' := by
  cases c with
  | requireRecipient recipient =>
    rw [call, requireRecipient] at h
    cases hhas : ctx.hasRecipient recipient with
    | true =>
      rw [hhas, if_pos rfl] at h
      cases h
      exact .inl ⟨rfl, rfl⟩
    | false =>
      rw [hhas, if_neg Bool.false_ne_true] at h
      obtain ⟨trace, htrace, h⟩ := bind_eq_ok.mp h
      obtain ⟨⟨ordinal, ctx₁, s₁⟩, hrun, h⟩ := bind_eq_ok.mp h
      cases h
      refine .inr (.inr ⟨.notified recipient, schedules_of_run hrun rfl ?_⟩)
      rintro _ ⟨rfl⟩
      exact ⟨rfl, hhas, trace, (getActionTrace_eq_ok.mp htrace).2, rfl⟩
  | executeInline a =>
    simp only [call, executeInline, bind_eq_ok, pure_eq_ok] at h
    obtain ⟨_, -, _, -, _, -, _, -, _, -, ⟨ordinal, ctx₁, s₁⟩, hrun, ⟨⟩⟩ := h
    exact .inr (.inr ⟨.inline, schedules_of_run hrun rfl nofun⟩)
  | executeContextFreeInline a =>
    simp only [call, executeContextFreeInline, bind_eq_ok, pure_eq_ok] at h
    obtain ⟨_, -, _, -, _, -, ⟨ordinal, ctx₁, s₁⟩, hrun, ⟨⟩⟩ := h
    exact .inr (.inr ⟨.cfaInline, schedules_of_run hrun rfl nofun⟩)
  | operation o =>
    rw [call] at h
    obtain ⟨⟨deltas, chain⟩, hperform, h⟩ := bind_eq_ok.mp h
    cases h
    exact .inr (.inl ⟨o, deltas, chain, hperform, rfl, rfl⟩)
  | throw e => cases h

/-! ## Inside a context -/

/-- The actions that an action comes from have smaller ordinals. -/
def Created (t : ActionTrace) : Prop :=
  (0 < t.creatorActionOrdinal ∧ t.creatorActionOrdinal < t.actionOrdinal) ∧
    0 < t.closestUnnotifiedAncestorActionOrdinal ∧
    t.closestUnnotifiedAncestorActionOrdinal < t.actionOrdinal

/-- A context and what it has scheduled, as long as ordinals are positions. -/
structure Sound (s₀ : ExecState ω) (f : ℕ) (r₀ : Name) (act : Wire.Action) (ctx : ApplyContext)
    (s : ExecState ω) : Prop where
  same : ctx.act = act
  own : 0 < f ∧ f ≤ s₀.plan.length ∧ ∃ t, s.plan[f - 1]? = some t ∧ t.receiver = r₀ ∧ t.act = act
  notices : ∀ r o, (r, o) ∈ ctx.notified.tail → 0 < o ∧ ∃ t, s.plan[o - 1]? = some t ∧
    t.receiver = r ∧ t.closestUnnotifiedAncestorActionOrdinal = f ∧ t.act = act
  created : ∀ t ∈ since s₀ s, Created t

/-- The context of the action `f`, which came into being in the state `s₀`: every action that it
has scheduled since waits in one of its queues. -/
structure Inside (s₀ : ExecState ω) (f depth : ℕ) (r₀ : Name) (act : Wire.Action)
    (ctx : ApplyContext) (s : ExecState ω) : Prop where
  recurseDepth : ctx.recurseDepth = depth
  first : ctx.firstReceiverActionOrdinal = f
  current : (ctx.receiver, ctx.actionOrdinal) ∈ ctx.notified
  head : ctx.notified = (r₀, f) :: ctx.notified.tail
  receivers : (ctx.notified.map Prod.fst).Nodup
  plan : s₀.plan <+: s.plan
  queued : ((since s₀ s).map ActionTrace.actionOrdinal).Perm
    (ctx.notified.tail.map Prod.snd ++ (ctx.cfaInlineActions ++ ctx.inlineActions))
  consistent : Consistent s
  sound : s.actionTraces.length < 2 ^ 32 → Sound s₀ f r₀ act ctx s

section Contexts

variable {s₀ s s' : ExecState ω} {f depth : ℕ} {r₀ : Name} {act : Wire.Action}
  {ctx ctx' : ApplyContext}

theorem Sound.notice (h : Sound s₀ f r₀ act ctx s)
    (hhead : ctx.notified = (r₀, f) :: ctx.notified.tail)
    {r : Name} {o : ℕ} (hmem : (r, o) ∈ ctx.notified) :
    0 < o ∧ ∃ t, s.plan[o - 1]? = some t ∧ t.receiver = r ∧ t.act = act := by
  rw [hhead] at hmem
  rcases mem_cons.mp hmem with heq | hmem
  · cases heq
    exact ⟨h.own.1, h.own.2.2⟩
  · obtain ⟨hpos, t, ht, hr, -, hact⟩ := h.notices r o hmem
    exact ⟨hpos, t, ht, hr, hact⟩

/-- The accounts to notify are notified of the action at hand, as long as ordinals are positions. -/
structure Points (ctx : ApplyContext) (s : ExecState ω) : Prop where
  current : (ctx.receiver, ctx.actionOrdinal) ∈ ctx.notified
  notices : s.actionTraces.length < 2 ^ 32 → ∀ r o, (r, o) ∈ ctx.notified →
    ∃ t, s.plan[o - 1]? = some t ∧ t.act = ctx.act

theorem Inside.points (h : Inside s₀ f depth r₀ act ctx s) : Points ctx s := by
  refine ⟨h.current, fun hsmall r o hmem => ?_⟩
  have hsound := h.sound hsmall
  obtain ⟨-, t, ht, -, hact⟩ := hsound.notice h.head hmem
  exact ⟨t, ht, hact.trans hsound.same.symm⟩

variable {t : ActionTrace}

theorem Consistent.append (h : Consistent s) (ht : t.scheduled = t)
    (hordinal : t.actionOrdinal = u32 (s.actionTraces.length + 1)) :
    Consistent { s with actionTraces := s.actionTraces ++ [t] } := by
  refine ⟨fun i t' hi => ?_, fun e he => ?_, h.executed⟩
  · have hplan : (s.plan ++ [t])[i]? = some t' := by
      rw [← hi, ExecState.plan, ExecState.plan, map_append, map_singleton, ht]
    rcases getElem?_concat_eq_some.mp hplan with hold | ⟨rfl, rfl⟩
    · exact h.numbered i t' hold
    · rw [hordinal, s.length_plan]
  · obtain ⟨hpos, t', ht', hreceipt⟩ := h.receipts e he
    exact ⟨hpos, t', getElem?_of_grown (prefix_append _ _) ht', hreceipt⟩

theorem enqueue_queues (ctx : ApplyContext) (ordinal : ℕ) (q : Queue) (hne : ctx.notified ≠ []) :
    ((ctx.enqueue ordinal q).notified.tail.map Prod.snd ++
      ((ctx.enqueue ordinal q).cfaInlineActions ++ (ctx.enqueue ordinal q).inlineActions)).Perm
    ((ctx.notified.tail.map Prod.snd ++ (ctx.cfaInlineActions ++ ctx.inlineActions)) ++
      [ordinal]) := by
  cases q with
  | notified recipient =>
    show ((ctx.notified ++ [(recipient, ordinal)]).tail.map Prod.snd ++ _).Perm _
    rw [tail_append_of_ne_nil hne, map_append, append_assoc, append_assoc]
    exact append_left _ perm_append_comm
  | cfaInline =>
    show (_ ++ ((ctx.cfaInlineActions ++ [ordinal]) ++ ctx.inlineActions)).Perm _
    rw [append_assoc, append_assoc, append_assoc]
    exact append_left _ (append_left _ perm_append_comm)
  | inline =>
    show (_ ++ (ctx.cfaInlineActions ++ (ctx.inlineActions ++ [ordinal]))).Perm _
    rw [append_assoc, append_assoc]
    exact .refl _

theorem not_mem_of_hasRecipient {recipient : Name} (h : ctx.hasRecipient recipient = false) :
    recipient ∉ ctx.notified.map Prod.fst := by
  intro hmem
  obtain ⟨p, hp, rfl⟩ := mem_map.mp hmem
  rw [hasRecipient, any_eq_false] at h
  exact h p hp (decide_eq_true rfl)

/-- What runs between the beginning and the end of one `exec_one`. -/
structure Steady (ctx : ApplyContext) (s : ExecState ω) (ctx' : ApplyContext) (s' : ExecState ω) :
    Prop where
  receiver : ctx'.receiver = ctx.receiver
  actionOrdinal : ctx'.actionOrdinal = ctx.actionOrdinal
  notified : ctx.notified <+: ctx'.notified
  history : s'.history = s.history

theorem Steady.refl (ctx : ApplyContext) (s : ExecState ω) : Steady ctx s ctx s :=
  ⟨rfl, rfl, prefix_refl _, rfl⟩

theorem Steady.trans {ctx'' : ApplyContext} {s'' : ExecState ω} (h : Steady ctx s ctx' s')
    (h' : Steady ctx' s' ctx'' s'') : Steady ctx s ctx'' s'' :=
  ⟨h'.receiver.trans h.receiver, h'.actionOrdinal.trans h.actionOrdinal,
    h.notified.trans h'.notified, h'.history.trans h.history⟩

section Scheduling

variable {q : Queue} {t trace : ActionTrace} (hcall : Schedules ctx s q t trace ctx' s')

include hcall

theorem Schedules.fields : ∃ notified cfaInlineActions inlineActions, ctx' =
    { ctx with act := trace.act, notified, cfaInlineActions, inlineActions } := by
  have hctx := hcall.context
  cases q with
  | notified recipient | cfaInline | inline => exact ⟨_, _, _, hctx⟩

theorem Schedules.notified : ctx'.notified = ctx.notified ∨
    ∃ recipient, q = .notified recipient ∧
      ctx'.notified = ctx.notified ++ [(recipient, t.actionOrdinal)] := by
  have hctx := congrArg ApplyContext.notified hcall.context
  cases q with
  | notified recipient => exact .inr ⟨recipient, rfl, hctx⟩
  | cfaInline | inline => exact .inl hctx

theorem Schedules.length : s'.actionTraces.length = s.actionTraces.length + 1 := by
  rw [hcall.state, length_append, length_singleton]

theorem Schedules.plan : s'.plan = s.plan ++ [t] := by
  rw [hcall.state, ExecState.plan, ExecState.plan, map_append, map_singleton, hcall.scheduled]

theorem Schedules.plan_grows : s.plan <+: s'.plan := by
  rw [hcall.plan]
  exact prefix_append _ _

theorem Schedules.since_concat (h : s₀.plan <+: s.plan) : since s₀ s' = since s₀ s ++ [t] := by
  rw [since_trans h hcall.plan_grows]
  congr 1
  rw [since, hcall.plan, drop_left]

theorem Schedules.steady : Steady ctx s ctx' s' := by
  obtain ⟨_, _, _, hctx⟩ := hcall.fields
  refine ⟨by rw [hctx], by rw [hctx], ?_, by rw [hcall.state]⟩
  rcases hcall.notified with hq | ⟨r, -, hq⟩
  · rw [hq]
  · rw [hq]
    exact prefix_append _ _

theorem Schedules.notified_cases (hne : ctx.notified ≠ []) {r : Name} {o : ℕ}
    (hmem : (r, o) ∈ ctx'.notified.tail) :
    (r, o) ∈ ctx.notified.tail ∨ q = .notified r ∧ o = t.actionOrdinal := by
  rcases hcall.notified with hq | ⟨r', hqr, hq⟩
  · rw [hq] at hmem
    exact .inl hmem
  · rw [hq, tail_append_of_ne_nil hne] at hmem
    rcases mem_append.mp hmem with hmem | hmem
    · exact .inl hmem
    · cases mem_singleton.mp hmem
      exact .inr ⟨hqr, rfl⟩

section Small

variable (hsmall : s'.actionTraces.length < 2 ^ 32)
include hsmall

theorem Points.schedules_act (h : Points ctx s) : trace.act = ctx.act := by
  have hlength := hcall.length
  obtain ⟨t₀, ht₀, hact⟩ := h.notices (by omega) _ _ h.current
  have htrace := s'.plan_of_trace hcall.current.2
  rw [getElem?_of_grown hcall.plan_grows ht₀] at htrace
  rw [← hact, Option.some.inj htrace]
  rfl

theorem Points.notice (h : Points ctx s) {r : Name} (hq : q = .notified r) :
    s'.plan[t.actionOrdinal - 1]? = some t ∧ t.act = ctx.act := by
  have hlength := hcall.length
  obtain ⟨-, -, trace', htrace', htact⟩ := hcall.notice r hq
  obtain ⟨t₀, ht₀, hact₀⟩ := h.notices (by omega) _ _ h.current
  rw [s.plan_of_trace htrace'] at ht₀
  constructor
  · rw [hcall.ordinal, u32_of_lt (by omega), hcall.plan, Nat.add_sub_cancel, ← s.length_plan,
      getElem?_concat_length]
  · rw [htact, ← hact₀, ← Option.some.inj ht₀]
    rfl

theorem Inside.sound_schedules (h : Inside s₀ f depth r₀ act ctx s) :
    Sound s₀ f r₀ act ctx' s' := by
  have hlength := hcall.length
  have hsound := h.sound (by omega)
  have hnew : t.actionOrdinal = s.actionTraces.length + 1 :=
    hcall.ordinal.trans (u32_of_lt (by omega))
  obtain ⟨tc, htc, -⟩ := h.points.notices (by omega) _ _ h.current
  have hle : ctx.actionOrdinal - 1 < s.plan.length := (List.getElem?_eq_some_iff.mp htc).1
  rw [s.length_plan] at hle
  refine ⟨?_, ?_, fun r o hmem => ?_, ?_⟩
  · obtain ⟨_, _, _, hctx⟩ := hcall.fields
    rw [hctx]
    exact (h.points.schedules_act hcall hsmall).trans hsound.same
  · obtain ⟨hf, hfle, tf, htf, hrf, hactf⟩ := hsound.own
    exact ⟨hf, hfle, tf, getElem?_of_grown hcall.plan_grows htf, hrf, hactf⟩
  · rcases hcall.notified_cases (ne_nil_of_mem h.current) hmem with hmem | ⟨hq, rfl⟩
    · obtain ⟨ho, t', ht', hr, hcl, hact'⟩ := hsound.notices r o hmem
      exact ⟨ho, t', getElem?_of_grown hcall.plan_grows ht', hr, hcl, hact'⟩
    · obtain ⟨ht, hact⟩ := h.points.notice hcall hsmall hq
      exact ⟨by omega, t, ht, (hcall.notice r hq).1, hcall.closest.trans h.first,
        hact.trans hsound.same⟩
  · have hf := hsound.own
    have hprefixLength := h.plan.length_le
    rw [s.length_plan] at hprefixLength
    rw [hcall.since_concat h.plan, forall_mem_append, forall_mem_singleton, Created, hcall.creator,
      hcall.closest, h.first]
    exact ⟨hsound.created, ⟨hcall.current.1, by omega⟩, hf.1, by omega⟩

end Small

theorem Inside.schedules (h : Inside s₀ f depth r₀ act ctx s) :
    Inside s₀ f depth r₀ act ctx' s' := by
  have hnonempty : ctx.notified ≠ [] := ne_nil_of_mem h.current
  have hsteady := hcall.steady
  obtain ⟨_, _, _, hctx⟩ := hcall.fields
  have hqueues := enqueue_queues { ctx with act := trace.act } t.actionOrdinal q hnonempty
  rw [← hcall.context] at hqueues
  refine ⟨hctx ▸ h.recurseDepth, hctx ▸ h.first, ?_, ?_, ?_, h.plan.trans hcall.plan_grows, ?_, ?_,
    fun hsmall => h.sound_schedules hcall hsmall⟩
  · rw [hsteady.receiver, hsteady.actionOrdinal]
    exact hsteady.notified.subset h.current
  · obtain ⟨more, hmore⟩ := hsteady.notified
    rw [← hmore, tail_append_of_ne_nil hnonempty, ← cons_append, ← h.head]
  · rcases hcall.notified with hq | ⟨r, hqr, hq⟩
    · rw [hq]
      exact h.receivers
    · rw [hq, map_append]
      obtain ⟨-, hhas, -⟩ := hcall.notice r hqr
      exact h.receivers.append (nodup_singleton _)
        (disjoint_singleton.mpr (not_mem_of_hasRecipient hhas))
  · rw [hcall.since_concat h.plan, map_append, map_singleton]
    exact (h.queued.append_right _).trans hqueues.symm
  · rw [hcall.state]
    exact h.consistent.append hcall.scheduled hcall.ordinal

end Scheduling

variable (h : Inside s₀ f depth r₀ act ctx s)
include h

theorem Inside.congr (hplan : s'.plan = s.plan) (hconsistent : Consistent s') (privileged : Bool)
    (deltas : AccountDeltas) :
    Inside s₀ f depth r₀ act { ctx with privileged, accountMemDeltas := deltas } s' := by
  have hsince : since s₀ s' = since s₀ s := by rw [since, since, hplan]
  refine ⟨h.recurseDepth, h.first, h.current, h.head, h.receivers, hplan ▸ h.plan, ?_, hconsistent,
    fun hsmall => ?_⟩
  · rw [hsince]
    exact h.queued
  · have hlength := congrArg length hplan
    rw [s'.length_plan, s.length_plan] at hlength
    obtain ⟨hsame, hown, hnotices, hcreated⟩ := h.sound (hlength ▸ hsmall)
    rw [← hplan] at hown hnotices
    rw [← hsince] at hcreated
    exact ⟨hsame, hown, hnotices, hcreated⟩

omit h

theorem Consistent.withChain (h : Consistent s) (chain : ω) : Consistent { s with chain } :=
  { h with }

include h

theorem Inside.call {c : HostCall op} (hcall : ctx.call host s c = .ok (ctx', s')) :
    Inside s₀ f depth r₀ act ctx' s' ∧ Steady ctx s ctx' s' := by
  rcases call_cases hcall with
    ⟨rfl, rfl⟩ | ⟨o, deltas, chain, -, rfl, rfl⟩ | ⟨q, t, trace, hschedules⟩
  · exact ⟨h, .refl _ _⟩
  · refine ⟨h.congr ?_ (h.consistent.withChain chain) _ _, rfl, rfl, prefix_refl _, rfl⟩
    rfl
  · exact ⟨h.schedules hschedules, hschedules.steady⟩

omit h

/-- **Running the handlers of an action.**  What every call of the host keeps is kept, and what is
used in memory is checked at the end. -/
theorem applyOne_keeps (hrun : ctx.applyOne host s = .ok (ctx', s')) :
    ∃ privileged, host.isPrivileged ctx.receiver s.chain = .ok privileged ∧
      ctx'.checkMemRestrictions host s'.chain = .ok () ∧
      ∀ P : ApplyContext → ExecState ω → Prop,
        (∀ {ctx s c ctx' s'}, P ctx s → ctx.call host s c = .ok (ctx', s') → P ctx' s') →
        P { ctx with privileged } s → P ctx' s' := by
  rw [applyOne] at hrun
  obtain ⟨privileged, hprivileged, hrun⟩ := bind_eq_ok.mp hrun
  obtain ⟨⟨ctx₁, s₁⟩, hnative, hrun⟩ := bind_eq_ok.mp hrun
  obtain ⟨⟨ctx₂, s₂⟩, hcontract, hrun⟩ := bind_eq_ok.mp hrun
  obtain ⟨_, hcheck, hrun⟩ := bind_eq_ok.mp hrun
  cases hrun
  refine ⟨privileged, hprivileged, hcheck, fun P hcall h => ?_⟩
  have hall : ∀ {calls ctx s ctx' s'}, P ctx s → ctx.callAll host s calls = .ok (ctx', s') →
      P ctx' s' := by
    intro calls ctx s ctx' s' h hcalls
    exact (foldlM_invariant (fun r => P r.1 r.2) (fun _ _ _ _ h hone => hcall h hone) h).1 _ hcalls
  have h₁ : P ctx₁ s₁ := by
    rw [applyNative] at hnative
    split at hnative
    · obtain ⟨_, -, hcalls⟩ := bind_eq_ok.mp hnative
      exact hall h hcalls
    · cases hnative
      exact h
  rw [applyContract] at hcontract
  split at hcontract
  · obtain ⟨_, -, hcalls⟩ := bind_eq_ok.mp hcontract
    exact hall h₁ hcalls
  · cases hcontract
    exact h₁

include h

theorem Inside.applyOne (hrun : ctx.applyOne host s = .ok (ctx', s')) :
    Inside s₀ f depth r₀ act ctx' s' ∧ Steady ctx s ctx' s' := by
  obtain ⟨privileged, -, -, hkeeps⟩ := applyOne_keeps hrun
  refine hkeeps (fun ctx₁ s₁ => Inside s₀ f depth r₀ act ctx₁ s₁ ∧ Steady ctx s ctx₁ s₁) ?_
    ⟨h.congr rfl h.consistent privileged _, rfl, rfl, prefix_refl _, rfl⟩
  rintro ctx₁ s₁ c ctx₂ s₂ ⟨h₁, hsteady₁⟩ hcall
  obtain ⟨h₂, hsteady₂⟩ := h₁.call hcall
  exact ⟨h₂, hsteady₁.trans hsteady₂⟩

omit h

/-- The state with the receipt of an action. -/
def withReceipt (s : ExecState ω) (o : ℕ) (t : ActionTrace) (receipt : ActionReceipt)
    (deltas : AccountDeltas) (e : Execution ω) (chain : ω) : ExecState ω :=
  { s with
    chain
    actionTraces := s.actionTraces.set (o - 1)
      { t with receipt := some receipt, accountMemDeltas := deltas }
    executed := s.executed ++ [receipt]
    history := s.history ++ [e] }

theorem plan_withReceipt {o : ℕ} (ht : s.actionTraces[o - 1]? = some t) (receipt : ActionReceipt)
    (deltas : AccountDeltas) (e : Execution ω) (chain : ω) :
    (withReceipt s o t receipt deltas e chain).plan = s.plan := by
  have hlt := (List.getElem?_eq_some_iff.mp ht).1
  rw [ExecState.plan, withReceipt, map_set, ExecState.plan]
  apply ext_getElem?
  intro j
  rw [List.getElem?_set]
  split
  · next heq =>
    subst heq
    rw [length_map, if_pos hlt, List.getElem?_map, ht]
    rfl
  · rfl

theorem Consistent.withReceipt (h : Consistent s) {o : ℕ} (hpos : 0 < o)
    (ht : s.actionTraces[o - 1]? = some t) (receipt : ActionReceipt) (deltas : AccountDeltas)
    (e : Execution ω) (he : e.actionOrdinal = o) (chain : ω) :
    Consistent (withReceipt s o t receipt deltas e chain) := by
  have hlt := (List.getElem?_eq_some_iff.mp ht).1
  refine ⟨fun i t' hi => ?_, fun e' he' => ?_, ?_⟩
  · rw [plan_withReceipt ht] at hi
    exact h.numbered i t' hi
  · have hset : ∀ j, (∃ t', s.actionTraces[j]? = some t' ∧ t'.receipt ≠ none) ∨ j = o - 1 →
        ∃ t', (Apply.withReceipt s o t receipt deltas e chain).actionTraces[j]? = some t' ∧
          t'.receipt ≠ none := by
      intro j hj
      rw [Apply.withReceipt]
      by_cases heq : o - 1 = j
      · subst heq
        exact ⟨_, List.getElem?_set_self hlt, Option.some_ne_none _⟩
      · rw [List.getElem?_set_ne heq]
        exact hj.resolve_right fun h => heq h.symm
    rcases mem_append.mp he' with hold | hnew
    · obtain ⟨hpos', hreceipt⟩ := h.receipts e' hold
      exact ⟨hpos', hset _ (.inl hreceipt)⟩
    · cases mem_singleton.mp hnew
      rw [he]
      exact ⟨hpos, hset _ (.inr rfl)⟩
  · rw [Apply.withReceipt, length_append, length_append, h.executed]
    rfl

def record (f depth : ℕ) (checkedAt : Option ω) (p : Name × ℕ) : Execution ω where
  actionOrdinal := p.2
  firstReceiverActionOrdinal := f
  receiver := p.1
  recurseDepth := depth
  checkedAt

variable {checkedAt : Option ω}

include h

theorem Inside.execOne (hrun : ctx.execOne host checkedAt s = .ok (ctx', s')) :
    Inside s₀ f depth r₀ act ctx' s' ∧ ctx.notified <+: ctx'.notified ∧
      s'.history = s.history ++ [record f depth checkedAt (ctx.receiver, ctx.actionOrdinal)] := by
  rw [ApplyContext.execOne] at hrun
  obtain ⟨⟨ctx₁, s₁⟩, happly, hrun⟩ := bind_eq_ok.mp hrun
  obtain ⟨⟨receipt, chain⟩, -, hrun⟩ := bind_eq_ok.mp hrun
  rw [mapError_eq_ok] at happly
  obtain ⟨h₁, hsteady⟩ := h.applyOne happly
  obtain ⟨trace, htrace, hrun⟩ := bind_eq_ok.mp hrun
  rw [getActionTrace_eq_ok] at htrace
  obtain ⟨hpos, ht⟩ := htrace
  cases hrun
  refine ⟨?_, hsteady.notified, ?_⟩
  · exact h₁.congr (plan_withReceipt ht receipt ctx₁.accountMemDeltas _ chain)
      (h₁.consistent.withReceipt hpos ht receipt ctx₁.accountMemDeltas _ rfl chain) _ _
  · show s₁.history ++ _ = _
    rw [hsteady.history, ← hsteady.receiver, ← hsteady.actionOrdinal, ← h₁.recurseDepth, ← h₁.first]
    rfl

/-! ## The accounts to notify -/

omit h

theorem notifyAll_length {time i : ℕ} (hi : i < 2 ^ 32)
    (hrun : ctx.notifyAll host checkedAt time i s = .ok (ctx', s')) :
    ctx'.notified.length < 2 ^ 32 := by
  induction time generalizing i ctx s with
  | zero => cases hrun
  | succ time ih =>
    rw [notifyAll] at hrun
    split at hrun
    · next hnone =>
      cases hrun
      exact lt_of_le_of_lt (getElem?_eq_none_iff.mp hnone) hi
    · obtain ⟨⟨ctx₁, s₁⟩, -, hrest⟩ := bind_eq_ok.mp hrun
      exact ih (u32_lt _) hrest

include h

theorem Inside.turn {receiver : Name} {actionOrdinal : ℕ}
    (hmem : (receiver, actionOrdinal) ∈ ctx.notified) :
    Inside s₀ f depth r₀ act { ctx with receiver, actionOrdinal } s :=
  { h with current := hmem, sound := fun hsmall => { h.sound hsmall with } }

theorem Inside.notifyAll_grows {time i : ℕ}
    (hrun : ctx.notifyAll host checkedAt time i s = .ok (ctx', s')) :
    ctx.notified <+: ctx'.notified := by
  induction time generalizing i ctx s with
  | zero => cases hrun
  | succ time ih =>
    rw [notifyAll] at hrun
    split at hrun
    · cases hrun
      exact prefix_refl _
    · next hsome =>
      obtain ⟨⟨ctx₁, s₁⟩, hone, hrest⟩ := bind_eq_ok.mp hrun
      obtain ⟨h₁, hgrown, -⟩ := (h.turn (mem_of_getElem? hsome)).execOne hone
      exact hgrown.trans (ih h₁ hrest)

/-- Every account that is to be notified is, once and in order. -/
theorem Inside.notifyAll {time i : ℕ} (hlt : i < 2 ^ 32)
    (hhistory : s.history = s₀.history ++ (ctx.notified.take i).map (record f depth checkedAt))
    (hrun : ctx.notifyAll host checkedAt time i s = .ok (ctx', s')) :
    Inside s₀ f depth r₀ act ctx' s' ∧
      s'.history = s₀.history ++ ctx'.notified.map (record f depth checkedAt) := by
  have hlength := notifyAll_length hlt hrun
  induction time generalizing i ctx s with
  | zero => cases hrun
  | succ time ih =>
    rw [notifyAll] at hrun
    split at hrun
    · next hnone =>
      cases hrun
      refine ⟨h, ?_⟩
      rw [hhistory, take_of_length_le (getElem?_eq_none_iff.mp hnone)]
    · next receiver actionOrdinal hsome =>
      obtain ⟨⟨ctx₁, s₁⟩, hone, hrest⟩ := bind_eq_ok.mp hrun
      obtain ⟨h₁, hgrown, hhistory₁⟩ := (h.turn (mem_of_getElem? hsome)).execOne hone
      have hi : i < ctx.notified.length := (List.getElem?_eq_some_iff.mp hsome).1
      have hlonger := (hgrown.trans (h₁.notifyAll_grows hrest)).length_le
      have hnext : u32 (i + 1) = i + 1 := u32_of_lt (by
        change ctx.notified.length ≤ _ at hlonger
        omega)
      rw [hnext] at hrest
      refine ih h₁ (by rw [← hnext]; exact u32_lt _) ?_ hrest
      -- the accounts notified so far stand at the front of the list still
      have htake : ctx₁.notified.take (i + 1) = ctx.notified.take i ++
          [(receiver, actionOrdinal)] := by
        obtain ⟨more, hmore⟩ := hgrown
        change ctx.notified ++ more = _ at hmore
        rw [← hmore, take_append_of_le_length (by omega), take_add_one, hsome]
        rfl
      rw [hhistory₁, htake, map_append, ← append_assoc]
      exact congrArg (· ++ _) hhistory

end Contexts

/-! ## Executing actions -/

/-- The executions of one action: for its own receiver first, then for every account that was
notified of it, none of them twice. -/
structure Notices (traces : List ActionTrace) (g : List (Execution ω)) : Prop where
  receivers : (g.map Execution.receiver).Nodup
  group : ∃ e rest t, g = e :: rest ∧ e.firstReceiverActionOrdinal = e.actionOrdinal ∧
    traces[e.actionOrdinal - 1]? = some t ∧ t.receiver = e.receiver ∧
    ∀ e' ∈ rest, e'.firstReceiverActionOrdinal = e.actionOrdinal ∧
      ∃ t', traces[e'.actionOrdinal - 1]? = some t' ∧ t'.receiver = e'.receiver ∧
        t'.closestUnnotifiedAncestorActionOrdinal = e.actionOrdinal ∧ t'.act = t.act

theorem Notices.mono {traces traces' : List ActionTrace} {g : List (Execution ω)}
    (h : Notices traces g) (hgrown : traces <+: traces') : Notices traces' g := by
  obtain ⟨e, rest, t, hg, hfirst, ht, hreceiver, hrest⟩ := h.group
  refine ⟨h.receivers, e, rest, t, hg, hfirst, getElem?_of_grown hgrown ht, hreceiver, ?_⟩
  intro e' he'
  obtain ⟨hfirst', t', ht', hnotice⟩ := hrest e' he'
  exact ⟨hfirst', t', getElem?_of_grown hgrown ht', hnotice⟩

/-- The recursion into an action was allowed by the configuration at that time. -/
def DepthAllowed (host : Host ω op) (depth : ℕ) (checkedAt : Option ω) : Prop :=
  depth = 0 ∨ ∃ w, checkedAt = some w ∧ depth ≤ host.maxInlineActionDepth w

/-- The actions `todo` have been executed, and with them everything that was scheduled meanwhile. -/
structure Ran (host : Host ω op) (s₀ s : ExecState ω) (todo : List ℕ) : Prop where
  plan : s₀.plan <+: s.plan
  consistent : Consistent s
  runs : ∃ groups : List (List (Execution ω)), s.history = s₀.history ++ groups.flatten ∧
    (groups.flatten.map Execution.actionOrdinal).Perm
      (todo ++ (since s₀ s).map ActionTrace.actionOrdinal) ∧
    (∀ e ∈ groups.flatten, DepthAllowed host e.recurseDepth e.checkedAt) ∧
    (s.actionTraces.length < 2 ^ 32 → ∀ g ∈ groups, Notices s.plan g)
  created : s.actionTraces.length < 2 ^ 32 → ∀ t ∈ since s₀ s, Created t

section Runs

variable {s₀ s s₁ s₂ : ExecState ω} {f depth : ℕ} {r₀ : Name} {act : Wire.Action}
  {ctx : ApplyContext} {todo todo' : List ℕ} {checkedAt : Option ω}

theorem Ran.refl (h : Consistent s) : Ran host s s [] := by
  refine ⟨prefix_refl _, h, ⟨[], ?_, ?_, nofun, fun _ => nofun⟩, fun _ t ht => ?_⟩
  · exact (append_nil _).symm
  · rw [since_self]
    exact .nil
  · rw [since_self] at ht
    cases ht

theorem length_le_of_plan (h : s₁.plan <+: s₂.plan) :
    s₁.actionTraces.length ≤ s₂.actionTraces.length := by
  rw [← s₁.length_plan, ← s₂.length_plan]
  exact h.length_le

theorem Ran.trans (h : Ran host s₀ s₁ todo) (h' : Ran host s₁ s₂ todo') :
    Ran host s₀ s₂ (todo ++ todo') := by
  obtain ⟨groups, hhistory, hperm, hdepth, hnotices⟩ := h.runs
  obtain ⟨groups', hhistory', hperm', hdepth', hnotices'⟩ := h'.runs
  have hsince := since_trans h.plan h'.plan
  have hle := length_le_of_plan h'.plan
  refine ⟨h.plan.trans h'.plan, h'.consistent, ⟨groups ++ groups', ?_, ?_, ?_, fun hsmall => ?_⟩,
    fun hsmall => ?_⟩
  · rw [hhistory', hhistory, flatten_append, append_assoc]
  · rw [flatten_append, map_append, hsince, map_append, append_assoc]
    refine (hperm.append hperm').trans ?_
    rw [append_assoc]
    refine append_left _ ?_
    rw [← append_assoc, ← append_assoc]
    exact append_right _ perm_append_comm
  · rw [flatten_append]
    exact forall_mem_append.mpr ⟨hdepth, hdepth'⟩
  · exact forall_mem_append.mpr
      ⟨fun g hg => (hnotices (by omega) g hg).mono h'.plan, hnotices' hsmall⟩
  · rw [hsince]
    exact forall_mem_append.mpr ⟨h.created (by omega), h'.created hsmall⟩

theorem Ran.all {run : ExecState ω → ℕ → Result (ExecState ω)}
    (hrun : ∀ {o s s'}, Consistent s → run s o = .ok s' → Ran host s s' [o]) (h : Consistent s)
    (hall : todo.foldlM run s = .ok s₁) : Ran host s s₁ todo := by
  induction todo generalizing s with
  | nil =>
    cases hall
    exact .refl h
  | cons o rest ih =>
    rw [foldlM_cons] at hall
    obtain ⟨s', hone, hrest⟩ := bind_eq_ok.mp hall
    have hran := hrun h hone
    exact hran.trans (ih hran.consistent hrest)

theorem inside_create (h : Consistent s) {o : ℕ} (hrun : create s o depth = .ok ctx)
    (chain : ω) : Inside s o depth ctx.receiver ctx.act
      { ctx with notified := [(ctx.receiver, o)] } { s with chain } := by
  obtain ⟨trace, htrace, hrun⟩ := bind_eq_ok.mp hrun
  obtain ⟨hpos, ht⟩ := getActionTrace_eq_ok.mp htrace
  cases hrun
  have hsince : since s { s with chain } = [] := since_self s
  refine ⟨rfl, rfl, mem_singleton_self _, rfl, nodup_singleton _, prefix_refl _, ?_,
    h.withChain chain, fun _ => ⟨rfl, ⟨hpos, ?_, _, s.plan_of_trace ht, rfl, rfl⟩, nofun, ?_⟩⟩
  · rw [hsince]
    exact .nil
  · have hlt := (List.getElem?_eq_some_iff.mp ht).1
    rw [s.length_plan]
    omega
  · rw [hsince]
    exact nofun

theorem Inside.notices (h : Inside s₀ f depth r₀ act ctx s)
    (hsmall : s.actionTraces.length < 2 ^ 32) (checkedAt : Option ω) :
    Notices s.plan (ctx.notified.map (record f depth checkedAt)) := by
  obtain ⟨-, ⟨-, -, t, ht, hreceiver, hact⟩, hnotices, -⟩ := h.sound hsmall
  refine ⟨?_, record f depth checkedAt (r₀, f), ctx.notified.tail.map (record f depth checkedAt), t,
    ?_, rfl, ht, hreceiver, ?_⟩
  · rw [map_map]
    exact h.receivers
  · conv_lhs => rw [h.head]
    rfl
  · intro e' he'
    obtain ⟨⟨r, o⟩, hp, rfl⟩ := mem_map.mp he'
    obtain ⟨-, t', ht', hr', hclosest, hact'⟩ := hnotices r o hp
    exact ⟨rfl, t', ht', hr', hclosest, hact'.trans hact.symm⟩

theorem Inside.ran (h : Inside s₀ f depth r₀ act ctx s₁)
    (hdepth : DepthAllowed host depth checkedAt)
    (hhistory : s₁.history = s₀.history ++ ctx.notified.map (record f depth checkedAt))
    (hchildren : Ran host s₁ s₂ (ctx.cfaInlineActions ++ ctx.inlineActions)) :
    Ran host s₀ s₂ [f] := by
  obtain ⟨groups, hhistory', hperm, hdepths, hnotices⟩ := hchildren.runs
  have hsince := since_trans h.plan hchildren.plan
  have hle := length_le_of_plan hchildren.plan
  refine ⟨h.plan.trans hchildren.plan, hchildren.consistent,
    ⟨ctx.notified.map (record f depth checkedAt) :: groups, ?_, ?_, ?_, fun hsmall => ?_⟩,
    fun hsmall => ?_⟩
  · rw [hhistory', hhistory, flatten_cons, append_assoc]
  · have hordinals : (ctx.notified.map (record f depth checkedAt)).map Execution.actionOrdinal =
        f :: ctx.notified.tail.map Prod.snd := by
      rw [map_map]
      conv_lhs => rw [h.head]
      rfl
    rw [flatten_cons, map_append, hordinals, hsince, map_append]
    -- what was scheduled inside has either been notified or is inline
    refine (hperm.append_left _).trans ?_
    rw [← append_assoc, cons_append]
    exact ((h.queued.symm.append_right _).cons f)
  · refine forall_mem_append.mpr ⟨fun e he => ?_, hdepths⟩
    obtain ⟨p, -, rfl⟩ := mem_map.mp he
    exact hdepth
  · exact forall_mem_cons.mpr
      ⟨(h.notices (by omega) checkedAt).mono hchildren.plan, hnotices hsmall⟩
  · rw [hsince]
    exact forall_mem_append.mpr ⟨(h.sound (by omega)).created, hchildren.created hsmall⟩

theorem executeAction_ran {time o : ℕ} (h : Consistent s)
    (hdepth : DepthAllowed host depth checkedAt)
    (hrun : executeAction host time o depth checkedAt s = .ok s₂) : Ran host s s₂ [o] := by
  induction time generalizing o depth checkedAt s s₂ with
  | zero => cases hrun
  | succ time ih =>
    rw [executeAction] at hrun
    obtain ⟨ctx, hcreate, hrun⟩ := bind_eq_ok.mp hrun
    obtain ⟨⟨ctx₀, s₀⟩, hone, hrun⟩ := bind_eq_ok.mp hrun
    obtain ⟨⟨ctx₁, s₁⟩, hnotify, hrun⟩ := bind_eq_ok.mp hrun
    obtain ⟨_, hcheck, hrun⟩ := bind_eq_ok.mp hrun
    obtain ⟨s', hcfa, hinline⟩ := bind_eq_ok.mp hrun
    rw [checkDepth, ineAssert_eq_ok] at hcheck
    have hinside := inside_create h hcreate (host.enter s.chain)
    have ho : ctx.actionOrdinal = o := congrArg Prod.snd (mem_singleton.mp hinside.current)
    obtain ⟨hinside₀, -, hhistory₀⟩ := hinside.execOne hone
    have hfirst : s₀.history = s.history ++
        (ctx₀.notified.take 1).map (record o depth checkedAt) := by
      rw [hhistory₀, hinside₀.head, ho]
      rfl
    obtain ⟨hinside, hhistory⟩ := hinside₀.notifyAll (by decide) hfirst hnotify
    refine hinside.ran hdepth hhistory ?_
    have hchild : ∀ {todo : List ℕ} {s s' : ExecState ω}, Consistent s →
        (todo ≠ [] → depth < host.maxInlineActionDepth s₁.chain) →
        todo.foldlM (fun s' ordinal =>
          executeAction host time ordinal (depth + 1) (some s₁.chain) s') s = .ok s' →
        Ran host s s' todo := by
      intro todo s s' hs hallowed hall
      by_cases hnil : todo = []
      · subst hnil
        cases hall
        exact .refl hs
      · exact Ran.all (fun hs hone => ih hs (.inr ⟨_, rfl, hallowed hnil⟩) hone) hs hall
    rw [hinside.recurseDepth] at hcheck
    have hranCfa := hchild hinside.consistent
      (fun hne => hcheck (.inl (length_pos_iff.mpr hne))) hcfa
    exact hranCfa.trans (hchild hranCfa.consistent
      (fun hne => hcheck (.inr (length_pos_iff.mpr hne))) hinline)

end Runs

/-! ## Transactions -/

/-- The tree of the traces of a transaction that has been executed. -/
structure WellFormed (host : Host ω op) (inputs : ℕ) (s : ExecState ω) : Prop where
  ordinals : ∀ i t, s.actionTraces[i]? = some t → t.actionOrdinal = i + 1
  ancestors : ∀ t ∈ s.actionTraces, t.creatorActionOrdinal < t.actionOrdinal ∧
    t.closestUnnotifiedAncestorActionOrdinal < t.actionOrdinal
  inputs : ∀ t ∈ s.actionTraces, (t.creatorActionOrdinal = 0 ↔ t.actionOrdinal ≤ inputs) ∧
    (t.closestUnnotifiedAncestorActionOrdinal = 0 ↔ t.actionOrdinal ≤ inputs)
  notices : ∃ groups : List (List (Execution ω)), s.history = groups.flatten ∧
    ∀ g ∈ groups, Notices s.actionTraces g
  once : (s.history.map Execution.actionOrdinal).Perm (s.actionTraces.map ActionTrace.actionOrdinal)
  receipts : s.executed.length = s.actionTraces.length ∧ ∀ t ∈ s.actionTraces, t.receipt ≠ none
  depth : ∀ e ∈ s.history, DepthAllowed host e.recurseDepth e.checkedAt

/-- Only input actions have been scheduled, and nothing has been executed. -/
structure Scheduled (s : ExecState ω) : Prop where
  plain : ∀ t ∈ s.actionTraces, t.scheduled = t ∧ t.creatorActionOrdinal = 0 ∧
    t.closestUnnotifiedAncestorActionOrdinal = 0
  consistent : Consistent s
  history : s.history = []

section Transactions

variable {s s' : ExecState ω}

theorem scheduled_empty (chain : ω) : Scheduled ({ chain } : ExecState ω) :=
  ⟨nofun, ⟨nofun, nofun, rfl⟩, rfl⟩

theorem Scheduled.scheduleAction (h : Scheduled s) (act : Wire.Action) (receiver : Name)
    (contextFree : Bool) : Scheduled (s.scheduleAction act receiver contextFree 0 0).2 := by
  refine ⟨forall_mem_append.mpr ⟨h.plain, ?_⟩, h.consistent.append rfl rfl, h.history⟩
  exact forall_mem_singleton.mpr ⟨rfl, rfl, rfl⟩

theorem Scheduled.scheduleInputs (h : Scheduled s) (acts : List Wire.Action) (contextFree : Bool) :
    Scheduled (scheduleInputs s acts contextFree) ∧
      (scheduleInputs s acts contextFree).actionTraces.length =
        s.actionTraces.length + acts.length := by
  induction acts generalizing s with
  | nil => exact ⟨h, rfl⟩
  | cons act rest ih =>
    obtain ⟨hrest, hlength⟩ := ih (h.scheduleAction act act.account contextFree)
    refine ⟨hrest, hlength.trans ?_⟩
    show (s.actionTraces ++ [_]).length + rest.length = s.actionTraces.length + (rest.length + 1)
    rw [length_append, length_singleton]
    omega

theorem Consistent.ordinals (h : Consistent s) (hlt : s.actionTraces.length < 2 ^ 32) :
    s.plan.map ActionTrace.actionOrdinal = range' 1 s.actionTraces.length := by
  apply ext_getElem
  · rw [length_map, s.length_plan, length_range']
  · intro i hi _
    rw [length_map, s.length_plan] at hi
    rw [getElem_map, getElem_range',
      h.numbered i _ (getElem?_eq_getElem (by rw [s.length_plan]; exact hi)),
      u32_of_lt (by omega)]
    omega

/-- The first ordinal to wrap would be 0, and no action with it is executed. -/
theorem Consistent.length_lt (h : Consistent s)
    (honce : (s.history.map Execution.actionOrdinal).Perm (s.plan.map ActionTrace.actionOrdinal)) :
    s.actionTraces.length < 2 ^ 32 := by
  by_contra hge
  have hlast : 2 ^ 32 - 1 < s.plan.length := by
    rw [s.length_plan]
    omega
  have hzero := h.numbered _ _ (getElem?_eq_getElem hlast)
  have hmem : 0 ∈ s.history.map Execution.actionOrdinal := by
    rw [honce.mem_iff, mem_map]
    exact ⟨_, getElem_mem hlast, hzero⟩
  obtain ⟨e, he, hordinal⟩ := mem_map.mp hmem
  exact absurd hordinal (h.receipts e he).1.ne'

/-- An input action, or one that was scheduled by another. -/
theorem Ran.trace_cases {todo : List ℕ} (hs : Scheduled s) (h : Ran host s s' todo)
    (hsmall : s'.actionTraces.length < 2 ^ 32) {i : ℕ} {t : ActionTrace}
    (ht : s'.actionTraces[i]? = some t) :
    (i < s.actionTraces.length ∧ t.creatorActionOrdinal = 0 ∧
      t.closestUnnotifiedAncestorActionOrdinal = 0) ∨
    (s.actionTraces.length ≤ i ∧ Created t) := by
  have hplan := s'.plan_of_trace ht
  rw [plan_eq_append h.plan] at hplan
  rcases lt_or_ge i s.plan.length with hlt | hge
  · rw [getElem?_append_left hlt] at hplan
    obtain ⟨t', ht', hsame⟩ := s.trace_of_plan hplan
    obtain ⟨hplain, hcreator, hclosest⟩ := hs.plain t' (mem_of_getElem? ht')
    rw [hsame] at hplain
    rw [← hplain] at hcreator hclosest
    rw [s.length_plan] at hlt
    exact .inl ⟨hlt, hcreator, hclosest⟩
  · rw [getElem?_append_right hge] at hplan
    rw [s.length_plan] at hge
    have hcreated : Created t.scheduled := h.created hsmall _ (mem_of_getElem? hplan)
    exact .inr ⟨hge, hcreated⟩

theorem Notices.of_plan {g : List (Execution ω)} (h : Notices s.plan g) :
    Notices s.actionTraces g := by
  obtain ⟨e, rest, t, hg, hfirst, ht, hreceiver, hrest⟩ := h.group
  obtain ⟨t₀, ht₀, rfl⟩ := s.trace_of_plan ht
  refine ⟨h.receivers, e, rest, t₀, hg, hfirst, ht₀, hreceiver, fun e' he' => ?_⟩
  obtain ⟨hfirst', t', ht', hnotice⟩ := hrest e' he'
  obtain ⟨t₁, ht₁, rfl⟩ := s.trace_of_plan ht'
  exact ⟨hfirst', t₁, ht₁, hnotice⟩

/-- **The tree of traces is well formed** once the input actions have been executed. -/
theorem Ran.wellFormed (hs : Scheduled s) (hlt : s.actionTraces.length < 2 ^ 32)
    (h : Ran host s s' (range' 1 s.actionTraces.length)) :
    WellFormed host s.actionTraces.length s' := by
  obtain ⟨groups, hhistory, hperm, hdepth, hnotices⟩ := h.runs
  rw [hs.history, nil_append] at hhistory
  have honce : (s'.history.map Execution.actionOrdinal).Perm
      (s'.plan.map ActionTrace.actionOrdinal) := by
    rw [hhistory, plan_eq_append h.plan, map_append, hs.consistent.ordinals hlt]
    exact hperm
  have hsmall := h.consistent.length_lt honce
  have hordinals : ∀ i t, s'.actionTraces[i]? = some t → t.actionOrdinal = i + 1 := by
    intro i t ht
    have hi := (List.getElem?_eq_some_iff.mp ht).1
    exact (h.consistent.numbered i _ (s'.plan_of_trace ht)).trans (u32_of_lt (by omega))
  have hplanOrdinals : s'.plan.map ActionTrace.actionOrdinal =
      s'.actionTraces.map ActionTrace.actionOrdinal := map_map ..
  refine ⟨hordinals, fun t ht => ?_, fun t ht => ?_, ⟨groups, hhistory, ?_⟩, ?_,
    ⟨?_, fun t ht => ?_⟩, ?_⟩
  · obtain ⟨i, hi⟩ := mem_iff_getElem?.mp ht
    have hordinal := hordinals i t hi
    rcases h.trace_cases hs hsmall hi with ⟨-, hcreator, hclosest⟩ | ⟨-, hcreated⟩
    · omega
    · exact ⟨hcreated.1.2, hcreated.2.2⟩
  · obtain ⟨i, hi⟩ := mem_iff_getElem?.mp ht
    have hordinal := hordinals i t hi
    rcases h.trace_cases hs hsmall hi with ⟨hinput, hcreator, hclosest⟩ | ⟨hlater, hcreated⟩
    · omega
    · obtain ⟨⟨hcreator, -⟩, hclosest, -⟩ := hcreated
      omega
  · exact fun g hg => (hnotices hsmall g hg).of_plan
  · exact hplanOrdinals ▸ honce
  · rw [h.consistent.executed, ← length_map Execution.actionOrdinal, honce.length_eq,
      length_map, s'.length_plan]
  · obtain ⟨i, hi⟩ := mem_iff_getElem?.mp ht
    have hmem : t.actionOrdinal ∈ s'.history.map Execution.actionOrdinal := by
      rw [honce.mem_iff, hplanOrdinals]
      exact mem_map_of_mem ht
    obtain ⟨e, he, heq⟩ := mem_map.mp hmem
    obtain ⟨-, t', ht', hreceipt⟩ := h.consistent.receipts e he
    rw [heq, hordinals i t hi, Nat.add_sub_cancel, hi] at ht'
    cases ht'
    exact hreceipt
  · rw [hhistory]
    exact hdepth

def inputCount (applyContextFree : Bool) (delay : ℕ) (trx : Wire.Transaction) : ℕ :=
  (if applyContextFree then trx.contextFreeActions else []).length +
    (if delay = 0 then trx.actions else []).length

theorem inputCount_lt (applyContextFree : Bool) (delay : ℕ) {trx : Wire.Transaction}
    (hcfa : trx.contextFreeActions.length ≤ maxNumArrayElements)
    (hacts : trx.actions.length ≤ maxNumArrayElements) :
    inputCount applyContextFree delay trx < 2 ^ 32 := by
  have hite : ∀ (c : Prop) [Decidable c] (l : List Wire.Action),
      (if c then l else []).length ≤ l.length := by
    intro c _ l
    split
    · exact le_refl _
    · exact Nat.zero_le _
  have h₁ := hite (applyContextFree = true) trx.contextFreeActions
  have h₂ := hite (delay = 0) trx.actions
  rw [maxNumArrayElements] at hcfa hacts
  rw [inputCount]
  omega

theorem scheduled_inputs (chain : ω) (applyContextFree : Bool) (delay : ℕ)
    (trx : Wire.Transaction) : Scheduled (scheduleInputs (scheduleInputs { chain }
      (if applyContextFree then trx.contextFreeActions else []) true)
      (if delay = 0 then trx.actions else []) false) ∧
    (scheduleInputs (scheduleInputs { chain }
      (if applyContextFree then trx.contextFreeActions else []) true)
      (if delay = 0 then trx.actions else []) false).actionTraces.length =
        inputCount applyContextFree delay trx := by
  obtain ⟨hs, hlength⟩ := (scheduled_empty chain).scheduleInputs
    (if applyContextFree then trx.contextFreeActions else []) true
  obtain ⟨hs', hlength'⟩ := hs.scheduleInputs (if delay = 0 then trx.actions else []) false
  refine ⟨hs', hlength'.trans ?_⟩
  rw [hlength, inputCount]
  exact congrArg (· + _) (Nat.zero_add _)

theorem WellFormed.withChain {inputs : ℕ} (h : WellFormed host inputs s) (chain : ω) :
    WellFormed host inputs { s with chain } :=
  { h with }

/-- **The tree of action traces is well formed** when a transaction, or the delivery of a failed one
to its sender, has been executed: whatever contracts and native handlers did. -/
theorem traces_well_formed (host : Host ω op) (time : ℕ) (chain : ω) (s : ExecState ω) :
    (∀ isInitialized applyContextFree delay trx,
      trx.contextFreeActions.length ≤ maxNumArrayElements →
      trx.actions.length ≤ maxNumArrayElements →
      exec host time isInitialized applyContextFree delay trx chain = .ok s →
      WellFormed host (inputCount applyContextFree delay trx) s) ∧
    ∀ onerror sender, applyOnerror host time onerror sender chain = .ok s →
      WellFormed host 1 s := by
  constructor
  · intro isInitialized applyContextFree delay trx hcfa hacts hrun
    obtain ⟨_, -, hrun⟩ := bind_eq_ok.mp hrun
    obtain ⟨s₁, hloop, hrun⟩ := bind_eq_ok.mp hrun
    obtain ⟨hs, hcount⟩ := scheduled_inputs chain applyContextFree delay trx
    have hlt := inputCount_lt applyContextFree delay hcfa hacts
    rw [← hcount] at hlt ⊢
    rw [u32_of_lt hlt] at hloop
    have hran := Ran.all (fun hs hone => executeAction_ran hs (.inl rfl) hone) hs.consistent hloop
    have hwell := hran.wellFormed hs hlt
    split at hrun
    · obtain ⟨chain', -, hrun⟩ := bind_eq_ok.mp hrun
      cases hrun
      exact hwell.withChain chain'
    · cases hrun
      exact hwell
  · intro onerror sender hrun
    have hs := (scheduled_empty chain).scheduleAction onerror sender false
    exact (executeAction_ran hs.consistent (.inl rfl) hrun).wellFormed hs
      (show 1 < 2 ^ 32 by decide)

end Transactions

/-! ## A limit that is lowered on the way -/

/-- A host that allows everything and has no native handlers. -/
def openHost {ω op : Type} (apply : ApplyContext → List ActionTrace → ω → List (HostCall op))
    (perform : op → ApplyContext → ω → Result (AccountDeltas × ω)) : Host ω op where
  sha256 _ := 0
  isPrivileged _ _ := .ok false
  hasCode _ _ := true
  findApplyHandler _ _ _ := none
  apply := apply
  perform := perform
  enter := id
  forwardSetcode _ := true
  memRestrictions _ := true
  restrictActionToSelf _ := true
  enforceWhiteblacklist := false
  isProducingBlock := false
  checkContractList _ := .ok ()
  checkActionList _ _ := .ok ()
  checkActorList _ := .ok ()
  checktime _ _ _ := .ok ()
  isAccount _ _ := true
  findPermission _ _ := true
  skipAuthCheck := false
  checkAuthorization _ _ _ _ := .ok ()
  maxInlineActionSize _ := 4096
  maxNonprivilegedInlineActionSize := 4096
  maxInlineActionDepth _ := 4
  nextGlobalSequence chain := (1, chain)
  nextRecvSequence _ chain := .ok (1, chain)
  nextAuthSequence _ chain := .ok (1, chain)
  codeSequence _ _ := .ok 0
  abiSequence _ _ := .ok 0
  scheduleTransaction chain := .ok chain

/-- A contract sets the limit on inline actions, or notes the limit that it finds. -/
inductive LimitOp where
  | set (limit : ℕ)
  | note

/-- The chain is its limit and the notes: who ran, how deep, and what the limit was. -/
abbrev LimitChain := ℕ × List (Name × ℕ × ℕ)

/-- Account 1 sends an action to account 2, which sets the limit to 0, and one to account 3, which
notes the limit. -/
def limitHost : Host LimitChain LimitOp :=
  { openHost
      (fun ctx _ _ =>
        if ctx.receiver = 1 then [.executeInline { account := 2, name := 0 },
          .executeInline { account := 3, name := 0 }]
        else if ctx.receiver = 2 then [.operation (.set 0)]
        else [.operation .note])
      (fun o ctx chain =>
        match o with
        | .set limit => .ok (ctx.accountMemDeltas, (limit, chain.2))
        | .note => .ok (ctx.accountMemDeltas,
            (chain.1, chain.2 ++ [(ctx.receiver, ctx.recurseDepth, chain.1)]))) with
    isPrivileged := fun receiver _ => .ok (receiver = 2)
    maxInlineActionDepth := fun chain => chain.1 }

/-- A transaction with one action, for account 1. -/
def limitTrx : Wire.Transaction := { actions := [{ account := 1, name := 0 }] }

theorem traces_well_formed_limit : ∃ s, exec limitHost 4 true true 0 limitTrx (1, []) = .ok s ∧
    WellFormed limitHost 1 s := by
  obtain ⟨s, hrun, -⟩ : ∃ s, exec limitHost 4 true true 0 limitTrx (1, []) = .ok s ∧ True := by
    decide +kernel
  exact ⟨s, hrun, (traces_well_formed limitHost 4 (1, []) s).1 true true 0 limitTrx (by decide)
    (by decide) hrun⟩

/-- The recursion is checked once for all inline actions of a context.  The first of them lowers
the limit; the second runs at depth 1 although the limit is 0. -/
theorem depth_above_lowered_limit : ∃ s, exec limitHost 4 true true 0 limitTrx (1, []) = .ok s ∧
    s.chain = (0, [(3, 1, 0)]) ∧ ∃ e ∈ s.history, e.receiver = 3 ∧
      limitHost.maxInlineActionDepth s.chain < e.recurseDepth := by
  decide +kernel

end Inery.Chain.Apply
