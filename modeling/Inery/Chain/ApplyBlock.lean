import Inery.Chain.Controller

/-!
# What applying and popping a block does

`apply_block` leaves one more session on the undo stack, or everything as it
was; only an exception from outside the `fc` hierarchy can leave the block
pending.  Popping takes one session back, and applying a popped branch again
restores head and undo stack.
-/

namespace Inery.Chain

open Foundation List Stateful SnapshotStack

variable {σ : Type} {env : BlockEnv σ} {c c' : Controller σ} {b base prev : BlockState}
  {s : BlockStatus} {l : List BlockState}

/-! ## `apply_block` -/

/-- All that `apply_block` does to the database between opening and pushing
the session. -/
def BlockEnv.block (env : BlockEnv σ) (prev b : BlockState) (s : BlockStatus) :
    Stateful ChainException σ Unit := do
  lift (env.blockStart (prev.blockNum + 1))
  env.start prev b s
  env.process prev b s
  lift (env.accept b)

namespace Controller

def withSession (c : Controller σ) (current : σ) : Controller σ :=
  { c with db := { c.db.push with current } }

theorem resetPending_withSession (hpending : c.pending = false) (current : σ) :
    resetPending { c.withSession current with pending := true } = c := by
  have hundo : ({ c.db.push with current } : SnapshotStack σ).undo = c.db := undo_of_saved rfl rfl
  simp only [resetPending, withSession, if_true, hundo]
  rw [← hpending]

theorem resetPending_of_not_pending (hpending : c.pending = false) : c.resetPending = c := by
  simp [resetPending, hpending]

theorem require_run {p : Prop} [Decidable p] {kind : ExceptionKind} {message : String} (hp : p) :
    (require p kind message : ControllerM σ Unit).run c = (.ok (), c) := by
  simp [require, ineAssert, ensure_pos hp]

def withPending (c : Controller σ) (current : σ) : Controller σ :=
  { c.withSession current with pending := true }

theorem openBlock_run (env : BlockEnv σ) (b : BlockState) (s : BlockStatus)
    (hrev : c.db.revision = c.head.blockNum) :
    (openBlock env b s).run c = (((env.start c.head b s).run c.db.current).1,
      c.withPending ((env.start c.head b s).run c.db.current).2) := by
  unfold openBlock
  rw [run_get_bind]
  rw [run_bind_ok (require_run hrev)]
  rfl

theorem startBlock_cases (env : BlockEnv σ) (b : BlockState) (s : BlockStatus)
    (hpending : c.pending = false) :
    (∃ current, (startBlock env b s).run c = (.ok (), c.withPending current) ∧
      c.db.revision = c.head.blockNum) ∨
    ∃ e, (startBlock env b s).run c = (.error e, c) := by
  unfold startBlock
  rw [run_get_bind]
  rw [run_bind_ok (require_run hpending)]
  cases hsignal : env.blockStart (c.head.blockNum + 1) with
  | error e => exact .inr ⟨e, rfl⟩
  | ok u =>
    rw [run_lift_ok_bind]
    by_cases hrev : c.db.revision = c.head.blockNum
    · have hopen := openBlock_run env b s hrev
      cases hstart : (env.start c.head b s).run c.db.current with
      | mk outcome current =>
        rw [hstart] at hopen
        cases outcome with
        | ok u => exact .inl ⟨current, run_tryCatch_ok hopen, hrev⟩
        | error e =>
          refine .inr ⟨e, ?_⟩
          rw [run_tryCatch_error hopen]
          exact congrArg _ (resetPending_withSession hpending current)
    · obtain ⟨e, hopen⟩ : ∃ e, (openBlock env b s).run c = (.error e, c) := by
        unfold openBlock
        rw [run_get_bind]
        exact ⟨_, run_bind_error (by simp [require, ineAssert, ensure_neg hrev]; rfl)⟩
      refine .inr ⟨e, ?_⟩
      rw [run_tryCatch_error hopen]
      exact congrArg _ (resetPending_of_not_pending hpending)

theorem abort_throw_run (hpending : c.pending = false) (current : σ) (e : ChainException) :
    (do abortBlock; throw e : ControllerM σ Unit).run (c.withPending current) = (.error e, c) :=
  congrArg _ (resetPending_withSession hpending current)

theorem commitBlock_cases (env : BlockEnv σ) (b : BlockState) (hpending : c.pending = false)
    (current : σ) :
    (commitBlock env b).run (c.withPending current) = (.ok (), c.withSession current) ∨
    ∃ e, (commitBlock env b).run (c.withPending current) = (.error e, c) := by
  unfold commitBlock
  cases haccept : env.accept b with
  | ok u =>
    refine .inl ?_
    rw [run_bind_ok (run_tryCatch_ok (run_lift _))]
    simp [withPending, withSession, hpending]
  | error e =>
    refine .inr ⟨e, run_bind_error ?_⟩
    rw [run_tryCatch_error (run_lift _)]
    exact abort_throw_run hpending current e

/-- A new session is left, or everything as it was, or a pending block that was not aborted. -/
def LeftBy (c : Controller σ) (x : ControllerM σ Unit) : Prop :=
  (∃ current, x.run c = (.ok (), c.withSession current) ∧ c.db.revision = c.head.blockNum) ∨
  (∃ e, x.run c = (.error e, c)) ∨ ∃ e current, x.run c = (.error e, c.withPending current)

theorem applyBody_cases (env : BlockEnv σ) (b : BlockState) (s : BlockStatus)
    (hpending : c.pending = false) : c.LeftBy (applyBody env b s) := by
  unfold LeftBy applyBody
  rw [run_get_bind]
  rcases startBlock_cases env b s hpending with
    ⟨current, hstart, hrev⟩ | ⟨e, hstart⟩
  · rw [run_bind_ok hstart]
    cases hprocess : (env.process c.head b s).run current with
    | mk outcome current' =>
      have hrun : (onDatabase (env.process c.head b s)).run (c.withPending current) =
          (outcome, c.withPending current') := by
        simp only [onDatabase, run, withPending, withSession] at hprocess ⊢
        rw [hprocess]
      cases outcome with
      | error e => exact .inr (.inr ⟨e, current', run_bind_error hrun⟩)
      | ok u =>
        rw [run_bind_ok hrun]
        rcases commitBlock_cases env b hpending current' with
          hcommit | ⟨e, hcommit⟩
        · exact .inl ⟨current', hcommit, hrev⟩
        · exact .inr (.inl ⟨e, hcommit⟩)
  · exact .inr (.inl ⟨e, run_bind_error hstart⟩)

theorem applyBlock_cases (env : BlockEnv σ) (b : BlockState) (s : BlockStatus)
    (hpending : c.pending = false) : c.LeftBy (applyBlock env b s) := by
  have habort : ∀ e : ChainException,
      (do abortBlock; throw e : ControllerM σ Unit).run c = (.error e, c) :=
    fun e => congrArg _ (resetPending_of_not_pending hpending)
  unfold applyBlock
  rcases applyBody_cases env b s hpending with
    ⟨current, hbody, hrev⟩ | ⟨e, hbody⟩ | ⟨e, current, hbody⟩
  · exact .inl ⟨current, run_tryCatch_ok (run_tryCatch_ok hbody), hrev⟩
  · refine .inr (.inl ⟨e.capture, run_tryCatch_error ?_⟩)
    unfold catchFc
    rw [run_tryCatch_error hbody]
    split
    · exact habort e
    · rfl
  · by_cases hfc : e.kind.isFc = true
    · refine .inr (.inl ⟨e.capture, run_tryCatch_error ?_⟩)
      unfold catchFc
      rw [run_tryCatch_error hbody, if_pos hfc]
      exact abort_throw_run hpending current e
    · refine .inr (.inr ⟨e.capture, current, run_tryCatch_error ?_⟩)
      unfold catchFc
      rw [run_tryCatch_error hbody, if_neg hfc]
      rfl

theorem applyBlock_ok (hpending : c.pending = false) (hrev : c.db.revision = c.head.blockNum)
    {current : σ} (hblock : (env.block c.head b s).run c.db.current = (.ok (), current)) :
    (applyBlock env b s).run c = (.ok (), c.withSession current) := by
  obtain ⟨_, _, hsignal, hblock⟩ := run_bind_eq_ok.mp hblock
  obtain ⟨_, opened, hstart, hblock⟩ := run_bind_eq_ok.mp hblock
  obtain ⟨_, processed, hprocess, haccept⟩ := run_bind_eq_ok.mp hblock
  rw [run_lift, Prod.mk.injEq] at hsignal haccept
  obtain ⟨hsignal, rfl⟩ := hsignal
  obtain ⟨haccept, rfl⟩ := haccept
  have hopen : (startBlock env b s).run c = (.ok (), c.withPending opened) := by
    unfold startBlock
    rw [run_get_bind, hsignal]
    rw [run_bind_ok (require_run hpending), run_lift_ok_bind]
    apply run_tryCatch_ok
    rw [openBlock_run env b s hrev, hstart]
  have hrun : (onDatabase (env.process c.head b s)).run (c.withPending opened) =
      (.ok (), c.withPending processed) := by
    simp only [onDatabase, run, withPending, withSession] at hprocess ⊢
    rw [hprocess]
  have hcommit : (commitBlock env b).run (c.withPending processed) =
      (.ok (), c.withSession processed) := by
    unfold commitBlock
    rw [haccept, run_bind_ok (run_tryCatch_ok (run_lift _))]
    simp [withPending, withSession, hpending]
  refine run_tryCatch_ok (run_tryCatch_ok ?_)
  unfold applyBody
  rw [run_get_bind, run_bind_ok hopen, run_bind_ok hrun, hcommit]

/-- A pending block keeps the next one from starting, and the attempt aborts it. -/
theorem applyBlock_of_pending (hpending : c.pending = true) :
    (applyBlock env b s).run c =
      (.error ⟨.blockValidateException, "pending block already exists"⟩, c.resetPending) := by
  have hstart : (startBlock env b s).run c =
      (.error ⟨.blockValidateException, "pending block already exists"⟩, c) := by
    unfold startBlock
    rw [run_get_bind]
    apply run_bind_error
    simp [require, ineAssert, ensure, hpending]
  have hbody : (applyBody env b s).run c = (.error _, c) :=
    (run_get_bind _).trans (run_bind_error hstart)
  have hcatch : (catchFc (applyBody env b s) fun e => do
      abortBlock
      throw e).run c = (.error _, c.resetPending) := run_tryCatch_error hbody
  unfold applyBlock
  rw [run_tryCatch_error hcatch]
  rfl

/-! ## `pop_block` -/

/-- One pop takes the head to its parent and the database back by one session. -/
theorem popBlock_run (hinv : ForkInv c.forkDb) (hprev : c.forkDb.Known prev)
    (hfol : Follows prev c.head) :
    popBlock.run c = (.ok (), { c with head := prev, db := c.db.undo }) := by
  unfold popBlock
  rw [run_get_bind, ← hfol.link]
  rcases hprev with rfl | hprev
  · have hget : c.forkDb.getBlock c.forkDb.root.id = none :=
      ForkDatabase.getBlock_eq_none.mpr hinv.root_fresh
    rw [hget]
    exact run_bind_ok (require_run rfl)
  · rw [hinv.getBlock hprev]
    rfl

theorem popBlocks_run {db : ForkDatabase} {h : BlockState} (hinv : ForkInv db)
    (hbase : db.Known base) (hbranch : Branch db base l h) (hdb : c.forkDb = db)
    (hhead : c.head = h) :
    (popBlocks l.length).run c = (.ok (), { c with head := base, db := undo^[l.length] c.db }) := by
  induction hbranch generalizing c with
  | nil =>
    subst hhead
    rfl
  | @cons l p h hbranch hfol hmem ih =>
    subst hdb
    have hp : c.forkDb.Known p := by
      cases hbranch with
      | nil => exact hbase
      | cons _ _ hp => exact .inr hp
    rw [length_cons, popBlocks, run_bind_ok (popBlock_run hinv hp (hhead ▸ hfol))]
    exact ih (c := { c with head := p, db := c.db.undo }) rfl rfl

end Controller

/-! ## Applying a branch again -/

/-- Executing the blocks of a branch again, each on the snapshot taken before
it, gives the contents that the undo stack has for it. -/
def Replays (env : BlockEnv σ) (forkDb : ForkDatabase) : List BlockState → SnapshotStack σ → Prop
  | [], _ => True
  | b :: older, db =>
    (∀ prev, forkDb.getBlockHeader b.prev = some prev →
      (env.block prev b .validated).run db.undo.current = (.ok (), db.current)) ∧
    Replays env forkDb older db.undo

namespace Controller

theorem reapply_append {xs ys : List BlockState} (hrun : (reapply env xs).run c = (.ok (), c')) :
    (reapply env (xs ++ ys)).run c = (reapply env ys).run c' := by
  induction xs generalizing c with
  | nil =>
    cases hrun
    rfl
  | cons b xs ih =>
    obtain ⟨_, c₁, happly, hrun⟩ := run_bind_eq_ok.mp hrun
    obtain ⟨_, c₂, hhead, hrest⟩ := run_bind_eq_ok.mp hrun
    rw [cons_append, reapply, run_bind_ok happly, run_bind_ok hhead, ih hrest]

theorem reapply_run {forkDb : ForkDatabase} {db : SnapshotStack σ} {h : BlockState}
    (hinv : ForkInv forkDb) (hbase : forkDb.Known base) (hbranch : Branch forkDb base l h)
    (hreplays : Replays env forkDb l db) (hnumbered : db.Numbered)
    (hdepth : l.length ≤ db.saved.length) (hrev : db.revision = h.blockNum)
    (hhead : c.head = base) (hdb : c.db = undo^[l.length] db) (hpending : c.pending = false) :
    (reapply env l.reverse).run c = (.ok (), { c with head := h, db }) := by
  induction hbranch generalizing db with
  | nil =>
    subst hhead
    subst hdb
    rfl
  | @cons l p b hbranch hfol hb ih =>
    have hsaved : db.saved ≠ [] := by
      intro hnil
      rw [hnil] at hdepth
      simp at hdepth
    have hp : forkDb.Known p := by
      cases hbranch with
      | nil => exact hbase
      | cons _ _ hp => exact .inr hp
    have hrev' : db.undo.revision = p.blockNum := by
      rw [revision_undo hsaved, hrev, hfol.blockNum]
      omega
    have hdepth' : l.length ≤ db.undo.saved.length := by
      rw [saved_undo, length_tail]
      rw [length_cons] at hdepth
      omega
    have holder := ih hreplays.2 hnumbered.undo hdepth' hrev' hdb
    have hblock := hreplays.1 p (hfol.link ▸ hinv.getBlockHeader_known hp)
    rw [reverse_cons, reapply_append holder, reapply]
    rw [run_bind_ok (applyBlock_ok (c := { c with head := p, db := db.undo })
      hpending hrev' hblock)]
    have hsession : ({ c with head := p, db := db.undo } : Controller σ).withSession db.current =
        { c with head := p, db } := by
      simp only [withSession, hnumbered.push_undo hsaved]
    rw [hsession]
    rfl

end Controller

end Inery.Chain
