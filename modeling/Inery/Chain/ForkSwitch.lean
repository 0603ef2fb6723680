import Inery.Chain.ApplyBlock

/-!
# Switching forks

`maybe_switch_forks` pops the old branch, applies the new one, and goes back when a block cannot be
applied.  Going back is complete under three conditions that the code does not check: there is an
old branch, no block applied on the way has become the head of the fork database, and the exception
leaves no block pending.
-/

namespace Inery.Chain

open Foundation List Stateful ForkDatabase SnapshotStack

variable {σ : Type} {env : BlockEnv σ} {c c' : Controller σ} {b base prev : BlockState}
  {s : BlockStatus} {e : ChainException} {l applied : List BlockState}

/-! ## Adopting the new branch -/

/-- What `mark_valid` does to a fork database that has the block: the head
moves only if the block is preferred to it. -/
theorem ForkInv.markValid_spec {db : ForkDatabase} (hinv : ForkInv db) (hb : b ∈ db.index) :
    ∃ head, (ForkDatabase.markValid b).run db =
        (.ok (), { db with index := db.index.map (setValidated b.id), head }) ∧
      (¬ firstPreferred b db.head → head = db.head) := by
  unfold ForkDatabase.markValid
  by_cases hv : b.validated = true
  · have hsame : db.index.map (setValidated b.id) = db.index := by
      refine map_congr_left (g := id) (fun x hx => ?_) |>.trans (map_id _)
      by_cases hid : x.id = b.id
      · obtain rfl := hinv.eq_of_id hx hb hid
        exact setValidated_of_validated x.id hv
      · simp [setValidated, hid]
    rw [if_pos hv, hsame]
    exact ⟨db.head, rfl, fun _ => rfl⟩
  · obtain ⟨candidate, hmem, hvalid, -, heq⟩ := validateBlock_eq hb
    rw [if_neg hv, run_get_bind, hinv.getBlock hb]
    refine ⟨if firstPreferred candidate db.head then candidate else db.head, ?_, ?_⟩
    · change (Except.ok (), db.validateBlock b.id) = _
      rw [heq]
    · intro hpref
      refine if_neg fun hcandidate => ?_
      obtain ⟨x, hx, rfl⟩ := mem_map.mp hmem
      have hxpref : firstPreferred x db.head := by
        unfold firstPreferred at hcandidate ⊢
        rwa [setValidated_frame] at hcandidate
      by_cases hid : x.id = b.id
      · exact hpref (hinv.eq_of_id hx hb hid ▸ hxpref)
      · rw [setValidated, if_neg hid] at hvalid
        exact hinv.best x hx hvalid hxpref

/-- A block with its flag set if it is among the applied ones. -/
def flagged (applied : List BlockState) (b : BlockState) : BlockState :=
  if b.id ∈ applied.map (·.id) then { b with validated := true } else b

theorem flagged_of_not_mem (hb : b.id ∉ applied.map (·.id)) : flagged applied b = b := if_neg hb

theorem flagged_frame (applied : List BlockState) (b : BlockState) :
    (flagged applied b).toBlockHeaderState = b.toBlockHeaderState := by
  unfold flagged
  split <;> rfl

theorem flagged_id (applied : List BlockState) (b : BlockState) : (flagged applied b).id = b.id :=
  congrArg BlockHeaderState.id (flagged_frame applied b)

theorem flagged_prev (applied : List BlockState) (b : BlockState) :
    (flagged applied b).prev = b.prev :=
  congrArg (fun h : BlockHeaderState => h.header.previous) (flagged_frame applied b)

theorem setValidated_flagged (b x : BlockState) (applied : List BlockState) :
    setValidated b.id (flagged applied x) = flagged (b :: applied) x := by
  by_cases hmem : x.id ∈ applied.map (·.id)
  · have hflag : flagged applied x = { x with validated := true } := if_pos hmem
    rw [hflag, setValidated_of_validated b.id rfl]
    exact (if_pos (mem_cons_of_mem _ hmem)).symm
  · rw [flagged_of_not_mem hmem]
    by_cases hx : x.id = b.id
    · rw [setValidated, if_pos hx, flagged, if_pos (by simp [hx])]
    · rw [setValidated, if_neg hx, flagged_of_not_mem (by simpa [hx] using hmem)]

namespace Controller

/-- The head once blocks have been adopted, newest first. -/
def headAfter (start : BlockState) : List BlockState → BlockState
  | [] => start
  | b :: _ => { b with validated := true }

/-- `c` after the blocks `applied`, newest first, have been adopted from `start`. -/
structure Adopted (start c : Controller σ) (applied : List BlockState) : Prop where
  inv : ForkInv c.forkDb
  root : c.forkDb.root = start.forkDb.root
  index : c.forkDb.index = start.forkDb.index.map (flagged applied)
  forkHead : (∀ b ∈ applied, ¬ firstPreferred b start.forkDb.head) →
    c.forkDb.head = start.forkDb.head
  head : c.head = headAfter start.head applied
  db : undo^[applied.length] c.db = start.db
  pending : c.pending = false

theorem Adopted.refl (hinv : ForkInv c.forkDb) (hpending : c.pending = false) : Adopted c c [] := by
  refine ⟨hinv, rfl, ?_, fun _ => rfl, rfl, rfl, hpending⟩
  exact (map_id _).symm

theorem Adopted.step {start : Controller σ} (h : Adopted start c applied)
    (hb : b ∈ start.forkDb.index) (hnew : b.id ∉ applied.map (·.id))
    (hrun : (adoptBlock env b s).run c = (.ok (), c')) : Adopted start c' (b :: applied) := by
  have hmem : b ∈ c.forkDb.index := by
    rw [h.index, ← flagged_of_not_mem hnew]
    exact mem_map_of_mem hb
  obtain ⟨head, hmark, hhead⟩ := h.inv.markValid_spec hmem
  have hinv := h.inv.markValid b
  rw [hmark] at hinv
  unfold adoptBlock at hrun
  rcases applyBlock_cases env b s h.pending with
    ⟨current, happly, -⟩ | ⟨e, happly⟩ | ⟨e, current, happly⟩
  · rw [run_bind_ok happly] at hrun
    have hfork : (onForkDb (markValid b)).run (c.withSession current) =
        (.ok (), { c.withSession current with forkDb := { c.forkDb with
          index := c.forkDb.index.map (setValidated b.id), head } }) := by
      simp only [onForkDb, run, withSession] at hmark ⊢
      rw [hmark]
    rw [run_bind_ok hfork] at hrun
    cases hrun
    refine ⟨hinv, h.root, ?_, ?_, rfl, ?_, h.pending⟩
    · simp only [h.index, map_map]
      exact map_congr_left fun x _ => setValidated_flagged b x applied
    · intro hpref
      have hold := h.forkHead fun x hx => hpref x (mem_cons_of_mem _ hx)
      refine (hhead ?_).trans hold
      rw [hold]
      exact hpref b mem_cons_self
    · rw [length_cons, Function.iterate_succ_apply]
      have hundo : (c.withSession current).db.undo = c.db := undo_of_saved rfl rfl
      exact (congrArg _ hundo).trans h.db
  · rw [run_bind_error happly] at hrun
    cases hrun
  · rw [run_bind_error happly] at hrun
    cases hrun

/-- The loop over the new branch while nothing fails. -/
def adoptAll (env : BlockEnv σ) : List BlockState → ControllerM σ Unit
  | [] => pure ()
  | b :: rest => do
      adoptBlock env b (switchStatus b)
      adoptAll env rest

theorem Adopted.adoptAll {start : Controller σ} {bs : List BlockState}
    (h : Adopted start c applied) (hmem : ∀ b ∈ bs, b ∈ start.forkDb.index)
    (hnodup : ((bs.reverse ++ applied).map (·.id)).Nodup)
    (hrun : (adoptAll env bs).run c = (.ok (), c')) :
    Adopted start c' (bs.reverse ++ applied) := by
  induction bs generalizing c applied with
  | nil =>
    cases hrun
    exact h
  | cons b bs ih =>
    obtain ⟨_, c₁, hadopt, hrest⟩ := run_bind_eq_ok.mp hrun
    rw [reverse_cons, append_assoc, singleton_append] at hnodup ⊢
    have hnew : b.id ∉ applied.map (·.id) := by
      have := (nodup_append.mp (map_append ▸ hnodup)).2.1
      rw [map_cons, nodup_cons] at this
      exact this.1
    exact ih (h.step (hmem b mem_cons_self) hnew hadopt)
      (fun x hx => hmem x (mem_cons_of_mem _ hx)) hnodup hrest

theorem attempt_ok {x : ControllerM σ Unit} (hx : x.run c = (.ok (), c')) :
    (attempt x).run c = (.ok none, c') := by
  refine run_tryCatch_ok ?_
  rw [run_bind_ok hx]
  rfl

theorem attempt_error {x : ControllerM σ Unit} (hx : x.run c = (.error e, c')) :
    (attempt x).run c = (if e.kind.isFc then .ok (some e) else .error e, c') := by
  unfold attempt catchFc
  rw [run_tryCatch_error (run_bind_error hx)]
  split <;> rfl

theorem applyBranch_run {second bs rest : List BlockState} {n : ℕ}
    (hrun : (adoptAll env bs).run c = (.ok (), c')) :
    (applyBranch env second n (bs ++ rest)).run c =
      (applyBranch env second (n + bs.length) rest).run c' := by
  induction bs generalizing c n with
  | nil =>
    cases hrun
    rfl
  | cons b bs ih =>
    obtain ⟨_, c₁, hadopt, hrest⟩ := run_bind_eq_ok.mp hrun
    rw [cons_append, applyBranch, run_bind_ok (attempt_ok hadopt)]
    change (applyBranch env second (n + 1) (bs ++ rest)).run c₁ = _
    rw [ih hrest, length_cons, Nat.add_assoc, Nat.add_comm 1]

end Controller

/-! ## Going back -/

theorem Branch.flagged {db db' : ForkDatabase} {h : BlockState} (hbranch : Branch db base l h)
    (hindex : db'.index = db.index.map (flagged applied)) :
    Branch db' (flagged applied base) (l.map (flagged applied))
      (flagged applied h) := by
  induction hbranch with
  | nil => exact .nil
  | @cons l p b _ hfol hb ih =>
    exact .cons ih (hfol.congr (flagged_frame ..) (flagged_frame ..)) (hindex ▸ mem_map_of_mem hb)

namespace Controller

theorem requireSync_run {forkDb : ForkDatabase} {h : BlockState} {message : String}
    (hbranch : Branch forkDb base l h) (hl : l ≠ []) (hhead : c.head.id = base.id) :
    (requireSync l message).run c = (.ok (), c) := by
  obtain ⟨b, hlast, hprev⟩ := hbranch.getLast? hl
  unfold requireSync
  rw [run_get_bind, hlast]
  exact require_run (hhead.trans hprev.symm)

theorem requireSync_nil (message : String) :
    (requireSync [] message : ControllerM σ Unit).run c =
      (.error ⟨.undefinedBehaviour, "back() of an empty vector"⟩, c) := rfl

theorem revertSwitch_error (env : BlockEnv σ) (second : List BlockState) (b : BlockState) (n : ℕ)
    (e : ChainException) (c : Controller σ) :
    ∃ e', ((revertSwitch env second b n e).run c).1 = .error e' := by
  cases hrun : (revertSwitch env second b n e).run c with
  | mk outcome c' =>
    cases outcome with
    | error e' => exact ⟨e', rfl⟩
    | ok u =>
      unfold revertSwitch resumeOldBranch at hrun
      iterate 4 obtain ⟨_, _, -, hrun⟩ := run_bind_eq_ok.mp hrun
      cases hrun

/-! ## A failing switch -/

/-- The parts of the controller agree: the fork database is a tree that has the
head, no block is pending, and the undo stack has a session for every block
above the root. -/
structure InSync (c : Controller σ) : Prop where
  fork : ForkInv c.forkDb
  head : c.forkDb.Known c.head
  pending : c.pending = false
  revision : c.db.revision = c.head.blockNum
  numbered : c.db.Numbered
  depth : c.head.blockNum ≤ c.forkDb.root.blockNum + c.db.saved.length

/-- On the way to `newHead`, `apply_block` throws `e` at `bad` and leaves
`after`, once the blocks `applied`, oldest first, have been adopted. -/
def FailsAt (env : BlockEnv σ) (forkedBranchCb : List BlockState → Result Unit)
    (c : Controller σ) (newHead : BlockState) (applied : List BlockState) (bad : BlockState)
    (e : ChainException) (after : Controller σ) : Prop :=
  ∃ first second rest popped adopted,
    c.forkDb.fetchBranchFrom newHead.id c.head.id = .ok (first, second) ∧
    first.reverse = applied ++ bad :: rest ∧
    (popBranch forkedBranchCb second).run c = (.ok (), popped) ∧
    (adoptAll env applied).run popped = (.ok (), adopted) ∧
    (applyBlock env bad (switchStatus bad)).run adopted = (.error e, after) ∧
    e.kind ≠ .undefinedBehaviour

/-- All is as before, but for `bad` and what is built on it: the exception is
passed on, and head, database and the head of the fork database are back. -/
structure Restored (c : Controller σ) (bad : BlockState) (e : ChainException)
    (r : Result Unit × Controller σ) : Prop where
  throws : r.1 = .error e
  head : r.2.head = c.head
  db : r.2.db = c.db
  forkHead : r.2.forkDb.head = c.forkDb.head
  removed : ∀ b : BlockHeaderState, b ∈ r.2.forkDb.index.map (·.toBlockHeaderState) ↔
    b ∈ c.forkDb.index.map (·.toBlockHeaderState) ∧ ¬ Below c.forkDb.index bad.id b.id

def OldBranchReplays (env : BlockEnv σ) (c : Controller σ) (newHead : BlockState) : Prop :=
  ∀ first second, c.forkDb.fetchBranchFrom newHead.id c.head.id = .ok (first, second) →
    Replays env c.forkDb second c.db

variable {newHead bad : BlockState} {second : List BlockState} {adopted after : Controller σ}
  {forkedBranchCb : List BlockState → Result Unit}

def popped (c : Controller σ) (base : BlockState) (second : List BlockState) : Controller σ :=
  { c with head := base, db := undo^[second.length] c.db }

/-- The controller with another index of the fork database. -/
def pruned (c : Controller σ) (index : List BlockState) : Controller σ :=
  { c with forkDb := { c.forkDb with index } }

theorem popBranch_run (hsync : InSync c) (hbase : c.forkDb.Known base)
    (hsecond : Branch c.forkDb base second c.head)
    (hrun : (popBranch forkedBranchCb second).run c = (.ok (), c')) :
    c' = c.popped base second := by
  cases second with
  | nil =>
    cases hsecond
    cases hrun
    rfl
  | cons b older =>
    have hpop := popBlocks_run hsync.fork hbase hsecond rfl rfl
    unfold popBranch at hrun
    rw [run_bind_ok hpop, run_bind_ok
      (requireSync_run hsecond (cons_ne_nil _ _) rfl), run_lift,
      Prod.mk.injEq] at hrun
    exact hrun.2.symm

structure Failure (env : BlockEnv σ) (c : Controller σ) (newHead : BlockState)
    (applied : List BlockState) (bad : BlockState) (e : ChainException) (after : Controller σ)
    (base : BlockState) (second : List BlockState) (adopted : Controller σ) : Prop where
  known : c.forkDb.Known base
  oldBranch : Branch c.forkDb base second c.head
  ancestor : second = [] ↔ Below c.forkDb.index c.head.id newHead.id
  fetched : ∃ first, c.forkDb.fetchBranchFrom newHead.id c.head.id = .ok (first, second)
  newBranch : Branch c.forkDb base (bad :: applied.reverse) bad
  adoption : Adopted (c.popped base second) adopted applied.reverse
  outcome : after = adopted ∨ ∃ current, after = adopted.withPending current
  throws : e.kind ≠ .undefinedBehaviour

theorem FailsAt.failure (hsync : InSync c) (hnew : newHead ∈ c.forkDb.index)
    (hfail : FailsAt env forkedBranchCb c newHead applied bad e after) :
    ∃ base second adopted, Failure env c newHead applied bad e after base second adopted := by
  obtain ⟨first, second, rest, popped, adopted, hfetch, hfirst, hpop, hadopt, hthrow, hreal⟩ :=
    hfail
  obtain ⟨base, first', second', hfetch', hbase, hbranch, hsecond, hdisj⟩ :=
    hsync.fork.fetchBranchFrom_spec (.inr hnew) hsync.head
  rw [hfetch] at hfetch'
  cases hfetch'
  have hpopped := popBranch_run hsync hbase hsecond hpop
  subst hpopped
  have hsplit : first = rest.reverse ++ bad :: applied.reverse := by
    rw [← reverse_reverse first, hfirst]
    simp
  rw [hsplit] at hbranch
  have hbad := hbranch.tail
  have hadopted : Adopted (c.popped base second) adopted (applied.reverse ++ []) := by
    refine (Adopted.refl (c := c.popped base second) hsync.fork hsync.pending).adoptAll ?_ ?_ hadopt
    · intro b hb
      exact hbad.mem (mem_cons_of_mem _ (mem_reverse.mpr hb))
    · rw [append_nil]
      cases hbad with
      | cons hbad _ _ =>
        exact hbad.nodup.map_on fun x hx y hy hid =>
          hsync.fork.eq_of_id (hbad.mem hx) (hbad.mem hy) hid
  rw [append_nil] at hadopted
  refine ⟨base, second, adopted, hbase, hsecond,
    hsync.fork.second_eq_nil_iff hsync.head hbase (hsplit ▸ hbranch) hsecond hdisj, ⟨first, hfetch⟩,
    hbad, hadopted, ?_, hreal⟩
  rcases applyBlock_cases env bad (switchStatus bad) hadopted.pending with
    ⟨current, happly, -⟩ | ⟨e', happly⟩ | ⟨e', current, happly⟩
  all_goals
    rw [hthrow] at happly
    cases happly
  · exact .inl rfl
  · exact .inr ⟨current, rfl⟩

/-- How the call ends when a block of the new branch fails. -/
theorem FailsAt.run (hid : newHead.id ≠ c.head.id) (hchild : newHead.prev ≠ c.head.id)
    (hfail : FailsAt env forkedBranchCb c newHead applied bad e after)
    (hsecond : ∃ first, c.forkDb.fetchBranchFrom newHead.id c.head.id = .ok (first, second)) :
    (maybeSwitchForks env forkedBranchCb newHead s).run c =
      if e.kind.isFc then (revertSwitch env second bad applied.length e).run after
      else (.error e, after) := by
  obtain ⟨first, second', rest, popped, adopted, hfetch, hfirst, hpop, hadopt, hthrow, -⟩ := hfail
  obtain ⟨first', hfetch'⟩ := hsecond
  rw [hfetch] at hfetch'
  cases hfetch'
  have hbad : (adoptBlock env bad (switchStatus bad)).run adopted = (.error e, after) :=
    run_bind_error hthrow
  have hattempt := attempt_error hbad
  have hswitch : (switchForks env forkedBranchCb newHead).run c =
      if e.kind.isFc then (revertSwitch env second bad applied.length e).run after
      else (.error e, after) := by
    unfold switchForks
    rw [run_get_bind, hfetch, run_lift_ok_bind]
    change (popBranch forkedBranchCb second >>= fun _ => _).run c = _
    rw [run_bind_ok hpop, hfirst, applyBranch_run hadopt, Nat.zero_add, applyBranch]
    by_cases hfc : e.kind.isFc = true
    · rw [if_pos hfc] at hattempt ⊢
      exact run_bind_ok hattempt
    · rw [if_neg hfc] at hattempt ⊢
      exact run_bind_error hattempt
  unfold maybeSwitchForks
  rw [run_get_bind, if_neg hchild, if_pos hid]
  by_cases hfc : e.kind.isFc = true
  · rw [if_pos hfc] at hswitch ⊢
    obtain ⟨e', he'⟩ := revertSwitch_error env second bad applied.length e after
    rw [run_bind_error (hswitch.trans (Prod.ext he' rfl))]
    exact Prod.ext he'.symm rfl
  · rw [if_neg hfc] at hswitch ⊢
    exact run_bind_error hswitch

namespace Failure

variable (hsync : InSync c)
  (hF : Failure env c newHead applied bad e after base second adopted)

include hF

theorem bad_mem : bad ∈ c.forkDb.index := hF.newBranch.mem mem_cons_self

theorem exists_parent : ∃ p, Branch c.forkDb base applied.reverse p ∧ Follows p bad := by
  cases hF.newBranch with
  | cons hbranch hfol _ => exact ⟨_, hbranch, hfol⟩

theorem below_iff {k k' : BlockId} :
    Below adopted.forkDb.index k k' ↔ Below c.forkDb.index k k' := by
  rw [hF.adoption.index]
  exact Forest.Descends.map_iff (flagged_id _) (flagged_prev _)

theorem header_mem {b : BlockHeaderState} :
    b ∈ adopted.forkDb.index.map (·.toBlockHeaderState) ↔
      b ∈ c.forkDb.index.map (·.toBlockHeaderState) := by
  rw [hF.adoption.index, map_map]
  exact iff_of_eq (congrArg _ (map_congr_left fun x _ => flagged_frame _ x))

include hsync

theorem not_applied (hb : c.forkDb.Known b) (hnum : b.blockNum ≤ base.blockNum ∨
    bad.blockNum ≤ b.blockNum) : b.id ∉ applied.reverse.map (·.id) := by
  intro hmem
  obtain ⟨x, hx, hid⟩ := mem_map.mp hmem
  obtain ⟨p, hbranch, hfol⟩ := hF.exists_parent
  obtain rfl := hsync.fork.eq_of_known (.inr (hbranch.mem hx)) hb hid
  have := hbranch.mem_blockNum hx
  have := hfol.blockNum
  omega

theorem mem_adopted (hb : b ∈ c.forkDb.index) (hnum : b.blockNum ≤ base.blockNum ∨
    bad.blockNum ≤ b.blockNum) : b ∈ adopted.forkDb.index := by
  rw [hF.adoption.index, ← flagged_of_not_mem (hF.not_applied hsync (.inr hb) hnum)]
  exact mem_map_of_mem hb

theorem bad_mem_adopted : bad ∈ adopted.forkDb.index :=
  hF.mem_adopted hsync hF.bad_mem (.inr (Nat.le_refl _))

theorem base_known_adopted : adopted.forkDb.Known base :=
  hF.known.imp (·.trans hF.adoption.root.symm) fun hbase =>
    hF.mem_adopted hsync hbase (.inl (Nat.le_refl _))

theorem branch_adopted :
    Branch adopted.forkDb base (applied.reverse.map (flagged applied.reverse)) adopted.head := by
  obtain ⟨p, hbranch, -⟩ := hF.exists_parent
  have hflag := hbranch.flagged hF.adoption.index
  rw [flagged_of_not_mem (hF.not_applied hsync hF.known (.inl (Nat.le_refl _)))] at hflag
  have hhead : adopted.head = flagged applied.reverse p := by
    rw [hF.adoption.head]
    generalize hl : applied.reverse = l at hbranch ⊢
    cases hbranch with
    | nil => rfl
    | cons _ _ _ => exact (if_pos (mem_cons_self)).symm
  rw [hhead]
  exact hflag

theorem not_below_bad (hb : adopted.forkDb.Known b) (hnum : b.blockNum < bad.blockNum) :
    ¬ Below adopted.forkDb.index bad.id b.id := by
  intro hbelow
  have hrank := hF.adoption.inv.isForest.rank_le hbelow
  rw [hF.adoption.inv.rank_known hb, hF.adoption.inv.rank_id (hF.bad_mem_adopted hsync)] at hrank
  omega

variable {index' : List BlockState}

/-- After `bad` has been removed, popping the applied blocks leads to `base`. -/
theorem popBlocks_run (hpruned : Pruned adopted.forkDb.index bad.id index')
    (hinv : ForkInv { adopted.forkDb with index := index' })
    (hfork : after.forkDb = adopted.forkDb) (hhead : after.head = adopted.head) :
    (popBlocks applied.length).run (after.pruned index') =
      (.ok (), (after.pruned index').popped base applied) := by
  have hbranch := hF.branch_adopted hsync
  have hknown := hF.base_known_adopted hsync
  have hbadnum := hF.newBranch.blockNum
  have hheadnum := hbranch.blockNum
  rw [length_cons] at hbadnum
  rw [length_map] at hheadnum
  have hkept : Branch { adopted.forkDb with index := index' } base
      (applied.reverse.map (flagged applied.reverse)) adopted.head := by
    refine hbranch.of_mem fun x hx => (hpruned.2 x).mpr ⟨hbranch.mem hx, ?_⟩
    have := (hbranch.mem_blockNum hx).2
    exact hF.not_below_bad hsync (.inr (hbranch.mem hx)) (by omega)
  have hbase : ForkDatabase.Known { adopted.forkDb with index := index' } base :=
    hknown.imp_right fun hmem =>
      (hpruned.2 base).mpr ⟨hmem, hF.not_below_bad hsync hknown (by omega)⟩
  have hpop := Controller.popBlocks_run (c := after.pruned index') hinv hbase hkept
    (by simp only [pruned, hfork]) hhead
  rwa [length_map, length_reverse] at hpop

/-- Nothing is restored while `bad` is still indexed. -/
theorem not_restored_of_kept {r : Result Unit × Controller σ}
    (hkept : r.2.forkDb.index = adopted.forkDb.index) : ¬ Restored c bad e r := by
  intro hrestored
  have hmem : bad.toBlockHeaderState ∈ r.2.forkDb.index.map (·.toBlockHeaderState) := by
    rw [hkept]
    exact mem_map_of_mem (hF.bad_mem_adopted hsync)
  exact ((hrestored.removed _).mp hmem).2 .refl

theorem revertSwitch_run (hpruned : Pruned adopted.forkDb.index bad.id index')
    (hremove : (remove bad.id).run adopted.forkDb =
      (.ok (), { adopted.forkDb with index := index' }))
    (hfork : after.forkDb = adopted.forkDb) (hhead : after.head = adopted.head) :
    (revertSwitch env second bad applied.length e).run after =
      (resumeOldBranch env second e).run ((after.pruned index').popped base applied) := by
  have hinv : ForkInv { adopted.forkDb with index := index' } := by
    have := hF.adoption.inv.remove bad.id
    rwa [hremove] at this
  have hfirst : (onForkDb (remove bad.id)).run after = (.ok (), after.pruned index') := by
    simp only [onForkDb, run, pruned] at hremove ⊢
    rw [hfork, hremove]
  unfold revertSwitch
  rw [run_bind_ok hfirst, run_bind_ok (hF.popBlocks_run hsync hpruned hinv hfork hhead)]

variable {y : Controller σ}

/-- With an old branch and no pending block, everything comes back but the
head of the fork database. -/
theorem resumeOldBranch_run (hsecond : second ≠ []) (hreplay : OldBranchReplays env c newHead)
    (hhead : y.head = base) (hdb : y.db = undo^[second.length] c.db)
    (hpending : y.pending = false) :
    (resumeOldBranch env second e).run y = (.error e, { y with head := c.head, db := c.db }) := by
  obtain ⟨first, hfetch⟩ := hF.fetched
  have hdepth : second.length ≤ c.db.saved.length := by
    have hnum := hF.oldBranch.blockNum
    have hroot := hsync.fork.root_blockNum_le hF.known
    have := hsync.depth
    omega
  unfold resumeOldBranch
  rw [run_bind_ok (requireSync_run hF.oldBranch hsecond (by rw [hhead])),
    run_bind_ok (reapply_run hsync.fork hF.known hF.oldBranch (hreplay first second hfetch)
      hsync.numbered hdepth hsync.revision hhead hdb hpending)]
  rfl

omit hsync

/-- Without an old branch the reversal reads the end of an empty vector. -/
theorem not_restored_of_no_branch (hsecond : second = []) :
    ¬ Restored c bad e ((resumeOldBranch env second e).run y) := by
  intro hrestored
  subst hsecond
  unfold resumeOldBranch at hrestored
  rw [run_bind_error (requireSync_nil _)] at hrestored
  have hthrows := hrestored.throws
  cases hthrows
  exact hF.throws rfl

/-- A block left pending keeps the old branch from being applied again. -/
theorem not_restored_of_pending (hsecond : second ≠ []) (hhead : y.head = base)
    (hpending : y.pending = true) : ¬ Restored c bad e ((resumeOldBranch env second e).run y) := by
  intro hrestored
  unfold resumeOldBranch at hrestored
  rw [run_bind_ok (requireSync_run hF.oldBranch hsecond (by rw [hhead]))] at hrestored
  cases hrev : second.reverse with
  | nil => exact hsecond (reverse_eq_nil_iff.mp hrev)
  | cons o os =>
    rw [hrev, reapply, run_bind_error
      (run_bind_error (applyBlock_of_pending hpending))] at hrestored
    have hback : y.resetPending.head = c.head := hrestored.head
    simp only [resetPending, hpending, if_true, hhead] at hback
    exact hsecond (hF.oldBranch.eq_nil_iff.mpr hback.symm)

/-- Pruning the marked index removes the same blocks as pruning the old one. -/
theorem removed_iff (hpruned : Pruned adopted.forkDb.index bad.id index') (b : BlockHeaderState) :
    b ∈ index'.map (·.toBlockHeaderState) ↔
      b ∈ c.forkDb.index.map (·.toBlockHeaderState) ∧ ¬ Below c.forkDb.index bad.id b.id := by
  rw [← hF.header_mem, ← hF.below_iff]
  simp only [mem_map]
  constructor
  · rintro ⟨x, hx, rfl⟩
    obtain ⟨hmem, hbelow⟩ := (hpruned.2 x).mp hx
    exact ⟨⟨x, hmem, rfl⟩, hbelow⟩
  · rintro ⟨⟨x, hmem, rfl⟩, hbelow⟩
    exact ⟨x, (hpruned.2 x).mpr ⟨hmem, hbelow⟩, rfl⟩

/-- The head of the fork database stays exactly when no applied block is
preferred to it. -/
theorem forkHead_eq_iff : adopted.forkDb.head = c.forkDb.head ↔
    ∀ b ∈ applied, ¬ firstPreferred b c.forkDb.head := by
  constructor
  · intro hsame b hb hpref
    have hb' := mem_reverse.mpr hb
    have hmem : flagged applied.reverse b ∈ adopted.forkDb.index := by
      rw [hF.adoption.index]
      exact mem_map_of_mem (hF.newBranch.mem (mem_cons_of_mem _ hb'))
    have hflag : flagged applied.reverse b = { b with validated := true } :=
      if_pos (mem_map_of_mem hb')
    rw [hflag] at hmem
    exact hF.adoption.inv.best _ hmem rfl (hsame ▸ hpref)
  · intro hpref
    exact hF.adoption.forkHead fun b hb => hpref b (mem_reverse.mp hb)

end Failure

/-- **Fork switching is atomic, exactly when the code can go back.** Let `apply_block` throw `e` at
the block `bad` of the new branch, with blocks of the old branch that can be applied again.  The
call passes `e` on with everything restored but `bad` and its descendants if and only if the new
head is not built on the head, no block applied on the way is preferred to the head of the fork
database, that head is not built on `bad`, and `e` is an `fc::exception` after which no block is
pending. -/
theorem fork_switch_atomic_iff (hsync : InSync c) (hnew : newHead ∈ c.forkDb.index)
    (hid : newHead.id ≠ c.head.id) (hchild : newHead.prev ≠ c.head.id)
    (hfail : FailsAt env forkedBranchCb c newHead applied bad e after)
    (hreplay : OldBranchReplays env c newHead) :
    Restored c bad e ((maybeSwitchForks env forkedBranchCb newHead s).run c) ↔
      ¬ Below c.forkDb.index c.head.id newHead.id ∧
      (∀ b ∈ applied, ¬ firstPreferred b c.forkDb.head) ∧
      ¬ Below c.forkDb.index bad.id c.forkDb.head.id ∧
      e.kind.isFc = true ∧ after.pending = false := by
  obtain ⟨base, second, adopted, hF⟩ := hfail.failure hsync hnew
  rw [hfail.run hid hchild hF.fetched, ← hF.ancestor, ← hF.forkHead_eq_iff]
  have hfork : after.forkDb = adopted.forkDb := by
    rcases hF.outcome with rfl | ⟨current, rfl⟩ <;> rfl
  have hhead : after.head = adopted.head := by
    rcases hF.outcome with rfl | ⟨current, rfl⟩ <;> rfl
  by_cases hfc : e.kind.isFc = true
  swap
  · -- the exception is not caught: nothing is taken back
    rw [if_neg hfc]
    refine iff_of_false (hF.not_restored_of_kept hsync ?_) fun h => hfc h.2.2.2.1
    exact congrArg index hfork
  rw [if_pos hfc]
  rcases remove_run hF.adoption.inv.isForest bad.id with
    ⟨hbelow, e', hremove⟩ | ⟨hbelow, index', hpruned, hremove⟩
  · -- the head of the fork database is built on the bad block: removal throws
    have hfirst : (onForkDb (remove bad.id)).run after = (.error e', after) := by
      simp only [onForkDb, run] at hremove ⊢
      rw [hfork, hremove, ← hfork]
    unfold revertSwitch
    rw [run_bind_error hfirst]
    refine iff_of_false (hF.not_restored_of_kept hsync (congrArg index hfork)) ?_
    rintro ⟨-, hsame, hnot, -, -⟩
    rw [hsame, hF.below_iff] at hbelow
    exact hnot hbelow
  · rw [hF.revertSwitch_run hsync hpruned hremove hfork hhead]
    by_cases hsecond : second = []
    · exact iff_of_false (hF.not_restored_of_no_branch hsecond) fun h => h.1 hsecond
    rcases hF.outcome with rfl | ⟨current, rfl⟩
    · have hdb : ((after.pruned index').popped base applied).db = undo^[second.length] c.db := by
        have := hF.adoption.db
        rwa [length_reverse] at this
      rw [hF.resumeOldBranch_run hsync hsecond hreplay rfl hdb hF.adoption.pending]
      constructor
      · intro hrestored
        have hsame : after.forkDb.head = c.forkDb.head := hrestored.forkHead
        refine ⟨hsecond, hsame, ?_, hfc, hF.adoption.pending⟩
        rw [← hsame, ← hF.below_iff]
        exact hbelow
      · rintro ⟨-, hsame, -, -, -⟩
        exact ⟨rfl, rfl, rfl, hsame, hF.removed_iff hpruned⟩
    · refine iff_of_false (hF.not_restored_of_pending hsecond rfl rfl) fun h => ?_
      exact absurd h.2.2.2.2 (by simp [withPending])

/-- An environment that executes a block by recording its id, and rejects one. -/
def rejecting (bad : BlockId) : BlockEnv (List BlockId) where
  readMode := .speculative
  firstBlockNum := 1
  blockStart _ := .ok ()
  start _ _ _ := pure ()
  process _ b _ :=
    if b.id = bad then throw ⟨.blockValidateException, "Block ID does not match"⟩
    else modify (b.id :: ·)
  accept _ := .ok ()
  irreversible _ := .ok ()
  append _ := .ok ()

/-- Block 2 is the validated head; blocks 3, 4 and 5 form a longer branch. -/
def longerFork : Controller (List BlockId) :=
  let head := { plainBlock 2 1 2 0 with validated := true }
  { forkDb :=
      { index := [head, plainBlock 3 1 2 0, plainBlock 4 3 3 0, plainBlock 5 4 4 0]
        root := { plainBlock 1 0 1 0 with validated := true }
        head }
    head
    db := ⟨[2], 2, [([], 2)]⟩ }

theorem longerFork_inSync : InSync longerFork := by
  refine ⟨⟨by decide, by decide, ?_, .inr ⟨mem_cons_self, rfl⟩, by decide⟩,
    .inr mem_cons_self, rfl, rfl, ⟨rfl, trivial⟩, by decide⟩
  intro b hb
  simp only [longerFork, mem_cons, not_mem_nil, or_false] at hb
  rcases hb with rfl | rfl | rfl | rfl
  · exact .inl ⟨rfl, rfl, Nat.le_refl _⟩
  · exact .inl ⟨rfl, rfl, Nat.le_refl _⟩
  · exact .inr ⟨plainBlock 3 1 2 0, by simp [longerFork], rfl, rfl, Nat.le_refl _⟩
  · exact .inr ⟨plainBlock 4 3 3 0, by simp [longerFork], rfl, rfl, Nat.le_refl _⟩

theorem longerFork_replays {bad : BlockId} (hbad : (2 : BlockId) ≠ bad) :
    OldBranchReplays (rejecting bad) longerFork (plainBlock 5 4 4 0) := by
  intro first second hfetch
  have heval : longerFork.forkDb.fetchBranchFrom (plainBlock 5 4 4 0).id longerFork.head.id =
      .ok ([plainBlock 5 4 4 0, plainBlock 4 3 3 0, plainBlock 3 1 2 0], [longerFork.head]) := rfl
  rw [heval] at hfetch
  cases hfetch
  refine ⟨fun prev _ => ?_, trivial⟩
  simp only [BlockEnv.block, rejecting, if_neg (show longerFork.head.id ≠ bad from hbad)]
  rfl

/-- The switch to block 5 goes back to block 2, but marking block 4 as valid has made it the head of
the fork database.  From the root alone the reversal is undefined. -/
theorem fork_switch_not_atomic :
    InSync longerFork ∧ OldBranchReplays (rejecting 5) longerFork (plainBlock 5 4 4 0) ∧
    (∃ e after, FailsAt (rejecting 5) (fun _ => .ok ()) longerFork (plainBlock 5 4 4 0)
      [plainBlock 3 1 2 0, plainBlock 4 3 3 0] (plainBlock 5 4 4 0) e after) ∧
    longerFork.forkDb.head.id = 2 ∧
    ((maybeSwitchForks (rejecting 5) (fun _ => .ok ()) (plainBlock 5 4 4 0) .complete).run
      longerFork).2.forkDb.head.id = 4 ∧
    ((maybeSwitchForks (rejecting 3) (fun _ => .ok ()) (plainBlock 4 3 3 0) .complete).run
      { longerFork with
        forkDb :=
          { longerFork.forkDb with
            index := [plainBlock 3 1 2 0, plainBlock 4 3 3 0]
            head := longerFork.forkDb.root }
        head := longerFork.forkDb.root
        db := ⟨[], 1, []⟩ }).1 =
      .error ⟨.undefinedBehaviour, "back() of an empty vector"⟩ :=
  ⟨longerFork_inSync, longerFork_replays (by decide),
    ⟨_, _, _, _, _, _, _, rfl, rfl, rfl, rfl, rfl, by decide⟩, rfl, by decide +kernel, rfl⟩

/-- With block 4 rejected instead, the switch goes back completely. -/
theorem fork_switch_atomic_iff_longerFork : ∃ e, Restored longerFork (plainBlock 4 3 3 0) e
      ((maybeSwitchForks (rejecting 4) (fun _ => .ok ()) (plainBlock 5 4 4 0) .complete).run
        longerFork) := by
  have hinv := longerFork_inSync.fork
  have h3 : plainBlock 3 1 2 0 ∈ longerFork.forkDb.index := by simp [longerFork]
  have h4 : plainBlock 4 3 3 0 ∈ longerFork.forkDb.index := by simp [longerFork]
  have h5 : plainBlock 5 4 4 0 ∈ longerFork.forkDb.index := by simp [longerFork]
  have hapart : ¬ Below longerFork.forkDb.index longerFork.head.id (plainBlock 5 4 4 0).id := by
    intro hbelow
    obtain hbelow := (hinv.isForest.descends_parent h5 hbelow).resolve_left (by decide)
    obtain hbelow := (hinv.isForest.descends_parent h4 hbelow).resolve_left (by decide)
    obtain hbelow := (hinv.isForest.descends_parent h3 hbelow).resolve_left (by decide)
    exact absurd (hinv.isForest.rank_le hbelow) (by decide)
  have hclear : ¬ Below longerFork.forkDb.index (plainBlock 4 3 3 0).id
      longerFork.forkDb.head.id :=
    fun hbelow => absurd (hinv.isForest.rank_le hbelow) (by decide)
  have hfail : FailsAt (rejecting 4) (fun _ => .ok ()) longerFork (plainBlock 5 4 4 0)
      [plainBlock 3 1 2 0] (plainBlock 4 3 3 0) _ _ :=
    ⟨_, _, _, _, _, rfl, rfl, rfl, rfl, rfl, by decide⟩
  exact ⟨_, (fork_switch_atomic_iff longerFork_inSync h5 (by decide) (by decide) hfail
    (longerFork_replays (by decide))).mpr ⟨hapart, by decide, hclear, rfl, rfl⟩⟩

end Controller

end Inery.Chain
