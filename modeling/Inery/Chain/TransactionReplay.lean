import Inery.Chain.InputTransactions

/-!
# No input transaction is replayed

What the index lacks of the transactions of the branch has expired, either before some block of the
branch, when `clear_expired_input_transactions` removed it, or before the head of the block log,
when a replay did not record it.  A transaction that passes the check of its expiration is past
neither time, so if it occurred before, its row is there.
-/

namespace Inery.Chain

open Foundation List InputBlock List.Pairwise

variable {expiry : TransactionId → TimePointSec}

/-! ## The index -/

section Index

variable {ix ix' : TransactionIndex} {id id' : TransactionId}

abbrev expiresAt (expiry : TransactionId → TimePointSec) (id : TransactionId) : TimePoint :=
  expirationTime (expiry id)

def TransactionIndex.Holds (expiry : TransactionId → TimePointSec) (ix : TransactionIndex)
    (id : TransactionId) : Prop :=
  ⟨id, expiry id⟩ ∈ ix.rows

variable {now : TimePoint}

theorem TransactionIndex.Holds.clearExpired (h : ix.Holds expiry id)
    (hfresh : now ≤ expiresAt expiry id) :
    (ix.clearExpiredInputTransactions now).Holds expiry id := by
  have hsplit := takeWhile_append_dropWhile
    (p := fun row : TransactionObject => expirationTime row.expiration < now) (l := ix.rows)
  rw [TransactionIndex.Holds, ← hsplit, mem_append] at h
  rcases h with hexpired | hkept
  · have hlt : expiresAt expiry id < now := by
      simpa using mem_takeWhile_imp hexpired
    exact absurd hlt (not_lt.mpr hfresh)
  · exact hkept

/-- What an accepted transaction leaves behind: the rows that were there, its own row
unless it is skipped, and if it was checked, it has not expired. -/
structure Pushed (expiry : TransactionId → TimePointSec) (replayHeadTime : Option TimePoint)
    (now : TimePoint) (checked : Bool) (id : TransactionId) (ix ix' : TransactionIndex) : Prop where
  keeps : ∀ id', ix.Holds expiry id' → ix'.Holds expiry id'
  recorded : (∃ t ∈ replayHeadTime, expiresAt expiry id ≤ t) ∨
    ¬ ix.Holds expiry id ∧ ix'.Holds expiry id
  fresh : checked → now ≤ expiresAt expiry id

theorem TransactionIndex.recordTransaction_eq_ok
    (h : ix.recordTransaction id (expiry id) = .ok ix') :
    ¬ ix.Holds expiry id ∧ ix'.Holds expiry id ∧
      ∀ id', ix.Holds expiry id' → ix'.Holds expiry id' := by
  simp only [recordTransaction, bind_eq_ok, ineAssert_eq_ok, pure_eq_ok] at h
  obtain ⟨-, hnew, rfl⟩ := h
  refine ⟨fun hold => hnew _ hold rfl, mem_insertByExpiration.mpr (.inl rfl), ?_⟩
  intro id' hold
  exact mem_insertByExpiration.mpr (.inr hold)

theorem PushConditions.check_eq_ok {c : PushConditions} {u : Unit}
    (h : c.check expiry now id = .ok u) (hchecked : !c.skipTrxChecks) :
    now ≤ expiresAt expiry id := by
  have hskip : ¬ c.skipTrxChecks = true := by simpa using hchecked
  simp only [check, if_neg hskip, validateExpiration, bind_eq_ok, ineAssert_eq_ok] at h
  obtain ⟨-, hexpiration, -⟩ := h
  exact hexpiration

theorem TransactionIndex.pushTransaction_eq_ok {replayHeadTime : Option TimePoint}
    {c : PushConditions} (h : ix.pushTransaction expiry replayHeadTime now c id = .ok ix') :
    Pushed expiry replayHeadTime now (!c.skipTrxChecks) id ix ix' := by
  simp only [TransactionIndex.pushTransaction, bind_eq_ok, pure_eq_ok] at h
  obtain ⟨_, hcheck, jx, hrecord, -, -, rfl⟩ := h
  cases hskip : skipRecording expiry replayHeadTime id with
  | true =>
    simp only [recordUnless, hskip, if_true, pure_eq_ok] at hrecord
    subst hrecord
    obtain ⟨t, ht, hle⟩ := Option.any_eq_true .. |>.mp hskip
    exact ⟨fun _ hold => hold, .inl ⟨t, ht, by simpa using hle⟩, PushConditions.check_eq_ok hcheck⟩
  | false =>
    simp only [recordUnless, hskip, Bool.false_eq_true, if_false] at hrecord
    obtain ⟨hnew, hrow, hkeeps⟩ := recordTransaction_eq_ok hrecord
    exact ⟨hkeeps, .inr ⟨hnew, hrow⟩, PushConditions.check_eq_ok hcheck⟩

/-- What a replayed block leaves behind, over all its transactions. -/
theorem InputNode.replayInputs_eq_ok {replayHeadTime : Option TimePoint}
    {inputs : List (TransactionId × PushConditions)}
    (h : replayInputs expiry replayHeadTime now inputs ix = .ok ix') :
    (∀ id, ix.Holds expiry id → ix'.Holds expiry id) ∧
      ∀ i ∈ inputs,
        ((∃ t ∈ replayHeadTime, expiresAt expiry i.1 ≤ t) ∨ ix'.Holds expiry i.1) ∧
        (!i.2.skipTrxChecks → now ≤ expiresAt expiry i.1) := by
  induction inputs generalizing ix with
  | nil =>
    cases h
    exact ⟨fun _ hold => hold, nofun⟩
  | cons first rest ih =>
    obtain ⟨id, c⟩ := first
    simp only [replayInputs, bind_eq_ok] at h
    obtain ⟨jx, hfirst, hrest⟩ := h
    have hpushed := TransactionIndex.pushTransaction_eq_ok hfirst
    obtain ⟨hkeeps, hall⟩ := ih hrest
    refine ⟨fun id' hold => hkeeps id' (hpushed.keeps id' hold),
      forall_mem_cons.mpr ⟨⟨?_, hpushed.fresh⟩, hall⟩⟩
    exact hpushed.recorded.imp_right fun hrow => hkeeps _ hrow.2

end Index

/-! ## The chain of a node -/

/-- The transactions of a list of blocks with the times of their blocks. -/
def entries (bs : List LoggedBlock) : List (TransactionId × Slot) :=
  bs.flatMap fun b => b.ids.map fun id => (id, b.timestamp)

theorem mem_entries {bs : List LoggedBlock} {e : TransactionId × Slot} :
    e ∈ entries bs ↔ ∃ b ∈ bs, e.1 ∈ b.ids ∧ e.2 = b.timestamp := by
  obtain ⟨id, slot⟩ := e
  simp only [entries, mem_flatMap, mem_map, Prod.mk.injEq]
  constructor
  · rintro ⟨b, hb, id', hid, rfl, rfl⟩
    exact ⟨b, hb, hid, rfl⟩
  · rintro ⟨b, hb, hid, rfl⟩
    exact ⟨b, hb, id, hid, rfl, rfl⟩

/-- A transaction that occurs again has expired by then. -/
def Apart (expiry : TransactionId → TimePointSec) (bs : List LoggedBlock) : Prop :=
  (entries bs).Pairwise fun later earlier =>
    later.1 = earlier.1 → expiresAt expiry later.1 < toTimePoint later.2

def Increasing (bs : List LoggedBlock) : Prop :=
  bs.Pairwise fun later earlier => earlier.timestamp < later.timestamp

/-- A transaction is in the index, or has expired before one of the blocks, or not
after a block of the log. -/
abbrev Covered (expiry : TransactionId → TimePointSec) (log : List LoggedBlock)
    (ix : TransactionIndex) (bs : List LoggedBlock) (id : TransactionId) : Prop :=
  (∃ b' ∈ bs, expiresAt expiry id < toTimePoint b'.timestamp) ∨
    (∃ b' ∈ log, expiresAt expiry id ≤ toTimePoint b'.timestamp) ∨ ix.Holds expiry id

def Covers (expiry : TransactionId → TimePointSec) (log : List LoggedBlock)
    (ix : TransactionIndex) (bs : List LoggedBlock) : Prop :=
  ∀ b ∈ bs, ∀ id ∈ b.ids, Covered expiry log ix bs id

def UndoCovers (expiry : TransactionId → TimePointSec) (log : List LoggedBlock) :
    List TransactionIndex → List LoggedBlock → Prop
  | [], _ => True
  | ix :: rest, bs => Covers expiry log ix bs.tail ∧ UndoCovers expiry log rest bs.tail

def CheckedFresh (expiry : TransactionId → TimePointSec) (bs : List InputBlock) : Prop :=
  ∀ b ∈ bs, ∀ i ∈ b.inputs, i.checked → toTimePoint b.timestamp ≤ expiresAt expiry i.id

section Covering

variable {log log' bs bs' : List LoggedBlock} {ix ix' : TransactionIndex}
  {undo : List TransactionIndex}

theorem Apart.of_suffix (h : Apart expiry bs') (hsuffix : bs <:+ bs') : Apart expiry bs := by
  obtain ⟨newer, rfl⟩ := hsuffix
  rw [Apart, entries, flatMap_append] at h
  exact (pairwise_append.mp h).2.1

theorem Increasing.of_suffix (h : Increasing bs') (hsuffix : bs <:+ bs') : Increasing bs :=
  sublist hsuffix.sublist h

/-- Later blocks, a longer log and more rows cover as much; of the blocks only the times count. -/
theorem Covered.mono {id : TransactionId} (h : Covered expiry log ix bs id)
    (hbs : bs.map (·.timestamp) ⊆ bs'.map (·.timestamp)) (hlog : log ⊆ log')
    (hix : ∀ id, ix.Holds expiry id → ix'.Holds expiry id) :
    Covered expiry log' ix' bs' id := by
  rcases h with ⟨b, hb, hlt⟩ | ⟨b, hb, hle⟩ | hrow
  · obtain ⟨b', hb', heq⟩ := mem_map.mp (hbs (mem_map_of_mem hb))
    exact .inl ⟨b', hb', heq ▸ hlt⟩
  · exact .inr (.inl ⟨b, hlog hb, hle⟩)
  · exact .inr (.inr (hix id hrow))

variable (h : Covers expiry log ix bs)
include h

/-- A longer log leaves less to the index. -/
theorem Covers.mono_log (hsub : log ⊆ log') : Covers expiry log' ix bs :=
  fun b hb id hid => Covered.mono (h b hb id hid) (Subset.refl _) hsub fun _ hrow => hrow

theorem Covers.cons {b : LoggedBlock}
    (hb : ∀ id ∈ b.ids, (∃ b' ∈ log, expiresAt expiry id ≤ toTimePoint b'.timestamp) ∨
      ix.Holds expiry id) :
    Covers expiry log ix (b :: bs) := by
  intro b₁ hb₁ id hid
  rcases mem_cons.mp hb₁ with rfl | hold
  · exact .inr (hb id hid)
  · exact Covered.mono (h b₁ hold id hid) (subset_cons_self ..) (Subset.refl _) fun _ hrow => hrow

omit h

theorem Covers.push {slot : Slot} {ids : List TransactionId} {id : TransactionId}
    (h : Covers expiry log ix (⟨slot, ids⟩ :: bs))
    (hkeeps : ∀ id, ix.Holds expiry id → ix'.Holds expiry id)
    (hid : (∃ b' ∈ log, expiresAt expiry id ≤ toTimePoint b'.timestamp) ∨
      ix'.Holds expiry id) :
    Covers expiry log ix' (⟨slot, id :: ids⟩ :: bs) := by
  -- the newest block keeps its time
  have hold : ∀ b ∈ (⟨slot, ids⟩ : LoggedBlock) :: bs, ∀ id' ∈ b.ids,
      Covered expiry log ix' (⟨slot, id :: ids⟩ :: bs) id' := fun b hb id' hid' =>
    Covered.mono (h b hb id' hid') (fun _ ht => ht) (Subset.refl _) hkeeps
  intro b hb id' hid'
  rcases mem_cons.mp hb with rfl | hbelow
  · rcases mem_cons.mp hid' with rfl | hrest
    · exact .inr hid
    · exact hold _ mem_cons_self id' hrest
  · exact hold b (mem_cons_of_mem _ hbelow) id' hid'

include h

/-- Clearing at the time of a new block removes only what has expired before it. -/
theorem Covers.clearExpired (b : LoggedBlock) : ∀ b₁ ∈ bs, ∀ id ∈ b₁.ids, Covered expiry log
      (ix.clearExpiredInputTransactions (toTimePoint b.timestamp)) (b :: bs) id := by
  intro b₁ hb₁ id hid
  rcases h b₁ hb₁ id hid with ⟨b', hb', hlt⟩ | hlogged | hrow
  · exact .inl ⟨b', mem_cons_of_mem _ hb', hlt⟩
  · exact .inr (.inl hlogged)
  · rcases lt_or_ge (expiresAt expiry id) (toTimePoint b.timestamp) with hlt | hge
    · exact .inl ⟨b, mem_cons_self, hlt⟩
    · exact .inr (.inr (hrow.clearExpired hge))

omit h

theorem UndoCovers.mono_log (h : UndoCovers expiry log undo bs) (hsub : log ⊆ log') :
    UndoCovers expiry log' undo bs := by
  induction undo generalizing bs with
  | nil => trivial
  | cons ix rest ih => exact ⟨h.1.mono_log hsub, ih h.2⟩

theorem UndoCovers.take (h : UndoCovers expiry log undo bs) (k : ℕ) :
    UndoCovers expiry log (undo.take k) bs := by
  induction undo generalizing bs k with
  | nil => simp [UndoCovers]
  | cons ix rest ih =>
    cases k with
    | zero => trivial
    | succ k => exact ⟨h.1, ih h.2 k⟩

theorem UndoCovers.replace_head {b b' : LoggedBlock} (h : UndoCovers expiry log undo (b :: bs)) :
    UndoCovers expiry log undo (b' :: bs) := by
  cases undo with
  | nil => trivial
  | cons ix rest => exact h

end Covering

namespace InputNode

/-- The blocks of the node, the pending one first. -/
def chain (n : InputNode) : List InputBlock := n.pending.toList ++ n.branch

def loggedChain (n : InputNode) : List LoggedBlock := n.chain.map logged

structure Sound (expiry : TransactionId → TimePointSec) (n : InputNode) : Prop where
  apart : Apart expiry n.loggedChain
  logApart : Apart expiry n.blockLog
  increasing : Increasing n.loggedChain
  logIncreasing : Increasing n.blockLog
  /-- the log is applied, or the node is about to replay the rest of it -/
  linked : n.Replayed ∨ n.pending = none ∧ n.branch.map logged <:+ n.blockLog
  covers : Covers expiry n.blockLog n.index n.loggedChain
  undoCovers : UndoCovers expiry n.blockLog n.undo n.loggedChain
  depth : n.undo.length = n.chain.length - n.blockLog.length
  stored : ∀ s ∈ n.stored, CheckedFresh expiry s.1 ∧ Covers expiry n.blockLog s.2 (s.1.map logged)
  replayTime : ∀ t ∈ n.replayHeadTime, ∃ b ∈ n.blockLog, t ≤ toTimePoint b.timestamp
  checked : CheckedFresh expiry n.chain

variable {n n' : InputNode}

theorem Sound.genesis : Sound expiry {} where
  apart := nil
  logApart := nil
  increasing := nil
  logIncreasing := nil
  linked := .inl suffix_rfl
  covers := nofun
  undoCovers := trivial
  depth := rfl
  stored := by
    intro s hs
    obtain rfl := mem_singleton.mp hs
    exact ⟨nofun, nofun⟩
  replayTime := nofun
  checked := nofun

variable {b : InputBlock} (h : Sound expiry n)
include h

theorem Sound.replayed (hb : n.pending = some b) : n.Replayed := by
  rcases h.linked with hreplayed | ⟨hnone, -⟩
  · exact hreplayed
  · rw [hb] at hnone
    cases hnone

omit h

theorem Replayed.log_le (h : n.Replayed) : n.blockLog.length ≤ n.branch.length := by
  have hle := IsSuffix.length_le h
  rwa [length_map] at hle

theorem chain_of_none (h : n.pending = none) : n.chain = n.branch := by
  simp [chain, h]

theorem chain_of_some (h : n.pending = some b) : n.chain = b :: n.branch := by
  simp [chain, h]

theorem loggedChain_of_none (h : n.pending = none) : n.loggedChain = n.branch.map logged := by
  rw [loggedChain, chain_of_none h]

theorem loggedChain_of_some (h : n.pending = some b) :
    n.loggedChain = b.logged :: n.branch.map logged := by
  rw [loggedChain, chain_of_some h]
  rfl

theorem increasing_cons {b : LoggedBlock} {bs : List LoggedBlock} (h : Increasing bs)
    (hlater : ∀ head ∈ bs.head?, head.timestamp < b.timestamp) : Increasing (b :: bs) := by
  cases bs with
  | nil => exact pairwise_singleton _ _
  | cons head rest =>
    have hhead : head.timestamp < b.timestamp := hlater head rfl
    refine pairwise_cons.mpr ⟨forall_mem_cons.mpr ⟨hhead, fun older hrest => ?_⟩, h⟩
    exact Std.lt_trans ((pairwise_cons.mp h).1 older hrest) hhead

include h

theorem Sound.startBlock {timestamp : Slot} {clears : Bool} (hnone : n.pending = none)
    (hreplayed : n.Replayed) (hlater : ∀ b ∈ n.branch.head?, b.timestamp < timestamp) :
    Sound expiry (n.startBlock timestamp clears) := by
  have hbranch := loggedChain_of_none hnone
  have hlogged : (n.startBlock timestamp clears).loggedChain =
      ⟨timestamp, []⟩ :: n.loggedChain := by
    rw [hbranch]
    rfl
  refine
    { h with
      apart := ?_, increasing := ?_, linked := .inl hreplayed, covers := ?_, undoCovers := ?_
      depth := ?_, checked := ?_ }
  · rw [hlogged]
    exact h.apart
  · rw [hlogged]
    refine increasing_cons h.increasing ?_
    rw [hbranch, head?_map]
    rintro head hhead
    obtain ⟨b, hb, rfl⟩ := Option.mem_map.mp hhead
    exact hlater b hb
  · rw [hlogged]
    cases clears with
    | true => exact forall_mem_cons.mpr ⟨nofun, h.covers.clearExpired ⟨timestamp, []⟩⟩
    | false => exact h.covers.cons nofun
  · rw [hlogged]
    exact ⟨h.covers, h.undoCovers⟩
  · have hle := hreplayed.log_le
    have hdepth := h.depth
    rw [chain_of_none hnone] at hdepth
    change n.undo.length + 1 = n.branch.length + 1 - n.blockLog.length
    omega
  · refine forall_mem_cons.mpr ⟨nofun, fun b hb => h.checked b ?_⟩
    rwa [chain_of_none hnone]

/-- **Accepting a transaction.** It is new to the chain, or the earlier one had
expired. -/
theorem Sound.pushTransaction {c : PushConditions} {id : TransactionId} (hb : n.pending = some b)
    (hpush : n.pushTransaction expiry b c id = .ok n') : Sound expiry n' := by
  simp only [InputNode.pushTransaction, bind_eq_ok, pure_eq_ok] at hpush
  obtain ⟨index, hindex, rfl⟩ := hpush
  have hpushed := TransactionIndex.pushTransaction_eq_ok hindex
  have hreplayed := h.replayed hb
  have hchain := chain_of_some hb
  have hold := loggedChain_of_some hb
  have hinc := h.increasing
  rw [hold] at hinc
  -- the blocks of the log lie below the pending block
  have hlogTime : ∀ b' ∈ n.blockLog, toTimePoint b'.timestamp < toTimePoint b.timestamp := by
    intro b' hb'
    exact toTimePoint_lt ((pairwise_cons.mp hinc).1 b' (hreplayed.subset hb'))
  have hskipped : (∃ t ∈ n.replayHeadTime, expiresAt expiry id ≤ t) →
      ∃ b' ∈ n.blockLog, expiresAt expiry id ≤ toTimePoint b'.timestamp := by
    rintro ⟨t, ht, hle⟩
    obtain ⟨b', hb', hle'⟩ := h.replayTime t ht
    exact ⟨b', hb', hle.trans hle'⟩
  have hnew : ∀ earlier ∈ entries n.loggedChain, id = earlier.1 →
      expiresAt expiry id < toTimePoint b.timestamp := by
    intro earlier hearlier hid
    obtain ⟨b₁, hb₁, hmem, -⟩ := mem_entries.mp hearlier
    rw [← hid] at hmem
    rcases hpushed.recorded with hskip | ⟨hfree, -⟩
    · obtain ⟨b', hb', hle⟩ := hskipped hskip
      exact lt_of_le_of_lt hle (hlogTime b' hb')
    · rcases h.covers b₁ hb₁ id hmem with ⟨b', hb', hlt⟩ | ⟨b', hb', hle⟩ | hrow
      · refine lt_of_lt_of_le hlt ?_
        rw [hold] at hb'
        rcases mem_cons.mp hb' with rfl | hbelow
        · exact le_rfl
        · exact (toTimePoint_lt ((pairwise_cons.mp hinc).1 b' hbelow)).le
      · exact lt_of_le_of_lt hle (hlogTime b' hb')
      · exact absurd hrow hfree
  refine
    { h with
      apart := ?_, increasing := ?_, linked := .inl hreplayed, covers := ?_, undoCovers := ?_
      depth := ?_, checked := ?_ }
  · have hapart := h.apart
    rw [hold] at hapart hnew
    exact pairwise_cons.mpr ⟨hnew, hapart⟩
  · exact pairwise_cons.mpr (pairwise_cons.mp hinc)
  · have hcovers := h.covers
    rw [hold] at hcovers
    refine hcovers.push hpushed.keeps ?_
    rcases hpushed.recorded with hskip | ⟨-, hrow⟩
    · exact .inl (hskipped hskip)
    · exact .inr hrow
  · have hundo := h.undoCovers
    rw [hold] at hundo
    exact hundo.replace_head
  · have hdepth := h.depth
    rwa [hchain] at hdepth
  · have hchecked := h.checked
    rw [hchain] at hchecked
    obtain ⟨hnewest, hbelow⟩ := forall_mem_cons.mp hchecked
    exact forall_mem_cons.mpr ⟨forall_mem_cons.mpr ⟨hpushed.fresh, hnewest⟩, hbelow⟩

/-- Undoing the newest session takes the index back below the newest block. -/
theorem Sound.undoSession (hne : n.undo ≠ []) :
    Covers expiry n.blockLog n.undoSession.index n.loggedChain.tail ∧
      UndoCovers expiry n.blockLog n.undoSession.undo n.loggedChain.tail := by
  have hundo := h.undoCovers
  obtain ⟨ix, rest, hlist⟩ := exists_cons_of_ne_nil hne
  rw [hlist] at hundo
  simp only [InputNode.undoSession, hlist]
  exact hundo

theorem Sound.abortBlock (hb : n.pending = some b) : Sound expiry n.abortBlock := by
  have hreplayed := h.replayed hb
  have hle := hreplayed.log_le
  have hchain := chain_of_some hb
  have hold := loggedChain_of_some hb
  have hdepth := h.depth
  rw [hchain, length_cons] at hdepth
  have hne : n.undo ≠ [] := by
    rw [← length_pos_iff]
    omega
  obtain ⟨hcovers, hundo⟩ := h.undoSession hne
  rw [hold] at hcovers hundo
  have hsuffix : n.abortBlock.loggedChain <:+ n.loggedChain := by
    rw [hold]
    exact suffix_cons _ _
  exact
    { h with
      apart := h.apart.of_suffix hsuffix
      increasing := h.increasing.of_suffix hsuffix
      linked := .inl hreplayed
      covers := hcovers
      undoCovers := hundo
      depth := by
        change n.undo.tail.length = n.branch.length - n.blockLog.length
        rw [length_tail]
        omega
      checked := fun b' hb' => h.checked b' (by rw [hchain]; exact mem_cons_of_mem _ hb') }

theorem Sound.commitBlock (hb : n.pending = some b) : Sound expiry (n.commitBlock b) := by
  have hchain : (n.commitBlock b).chain = n.chain := by
    rw [chain_of_some hb]
    rfl
  have hlogged : (n.commitBlock b).loggedChain = n.loggedChain := by
    rw [loggedChain, hchain, loggedChain]
  exact
    { h with
      apart := hlogged ▸ h.apart
      increasing := hlogged ▸ h.increasing
      linked := .inl ((h.replayed hb).trans (suffix_cons _ _))
      covers := hlogged ▸ h.covers
      undoCovers := hlogged ▸ h.undoCovers
      depth := by rw [hchain]; exact h.depth
      checked := hchain ▸ h.checked }

theorem Sound.popBlock (hnone : n.pending = none) (hlt : n.blockLog.length < n.branch.length)
    (hreplayed : n.Replayed) : Sound expiry n.popBlock := by
  have hchain := chain_of_none hnone
  have hold := loggedChain_of_none hnone
  have hdepth := h.depth
  rw [hchain] at hdepth
  have hne : n.undo ≠ [] := by
    rw [← length_pos_iff]
    omega
  obtain ⟨hcovers, hundo⟩ := h.undoSession hne
  have hpopped : n.popBlock.chain = n.branch.tail := chain_of_none hnone
  have htail : n.popBlock.loggedChain = n.loggedChain.tail := by
    rw [loggedChain, hpopped, hold, map_tail]
  have hsuffix : n.popBlock.loggedChain <:+ n.loggedChain := by
    rw [htail]
    exact tail_suffix _
  -- the log is a proper suffix of the branch, so it lies within the tail
  have hkept : n.popBlock.Replayed := by
    obtain ⟨newer, hnewer⟩ := hreplayed
    cases newer with
    | nil =>
      have := congrArg length hnewer
      simp only [nil_append, length_map] at this
      omega
    | cons first newer =>
      refine ⟨newer, ?_⟩
      change newer ++ n.blockLog = n.branch.tail.map logged
      rw [map_tail, ← hnewer]
      rfl
  exact
    { h with
      apart := h.apart.of_suffix hsuffix
      increasing := h.increasing.of_suffix hsuffix
      linked := .inl hkept
      covers := htail ▸ hcovers
      undoCovers := htail ▸ hundo
      depth := by
        rw [hpopped]
        change n.undo.tail.length = n.branch.tail.length - n.blockLog.length
        rw [length_tail, length_tail]
        omega
      checked := by
        intro b hb
        rw [hpopped] at hb
        exact h.checked b (by rw [hchain]; exact mem_of_mem_tail hb) }

/-- A longer log keeps what was said about the shorter one. -/
theorem Sound.logIrreversible {reversible : ℕ} (hnone : n.pending = none) (hreplayed : n.Replayed)
    (hle : reversible + n.blockLog.length ≤ n.branch.length) :
    Sound expiry (n.logIrreversible reversible) := by
  have hchain := chain_of_none hnone
  have hold := loggedChain_of_none hnone
  have hlog : (n.logIrreversible reversible).blockLog = n.loggedChain.drop reversible := by
    rw [hold]
    exact map_drop
  have hsuffix : n.loggedChain.drop reversible <:+ n.loggedChain := drop_suffix _ _
  have hsub : n.blockLog ⊆ (n.logIrreversible reversible).blockLog := by
    rw [hlog]
    refine IsSuffix.subset (suffix_of_suffix_length_le (hold ▸ hreplayed) hsuffix ?_)
    rw [length_drop, hold, length_map]
    omega
  have hdepth := h.depth
  rw [hchain] at hdepth
  exact
    { apart := h.apart
      logApart := hlog ▸ h.apart.of_suffix hsuffix
      increasing := h.increasing
      logIncreasing := hlog ▸ h.increasing.of_suffix hsuffix
      linked := .inl (by
        change (n.logIrreversible reversible).blockLog <:+ n.branch.map logged
        rw [hlog, ← hold]
        exact hsuffix)
      covers := h.covers.mono_log hsub
      undoCovers := (h.undoCovers.mono_log hsub).take reversible
      depth := by
        rw [hlog, hold, length_drop, length_map]
        change (n.undo.take reversible).length = n.chain.length - _
        rw [length_take, hchain]
        omega
      stored := fun s hs => ⟨(h.stored s hs).1, (h.stored s hs).2.mono_log hsub⟩
      replayTime := by
        intro t ht
        obtain ⟨b, hb, hle⟩ := h.replayTime t ht
        exact ⟨b, hsub hb, hle⟩
      checked := h.checked }

/-- A restart on a state that is covered and lies on the log, or has the log applied. -/
theorem Sound.beginReplay {branch : List InputBlock} {index : TransactionIndex}
    {undo : List TransactionIndex}
    (hlinked : n.blockLog <:+ branch.map logged ∨ branch.map logged <:+ n.blockLog)
    (hapart : Apart expiry (branch.map logged)) (hincreasing : Increasing (branch.map logged))
    (hcovers : Covers expiry n.blockLog index (branch.map logged))
    (hundo : UndoCovers expiry n.blockLog undo (branch.map logged))
    (hdepth : undo.length = branch.length - n.blockLog.length)
    (hchecked : CheckedFresh expiry branch) :
    Sound expiry (n.beginReplay branch index undo) where
  apart := hapart
  logApart := h.logApart
  increasing := hincreasing
  logIncreasing := h.logIncreasing
  linked := hlinked.imp id fun hbelow => ⟨rfl, hbelow⟩
  covers := hcovers
  undoCovers := hundo
  depth := hdepth
  stored := h.stored
  replayTime := by
    intro t ht
    obtain ⟨b, hb, rfl⟩ := Option.mem_map.mp ht
    exact ⟨b, mem_of_mem_head? hb, le_rfl⟩
  checked := hchecked

/-- **Replaying a logged block.** The log vouches for the block; the index gets the rows
of the transactions that outlive the log. -/
theorem Sound.replayBlock {b : LoggedBlock} {inputs : List (TransactionId × PushConditions)}
    (hnone : n.pending = none) (hnext : b :: n.branch.map logged <:+ n.blockLog)
    (hids : b.ids = (inputs.map (·.1)).reverse)
    (hreplay : n.replayBlock expiry b.timestamp inputs = .ok n') : Sound expiry n' := by
  simp only [InputNode.replayBlock, bind_eq_ok, pure_eq_ok] at hreplay
  obtain ⟨index, hindex, hn'⟩ := hreplay
  obtain ⟨hkeeps, hinputs⟩ := replayInputs_eq_ok hindex
  have hchain := chain_of_none hnone
  have hold := loggedChain_of_none hnone
  have hbranch : n'.branch = ⟨b.timestamp, (inputs.map fun i =>
      (⟨i.1, !i.2.skipTrxChecks⟩ : AcceptedInput)).reverse⟩ :: n.branch := by rw [← hn']
  have hnone' : n'.pending = none := by rw [← hn', hnone]
  have hlog : n'.blockLog = n.blockLog := by rw [← hn']
  have hchain' := chain_of_none hnone'
  have hlogged : n'.loggedChain = b :: n.loggedChain := by
    rw [loggedChain, hchain', hbranch, hold, map_cons]
    congr 1
    obtain ⟨slot, ids⟩ := b
    simp only [logged, map_reverse, map_map] at hids ⊢
    rw [hids]
    rfl
  rw [← hold] at hnext
  have hlength : n.branch.length + 1 ≤ n.blockLog.length := by
    have := hnext.length_le
    rwa [hold, length_cons, length_map] at this
  -- a row the clearing removed belongs to a transaction that expired before this block
  have hcovers : Covers expiry n.blockLog index (b :: n.loggedChain) := by
    intro b₁ hb₁ id hid
    rcases mem_cons.mp hb₁ with rfl | hbelow
    · rw [hids, mem_reverse, mem_map] at hid
      obtain ⟨i, hi, rfl⟩ := hid
      rcases (hinputs i hi).1 with ⟨t, ht, hle⟩ | hrow
      · obtain ⟨b', hb', hle'⟩ := h.replayTime t ht
        exact .inr (.inl ⟨b', hb', hle.trans hle'⟩)
      · exact .inr (.inr hrow)
    · exact Covered.mono (h.covers.clearExpired b b₁ hbelow id hid) (Subset.refl _) (Subset.refl _)
        hkeeps
  have hundo : n'.undo = [] := by
    have hempty : n.undo = [] := by
      rw [← length_eq_zero_iff, h.depth, hchain]
      omega
    rw [← hn', hempty]
  exact
    { apart := hlogged ▸ h.logApart.of_suffix hnext
      logApart := hlog ▸ h.logApart
      increasing := hlogged ▸ h.logIncreasing.of_suffix hnext
      logIncreasing := hlog ▸ h.logIncreasing
      linked := .inr ⟨hnone', by rwa [← hchain', ← loggedChain, hlogged, hlog]⟩
      covers := by
        rw [hlogged, hlog, ← hn']
        exact hcovers
      undoCovers := by
        rw [hundo]
        trivial
      depth := by
        rw [hundo, hchain', hbranch, hlog, length_nil, length_cons]
        omega
      stored := by
        rw [← hn']
        exact h.stored
      replayTime := by
        rw [← hn']
        exact h.replayTime
      checked := by
        rw [hchain', hbranch]
        refine forall_mem_cons.mpr ⟨fun i hi => ?_, hchain ▸ h.checked⟩
        obtain ⟨j, hj, rfl⟩ := mem_map.mp (mem_reverse.mp hi)
        exact (hinputs j hj).2 }

theorem Sound.step (hstep : InputStep expiry n n') : Sound expiry n' := by
  cases hstep with
  | startBlock timestamp clears hnone hreplayed hlater => exact h.startBlock hnone hreplayed hlater
  | pushTransaction c id hb hpush => exact h.pushTransaction hb hpush
  | abortBlock hb => exact h.abortBlock hb
  | commitBlock hb => exact h.commitBlock hb
  | popBlock hnone hlt hreplayed => exact h.popBlock hnone hlt hreplayed
  | logIrreversible reversible hnone hreplayed hle =>
    exact h.logIrreversible hnone hreplayed hle
  | store hnone =>
    have hchain := chain_of_none hnone
    refine { h with stored := forall_mem_cons.mpr ⟨?_, h.stored⟩ }
    exact ⟨hchain ▸ h.checked, loggedChain_of_none hnone ▸ h.covers⟩
  | restart hnone =>
    have hchain := chain_of_none hnone
    have hold := loggedChain_of_none hnone
    exact h.beginReplay (h.linked.imp id (·.2)) (hold ▸ h.apart) (hold ▸ h.increasing)
      (hold ▸ h.covers) (hold ▸ h.undoCovers) (hchain ▸ h.depth) (hchain ▸ h.checked)
  | @restartStored branch index hmem hbelow =>
    obtain ⟨hchecked, hcovers⟩ := h.stored _ hmem
    have hle := hbelow.length_le
    rw [length_map] at hle
    exact h.beginReplay (.inr hbelow) (h.logApart.of_suffix hbelow)
      (h.logIncreasing.of_suffix hbelow) hcovers trivial
      (by rw [length_nil]; omega) hchecked
  | replayBlock inputs hnone hnext hids hreplay => exact h.replayBlock hnone hnext hids hreplay
  | finishReplay _ => exact { h with replayTime := nofun }

end InputNode

open InputNode

theorem InputReached.sound {n : InputNode} (h : InputReached expiry n) : n.Sound expiry := by
  induction h with
  | genesis => exact Sound.genesis
  | step _ hstep ih => exact ih.step hstep

/-! ## No input twice -/

variable (n : InputNode)

/-- The input transactions of a node's chain, newest first. -/
def InputNode.inputs : List AcceptedInput := n.chain.flatMap (·.inputs)

def InputNode.timedInputs : List (AcceptedInput × Slot) :=
  n.chain.flatMap fun b => b.inputs.map fun i => (i, b.timestamp)

theorem InputNode.inputs_eq : n.inputs = n.timedInputs.map (·.1) := by
  simp [inputs, timedInputs, map_flatMap, Function.comp_def]

theorem InputNode.entries_eq :
    entries n.loggedChain = n.timedInputs.map fun i => (i.1.id, i.2) := by
  simp [entries, loggedChain, timedInputs, logged, map_flatMap, flatMap_map, Function.comp_def]

/-- **No transaction is replayed.** On the branch of every node that can be reached, a
transaction that was accepted with checks enabled has an id that no earlier input
transaction of the branch has. -/
theorem no_transaction_replayed {n : InputNode} (h : InputReached expiry n) :
    n.inputs.Pairwise fun later earlier => later.checked → later.id ≠ earlier.id := by
  have hsound := h.sound
  have hapart := hsound.apart
  rw [Apart, n.entries_eq, pairwise_map] at hapart
  rw [n.inputs_eq, pairwise_map]
  refine hapart.imp_of_mem ?_
  intro later earlier hlater _ hexpired hchecked hid
  obtain ⟨b, hb, hmem⟩ := mem_flatMap.mp hlater
  obtain ⟨i, hi, rfl⟩ := mem_map.mp hmem
  -- the check says it had not expired, the earlier occurrence that it had
  have hfresh := hsound.checked b hb i hi hchecked
  exact absurd (hexpired hid) (not_lt.mpr hfresh)

/-- Conditions under which the checks of transactions are made. -/
def fullChecks : PushConditions := ⟨false, 3600, .ok ()⟩

/-- Every transaction expires one minute after the epoch of block times. -/
def minuteExpiration : TransactionId → TimePointSec := fun _ => 946684860

/-- Transactions `1` and `2` enter the block of slot 1. -/
def twoInputs : Result InputNode := do
  let n ← (startBlock {} 1 true).pushTransaction minuteExpiration ⟨1, []⟩ fullChecks 1
  n.pushTransaction minuteExpiration ⟨1, [⟨1, true⟩]⟩ fullChecks 2

/-- The block of slot 1 is logged, and the node replays it from genesis. -/
def replayTwoInputs : Result InputNode :=
  let n := (n.commitBlock ⟨1, [⟨2, true⟩, ⟨1, true⟩]⟩).logIrreversible 0
  (n.beginReplay [] {} []).replayBlock minuteExpiration 1 [(1, fullChecks), (2, fullChecks)]

theorem InputNode.pushTransaction_eq_ok {n n' : InputNode} {b : InputBlock} {c : PushConditions}
    {id : TransactionId} (h : n.pushTransaction expiry b c id = .ok n') :
    ∃ index, n' =
      { n with
        index, pending := some { b with inputs := ⟨id, !c.skipTrxChecks⟩ :: b.inputs } } := by
  simp only [pushTransaction, bind_eq_ok, pure_eq_ok] at h
  obtain ⟨index, -, rfl⟩ := h
  exact ⟨index, rfl⟩

theorem no_transaction_replayed_after_restart :
    ∃ n, InputReached minuteExpiration n ∧ n.inputs = [⟨2, true⟩, ⟨1, true⟩] ∧
      n.inputs.Pairwise fun later earlier => later.checked → later.id ≠ earlier.id := by
  obtain ⟨n, hn, hinputs⟩ : ∃ n, twoInputs >>= replayTwoInputs = .ok n ∧
      n.inputs = [⟨2, true⟩, ⟨1, true⟩] := by
    decide +kernel
  obtain ⟨n₂, htwo, hreplay⟩ := bind_eq_ok.mp hn
  obtain ⟨n₁, hpush₁, hpush₂⟩ := bind_eq_ok.mp htwo
  have hstart : InputReached minuteExpiration (startBlock {} 1 true) :=
    .step .genesis (.startBlock 1 true rfl suffix_rfl nofun)
  have h₁ : InputReached minuteExpiration n₁ :=
    .step hstart (.pushTransaction fullChecks 1 rfl hpush₁)
  obtain ⟨ix₁, rfl⟩ := pushTransaction_eq_ok hpush₁
  have h₂ : InputReached minuteExpiration n₂ := .step h₁ (.pushTransaction fullChecks 2 rfl hpush₂)
  obtain ⟨ix₂, rfl⟩ := pushTransaction_eq_ok hpush₂
  have hcommit := h₂.step (.commitBlock rfl)
  have hlog := hcommit.step (.logIrreversible 0 rfl nil_suffix (Nat.zero_le _))
  have hrestart := hlog.step (.restartStored mem_cons_self nil_suffix)
  have hfinal : InputReached minuteExpiration n :=
    hrestart.step (.replayBlock [(1, fullChecks), (2, fullChecks)] rfl suffix_rfl rfl hreplay)
  exact ⟨n, hfinal, hinputs, no_transaction_replayed hfinal⟩

end Inery.Chain
