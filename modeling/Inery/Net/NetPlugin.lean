import Inery.Chain.Types
import Mathlib.Algebra.GroupWithZero.Nat

/-!
# Connections to peers (`net_plugin.cpp`)

Buffers wait in two queues until they are written.  A peer asks for a range of blocks, and gets
one with each write that completes.  The fork head that a peer has announced is recorded until a
block has passed it.
-/

namespace Inery.Net

open Chain Foundation Function List

/-! ## The write queue -/

/-- `queued_write`; `κ` are the callbacks. -/
structure QueuedWrite (κ : Type) where
  buff : List UInt8
  callback : κ

structure QueuedBuffer (κ : Type) where
  writeQueueSize : UInt32 := 0
  writeQueue : List (QueuedWrite κ) := []
  syncWriteQueue : List (QueuedWrite κ) := []
  outQueue : List (QueuedWrite κ) := []

section WriteQueue

variable {κ : Type}

namespace QueuedBuffer

variable (q : QueuedBuffer κ)

def defMaxWriteQueueSize : UInt32 := 1024 * 1024 * 4 * 10

def addWriteQueue (w : QueuedWrite κ) (toSyncQueue : Bool) : Bool × QueuedBuffer κ :=
  let q := if toSyncQueue then { q with syncWriteQueue := q.syncWriteQueue ++ [w] }
    else { q with writeQueue := q.writeQueue ++ [w] }
  let q := { q with writeQueueSize := q.writeQueueSize + UInt32.ofNat w.buff.length }
  (¬ 2 * defMaxWriteQueueSize < q.writeQueueSize, q)

def readyToSend : Bool := (!q.syncWriteQueue.isEmpty || !q.writeQueue.isEmpty) && q.outQueue.isEmpty

def moveOut (w : QueuedWrite κ) : QueuedBuffer κ :=
  { q with
    writeQueueSize := q.writeQueueSize - UInt32.ofNat w.buff.length
    outQueue := q.outQueue ++ [w] }

/-- Also whether it was the sync queue that has been emptied. -/
def fillOutBuffer : Result (Bool × QueuedBuffer κ) :=
  if 0 < q.syncWriteQueue.length then
    pure (true, { q.syncWriteQueue.foldl moveOut q with syncWriteQueue := [] })
  else do
    let filled := { q.writeQueue.foldl moveOut q with writeQueue := [] }
    ineAssert (filled.writeQueueSize = 0) .pluginException "write queue size expected to be zero"
    pure (false, filled)

def waiting (sync : Bool) : List (QueuedWrite κ) := if sync then q.syncWriteQueue else q.writeQueue

def totalSize (ws : List (QueuedWrite κ)) : ℕ := (ws.map fun w => w.buff.length).sum

def waitingSize : ℕ := totalSize q.writeQueue + totalSize q.syncWriteQueue

end QueuedBuffer

/-- What has happened to the buffers. -/
inductive WriteEvent (κ : Type) where
  | queued (sync : Bool) (w : QueuedWrite κ)
  | handed (sync : Bool) (ws : List (QueuedWrite κ))
  | written (ws : List (QueuedWrite κ))
  | called (callback : κ)

/-- An open connection; a close that has been posted ends it later. -/
structure Connection (κ : Type) where
  bufferQueue : QueuedBuffer κ := {}
  closePosted : Bool := false
  log : List (WriteEvent κ) := []

/-- A call of `queue_write`, or the success of the write under way. -/
inductive WriteOp (κ : Type) where
  | queueWrite (w : QueuedWrite κ) (toSyncQueue : Bool)
  | completed

namespace Connection

variable (c : Connection κ)

def doQueueWrite : Result (Connection κ) :=
  if c.bufferQueue.readyToSend then do
    let (sync, bufferQueue) ← c.bufferQueue.fillOutBuffer
    pure { c with bufferQueue, log := c.log ++ [.handed sync (c.bufferQueue.waiting sync)] }
  else pure c

def queueWrite (w : QueuedWrite κ) (toSyncQueue : Bool) : Result (Connection κ) :=
  let added := c.bufferQueue.addWriteQueue w toSyncQueue
  let c : Connection κ := { c with bufferQueue := added.2, log := c.log ++ [.queued toSyncQueue w] }
  if added.1 then c.doQueueWrite else pure { c with closePosted := true }

/-- The handler of `async_write` after a success: `out_callback` goes over the queue that has
just been cleared. -/
def writeCompleted : Result (Connection κ) :=
  let bufferQueue := { c.bufferQueue with outQueue := [] }
  let called := bufferQueue.outQueue.map fun w => .called w.callback
  doQueueWrite { c with bufferQueue, log := c.log ++ .written c.bufferQueue.outQueue :: called }

def step : WriteOp κ → Result (Connection κ)
  | .queueWrite w toSyncQueue => c.queueWrite w toSyncQueue
  | .completed => if c.bufferQueue.outQueue.isEmpty then pure c else c.writeCompleted

end Connection

variable (q : QueuedBuffer κ) (log : List (WriteEvent κ)) (sync : Bool)

def queuedIn : List (QueuedWrite κ) :=
  log.flatMap fun | .queued s w => if s = sync then [w] else [] | _ => []

def handedIn (p : Bool → Bool) : List (QueuedWrite κ) :=
  log.flatMap fun | .handed s ws => if p s then ws else [] | _ => []

def writtenIn : List (QueuedWrite κ) := log.flatMap fun | .written ws => ws | _ => []

def calledIn : List κ := log.flatMap fun | .called callback => [callback] | _ => []

/-- Each buffer is handed over once and in order, those of the sync queue first. -/
structure Delivers : Prop where
  handed_eq : ∀ sync, handedIn log (· == sync) ++ q.waiting sync = queuedIn log sync
  sync_first : ∀ before ws, before ++ [.handed false ws] <+: log →
    handedIn before (· == true) = queuedIn before true
  written_eq : handedIn log (fun _ => true) = writtenIn log ++ q.outQueue

/-- A write is under way unless nothing waits. -/
def Connection.UnderWay (c : Connection κ) : Prop :=
  c.closePosted ∨ c.bufferQueue.outQueue ≠ [] ∨ ∀ sync, c.bufferQueue.waiting sync = []

/-- The callbacks of the buffers that have been written are called, and the counter is the size
of those that wait. -/
def Acknowledges : Prop :=
  calledIn log = (writtenIn log).map QueuedWrite.callback ∧ q.writeQueueSize.toNat = q.waitingSize

structure Kept : Prop extends Delivers q log where
  size_eq : q.writeQueueSize = UInt32.ofNat q.waitingSize
  called_eq : calledIn log = []

def Connection.Sound (c : Connection κ) : Prop := Kept c.bufferQueue c.log ∧ c.UnderWay

variable {q log} {q' : QueuedBuffer κ} {e : WriteEvent κ} {c : Connection κ}

open QueuedBuffer

theorem foldl_moveOut (ws : List (QueuedWrite κ)) :
    ws.foldl moveOut q = { q with
      writeQueueSize := q.writeQueueSize - UInt32.ofNat (totalSize ws)
      outQueue := q.outQueue ++ ws } := by
  induction ws generalizing q with
  | nil => simp [totalSize]
  | cons w ws ih =>
    rw [foldl_cons, ih]
    simp only [moveOut, totalSize, map_cons, sum_cons, UInt32.ofNat_add, append_assoc,
      singleton_append]
    congr 1
    grind

theorem Kept.snoc (h : Kept q log)
    (hhanded : ∀ sync, handedIn [e] (· == sync) ++ q'.waiting sync =
      q.waiting sync ++ queuedIn [e] sync)
    (hfirst : ∀ ws, e = .handed false ws → q.waiting true = [])
    (hwritten : q.outQueue ++ handedIn [e] (fun _ => true) = writtenIn [e] ++ q'.outQueue)
    (hsize : q'.writeQueueSize = UInt32.ofNat q'.waitingSize) (hcalled : calledIn [e] = []) :
    Kept q' (log ++ [e]) where
  handed_eq sync := by
    have heq := h.handed_eq sync
    simp only [handedIn, queuedIn, flatMap_append] at heq hhanded ⊢
    rw [append_assoc, hhanded, ← append_assoc, heq]
  sync_first before ws hbefore := by
    rcases prefix_concat_iff.mp hbefore with heq | hbefore
    · obtain ⟨rfl, he⟩ := append_inj' heq rfl
      have heq := h.handed_eq true
      rwa [hfirst ws (singleton_inj.mp he).symm, append_nil] at heq
    · exact h.sync_first before ws hbefore
  written_eq := by
    have heq := h.written_eq
    simp only [handedIn, writtenIn, flatMap_append] at heq hwritten ⊢
    rw [heq, append_assoc, hwritten, append_assoc]
  size_eq := hsize
  called_eq := by
    have heq := h.called_eq
    simp only [calledIn, flatMap_append] at heq hcalled ⊢
    rw [heq, hcalled, append_nil]

theorem Kept.queued (h : Kept q log) (w : QueuedWrite κ) :
    Kept (q.addWriteQueue w sync).2 (log ++ [.queued sync w]) := by
  have hsize := h.size_eq
  refine h.snoc (fun s => ?_) nofun ?_ ?_ rfl
  · cases s <;> cases sync <;> simp [handedIn, queuedIn, waiting, addWriteQueue]
  · cases sync <;> simp [handedIn, writtenIn, addWriteQueue]
  · cases sync <;> simp_all [addWriteQueue, waitingSize, totalSize, UInt32.ofNat_add] <;> grind

/-- One queue is handed over; the counter then has the size of the other. -/
theorem Kept.handed (h : Kept q log) (hwait : ¬ ∀ sync, q.waiting sync = []) :
    ∃ sync q', q.fillOutBuffer = .ok (sync, q') ∧ q'.outQueue ≠ [] ∧
      Kept q' (log ++ [.handed sync (q.waiting sync)]) := by
  have hsize := h.size_eq
  simp only [waitingSize, UInt32.ofNat_add] at hsize
  rw [fillOutBuffer]
  simp only [foldl_moveOut, hsize]
  by_cases hsync : q.syncWriteQueue = []
  · rw [if_neg (by simp [hsync]), ineAssert, ensure_pos (by simp [hsync, totalSize])]
    refine ⟨false, _, rfl, ?_, h.snoc ?_ ?_ ?_ ?_ rfl⟩
    all_goals simp_all [waiting, handedIn, queuedIn, writtenIn, waitingSize, totalSize]
  · rw [if_pos (length_pos_iff.mpr hsync), UInt32.add_sub_cancel]
    refine ⟨true, _, rfl, ?_, h.snoc ?_ ?_ ?_ ?_ rfl⟩
    all_goals simp_all [waiting, handedIn, queuedIn, writtenIn, waitingSize, totalSize]

theorem Kept.doQueueWrite (h : Kept c.bufferQueue c.log) :
    ∃ c', c.doQueueWrite = .ok c' ∧ c'.Sound := by
  rw [Connection.doQueueWrite]
  split
  · next hready =>
    have hwait : ¬ ∀ sync, c.bufferQueue.waiting sync = [] := by
      simp_all [readyToSend, waiting, or_comm, imp_iff_not_or]
    obtain ⟨sync, q, hrun, hout, hkept⟩ := h.handed hwait
    rw [hrun]
    exact ⟨_, rfl, hkept, .inr (.inl hout)⟩
  · next hready =>
    refine ⟨c, rfl, h, .inr ?_⟩
    by_cases hout : c.bufferQueue.outQueue = []
    · exact .inr (by simp_all [readyToSend, waiting])
    · exact .inl hout

theorem Connection.Sound.step (h : c.Sound) (op : WriteOp κ) :
    ∃ c', c.step op = .ok c' ∧ c'.Sound := by
  cases op with
  | queueWrite w sync =>
    simp only [Connection.step, Connection.queueWrite]
    have hkept := h.1.queued sync w
    split
    · exact Kept.doQueueWrite hkept
    · exact ⟨_, rfl, hkept, .inl rfl⟩
  | completed =>
    rw [Connection.step]
    split
    · exact ⟨c, rfl, h⟩
    · refine Kept.doQueueWrite (h.1.snoc ?_ nofun ?_ h.1.size_eq rfl)
      all_goals simp [handedIn, queuedIn, writtenIn, waiting]

theorem Connection.Sound.run (h : c.Sound) (ops : List (WriteOp κ)) :
    ∃ c', ops.foldlM Connection.step c = .ok c' ∧ c'.Sound := by
  induction ops generalizing c with
  | nil => exact ⟨c, rfl, h⟩
  | cons op ops ih =>
    obtain ⟨c', hrun, h⟩ := h.step op
    rw [foldlM_cons, hrun]
    exact ih h

/-- **Every buffer is delivered, and no callback is called.**  The size of what waits is counted
modulo 2 ^ 32. -/
theorem write_queue_delivers (ops : List (WriteOp κ)) :
    ∃ c, ops.foldlM Connection.step {} = .ok c ∧ Delivers c.bufferQueue c.log ∧ c.UnderWay ∧
      (Acknowledges c.bufferQueue c.log ↔
        writtenIn c.log = [] ∧ c.bufferQueue.waitingSize < 2 ^ 32) := by
  have hsound : Connection.Sound ({} : Connection κ) :=
    ⟨⟨⟨by simp [handedIn, queuedIn, waiting], by simp, rfl⟩, rfl, rfl⟩,
      .inr (.inr (by simp [waiting]))⟩
  obtain ⟨c, hrun, h, hway⟩ := hsound.run ops
  refine ⟨c, hrun, h.toDelivers, hway, ?_⟩
  rw [Acknowledges, h.called_eq, h.size_eq, UInt32.toNat_ofNat', Nat.mod_eq_iff_lt (by decide),
    eq_comm, map_eq_nil_iff]

/-- A buffer is queued, and its write succeeds. -/
theorem write_queue_no_callback : ∃ c : Connection Unit,
    [.queueWrite ⟨[7], ()⟩ false, .completed].foldlM Connection.step {} = .ok c ∧
      ¬ Acknowledges c.bufferQueue c.log :=
  ⟨_, rfl, fun h => absurd h.1 (by decide)⟩

end WriteQueue

/-! ## Serving a range of blocks -/

structure PeerSyncState where
  startBlock : UInt32
  endBlock : UInt32
  last : UInt32

/-- `enqueue_sync_block`: the number that is looked up, and `peer_requested` after it. -/
def enqueueSyncBlock : Option PeerSyncState → List UInt32 × Option PeerSyncState
  | none => ([], none)
  | some requested =>
    let num := requested.last + 1
    ([num], if num = requested.endBlock then none else some { requested with last := num })

/-- `handle_message( sync_request_message )`. -/
def handleSyncRequest (startBlock endBlock : UInt32) : List UInt32 × Option PeerSyncState :=
  if endBlock = 0 then ([], none)
  else enqueueSyncBlock (some ⟨startBlock, endBlock, startBlock - 1⟩)

/-- The numbers looked up for a request by the time `writes` writes have completed. -/
def lookups (startBlock endBlock : UInt32) : ℕ → List UInt32 × Option PeerSyncState
  | 0 => handleSyncRequest startBlock endBlock
  | writes + 1 =>
    let (nums, requested) := lookups startBlock endBlock writes
    let (num, requested) := enqueueSyncBlock requested
    (nums ++ num, requested)

/-- Each number from the first to the last. -/
def blockRange (startBlock endBlock : UInt32) : List UInt32 :=
  (range' startBlock.toNat (endBlock.toNat + 1 - startBlock.toNat)).map UInt32.ofNat

/-- Each number of the range is looked up once and in order, and then nothing more. -/
def ServesRange (startBlock endBlock : UInt32) : Prop :=
  ∃ enough, ∀ writes ≥ enough,
    lookups startBlock endBlock writes = (blockRange startBlock endBlock, none)

section Ranges

variable {startBlock endBlock : UInt32}

/-- The last number is reached after as many writes as it is away. -/
theorem add_ofNat_eq_iff {n : ℕ} (hn : n < 2 ^ 32) :
    startBlock + UInt32.ofNat n = endBlock ↔ n = (endBlock - startBlock).toNat := by
  constructor
  · rintro rfl
    rw [show startBlock + UInt32.ofNat n - startBlock = UInt32.ofNat n by grind,
      UInt32.toNat_ofNat_of_lt' hn]
  · rintro rfl
    rw [UInt32.ofNat_toNat]
    grind

theorem lookups_of_le (h : endBlock ≠ 0) {writes : ℕ}
    (hle : writes ≤ (endBlock - startBlock).toNat) :
    lookups startBlock endBlock writes =
      ((range (writes + 1)).map fun i => startBlock + UInt32.ofNat i,
        if writes = (endBlock - startBlock).toNat then none
        else some ⟨startBlock, endBlock, startBlock + UInt32.ofNat writes⟩) := by
  have hlt := (endBlock - startBlock).toNat_lt
  induction writes with
  | zero =>
    have hend := @add_ofNat_eq_iff startBlock endBlock 0 (by decide)
    rw [lookups, handleSyncRequest, if_neg h, enqueueSyncBlock]
    simp only [show startBlock - 1 + 1 = startBlock + UInt32.ofNat 0 by grind, hend]
    rfl
  | succ writes ih =>
    have hend := @add_ofNat_eq_iff startBlock endBlock (writes + 1) (by omega)
    rw [lookups, ih (by omega), if_neg (by omega)]
    simp only [enqueueSyncBlock, UInt32.add_assoc, ← hend, UInt32.ofNat_add, range_succ,
      map_append, map_cons, map_nil]
    rfl

theorem lookups_of_ge (h : endBlock ≠ 0) {writes : ℕ}
    (hge : (endBlock - startBlock).toNat ≤ writes) :
    lookups startBlock endBlock writes =
      ((range ((endBlock - startBlock).toNat + 1)).map fun i => startBlock + UInt32.ofNat i,
        none) := by
  induction writes, hge using Nat.le_induction with
  | base => rw [lookups_of_le h le_rfl, if_pos rfl]
  | succ writes _ ih => simp only [lookups, ih, enqueueSyncBlock, append_nil]

theorem lookups_zero (writes : ℕ) : lookups startBlock 0 writes = ([], none) := by
  induction writes with
  | zero => rfl
  | succ writes ih => simp only [lookups, ih, enqueueSyncBlock, append_nil]

theorem servesRange_iff (h : endBlock ≠ 0) : ServesRange startBlock endBlock ↔
    (range ((endBlock - startBlock).toNat + 1)).map (fun i => startBlock + UInt32.ofNat i) =
      blockRange startBlock endBlock := by
  constructor
  · rintro ⟨enough, henough⟩
    have hrun := henough (max enough (endBlock - startBlock).toNat) (le_max_left ..)
    rw [lookups_of_ge h (le_max_right ..)] at hrun
    exact congrArg Prod.fst hrun
  · intro heq
    exact ⟨_, fun writes hge => (lookups_of_ge h hge).trans (by rw [heq])⟩

/-- **A range is served unless it ends before it begins.**  The numbers then go around to the
last one.  A range that ends at 0 is a cancellation, also when it begins there. -/
theorem sync_request_serves_range (startBlock endBlock : UInt32) :
    ServesRange startBlock endBlock ↔
      if endBlock = 0 then startBlock ≠ 0 else startBlock ≤ endBlock := by
  split
  · next h =>
    subst h
    have hserves : ServesRange startBlock 0 ↔ blockRange startBlock 0 = [] := by
      simp only [ServesRange, lookups_zero, Prod.mk.injEq, and_true, eq_comm (a := [])]
      exact ⟨fun ⟨n, hn⟩ => hn n le_rfl, fun hnil => ⟨0, fun _ _ => hnil⟩⟩
    rw [hserves, blockRange, map_eq_nil_iff, range'_eq_nil_iff, Ne, ← UInt32.toNat_inj]
    show 1 - _ = 0 ↔ _ ≠ 0
    omega
  · next h =>
    rw [servesRange_iff h, UInt32.le_iff_toNat_le]
    constructor
    · intro heq
      have hlength := congrArg length heq
      rw [length_map, length_range, blockRange, length_map, length_range']
        at hlength
      omega
    · intro hle
      have hsub : (endBlock - startBlock).toNat + 1 = endBlock.toNat + 1 - startBlock.toNat := by
        rw [UInt32.toNat_sub_of_le _ _ (UInt32.le_iff_toNat_le.mpr hle)]
        omega
      rw [blockRange, hsub, range'_eq_map_range, map_map]
      refine map_congr_left fun i _ => ?_
      rw [Function.comp_apply, UInt32.ofNat_add, UInt32.ofNat_toNat]

/-- The empty range from 2 to 1: the number 2 is looked up. -/
theorem sync_request_empty_range : ¬ ServesRange 2 1 := by
  rw [servesRange_iff (by decide), show blockRange 2 1 = [] from rfl, map_eq_nil_iff, range_eq_nil]
  exact Nat.succ_ne_zero _

end Ranges

/-! ## Fork heads of the peers -/

inductive Stage where
  | libCatchup
  | headCatchup
  | inSync
deriving DecidableEq

/-- `fork_head` and `fork_head_num` of a connection; the null id stands for none. -/
structure ForkHead where
  id : BlockId := 0
  num : ℕ := 0
deriving DecidableEq

variable {ι : Type} [DecidableEq ι] (c : ι) (blkId : BlockId) (blkNum : ℕ)

/-- A fork head that the block has reached. -/
def Reached (head : ForkHead) : Prop := head.num < blkNum ∨ head.id = blkId

instance (head : ForkHead) : Decidable (Reached blkId blkNum head) :=
  inferInstanceAs (Decidable (_ ∨ _))

/-- A round of the loop of `sync_recv_block`: it looks at `cp` and clears the sender `c`. -/
def visit (s : (ι → ForkHead) × Bool) (cp : ι) : (ι → ForkHead) × Bool :=
  if (s.1 cp).id = 0 then s
  else if Reached blkId blkNum (s.1 cp) then (update s.1 c {}, s.2)
  else (s.1, true)

/-- `sync_recv_block` in the state `head_catchup`: the fork heads and the state after the loop
over the block connections. -/
def syncRecvBlock (connections : List ι) (heads : ι → ForkHead) : (ι → ForkHead) × Stage :=
  let s := connections.foldl (visit c blkId blkNum) (heads, false)
  (s.1, if s.2 then .headCatchup else .inSync)

/-- The fork heads that the block has reached are cleared, no others, and the state tells
whether one is left. -/
structure PerPeer (connections : List ι) (heads heads' : ι → ForkHead) (state : Stage) : Prop where
  cleared : ∀ cp ∈ connections, Reached blkId blkNum (heads cp) → (heads' cp).id = 0
  kept : ∀ cp ∈ connections, ¬ Reached blkId blkNum (heads cp) → heads' cp = heads cp
  state_eq : state = .inSync ↔ ∀ cp ∈ connections, (heads' cp).id = 0

variable {c blkId blkNum} {heads : ι → ForkHead} {left : Bool} {l : List ι}

theorem loop_of_ne {cp : ι} (hne : cp ≠ c) :
    (l.foldl (visit c blkId blkNum) (heads, left)).1 cp = heads cp := by
  induction l generalizing heads left with
  | nil => rfl
  | cons x l ih =>
    rw [foldl_cons, visit]
    split
    · exact ih
    · split
      · rw [ih, update_of_ne hne]
      · exact ih

/-- When no other connection is reached, the sender is cleared if it is, and the flag tells
whether a fork head is left. -/
theorem loop_of_reached
    (h : ∀ cp ∈ l, (heads cp).id ≠ 0 → Reached blkId blkNum (heads cp) → cp = c) :
    let s := l.foldl (visit c blkId blkNum) (heads, left)
    s.1 c = (if c ∈ l ∧ (heads c).id ≠ 0 ∧ Reached blkId blkNum (heads c) then {} else heads c) ∧
      (s.2 = true ↔ left = true ∨
        ∃ cp ∈ l, (heads cp).id ≠ 0 ∧ ¬ Reached blkId blkNum (heads cp)) := by
  induction l generalizing heads left with
  | nil => simp
  | cons x l ih =>
    rw [forall_mem_cons] at h
    rw [foldl_cons, visit, exists_mem_cons_iff]
    by_cases hnull : (heads x).id = 0
    · have := @ih heads left h.2
      grind
    by_cases hreached : Reached blkId blkNum (heads x)
    · -- the sender, which has no fork head from here on
      obtain rfl := h.1 hnull hreached
      have hother : ∀ cp, cp ≠ x → update heads x {} cp = heads cp :=
        fun cp hne => update_of_ne hne _ _
      have hself : update heads x ({} : ForkHead) x = {} := update_self ..
      have := @ih (update heads x {}) left (by grind)
      grind
    · have := @ih heads true h.2
      grind

/-- **Fork heads are cleared for each peer exactly if the block has reached none but the
sender's.**  The loop clears the fork head of the sender in place of the one it looks at. -/
theorem sync_recv_block_per_peer (connections : List ι) : PerPeer blkId blkNum connections heads
        (syncRecvBlock c blkId blkNum connections heads).1
        (syncRecvBlock c blkId blkNum connections heads).2 ↔
      ∀ cp ∈ connections, (heads cp).id ≠ 0 → Reached blkId blkNum (heads cp) → cp = c := by
  constructor
  · intro h cp hcp hid hreached
    by_contra hne
    have hclear := h.cleared cp hcp hreached
    rw [syncRecvBlock, loop_of_ne hne] at hclear
    exact hid hclear
  · intro h
    obtain ⟨hself, hflag⟩ := @loop_of_reached ι _ c blkId blkNum heads false connections h
    have hother := fun cp (hne : cp ≠ c) =>
      @loop_of_ne ι _ c blkId blkNum heads false connections cp hne
    rw [syncRecvBlock]
    generalize connections.foldl (visit c blkId blkNum) (heads, false) = s at hself hflag hother
    have hleft : ∀ cp ∈ connections, (s.1 cp).id ≠ 0 ↔
        (heads cp).id ≠ 0 ∧ ¬ Reached blkId blkNum (heads cp) := by
      intro cp hcp
      by_cases hne : cp = c
      · subst hne
        rw [hself]
        grind
      · rw [hother cp hne]
        grind
    refine ⟨fun cp hcp hreached => ?_, fun cp hcp hreached => ?_, ?_⟩
    · by_contra hid
      exact ((hleft cp hcp).mp hid).2 hreached
    · by_cases hne : cp = c
      · rw [hne, hself, if_neg (by grind)]
      · exact hother cp hne
    · grind

/-- Two peers have announced the same block; one of them sends it. -/
theorem sync_recv_block_stale : ¬ PerPeer 7 5 [true, false] (fun _ => ⟨7, 5⟩)
    (syncRecvBlock true 7 5 [true, false] fun _ => ⟨7, 5⟩).1
    (syncRecvBlock true 7 5 [true, false] fun _ => ⟨7, 5⟩).2 := by
  intro h
  exact absurd (h.cleared false (by decide) (.inr rfl)) (by decide)

end Inery.Net
