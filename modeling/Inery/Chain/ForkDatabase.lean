import Inery.Chain.BlockHeaderState
import Inery.Foundation.Forest
import Inery.Foundation.Stateful

/-!
# The fork database (`fork_database.cpp`)

A tree of block states over a root that is not itself indexed.  The three indices of the container
are one list without repeated ids.  The state exists from `reset` on, so root and head are never
null.  Operations return the state even when they throw, since some of them throw half way.
-/

namespace Inery.Chain

open Foundation Stateful

/-- `block_state`, without the block and its cached transactions. -/
structure BlockState extends BlockHeaderState where
  validated : Bool := false
deriving DecidableEq

def BlockState.prev (b : BlockState) : BlockId := b.header.previous

def digestWord (d : Digest) (i : ℕ) : ℕ := (d.extractLsb' (64 * i) 64).toNat

/-- `sha256_less`: lexicographic on the four words. -/
def sha256Less (a b : Digest) : Bool :=
  [digestWord a 0, digestWord a 1, digestWord a 2, digestWord a 3] <
    [digestWord b 0, digestWord b 1, digestWord b 2, digestWord b 3]

def firstPreferred (lhs rhs : BlockState) : Prop :=
  rhs.dposIrreversibleBlocknum < lhs.dposIrreversibleBlocknum ∨
    lhs.dposIrreversibleBlocknum = rhs.dposIrreversibleBlocknum ∧ rhs.blockNum < lhs.blockNum

instance (lhs rhs : BlockState) : Decidable (firstPreferred lhs rhs) :=
  inferInstanceAs (Decidable (_ ∨ _))

def byLibBlockNumLess (a b : BlockState) : Bool :=
  if a.validated ≠ b.validated then a.validated
  else if firstPreferred a b then true
  else if firstPreferred b a then false
  else sha256Less a.id b.id

def firstByLibBlockNum : List BlockState → Option BlockState
  | [] => none
  | b :: rest =>
    match firstByLibBlockNum rest with
    | none => some b
    | some best => if byLibBlockNumLess best b then some best else some b

structure ForkDatabase where
  index : List BlockState
  root : BlockState
  head : BlockState
deriving DecidableEq

abbrev ForkM (α : Type) := Stateful ChainException ForkDatabase α

def forkAssert (c : Prop) [Decidable c] (kind : ExceptionKind) (message : String) : ForkM Unit :=
  lift (ineAssert c kind message)

namespace ForkDatabase

def getBlock (db : ForkDatabase) (id : BlockId) : Option BlockState :=
  db.index.find? fun b => b.id = id

def getBlockHeader (db : ForkDatabase) (id : BlockId) : Option BlockState :=
  if db.root.id = id then some db.root else db.getBlock id

def reset (root : BlockHeaderState) : ForkDatabase :=
  let root : BlockState := { root with validated := true }
  ⟨[], root, root⟩

def rollbackHeadToRoot : ForkM Unit :=
  modify fun db =>
    { db with index := db.index.map fun b => { b with validated := false }, head := db.root }

def incompatible : ChainException :=
  ⟨.forkDatabaseException,
    "serialized fork database is incompatible with configured protocol features"⟩

/-- The check of a block loaded from the file against the configured features. -/
def validateFeatures (validator : FeatureValidator) (prev n : BlockState) : Result Unit :=
  match featureActivation? n.headerExts with
  | none => pure ()
  | some features =>
    match validator n.header.timestamp prev.activatedProtocolFeatures features with
    | .ok () => pure ()
    | .error e => .error (e.rethrow incompatible)

/-- Index a new block.  The first of the index becomes head if it is validated. -/
def insertBlock (n : BlockState) (db : ForkDatabase) : ForkDatabase :=
  let index := db.index ++ [n]
  match firstByLibBlockNum index with
  | some candidate => { db with index, head := if candidate.validated then candidate else db.head }
  | none => { db with index }

def add (n : BlockState) (ignoreDuplicate validate : Bool) (validator : FeatureValidator) :
    ForkM Unit := do
  let db ← get
  match db.getBlockHeader n.prev with
  | none => throw ⟨.unlinkableBlockException, "unlinkable block"⟩
  | some prev => do
      lift (if validate then validateFeatures validator prev n else pure ())
      if (db.getBlock n.id).isSome then
        forkAssert ignoreDuplicate .forkDatabaseException "duplicate block added"
      else
        modify (insertBlock n)

/-- `pending_head`.  Among the unvalidated blocks the index order is that of
the whole index. -/
def pendingHead (db : ForkDatabase) : BlockState :=
  match firstByLibBlockNum (db.index.filter fun b => !b.validated) with
  | some b => if firstPreferred b db.head then b else db.head
  | none => db.head

/-- `remove`: the block with this id and everything built on it.  A queue that
never empties would end in `bad_alloc`. -/
def remove (id : BlockId) : ForkM Unit := do
  let db ← get
  match Forest.worklist (fun b : BlockState => b.id) BlockState.prev db.index db.head.id
      (db.index.length + 1) [id] with
  | .ok removeQueue =>
    modify fun db => { db with index := db.index.filter fun b => b.id ∉ removeQueue }
  | .error .stopped => throw ⟨.forkDatabaseException,
      "removing the block and its descendants would remove the current head block"⟩
  | .error .exhausted => throw ⟨.stdBadAlloc, "remove_queue"⟩

def setValidated (id : BlockId) (b : BlockState) : BlockState :=
  if b.id = id then { b with validated := true } else b

/-- Validate an indexed block.  The first of the index becomes head if it is
preferred to the old one. -/
def validateBlock (id : BlockId) (db : ForkDatabase) : ForkDatabase :=
  let index := db.index.map (setValidated id)
  match firstByLibBlockNum index with
  | some candidate =>
    { db with index, head := if firstPreferred candidate db.head then candidate else db.head }
  | none => { db with index }

def markValid (h : BlockState) : ForkM Unit :=
  if h.validated then pure ()
  else do
    let db ← get
    forkAssert (db.getBlock h.id).isSome .forkDatabaseException
      "block state not in fork database; cannot mark as valid"
    modify (validateBlock h.id)

/-- The loop of `advance_root` that walks down to the root: the ids of the
blocks below `b`.  A walk longer than the index does not end. -/
def blocksToRemove (db : ForkDatabase) : ℕ → BlockState → Result (List BlockId)
  | 0, _ => .error ⟨.stdBadAlloc, "blocks_to_remove"⟩
  | rounds + 1, b =>
    match db.getBlock b.prev with
    | some parent => do
        let below ← db.blocksToRemove rounds parent
        pure (b.prev :: below)
    | none => do
        ineAssert (b.prev = db.root.id) .forkDatabaseException
          "invariant violation: orphaned branch was present in forked database"
        pure [b.prev]

def removeAll : List BlockId → ForkM Unit
  | [] => pure ()
  | id :: ids => do
      remove id
      removeAll ids

def advanceRoot (id : BlockId) : ForkM Unit := do
  let db ← get
  match db.getBlock id with
  | none => throw ⟨.forkDatabaseException,
      "cannot advance root to a block that does not exist in the fork database"⟩
  | some newRoot => do
      forkAssert newRoot.validated .forkDatabaseException
        "cannot advance root to a block that has not yet been validated"
      let ids ← lift (db.blocksToRemove (db.index.length + 1) newRoot)
      -- the new root itself goes individually, so that what is built on it stays
      modify fun db => { db with index := db.index.filter fun b => b.id ≠ id }
      removeAll ids
      modify fun db => { db with root := newRoot }

end ForkDatabase

end Inery.Chain
