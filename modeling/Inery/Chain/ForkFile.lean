import Inery.Chain.ForkInvariant
import Inery.Chain.Raw

/-!
# The file of the fork database (`fork_database.cpp`)

`close` writes the root, the blocks and the id of the head; `open` resets to the root, adds the
blocks one by one and looks the head up.  The blocks are written least preferred first, so that none
comes before its parent.  The decoded extensions of a header are not written: those of the blocks
are decoded again, those of the root are not.
-/

namespace Inery.Chain

open Foundation

/-- What the fork database takes from the blocks themselves: how they are
written, and the block behind a block state. -/
structure BlockFiles (β : Type) extends KeyFormats where
  block : Format β
  header : β → SignedBlockHeader
  contents : BlockState → β
  header_contents : ∀ b, header (contents b) = b.header

namespace ForkDatabase

def magicNumber : ℕ := 0x30510FDB

def minSupportedVersion : ℕ := 1

def maxSupportedVersion : ℕ := 1

/-! ## `close` -/

/-- The index `by_lib_block_num`, in its order. -/
def byLibBlockNum (index : List BlockState) : List BlockState :=
  index.insertionSort fun a b => byLibBlockNumLess b a = false

/-- The order in which the blocks are written.  In the index the validated
blocks come first; both runs are walked from their end. -/
def writeOrder (index : List BlockState) : List BlockState :=
  let indx := byLibBlockNum index
  let unvalidated := (indx.filter fun b => !b.validated).reverse
  let validated := (indx.filter fun b => b.validated).reverse
  validated.merge unvalidated fun v u => !decide (firstPreferred v u)

variable {β : Type} (files : BlockFiles β)

/-- `block_state`: the header state, the block and the flag. -/
def blockStateFormat : Format (ReflectedState × Option β × Bool) :=
  .prod files.blockHeaderState (.prod (.option files.block) .bool)

/-- What is written of a block state. -/
def stored (b : BlockState) : ReflectedState × Option β × Bool :=
  (b.toBlockHeaderState.reflect, some (files.contents b), b.validated)

/-- `close`: the bytes of the file.  `none` is a value that `fc::raw` does not
pack, such as a vector over the limit. -/
def close (db : ForkDatabase) : Option Bytes := do
  let totem ← (Format.uint 4).pack magicNumber
  let version ← (Format.uint 4).pack maxSupportedVersion
  let root ← files.blockHeaderState.pack db.root.toBlockHeaderState.reflect
  let size ← Format.varint.pack (u32 db.index.length)
  let blocks ← (blockStateFormat files).packMany ((writeOrder db.index).map (stored files))
  let headId ← digestFormat.pack db.head.id
  pure (totem ++ (version ++ (root ++ (size ++ (blocks ++ headId)))))

/-! ## `open` -/

def unpackFrom {α : Type} (f : Format α) (ds : Bytes) : Result (α × Bytes) :=
  match f.read ds with
  | some r => pure r
  | none => .error ⟨.otherChainException, "error unpacking"⟩

variable (validator : FeatureValidator)

/-- One round of the loop of `open`. -/
def loadBlock (db : ForkDatabase) (s : ReflectedState × Option β × Bool) :
    Result (ForkDatabase × β) :=
  match s.2.1 with
  | none => .error ⟨.undefinedBehaviour, "a block state without block"⟩
  | some block => do
      let headerExts ← (files.header block).validateAndExtractHeaderExtensions
      let n : BlockState := { s.1.1 with headerExts, validated := s.2.2 }
      match (add n false true validator).run db with
      | (.ok (), db) => pure (db, block)
      | (.error e, _) => .error e

/-- The loop of `open`: the rest of the stream, the database and the blocks. -/
def loadBlocks : ℕ → Bytes → ForkDatabase → Result (Bytes × ForkDatabase × List β)
  | 0, ds, db => pure (ds, db, [])
  | n + 1, ds, db => do
      let (s, ds) ← unpackFrom (blockStateFormat files) ds
      let (db, block) ← loadBlock files validator db s
      let (ds, db, blocks) ← loadBlocks n ds db
      pure (ds, db, block :: blocks)

def findHead (db : ForkDatabase) (headId : BlockId) : Result BlockState :=
  if db.root.id = headId then pure db.root
  else
    match db.getBlock headId with
    | some head => pure head
    | none => .error ⟨.forkDatabaseException,
        "could not find head while reconstructing fork database from file; '${filename}' is likely corrupted"⟩

def checkHead (db : ForkDatabase) : Result Unit :=
  if (firstByLibBlockNum db.index).any BlockState.validated then
    ineAssert (∀ candidate ∈ firstByLibBlockNum db.index, ¬ firstPreferred candidate db.head)
      .forkDatabaseException
      "head not set to best available option available; '${filename}' is likely corrupted"
  else
    ineAssert (db.head.id = db.root.id) .forkDatabaseException
      "head not set to root despite no better option available; '${filename}' is likely corrupted"

/-- `open` on the bytes of the file: the database and its blocks. -/
def openFile (content : Bytes) : Result (ForkDatabase × List β) := do
  let (totem, ds) ← unpackFrom (.uint 4) content
  ineAssert (totem = magicNumber) .forkDatabaseException
    "Fork database file '${filename}' has unexpected magic number: ${actual_totem}. Expected ${expected_totem}"
  let (version, ds) ← unpackFrom (.uint 4) ds
  ineAssert (minSupportedVersion ≤ version ∧ version ≤ maxSupportedVersion) .forkDatabaseException
    "Unsupported version of fork database file '${filename}'. Fork database version is ${version} while code supports version(s) [${min},${max}]"
  let (bhs, ds) ← unpackFrom files.blockHeaderState ds
  let (size, ds) ← unpackFrom .varint ds
  let (ds, db, blocks) ← loadBlocks files validator size ds (reset bhs.1)
  let (headId, _) ← unpackFrom digestFormat ds
  let head ← findHead db headId
  let db := { db with head }
  checkHead db
  pure (db, blocks)

end ForkDatabase

end Inery.Chain
