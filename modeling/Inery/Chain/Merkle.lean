import Inery.Chain.Types

/-!
# The incremental merkle tree (`incremental_merkle.hpp`, `merkle.cpp`)

A header state carries the merkle tree of all previous block ids.  Only
`append` and `get_root` touch it.  The hash of a pair is a parameter.
-/

namespace Inery.Chain

/-- `make_canonical_left`: clear the side bit. -/
def makeCanonicalLeft (d : Digest) : Digest := d &&& ~~~(0x80#256)

/-- `make_canonical_right`: set the side bit. -/
def makeCanonicalRight (d : Digest) : Digest := d ||| 0x80#256

/-- `DigestType::hash( make_canonical_pair( l, r ) )` over a pair hash. -/
def hashCanonicalPair (hashPair : Digest → Digest → Digest) (l r : Digest) : Digest :=
  hashPair (makeCanonicalLeft l) (makeCanonicalRight r)

def nextPowerOf2 (value : UInt64) : UInt64 :=
  let value := value - 1
  let value := value ||| (value >>> 1)
  let value := value ||| (value >>> 2)
  let value := value ||| (value >>> 4)
  let value := value ||| (value >>> 8)
  let value := value ||| (value >>> 16)
  let value := value ||| (value >>> 32)
  value + 1

def clzPower2 (value : UInt64) : ℕ :=
  let drop (mask : UInt64) (n : ℕ) : ℕ := if value &&& mask ≠ 0 then n else 0
  64 - (if value ≠ 0 then 1 else 0)
    - drop 0x00000000FFFFFFFF 32 - drop 0x0000FFFF0000FFFF 16
    - drop 0x00FF00FF00FF00FF 8 - drop 0x0F0F0F0F0F0F0F0F 4
    - drop 0x3333333333333333 2 - drop 0x5555555555555555 1

def calcluateMaxDepth (nodeCount : UInt64) : ℕ :=
  if nodeCount = 0 then 0 else clzPower2 (nextPowerOf2 nodeCount) + 1

structure IncrementalMerkle where
  nodeCount : UInt64 := 0
  activeNodes : List Digest := []
deriving DecidableEq, Repr

namespace IncrementalMerkle

/-- The loop of `append`, `depth` levels below the root.  `none` is a read
past the stored active nodes. -/
def collapse (hashPair : Digest → Digest → Digest) : ℕ → UInt64 → Bool →
    Digest → List Digest → List Digest → Option (Digest × List Digest)
  | 0, _, _, top, _, updated => some (top, updated)
  | depth + 1, index, isPartial, top, active, updated =>
    if index &&& 1 = 0 then
      -- a "left" value whose "right" value is implied
      collapse hashPair depth (index >>> 1) true
        (hashCanonicalPair hashPair top top) active
        (if isPartial then updated else updated ++ [top])
    else
      match active with
      | [] => none
      | left :: active =>
        collapse hashPair depth (index >>> 1) isPartial
          (hashCanonicalPair hashPair left top) active
          (if isPartial then updated ++ [left] else updated)

def append (hashPair : Digest → Digest → Digest) (m : IncrementalMerkle)
    (digest : Digest) : Option IncrementalMerkle :=
  let maxDepth := calcluateMaxDepth (m.nodeCount + 1)
  (collapse hashPair (maxDepth - 1) m.nodeCount false digest m.activeNodes []).map
    fun (top, updated) => ⟨m.nodeCount + 1, updated ++ [top]⟩

def getRoot (m : IncrementalMerkle) : Digest :=
  if m.nodeCount > 0 then m.activeNodes.getLastD 0 else 0

end IncrementalMerkle

end Inery.Chain
