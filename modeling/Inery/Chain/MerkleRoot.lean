import Mathlib.Data.Nat.Size
import Inery.Chain.Merkle
import Inery.Foundation.PairTree

/-!
# Merkle roots (`merkle.cpp`, `incremental_merkle.hpp`)

`merkle` hashes a whole list, level by level, and doubles the last digest of every odd level.
`incremental_merkle` is given the digests one by one and keeps the frontier of the list; it works
the number of levels out with bit tricks on 64 bits.  The two agree on every list.
-/

namespace Inery.Chain

open Foundation List

/-! ## `merkle` -/

def merkle (hashPair : Digest → Digest → Digest) (ids : List Digest) : Digest :=
  match ids with
  | [] => 0
  | [id] => id
  | a :: b :: ids => merkle hashPair (padUp (hashCanonicalPair hashPair) (a :: b :: ids))
termination_by ids.length
decreasing_by
  rw [length_padUp]
  simp only [length_cons]
  omega

theorem merkle_of_two_le {hashPair : Digest → Digest → Digest} {ids : List Digest}
    (h : 2 ≤ ids.length) :
    merkle hashPair ids = merkle hashPair (padUp (hashCanonicalPair hashPair) ids) := by
  match ids, h with
  | a :: b :: ids, _ => rw [merkle]

theorem merkle_eq_rootAt (hashPair : Digest → Digest → Digest) {ids : List Digest} (h : ids ≠ []) :
    rootAt (hashCanonicalPair hashPair) (Nat.clog 2 ids.length) ids =
      some (merkle hashPair ids) := by
  induction hlen : ids.length using Nat.strong_induction_on generalizing ids with
  | h n ih =>
    subst hlen
    by_cases htwo : 2 ≤ ids.length
    · have hlength := length_padUp (f := hashCanonicalPair hashPair) ids
      rw [merkle_of_two_le htwo, Nat.clog_of_two_le (by decide) htwo, rootAt,
        ← ih (padUp (hashCanonicalPair hashPair) ids).length (by omega) (by
          rw [← length_pos_iff, hlength]
          omega) rfl, hlength]
      rfl
    · obtain ⟨id, rfl⟩ : ∃ id, ids = [id] := by
        rw [← length_eq_one_iff]
        have := length_pos_iff.mpr h
        omega
      rw [merkle]
      rfl

/-! ## The number of levels -/

/-- The bits of `w` smeared over the `k` positions below each. -/
def Smeared (w : ℕ) (k : ℕ) (v : ℕ) : Prop :=
  ∀ i, v.testBit i = true ↔ ∃ j < k, w.testBit (i + j) = true

theorem Smeared.double {w k v : ℕ} (h : Smeared w k v) : Smeared w (k + k) (v ||| v >>> k) := by
  intro i
  rw [Nat.testBit_or, Bool.or_eq_true, Nat.testBit_shiftRight, h i, h (k + i)]
  constructor
  · rintro (⟨j, hj, hbit⟩ | ⟨j, hj, hbit⟩)
    · exact ⟨j, by omega, hbit⟩
    · exact ⟨k + j, by omega, by rwa [show i + (k + j) = k + i + j by omega]⟩
  · rintro ⟨j, hj, hbit⟩
    by_cases hlow : j < k
    · exact .inl ⟨j, hlow, hbit⟩
    · exact .inr ⟨j - k, by omega, by rwa [show k + i + (j - k) = i + j by omega]⟩

/-- Smeared all the way down: ones up to the highest bit. -/
theorem Smeared.eq_pow {w v : ℕ} (hw : w < 2 ^ 64) (h : Smeared w 64 v) : v = 2 ^ w.size - 1 := by
  apply Nat.eq_of_testBit_eq
  intro i
  rw [Nat.testBit_two_pow_sub_one, Bool.eq_iff_iff, h i, decide_eq_true_eq]
  constructor
  · rintro ⟨j, -, hbit⟩
    have hle := Nat.ge_two_pow_of_testBit hbit
    have := Nat.lt_size.mpr hle
    omega
  · intro hi
    have hsize : w.size ≤ 64 := Nat.size_le.mpr hw
    have hlow : 2 ^ (w.size - 1) ≤ w := Nat.lt_size.mp (by omega)
    have hhigh : w < 2 ^ (w.size - 1 + 1) := by
      rw [show w.size - 1 + 1 = w.size by omega]
      exact Nat.lt_size_self w
    refine ⟨w.size - 1 - i, by omega, ?_⟩
    rw [show i + (w.size - 1 - i) = w.size - 1 by omega, Nat.testBit_eq_decide_div_mod_eq,
      decide_eq_true_eq]
    have hdiv : w / 2 ^ (w.size - 1) = 1 :=
      Nat.div_eq_of_lt_le (by omega) (by rw [pow_succ] at hhigh; omega)
    rw [hdiv]

theorem size_sub_one {n : ℕ} (hn : 0 < n) : (n - 1).size = Nat.clog 2 n := by
  refine eq_of_forall_ge_iff fun k => ?_
  rw [Nat.size_le, Nat.clog_le_iff_le_pow (by decide)]
  omega

variable {n : UInt64}

theorem toNat_nextPowerOf2 (hn : 0 < n.toNat) :
    (nextPowerOf2 n).toNat = 2 ^ Nat.clog 2 n.toNat % 2 ^ 64 := by
  have hsub : (n - 1).toNat = n.toNat - 1 := UInt64.toNat_sub_of_le n 1 (by
    rw [UInt64.le_iff_toNat_le]
    exact hn)
  -- after each line of the source the bits are smeared over twice as many positions
  have hstart : Smeared (n - 1).toNat 1 (n - 1).toNat := by
    intro i
    simp
  have hdouble : ∀ (v k : UInt64), k.toNat < 64 → Smeared (n - 1).toNat k.toNat v.toNat →
      Smeared (n - 1).toNat (k.toNat + k.toNat) (v ||| v >>> k).toNat := by
    intro v k hk hv
    rw [UInt64.toNat_or, UInt64.toNat_shiftRight, Nat.mod_eq_of_lt hk]
    exact hv.double
  have hall := hdouble _ 32 (by decide) (hdouble _ 16 (by decide) (hdouble _ 8 (by decide)
    (hdouble _ 4 (by decide) (hdouble _ 2 (by decide) (hdouble _ 1 (by decide) hstart)))))
  have hones := Smeared.eq_pow (UInt64.toNat_lt _) hall
  rw [hsub, size_sub_one hn] at hones
  show (_ + 1 : UInt64).toNat = _
  rw [UInt64.toNat_add, hones]
  have hpos : 0 < 2 ^ Nat.clog 2 n.toNat := Nat.two_pow_pos _
  rw [show 2 ^ Nat.clog 2 n.toNat - 1 + (1 : UInt64).toNat = 2 ^ Nat.clog 2 n.toNat by
    show 2 ^ Nat.clog 2 n.toNat - 1 + 1 = _
    omega]

theorem clzPower2_pow : ∀ k : Fin 64, clzPower2 (.ofNat (2 ^ k.val)) = k.val := by
  decide +kernel

/-- **The bit tricks count levels.** -/
theorem calcluateMaxDepth_eq (hn : 0 < n.toNat) : calcluateMaxDepth n = Nat.clog 2 n.toNat + 1 := by
  have hle : Nat.clog 2 n.toNat ≤ 64 := Nat.clog_le_of_le_pow (Nat.le_of_lt n.toNat_lt)
  have hne : n ≠ 0 := by
    rintro rfl
    exact absurd hn (by decide)
  rw [calcluateMaxDepth, if_neg hne]
  congr 1
  have hpow := toNat_nextPowerOf2 hn
  rcases Nat.lt_or_eq_of_le hle with hlt | heq
  · have hvalue : nextPowerOf2 n = .ofNat (2 ^ Nat.clog 2 n.toNat) := by
      apply UInt64.toNat.inj
      rw [hpow, UInt64.toNat_ofNat']
    rw [hvalue]
    exact clzPower2_pow ⟨_, hlt⟩
  · -- more than 2 ^ 63 digests: the power of two wraps around to 0
    have hvalue : nextPowerOf2 n = 0 := by
      apply UInt64.toNat.inj
      rw [hpow, heq]
      rfl
    rw [hvalue, heq]
    rfl

theorem toNat_next {k : ℕ} (hn : n.toNat = k) (hlt : k + 1 < 2 ^ 64) : (n + 1).toNat = k + 1 := by
  rw [UInt64.toNat_add, hn]
  exact Nat.mod_eq_of_lt hlt

theorem calcluateMaxDepth_next {k : ℕ} (hn : n.toNat = k) (hlt : k + 1 < 2 ^ 64) :
    calcluateMaxDepth (n + 1) - 1 = Nat.clog 2 (k + 1) := by
  have hcount := toNat_next hn hlt
  rw [calcluateMaxDepth_eq (by omega), hcount]
  rfl

/-! ## `append` -/

theorem land_one_eq_zero_iff (index : UInt64) : index &&& 1 = 0 ↔ index.toNat % 2 = 0 := by
  rw [← UInt64.toNat_inj, UInt64.toNat_and]
  show index.toNat &&& 1 = 0 ↔ _
  rw [Nat.and_one_is_mod]

theorem toNat_shiftRight_one (index : UInt64) : (index >>> 1).toNat = index.toNat / 2 := by
  rw [UInt64.toNat_shiftRight]
  show index.toNat >>> 1 = _
  rw [Nat.shiftRight_one]

namespace IncrementalMerkle

variable (hashPair : Digest → Digest → Digest)

theorem collapse_left {index : UInt64} (h : index.toNat % 2 = 0) (depth : ℕ) (isPartial : Bool)
    (top : Digest) (active updated : List Digest) :
    collapse hashPair (depth + 1) index isPartial top active updated =
      collapse hashPair depth (index >>> 1) true (hashCanonicalPair hashPair top top) active
        (if isPartial then updated else updated ++ [top]) :=
  if_pos ((land_one_eq_zero_iff index).mpr h)

theorem collapse_right {index : UInt64} (h : index.toNat % 2 = 1) (depth : ℕ) (isPartial : Bool)
    (top left : Digest) (active updated : List Digest) :
    collapse hashPair (depth + 1) index isPartial top (left :: active) updated =
      collapse hashPair depth (index >>> 1) isPartial (hashCanonicalPair hashPair left top) active
        (if isPartial then updated ++ [left] else updated) :=
  if_neg (by rw [land_one_eq_zero_iff]; omega)

/-- **The loop of `append` stays inside the frontier.**  Given the frontier of the digests so far it
computes the root of the longer list, and what it collects is the frontier of that list, or the old
one once the path has left the last complete subtree. -/
theorem collapse_frontier (depth : ℕ) (ids : List Digest) (index : UInt64)
    (hindex : index.toNat = ids.length) (hlt : ids.length < 2 ^ depth) (isPartial : Bool)
    (top : Digest) (rest updated : List Digest) :
    ∃ root, rootAt (hashCanonicalPair hashPair) depth (ids ++ [top]) = some root ∧
      collapse hashPair depth index isPartial top
          (pairFrontier (hashCanonicalPair hashPair) depth ids ++ rest) updated
        = some (root, updated ++
          if isPartial then pairFrontier (hashCanonicalPair hashPair) depth ids
            else pairFrontier (hashCanonicalPair hashPair) depth (ids ++ [top])) := by
  induction depth generalizing ids index isPartial top updated with
  | zero =>
    obtain rfl : ids = [] := length_eq_zero_iff.mp (by omega)
    refine ⟨top, rfl, ?_⟩
    cases isPartial <;> simp [collapse, pairFrontier]
  | succ depth ih =>
    have hshift := toNat_shiftRight_one index
    rw [pow_succ] at hlt
    rcases Nat.mod_two_eq_zero_or_one ids.length with heven | hodd
    · -- the new node is a left one and is paired with itself
      obtain ⟨root, hroot, hrun⟩ := ih (pairUp (hashCanonicalPair hashPair) ids) (index >>> 1)
        (by rw [length_pairUp]; omega) (by rw [length_pairUp]; omega) true
        (hashCanonicalPair hashPair top top)
        (if isPartial then updated else updated ++ [top])
      refine ⟨root, by rw [rootAt, padUp_append heven]; exact hroot, ?_⟩
      rw [collapse_left hashPair (by omega), frontier_succ_of_even heven, hrun,
        frontier_succ_append heven]
      cases isPartial <;> simp
    · -- the new node is a right one: its left neighbour is the lowest frontier value
      obtain ⟨ids, left, rfl⟩ : ∃ front left, ids = front ++ [left] :=
        ⟨_, _, (dropLast_append_getLast (by rintro rfl; simp at hodd)).symm⟩
      simp only [length_append, length_singleton] at hindex hlt hodd
      have heven : ids.length % 2 = 0 := by omega
      obtain ⟨root, hroot, hrun⟩ := ih (pairUp (hashCanonicalPair hashPair) ids) (index >>> 1)
        (by rw [length_pairUp]; omega) (by rw [length_pairUp]; omega) isPartial
        (hashCanonicalPair hashPair left top)
        (if isPartial then updated ++ [left] else updated)
      have happend : ids ++ [left] ++ [top] = ids ++ [left, top] := by simp
      refine ⟨root, by rw [rootAt, happend, padUp_append heven]; exact hroot, ?_⟩
      have hpair : (ids ++ [left, top]).length % 2 = 0 := by simp; omega
      rw [happend, frontier_succ_append heven, frontier_succ_of_even hpair,
        pairUp_append_pair heven, cons_append, collapse_right hashPair (by omega), hrun]
      cases isPartial <;> simp

/-- What is stored for a list of digests: its frontier below the root, and the root. -/
structure Stores (ids : List Digest) (m : IncrementalMerkle) : Prop where
  nodeCount : m.nodeCount.toNat = ids.length
  activeNodes : m.activeNodes = if ids = [] then [] else
    pairFrontier (hashCanonicalPair hashPair) (Nat.clog 2 ids.length) ids ++ [merkle hashPair ids]

theorem stores_nil : Stores hashPair [] {} := ⟨rfl, rfl⟩

variable {hashPair} {ids : List Digest} {m : IncrementalMerkle} (h : Stores hashPair ids m)
include h

/-- The stored nodes, seen from the depth of the longer list: at a power of two the root
has become the last frontier value. -/
theorem Stores.activeNodes_next : ∃ rest, m.activeNodes
      = pairFrontier (hashCanonicalPair hashPair) (Nat.clog 2 (ids.length + 1)) ids ++ rest := by
  rcases eq_or_ne ids [] with rfl | hne
  · exact ⟨[], by rw [h.activeNodes]; rfl⟩
  rw [h.activeNodes, if_neg hne]
  by_cases hpow : ids.length = 2 ^ Nat.clog 2 ids.length
  · refine ⟨[], ?_⟩
    have hnext : Nat.clog 2 (ids.length + 1) = Nat.clog 2 ids.length + 1 := by
      refine le_antisymm ?_ ((Nat.clog_lt_clog_succ_iff (by decide)).mpr hpow.symm)
      apply Nat.clog_le_of_le_pow
      have := Nat.two_pow_pos (Nat.clog 2 ids.length)
      rw [pow_succ]
      omega
    rw [hnext, frontier_of_pow hpow, merkle_eq_rootAt hashPair hne]
    simp
  · refine ⟨[merkle hashPair ids], ?_⟩
    rw [(Nat.clog_eq_clog_succ_iff (by decide)).mpr (Ne.symm hpow)]

/-- **Step.**  `append` goes from what is stored for a list to what is stored for the longer
list, and reads only stored nodes. -/
theorem Stores.append (hlt : ids.length + 1 < 2 ^ 64) (digest : Digest) :
    ∃ m', m.append hashPair digest = some m' ∧ Stores hashPair (ids ++ [digest]) m' := by
  have hcount := toNat_next h.nodeCount hlt
  have hdepth := calcluateMaxDepth_next h.nodeCount hlt
  obtain ⟨rest, hactive⟩ := h.activeNodes_next
  obtain ⟨root, hroot, hrun⟩ := collapse_frontier hashPair (Nat.clog 2 (ids.length + 1)) ids
    m.nodeCount h.nodeCount (Nat.le_pow_clog (by decide) _) false digest rest []
  have hlength : (ids ++ [digest]).length = ids.length + 1 := by simp
  have hmerkle : root = merkle hashPair (ids ++ [digest]) := by
    have hroot' : rootAt (hashCanonicalPair hashPair) (Nat.clog 2 (ids ++ [digest]).length)
        (ids ++ [digest]) = some (merkle hashPair (ids ++ [digest])) :=
          merkle_eq_rootAt hashPair (by simp)
    rw [hlength, hroot] at hroot'
    exact Option.some.inj hroot'
  refine ⟨⟨m.nodeCount + 1, pairFrontier (hashCanonicalPair hashPair) (Nat.clog 2 (ids.length + 1))
    (ids ++ [digest]) ++ [root]⟩, ?_, ?_, ?_⟩
  · rw [IncrementalMerkle.append, hdepth, hactive, hrun]
    rfl
  · rw [hlength]
    exact hcount
  · rw [if_neg (by simp), hlength, hmerkle]

omit h

variable (hashPair) in
/-- **Run.**  Appending a whole list. -/
theorem stores_foldlM (ids : List Digest) (h : ids.length < 2 ^ 64) :
    ∃ m : IncrementalMerkle, ids.foldlM (append hashPair) {} = some m ∧ Stores hashPair ids m := by
  induction ids using reverseRecOn with
  | nil => exact ⟨{}, rfl, stores_nil hashPair⟩
  | append_singleton ids digest ih =>
    rw [length_append, length_singleton] at h
    obtain ⟨m, hrun, hm⟩ := ih (by omega)
    obtain ⟨m', happend, hm'⟩ := hm.append h digest
    refine ⟨m', ?_, hm'⟩
    rw [foldlM_append, hrun]
    simp [happend]

include h

theorem Stores.getRoot : m.getRoot = merkle hashPair ids := by
  rcases eq_or_ne ids [] with rfl | hne
  · have hzero : m.nodeCount = 0 := UInt64.toNat.inj h.nodeCount
    rw [getRoot, hzero, merkle]
    rfl
  · have hpos : m.nodeCount > 0 := by
      rw [gt_iff_lt, UInt64.lt_iff_toNat_lt, h.nodeCount]
      exact length_pos_iff.mpr hne
    rw [IncrementalMerkle.getRoot, if_pos hpos, h.activeNodes, if_neg hne]
    simp

/-- The number of stored nodes: the root, and one for each binary digit 1 of the number of
digests below the level of the root. -/
theorem Stores.length_activeNodes (hne : ids ≠ []) :
    m.activeNodes.length = (range (calcluateMaxDepth m.nodeCount - 1)).countP
      (fun i => m.nodeCount.toNat.testBit i) + 1 := by
  have hpos := length_pos_iff.mpr hne
  rw [h.activeNodes, if_neg hne, length_append, length_frontier, length_singleton,
    calcluateMaxDepth_eq (by rw [h.nodeCount]; exact hpos), h.nodeCount]
  rfl

theorem Stores.length_activeNodes_le : m.activeNodes.length ≤ calcluateMaxDepth m.nodeCount := by
  rcases eq_or_ne ids [] with rfl | hne
  · rw [h.activeNodes]
    exact Nat.zero_le _
  · have hpos := length_pos_iff.mpr hne
    have hle := countP_le_length (p := fun i => m.nodeCount.toNat.testBit i)
      (l := range (calcluateMaxDepth m.nodeCount - 1))
    rw [h.length_activeNodes hne]
    rw [length_range] at hle
    have hdepth := calcluateMaxDepth_eq (n := m.nodeCount) (by rw [h.nodeCount]; exact hpos)
    omega

/-- The next `append` takes a stored node at each right turn of its path; that many are
there, also where the tree grows by a level. -/
theorem Stores.reads_le (hlt : ids.length + 1 < 2 ^ 64) :
    (range (calcluateMaxDepth (m.nodeCount + 1) - 1)).countP
      (fun i => m.nodeCount.toNat.testBit i) ≤ m.activeNodes.length := by
  obtain ⟨rest, hactive⟩ := h.activeNodes_next
  rw [calcluateMaxDepth_next h.nodeCount hlt, hactive, length_append, length_frontier, h.nodeCount]
  exact Nat.le_add_right _ _

omit h

/-- **The incremental root is the merkle root.**  Appending the digests of a vector one by one never
reads past the stored nodes; the root is `merkle` of the vector; the stored nodes are the root and
one node per binary digit 1 below it, never more than the levels `calcluate_max_depth` counts, and
enough for the path of the next `append`. -/
theorem incremental_root_eq_merkle (hashPair : Digest → Digest → Digest) (ids : List Digest)
    (h : ids.length < 2 ^ 64) :
    ∃ m : IncrementalMerkle, ids.foldlM (append hashPair) {} = some m ∧
      m.getRoot = merkle hashPair ids ∧
      m.nodeCount.toNat = ids.length ∧
      (m.activeNodes.length = if ids = [] then 0 else
        (range (calcluateMaxDepth m.nodeCount - 1)).countP
          (fun i => ids.length.testBit i) + 1) ∧
      m.activeNodes.length ≤ calcluateMaxDepth m.nodeCount ∧
      (ids.length + 1 < 2 ^ 64 → (range (calcluateMaxDepth (m.nodeCount + 1) - 1)).countP
          (fun i => ids.length.testBit i) ≤ m.activeNodes.length) := by
  obtain ⟨m, hrun, hm⟩ := stores_foldlM hashPair ids h
  have hcount := hm.nodeCount
  refine ⟨m, hrun, hm.getRoot, hcount, ?_, hm.length_activeNodes_le, ?_⟩
  · by_cases hnil : ids = []
    · rw [if_pos hnil, hm.activeNodes, if_pos hnil, length_nil]
    · rw [if_neg hnil, ← hcount]
      exact hm.length_activeNodes hnil
  · rw [← hcount]
    intro hlt
    exact hm.reads_le (hcount ▸ hlt)

theorem incremental_root_eq_merkle_five :
    ([1, 2, 3, 4, 5] : List Digest).length < 2 ^ 64 ∧
      ∃ m : IncrementalMerkle, ([1, 2, 3, 4, 5] : List Digest).foldlM
          (append fun l r => l + 1000 * r) {} = some m ∧
        m.getRoot = merkle (fun l r => l + 1000 * r) [1, 2, 3, 4, 5] ∧
        m.nodeCount.toNat = 5 := by
  obtain ⟨m, hrun, hroot, hcount, -⟩ :=
    incremental_root_eq_merkle (fun l r => l + 1000 * r) [1, 2, 3, 4, 5] (by decide)
  exact ⟨by decide, m, hrun, hroot, hcount⟩

end IncrementalMerkle

end Inery.Chain
