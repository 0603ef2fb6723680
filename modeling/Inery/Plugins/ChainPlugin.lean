import Inery.Chain.Permissions
import Inery.Chain.ProtocolFeatures

/-!
# Queries of the chain plugin

`account_query_db.cpp` indexes permissions by the time of their last update, to roll them back
with their blocks.  `chain_plugin.cpp` lists the activated protocol features.
-/

namespace Inery.Plugins

open Chain List

/-- An entry of `permission_info_index`, with what the bimaps have for it. -/
structure PermissionInfo where
  level : PermissionLevel
  lastUpdated : ℤ
  threshold : UInt32 := 0
  accounts : List PermissionLevelWeight := []
  keys : List KeyWeight := []

/-- The entry for a permission of the database. -/
def PermissionInfo.of (level : PermissionLevel) (po : PermissionRow) : PermissionInfo :=
  ⟨level, po.lastUpdated, po.auth.threshold, po.auth.accounts, po.auth.keys⟩

/-- The order of `by_last_updated`, from its end. -/
abbrev Later := Order.Preimage PermissionInfo.lastUpdated (· ≥ ·)

structure InfoIndex where
  entries : List PermissionInfo
  sorted : entries.Pairwise Later

variable (db : PermissionLevel → Option PermissionRow) (t : ℤ)

/-- `rollback_to_before` the time `t`, if it looks at fewer than `rounds` entries; `db` is
`by_owner` of the database. -/
def rollbackToBefore : ℕ → List PermissionInfo → Option (List PermissionInfo)
  | 0, _ => none
  | _ + 1, [] => some []
  | rounds + 1, pi :: index =>
    if pi.lastUpdated < t then some (pi :: index)
    else match db pi.level with
      | none => rollbackToBefore rounds index
      -- the entry moves to the place of its new time
      | some po => rollbackToBefore rounds (index.orderedInsert Later (.of pi.level po))

/-- An entry to be rolled back to a permission that is no older. -/
def Stuck (pi : PermissionInfo) : Prop :=
  t ≤ pi.lastUpdated ∧ ∃ po, db pi.level = some po ∧ t ≤ po.lastUpdated

variable {db t} {rounds : ℕ} {pi : PermissionInfo} {index : List PermissionInfo}

theorem exists_rollbackToBefore (h : ∀ pi ∈ index, ¬ Stuck db t pi)
    (hrounds : index.countP (fun pi => t ≤ pi.lastUpdated) < rounds) :
    ∃ rest, rollbackToBefore db t rounds index = some rest := by
  induction rounds generalizing index with
  | zero => cases hrounds
  | succ rounds ih =>
    match index with
    | [] => exact ⟨[], rfl⟩
    | pi :: index =>
      rw [forall_mem_cons] at h
      rw [rollbackToBefore]
      split
      · exact ⟨_, rfl⟩
      · next hlate =>
        rw [countP_cons_of_pos (by simpa using hlate), Nat.succ_lt_succ_iff] at hrounds
        split
        · exact ih h.2 hrounds
        · next po hpo =>
          have holder : ¬ t ≤ (PermissionInfo.of pi.level po).lastUpdated :=
            fun hle => h.1 ⟨not_lt.mp hlate, po, hpo, hle⟩
          have hperm := perm_orderedInsert Later (.of pi.level po) index
          refine ih (fun pi' hpi' => ?_) ?_
          · rcases mem_cons.mp (hperm.subset hpi') with rfl | hmem
            · exact fun hstuck => holder hstuck.1
            · exact h.2 pi' hmem
          · rwa [hperm.countP_eq, countP_cons_of_neg (by simpa using holder)]

/-- A stuck entry comes back to the end of the index. -/
theorem rollbackToBefore_of_stuck (hsorted : index.Pairwise Later) (hpi : pi ∈ index)
    (h : Stuck db t pi) (rounds : ℕ) : rollbackToBefore db t rounds index = none := by
  induction rounds generalizing index pi with
  | zero => rfl
  | succ rounds ih =>
    match index with
    | [] => cases hpi
    | last :: index =>
      rw [pairwise_cons] at hsorted
      have hlate : t ≤ last.lastUpdated := by
        rcases mem_cons.mp hpi with rfl | hmem
        · exact h.1
        · exact h.1.trans (hsorted.1 pi hmem)
      rw [rollbackToBefore, if_neg (not_lt.mpr hlate)]
      split
      · next hnone =>
        rcases mem_cons.mp hpi with rfl | hmem
        · obtain ⟨-, po, hpo, -⟩ := h
          cases hnone.symm.trans hpo
        · exact ih hsorted.2 hmem h
      · next po hpo =>
        have hsorted' := hsorted.2.orderedInsert (.of last.level po) index
        rcases mem_cons.mp hpi with rfl | hmem
        · obtain ⟨-, po', hpo', hle⟩ := h
          cases hpo.symm.trans hpo'
          exact ih hsorted' ((mem_orderedInsert _).mpr (.inl rfl)) ⟨hle, po, hpo, hle⟩
        · exact ih hsorted' ((mem_orderedInsert _).mpr (.inr hmem)) h

/-- **The rollback ends exactly if each late entry has an older permission or none**: each is then
handled once. -/
theorem rollback_ends_iff (db : PermissionLevel → Option PermissionRow) (t : ℤ)
    (index : InfoIndex) :
    (∃ rest, rollbackToBefore db t (index.entries.countP (t ≤ ·.lastUpdated) + 1)
      index.entries = some rest) ↔ ∀ pi ∈ index.entries, ¬ Stuck db t pi := by
  constructor
  · rintro ⟨rest, hrun⟩ pi hpi hstuck
    rw [rollbackToBefore_of_stuck index.sorted hpi hstuck] at hrun
    cases hrun
  · intro h
    exact exists_rollbackToBefore h (Nat.lt_succ_self _)

/-- A permission that was last updated in the block that is committed. -/
theorem rollback_does_not_end : ¬ ∃ rounds rest,
    rollbackToBefore (fun _ => some { lastUpdated := 5 }) 5 rounds [⟨⟨1, 2⟩, 5, 1, [], []⟩] =
      some rest := by
  rintro ⟨rounds, rest, h⟩
  refine Option.some_ne_none rest (h.symm.trans ?_)
  apply rollbackToBefore_of_stuck (pairwise_singleton _ _) mem_cons_self
  exact ⟨le_rfl, _, rfl, le_rfl⟩

/-! ## Activated protocol features -/

/-- A feature, the block of its activation, and its ordinal. -/
abbrev Activated := (Digest × ℕ) × ℕ

/-- The manager's features; blocks come in ascending order. -/
structure ActivatedFeatures extends ProtocolFeatureManager where
  ascending : activatedProtocolFeatures.Pairwise (·.2 ≤ ·.2)

namespace ActivatedFeatures

variable (m : ActivatedFeatures)

def entries : List Activated := m.activatedProtocolFeatures.zipIdx

/-! Iterators are positions, `cend` is the length. -/

def atActivationOrdinal (ordinal : ℕ) : ℕ :=
  if m.entries.length ≤ ordinal then m.entries.length else ordinal

def lowerBound (blockNum : ℕ) : ℕ := m.entries.findIdx (blockNum ≤ ·.1.2)

def upperBound (blockNum : ℕ) : ℕ := m.entries.findIdx (blockNum < ·.1.2)

def getNextIfNotEnd (itr : ℕ) : ℕ := if itr = m.entries.length then itr else itr + 1

/-- What `walk_range` finds at an iterator. -/
def peek (convert : ℕ → ℕ) (endItr itr : ℕ) : Option Activated :=
  if itr = endItr then none else m.entries[convert itr]?

/-- `walk_range`, for as many rounds as the limit and the clock allow. -/
def walkRange (next convert : ℕ → ℕ) (endItr : ℕ) : ℕ → ℕ → List Activated × Option Activated
  | 0, itr => ([], m.peek convert endItr itr)
  | rounds + 1, itr =>
    match m.peek convert endItr itr with
    | none => ([], none)
    | some entry =>
      let rest := walkRange next convert endItr rounds (next itr)
      (entry :: rest.1, rest.2)

end ActivatedFeatures

/-- The parameters that choose the features. -/
structure FeatureQuery where
  lowerBound : Option ℕ := none
  upperBound : Option ℕ := none
  searchByBlockNum : Bool := false
  reverse : Bool := false

namespace FeatureQuery

variable (q : FeatureQuery)

def lower : ℕ := q.lowerBound.getD 0

def upper : ℕ := q.upperBound.getD (2 ^ 32 - 1)

def lowerItr (m : ActivatedFeatures) : ℕ :=
  if q.searchByBlockNum then m.lowerBound q.lower else m.atActivationOrdinal q.lower

def upperItr (m : ActivatedFeatures) : ℕ :=
  if q.searchByBlockNum then m.upperBound q.lower
  else m.getNextIfNotEnd (m.atActivationOrdinal q.upper)

/-- The features and the entry whose ordinal is `more`. -/
def getActivatedProtocolFeatures (m : ActivatedFeatures) (rounds : ℕ) :
    List Activated × Option Activated :=
  if q.upper < q.lower then ([], none)
  else if q.reverse then m.walkRange (· - 1) (· - 1) (q.lowerItr m) rounds (q.upperItr m)
  else m.walkRange (· + 1) id (q.upperItr m) rounds (q.lowerItr m)

def key (entry : Activated) : ℕ := if q.searchByBlockNum then entry.1.2 else entry.2

/-- The features from the lower bound to `last`. -/
def upTo (m : ActivatedFeatures) (last : ℕ) : List Activated :=
  let found := m.entries.filter fun entry => q.lower ≤ q.key entry && q.key entry ≤ last
  if q.reverse then found.reverse else found

end FeatureQuery

variable {m : ActivatedFeatures} {q : FeatureQuery}

/-- The walk goes over the positions `pos 0`, `pos 1`, … -/
theorem walkRange_eq {next convert : ℕ → ℕ} {endItr : ℕ} (pos : ℕ → ℕ)
    (hpos : ∀ i, pos (i + 1) = next (pos i)) (rounds : ℕ) {found : List Activated}
    (h : ∀ i ≤ found.length, m.peek convert endItr (pos i) = found[i]?) :
    m.walkRange next convert endItr rounds (pos 0) = (found.take rounds, found[rounds]?) := by
  induction rounds generalizing pos found with
  | zero => exact congrArg (Prod.mk []) (h 0 (Nat.zero_le _))
  | succ rounds ih =>
    rw [ActivatedFeatures.walkRange, h 0 (Nat.zero_le _), ← hpos]
    cases found with
    | nil => rfl
    | cons entry found =>
      rw [ih _ (fun i => hpos (i + 1)) fun i hi => h (i + 1) (Nat.succ_le_succ hi)]
      rfl

/-- In a list that ascends, the entries between two keys are a segment. -/
theorem filter_between {α : Type} {key : α → ℕ} {l : List α} (h : l.Pairwise (key · ≤ key ·))
    (lower upper : ℕ) :
    l.filter (fun a => lower ≤ key a && key a ≤ upper) =
      (l.take (l.findIdx (upper < key ·))).drop (l.findIdx (lower ≤ key ·)) := by
  induction l with
  | nil => rfl
  | cons a l ih =>
    obtain ⟨hle, h⟩ := pairwise_cons.mp h
    specialize ih h
    rw [findIdx_cons, findIdx_cons, filter_cons]
    rcases lt_or_ge upper (key a) with hupper | hupper
    · have hnone : ∀ b ∈ l, upper < key b := fun b hb => hupper.trans_le (hle b hb)
      simp +contextual [hupper, hupper.not_ge, hnone]
    rcases le_or_gt lower (key a) with hlower | hlower
    · have hzero : l.findIdx (lower ≤ key ·) = 0 := by
        cases l with
        | nil => rfl
        | cons b l => simp [findIdx_cons, hlower.trans (hle b mem_cons_self)]
      simp [hupper, hupper.not_gt, hlower, hzero, ih]
    · simp [hupper.not_gt, hlower.not_ge, ih]

theorem ActivatedFeatures.findIdx_ordinal (m : ActivatedFeatures) (ordinal : ℕ) :
    m.entries.findIdx (ordinal ≤ ·.2) = min ordinal m.entries.length := by
  by_cases h : ordinal < m.entries.length
  · rw [min_eq_left h.le, findIdx_eq h]
    simp [entries]
  · rw [min_eq_right (not_lt.mp h), findIdx_eq_length]
    grind [entries, length_zipIdx]

/-- By block number, the upper bound is not looked at. -/
def FeatureQuery.reach (q : FeatureQuery) : ℕ := if q.searchByBlockNum then q.lower else q.upper

theorem get_eq (h : q.lower ≤ q.upper) (rounds : ℕ) : q.getActivatedProtocolFeatures m rounds =
    ((q.upTo m q.reach).take rounds, (q.upTo m q.reach)[rounds]?) := by
  rw [FeatureQuery.getActivatedProtocolFeatures, if_neg (not_lt.mpr h)]
  have hsorted : m.entries.Pairwise (q.key · ≤ q.key ·) := by
    unfold FeatureQuery.key
    split
    · have hasc := m.ascending
      rwa [← zipIdx_map_fst 0 m.activatedProtocolFeatures, pairwise_map] at hasc
    · apply pairwise_map.mp
      change (m.entries.map Prod.snd).Pairwise (· ≤ ·)
      rw [ActivatedFeatures.entries, zipIdx_map_snd]
      exact pairwise_le_range'
  have hlower : q.lowerItr m = m.entries.findIdx (q.lower ≤ q.key ·) := by
    unfold FeatureQuery.lowerItr FeatureQuery.key
    split
    · rfl
    · rw [m.findIdx_ordinal, ActivatedFeatures.atActivationOrdinal]
      grind
  have hupper : q.upperItr m = m.entries.findIdx (q.reach < q.key ·) := by
    unfold FeatureQuery.upperItr FeatureQuery.key FeatureQuery.reach
    split
    · rfl
    · refine .trans ?_ (m.findIdx_ordinal (q.upper + 1)).symm
      unfold ActivatedFeatures.getNextIfNotEnd ActivatedFeatures.atActivationOrdinal
      grind
  have hle : m.entries.findIdx (q.lower ≤ q.key ·) ≤ m.entries.findIdx (q.reach < q.key ·) := by
    have hreach : q.lower ≤ q.reach := by grind [FeatureQuery.reach]
    by_contra! hlt
    have hupper := findIdx_getElem (w := hlt.trans_le findIdx_le_length)
    have hlower := not_of_lt_findIdx hlt
    grind
  have hlen : m.entries.findIdx (q.reach < q.key ·) ≤ m.entries.length := findIdx_le_length
  rw [hlower, hupper]
  simp only [FeatureQuery.upTo, filter_between hsorted]
  generalize m.entries.findIdx (q.lower ≤ q.key ·) = lower at *
  generalize m.entries.findIdx (q.reach < q.key ·) = upper at *
  split
  · refine walkRange_eq (upper - ·) (fun _ => rfl) rounds fun i hi => ?_
    rw [ActivatedFeatures.peek]
    grind
  · refine walkRange_eq (lower + ·) (fun _ => rfl) rounds fun i hi => ?_
    rw [ActivatedFeatures.peek]
    grind

theorem mem_upTo {last : ℕ} {entry : Activated} : entry ∈ q.upTo m last ↔
    entry ∈ m.entries ∧ q.lower ≤ q.key entry ∧ q.key entry ≤ last := by
  unfold FeatureQuery.upTo
  split <;> simp

/-- **A query by ordinal returns what lies between its bounds; one by block number does only if
no feature was activated above the lower bound.** -/
theorem activated_features_iff (m : ActivatedFeatures) (q : FeatureQuery) :
    (∀ rounds, q.getActivatedProtocolFeatures m rounds =
      ((q.upTo m q.upper).take rounds, (q.upTo m q.upper)[rounds]?)) ↔
    (q.searchByBlockNum → ∀ entry ∈ m.entries, q.lower < entry.1.2 → q.upper < entry.1.2) := by
  rcases le_or_gt q.lower q.upper with hle | hlt
  · simp only [get_eq hle]
    constructor
    · intro h hblock entry hentry hlower
      by_contra! hupper
      have hkey : q.key entry = entry.1.2 := if_pos hblock
      have hmem : entry ∈ q.upTo m q.upper := mem_upTo.mpr ⟨hentry, hkey ▸ hlower.le, hkey ▸ hupper⟩
      rw [← ext_getElem? fun i => congrArg Prod.snd (h i), mem_upTo] at hmem
      have hreach : q.reach = q.lower := if_pos hblock
      omega
    · intro h rounds
      have hfilter : ∀ entry ∈ m.entries, (q.lower ≤ q.key entry && q.key entry ≤ q.reach) =
          (q.lower ≤ q.key entry && q.key entry ≤ q.upper) := by
        grind [FeatureQuery.key, FeatureQuery.reach]
      simp only [FeatureQuery.upTo, filter_congr hfilter]
  · have hnil : q.upTo m q.upper = [] := by
      refine eq_nil_iff_forall_not_mem.mpr fun entry hentry => ?_
      have := (mem_upTo.mp hentry).2
      omega
    rw [hnil]
    simp only [FeatureQuery.getActivatedProtocolFeatures, if_pos hlt]
    simp
    omega

def twoFeatures : ActivatedFeatures := ⟨⟨[(0, 1), (1, 2)], fun _ => {}, none⟩, by decide⟩

def blocksOneToTwo : FeatureQuery := ⟨some 1, some 2, true, false⟩

/-- The feature of block 2 is left out. -/
theorem activated_features_upper_bound :
    blocksOneToTwo.upTo twoFeatures 2 = [((0, 1), 0), ((1, 2), 1)] ∧
    blocksOneToTwo.getActivatedProtocolFeatures twoFeatures 10 = ([((0, 1), 0)], none) := by
  decide

end Inery.Plugins
