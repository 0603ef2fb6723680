import Inery.Chain.ForkBranches

/-!
# What the operations of the fork database do

On a reachable fork database `fetch_branch_from` finds the lowest common ancestor, `advance_root`
along the branch of the head keeps exactly what is built on the new root, and failed operations
change nothing, except that `advance_root` to a validated block off that branch has erased the block
when it throws.  `add` chooses the head by the full order of the index, ids included, while
`mark_valid` keeps the old head on a tie.
-/

namespace Inery.Chain

open Foundation List Stateful ForkDatabase ForkOp

variable {db : ForkDatabase} {a b c n x y : BlockState} {id k : BlockId}
  {index l : List BlockState}

/-! ## The lowest common ancestor -/

/-- `c` is on both branches, and every block on both is `c` or below it. -/
structure LowestCommonAncestor (db : ForkDatabase) (c x y : BlockState) : Prop where
  known : db.Known c
  left : Below db.index c.id x.id
  right : Below db.index c.id y.id
  lowest : ∀ k, Below db.index k x.id → Below db.index k y.id → Below db.index k c.id

/-- Branches that share no block end in the lowest common ancestor. -/
theorem ForkInv.lowestCommonAncestor {first second : List BlockState} (hinv : ForkInv db)
    (hc : db.Known c) (hfirst : Branch db c first x) (hsecond : Branch db c second y)
    (hdisj : ∀ b ∈ first, b ∉ second) : LowestCommonAncestor db c x y := by
  refine ⟨hc, hfirst.descends, hsecond.descends, fun k hx hy => ?_⟩
  rcases hinv.below_branch hfirst hx with ⟨z, hz, rfl⟩ | hbelow
  · rcases hinv.below_branch hsecond hy with ⟨w, hw, hid⟩ | hbelow
    · have hzw : w = z := hinv.eq_of_id (hsecond.mem hw) (hfirst.mem hz) hid
      exact absurd (hzw ▸ hw) (hdisj z hz)
    · exact hbelow
  · exact hbelow

/-- **Branches from two blocks.** For any two blocks that are indexed or the root,
`fetch_branch_from` returns their branches down to the lowest common ancestor, which is on neither;
they share no block, and one is empty exactly when its block is the other or an ancestor of it. -/
theorem fetch_branch_from_paths (hdb : ForkReachable db) (hx : db.Known x) (hy : db.Known y) :
    ∃ c first second, db.fetchBranchFrom x.id y.id = .ok (first, second) ∧
      LowestCommonAncestor db c x y ∧ Branch db c first x ∧ Branch db c second y ∧
      (first.Pairwise fun newer older => older.blockNum < newer.blockNum) ∧
      (second.Pairwise fun newer older => older.blockNum < newer.blockNum) ∧
      first.Disjoint second ∧
      (first = [] ↔ Below db.index x.id y.id) ∧ (second = [] ↔ Below db.index y.id x.id) := by
  have hinv := hdb.inv
  obtain ⟨c, first, second, hok, hc, hfirst, hsecond, hdisj⟩ := hinv.fetchBranchFrom_spec hx hy
  have hdisj' : ∀ b ∈ second, b ∉ first := fun b hb hb' => hdisj b hb' hb
  exact ⟨c, first, second, hok, hinv.lowestCommonAncestor hc hfirst hsecond hdisj, hfirst, hsecond,
    hfirst.pairwise, hsecond.pairwise, fun b hb hb' => hdisj b hb hb',
    hinv.second_eq_nil_iff hx hc hsecond hfirst hdisj',
    hinv.second_eq_nil_iff hy hc hfirst hsecond hdisj⟩

theorem fetch_branch_from_paths_twoBranches :
    ∃ c first second, twoBranches.fetchBranchFrom 4 2 = .ok (first, second) ∧
      LowestCommonAncestor twoBranches c (plainBlock 4 3 3 1) (plainBlock 2 1 2 0) ∧
      first.Disjoint second := by
  obtain ⟨c, first, second, hok, hlca, -, -, -, -, hdisj, -, -⟩ :=
    fetch_branch_from_paths forkReachable_twoBranches (x := plainBlock 4 3 3 1)
      (y := plainBlock 2 1 2 0) (.inr (by decide)) (.inr (by decide))
  exact ⟨c, first, second, hok, hlca, hdisj⟩

/-! ## Advancing the root along the branch of the head -/

/-- **Advancing the root.** For every indexed validated block that the head is or is built on,
`advance_root` succeeds; the block is then the root, the head is as before, and the index holds
exactly the blocks built on the new root, as they were. -/
theorem advance_root_keeps_descendants (hdb : ForkReachable db) {r : BlockState}
    (hr : r ∈ db.index) (hvalid : r.validated = true) (hhead : Below db.index r.id db.head.id) :
    ∃ db', (ForkDatabase.advanceRoot r.id).run db = (.ok (), db') ∧ db'.root = r ∧
      db'.head = db.head ∧ db'.index.Nodup ∧
      ∀ b, b ∈ db'.index ↔ b ∈ db.index ∧ b.id ≠ r.id ∧ Below db.index r.id b.id := by
  obtain ⟨index', hrun, hsub, hmem⟩ := hdb.inv.advanceRoot_ok hr hvalid hhead
  exact ⟨_, hrun, rfl, rfl, hsub.nodup (.of_map _ hdb.inv.nodup), hmem⟩

theorem advance_root_keeps_descendants_twoBranches :
    ∃ db', (ForkDatabase.advanceRoot 3).run twoBranches = (.ok (), db') ∧ db'.root.id = 3 ∧
      plainBlock 4 3 3 1 ∈ db'.index := by
  have hr : { plainBlock 3 1 2 1 with validated := true } ∈ twoBranches.index := by decide
  obtain ⟨db', hrun, hroot, -, -, hmem⟩ :=
    advance_root_keeps_descendants forkReachable_twoBranches hr rfl .refl
  refine ⟨db', hrun, congrArg (fun b => b.id) hroot, (hmem _).mpr ⟨by decide, by decide, ?_⟩⟩
  exact .child (n := plainBlock 4 3 3 1) .refl (by decide)

/-- The root is a validated block that the head is built on, but it is not in the index. -/
theorem advance_root_to_root_throws :
    ForkReachable twoBranches ∧ twoBranches.root.validated = true ∧
    Below twoBranches.index twoBranches.root.id twoBranches.head.id ∧
    ((ForkDatabase.advanceRoot twoBranches.root.id).run twoBranches).1 =
      .error ⟨.forkDatabaseException,
        "cannot advance root to a block that does not exist in the fork database"⟩ :=
  ⟨forkReachable_twoBranches, rfl,
    .child (n := { plainBlock 3 1 2 1 with validated := true }) .refl (by decide), by decide⟩

/-! ## Failed operations -/

/-- While the head is built on a block that is to be removed, the removals throw. -/
theorem ForkDatabase.removeAll_throws {rank : BlockId → ℕ} {ids : List BlockId}
    (hforest : Forest.IsForest (fun b : BlockState => b.id) BlockState.prev rank db.index)
    (hk : k ∈ ids) (hhead : Below db.index k db.head.id) :
    ∃ e index', (removeAll ids).run db = (.error e, { db with index := index' }) ∧
      index'.Sublist db.index := by
  induction ids generalizing db with
  | nil => cases hk
  | cons id ids ih =>
    unfold removeAll
    rcases remove_run hforest id with ⟨-, e, hrun⟩ | ⟨hnot, index', hpruned, hrun⟩
    · exact ⟨e, db.index, run_bind_error hrun, Sublist.refl _⟩
    · rw [run_bind_ok hrun]
      have hk' : k ∈ ids := by
        rcases mem_cons.mp hk with rfl | hk
        · exact absurd hhead hnot
        · exact hk
      -- what leads from `k` to the head is not in the pruned subtree
      have hhead' : Below index' k db.head.id :=
        hhead.of_not_descends (fun b hb hcut => (hpruned.2 b).mpr ⟨hb, hcut⟩) hnot
      obtain ⟨e, index'', hrest, hsub⟩ :=
        @ih { db with index := index' } (hforest.sublist hpruned.1) hk' hhead'
      exact ⟨e, index'', hrest, hsub.trans hpruned.1⟩

theorem ForkInv.below_root_head (hinv : ForkInv db) : Below db.index db.root.id db.head.id := by
  rcases hinv.head with hroot | ⟨hmem, -⟩
  · rw [hroot]
    exact .refl
  · exact (hinv.below_root hmem).1

/-- Off the branch of the head, `advance_root` throws when the new root is already
erased. -/
theorem ForkInv.advanceRoot_off_branch (hinv : ForkInv db) {r : BlockState} (hr : r ∈ db.index)
    (hvalid : r.validated = true) (hhead : ¬ Below db.index r.id db.head.id) :
    ∃ e db', (ForkDatabase.advanceRoot r.id).run db = (.error e, db') ∧ r ∉ db'.index := by
  obtain ⟨ids, hroot, -, heq⟩ := hinv.advanceRoot_eq hr hvalid
  have hcut : Below (db.index.filter fun b => b.id ≠ r.id) db.root.id db.head.id := by
    refine hinv.below_root_head.of_not_descends (fun b hb hnot => ?_) hhead
    refine mem_filter.mpr ⟨hb, decide_eq_true fun hid => hnot ?_⟩
    rw [hid]
    exact .refl
  obtain ⟨e, index', hrun, hsub⟩ := removeAll_throws
    (show Forest.IsForest (fun b : BlockState => b.id) BlockState.prev db.rank
      ({ db with index := db.index.filter fun b => b.id ≠ r.id } : ForkDatabase).index from
        hinv.isForest.sublist filter_sublist) hroot hcut
  refine ⟨e, { db with index := index' }, ?_, fun hmem => ?_⟩
  · rw [heq, run_bind_error hrun]
  · have hne := (mem_filter.mp (hsub.subset hmem)).2
    exact absurd rfl (of_decide_eq_true hne)

/-- **Failed operations.** An operation that throws leaves the fork database as it was,
unless it is `advance_root` to a validated block that the head is not built on: then, and
only then, it does not. -/
theorem failed_operation_unchanged_iff (hdb : ForkReachable db) (op : ForkOp)
    {e : ChainException} {db' : ForkDatabase} (hrun : op.run db = (.error e, db')) :
    db' = db ↔ ∀ r ∈ db.index, r.validated = true → op = .advanceRoot r.id →
      Below db.index r.id db.head.id := by
  have hinv := hdb.inv
  have hsame : db' = db ∨ ∃ id, op = .advanceRoot id := by
    cases op with
    | reset root => cases hrun
    | add n ignoreDuplicate =>
      obtain ⟨hstate, hok⟩ := db.add_run n ignoreDuplicate
      rw [hrun] at hstate hok
      split at hstate
      · next hinsert => cases hok hinsert.1 hinsert.2
      · exact .inl hstate
    | markValid h =>
      rcases markValid_cases h with hrun' | ⟨e', hrun'⟩ | ⟨b, -, hrun'⟩
      all_goals
        rw [ForkOp.run, hrun'] at hrun
        cases hrun
      exact .inl rfl
    | remove id =>
      rcases remove_run hinv.isForest id with ⟨-, e', hrun'⟩ | ⟨-, index', -, hrun'⟩
      · rw [ForkOp.run, hrun'] at hrun
        cases hrun
        exact .inl rfl
      · rw [ForkOp.run, hrun'] at hrun
        cases hrun
    | advanceRoot id => exact .inr ⟨id, rfl⟩
    | rollbackHeadToRoot => cases hrun
  constructor
  · rintro rfl r hr hvalid rfl
    by_contra hhead
    obtain ⟨e', db'', hrun', hgone⟩ := hinv.advanceRoot_off_branch hr hvalid hhead
    rw [ForkOp.run, hrun'] at hrun
    cases hrun
    exact hgone hr
  · intro hbranch
    rcases hsame with hsame | ⟨id, rfl⟩
    · exact hsame
    · rw [ForkOp.run] at hrun
      rcases db.advanceRoot_cases id with ⟨e', hrun'⟩ | ⟨r, hr, rfl, hvalid⟩
      · rw [hrun'] at hrun
        cases hrun
        rfl
      · obtain ⟨index', hrun', -⟩ := hinv.advanceRoot_ok hr hvalid (hbranch r hr hvalid rfl)
        rw [hrun'] at hrun
        cases hrun

/-- Two validated blocks over block 1 that neither is preferred to; block 3 was validated
first and is the head. -/
def tiedBlocks : ForkDatabase :=
  let root := (plainBlock 1 0 1 0).toBlockHeaderState
  let ops : List ForkOp := [.add (plainBlock 3 1 2 0) false, .add (plainBlock 2 1 2 0) false,
    .markValid (plainBlock 3 1 2 0), .markValid (plainBlock 2 1 2 0)]
  ops.foldl (fun db op => (run db op).2) (reset root)

theorem forkReachable_tiedBlocks : ForkReachable tiedBlocks := by
  refine ⟨(plainBlock 1 0 1 0).toBlockHeaderState, ?_⟩
  refine .tail (.tail (.tail (.tail .refl ⟨.add (plainBlock 3 1 2 0) false, ?_, rfl⟩)
    ⟨.add (plainBlock 2 1 2 0) false, ?_, rfl⟩) ⟨.markValid (plainBlock 3 1 2 0), trivial, rfl⟩)
    ⟨.markValid (plainBlock 2 1 2 0), trivial, rfl⟩
  all_goals
    refine ⟨by decide, by decide, ?_⟩
    intro p hp
    cases hp
    exact ⟨by decide, by decide, by decide⟩

/-- Advancing the root to block 2 throws, since block 3 is the head, and block 2 is gone. -/
theorem advance_root_loses_block :
    ForkReachable tiedBlocks ∧ tiedBlocks.index.map (·.id) = [3, 2] ∧
      (ForkOp.run tiedBlocks (.advanceRoot 2)).1 = .error ⟨.forkDatabaseException,
        "removing the block and its descendants would remove the current head block"⟩ ∧
      (ForkOp.run tiedBlocks (.advanceRoot 2)).2.index.map (·.id) = [3] :=
  ⟨forkReachable_tiedBlocks, by decide, by decide, by decide⟩

theorem failed_operation_unchanged_remove_head :
    (ForkOp.run tiedBlocks (.remove 3)).2 = tiedBlocks := by
  have hrun : run tiedBlocks (.remove 3) = (.error _, (run tiedBlocks (.remove 3)).2) := rfl
  exact (failed_operation_unchanged_iff forkReachable_tiedBlocks (.remove 3) hrun).mpr nofun

/-! ## Ties between validated blocks -/

theorem digestWord_ext {d d' : Digest} (h : ∀ i < 4, digestWord d i = digestWord d' i) :
    d = d' := by
  ext j hj
  have hword := congrArg (fun w => w.testBit (j % 64)) (h (j / 64) (by omega))
  simp only [digestWord, BitVec.testBit_toNat, BitVec.getLsbD_extractLsb'] at hword
  have hpos : 64 * (j / 64) + j % 64 = j := Nat.div_add_mod j 64
  have hlt : j % 64 < 64 := Nat.mod_lt _ (by omega)
  simpa [hpos, hlt, BitVec.getLsbD_eq_getElem hj] using hword

theorem ForkInv.eq_of_not_less (hinv : ForkInv db) (ha : a ∈ db.index) (hb : b ∈ db.index)
    (hab : ¬ byLibBlockNumLess a b = true) (hba : ¬ byLibBlockNumLess b a = true) : a = b := by
  rw [byLibBlockNumLess_iff_lt, not_lt] at hab hba
  have heq := le_antisymm hba hab
  simp only [BlockState.orderKey, EmbeddingLike.apply_eq_iff_eq, Prod.mk.injEq, cons.injEq,
    and_true] at heq
  refine hinv.eq_of_id ha hb (digestWord_ext fun i hi => ?_)
  rcases i with _ | _ | _ | _ | i
  · exact heq.2.2.2.1
  · exact heq.2.2.2.2.1
  · exact heq.2.2.2.2.2.1
  · exact heq.2.2.2.2.2.2
  · omega

theorem ForkInv.insertBlock_head_iff (hinv : ForkInv db) (hn : n.validated = false) :
    (db.insertBlock n).head = db.head ↔
      ∀ b ∈ db.index, b.validated = true → ¬ byLibBlockNumLess b db.head = true := by
  obtain ⟨candidate, hcand⟩ := firstByLibBlockNum_isSome (mem_append_right db.index
    (mem_singleton.mpr (rfl : n = n)))
  obtain ⟨hmem, hfirst⟩ := firstByLibBlockNum_first hcand
  have hhead : (db.insertBlock n).head = if candidate.validated then candidate else db.head := by
    simp only [ForkDatabase.insertBlock, hcand]
  rw [hhead]
  cases hv : candidate.validated with
  | false =>
    -- nothing is validated
    simp only [Bool.false_eq_true, if_false, true_iff]
    intro b hb hvb
    have hcandidate := (not_byLibBlockNumLess_spec (hfirst b (mem_append_left _ hb))).1 hvb
    rw [hv] at hcandidate
    cases hcandidate
  | true =>
    simp only [if_true]
    have hindexed : candidate ∈ db.index := by
      rcases mem_append.mp hmem with hmem | hmem
      · exact hmem
      · rw [mem_singleton.mp hmem, hn] at hv
        cases hv
    constructor
    · rintro rfl b hb -
      exact hfirst b (mem_append_left _ hb)
    · intro hnone
      rcases hinv.head with hroot | ⟨hheadmem, -⟩
      · rw [hinv.not_validated_of_head_eq_root hroot hindexed] at hv
        cases hv
      · exact hinv.eq_of_not_less hindexed hheadmem (hnone _ hindexed hv)
          (hfirst _ (mem_append_left _ hheadmem))

/-- **Adding a block that is not validated.** It keeps the head exactly if it is not
inserted, or no validated block comes before the head in the order of the index, in
which ties are broken by id. -/
theorem add_unvalidated_keeps_head_iff (hdb : ForkReachable db) (hn : n.validated = false)
    (ignoreDuplicate : Bool) :
    (ForkOp.run db (.add n ignoreDuplicate)).2.head = db.head ↔
      ((db.getBlockHeader n.prev).isSome → db.getBlock n.id = none →
        ∀ b ∈ db.index, b.validated = true → ¬ byLibBlockNumLess b db.head = true) := by
  rw [(db.add_run n ignoreDuplicate).1]
  split
  · next hinsert =>
    rw [hdb.inv.insertBlock_head_iff hn]
    exact ⟨fun h _ _ => h, fun h => h hinsert.1 hinsert.2⟩
  · next hrefused =>
    exact ⟨fun _ hprev hfresh => absurd ⟨hprev, hfresh⟩ hrefused, fun _ => rfl⟩

/-- Blocks 2 and 3 are tied and block 3 is the head; a new block on top of it makes
block 2 the head. -/
theorem add_unvalidated_moves_head :
    ForkReachable tiedBlocks ∧ (plainBlock 4 3 3 0).validated = false ∧ tiedBlocks.head.id = 3 ∧
      (ForkOp.run tiedBlocks (.add (plainBlock 4 3 3 0) false)).2.head.id = 2 :=
  ⟨forkReachable_tiedBlocks, rfl, by decide, by decide⟩

theorem add_unvalidated_keeps_head_twoBranches :
    (ForkOp.run twoBranches (.add (plainBlock 5 4 4 1) false)).2.head = twoBranches.head := by
  refine (add_unvalidated_keeps_head_iff forkReachable_twoBranches rfl false).mpr fun _ _ => ?_
  decide

/-! ## Walks down to the root -/

theorem ForkInv.walk_branch (hinv : ForkInv db) (hbranch : Branch db db.root l b) (num : ℕ)
    {rounds : ℕ} (hrounds : l.length ≤ rounds) :
    db.fetchBranchAux num (rounds + 1) b.id = .ok (l.filter (·.blockNum ≤ num)) ∧
      db.searchOnBranchAux num (rounds + 1) b.id = l.find? (·.blockNum = num) := by
  induction hbranch generalizing rounds with
  | nil =>
    rw [fetchBranchAux, searchOnBranchAux, getBlock_eq_none.mpr hinv.root_fresh]
    exact ⟨rfl, rfl⟩
  | cons _ hfol hb ih =>
    cases rounds with
    | zero => cases hrounds
    | succ rounds =>
      rw [fetchBranchAux, searchOnBranchAux, hinv.getBlock hb]
      simp only [← hfol.link, ih (Nat.le_of_succ_le_succ hrounds), find?_cons, filter_cons]
      constructor
      · simp
      · split <;> simp_all

/-- **Walks.** Both take the branch down to the root. -/
theorem fetch_and_search_branch (hdb : ForkReachable db) (hb : db.Known b) :
    ∃ l, Branch db db.root l b ∧ ∀ num,
      db.fetchBranch b.id num = .ok (l.filter (·.blockNum ≤ num)) ∧
      db.searchOnBranch b.id num = l.find? (·.blockNum = num) := by
  obtain ⟨l, hl⟩ := hdb.inv.exists_branch hb
  exact ⟨l, hl, fun num => hdb.inv.walk_branch hl num hl.length_le⟩

theorem fetch_and_search_branch_twoBranches :
    ∃ l, Branch twoBranches twoBranches.root l (plainBlock 4 3 3 1) ∧
      twoBranches.fetchBranch 4 2 = .ok (l.filter (·.blockNum ≤ 2)) := by
  obtain ⟨l, hl, hwalks⟩ := fetch_and_search_branch forkReachable_twoBranches
    (b := plainBlock 4 3 3 1) (.inr (by decide))
  exact ⟨l, hl, (hwalks 2).1⟩

end Inery.Chain
