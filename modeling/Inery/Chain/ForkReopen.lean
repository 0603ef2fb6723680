import Inery.Chain.ForkFile

/-!
# Reopening the fork database

What `close` writes, `open` loads: every block is linked and new when it is added, because the file
is ordered by preference, and no validated block is preferred to the head.  Two things are not there
again: the decoded extensions of the root, and a database that `advance_root` has left without the
parent of a block.
-/

namespace Inery.Chain

open Foundation List Stateful ForkDatabase Option

variable {db db' : ForkDatabase} {a b n p root : BlockState} {index : List BlockState}

/-! ## The states that are written -/

/-- What a caller guarantees: the id of a block carries its number, its
extensions are decoded, it follows its parent, and the root advances to the head
or an ancestor of it. -/
def ForkOp.Linked (db : ForkDatabase) : ForkOp → Prop
  | .reset root => numFromId root.id = root.blockNum
  | .add n _ => numFromId n.id = n.blockNum ∧
      n.header.validateAndExtractHeaderExtensions = .ok n.headerExts ∧
      ∀ p, db.getBlockHeader n.prev = some p → Follows p n
  | .advanceRoot id => Below db.index id db.head.id
  | _ => True

/-- The states that such operations reach from a reset, whether they return or
throw. -/
inductive ForkBuilt : ForkDatabase → Prop
  | reset {root : BlockHeaderState} : numFromId root.id = root.blockNum → ForkBuilt (reset root)
  | step {db : ForkDatabase} {op : ForkOp} : ForkBuilt db → op.Linked db →
      ForkBuilt (ForkOp.run db op).2

/-- A block whose id carries its number and whose extensions are decoded. -/
structure WellMade (b : BlockHeaderState) : Prop where
  numbered : numFromId b.id = b.blockNum
  extracted : b.header.validateAndExtractHeaderExtensions = .ok b.headerExts

/-- What `close` relies on. -/
structure Storable (db : ForkDatabase) : Prop extends ForkInv db where
  blocks : ∀ b ∈ db.index, WellMade b.toBlockHeaderState
  root_numbered : numFromId db.root.id = db.root.blockNum
  root_validated : db.root.validated = true

theorem storable_reset {root : BlockHeaderState} (hroot : numFromId root.id = root.blockNum) :
    Storable (reset root) :=
  { forkInv_reset root with
    blocks := nofun
    root_numbered := hroot
    root_validated := rfl }

variable (h : Storable db)
include h

theorem Storable.of_frame (hinv : ForkInv db') (hroot : db'.root = db.root)
    (hindex : ∀ b' ∈ db'.index, ∃ b ∈ db.index, b'.toBlockHeaderState = b.toBlockHeaderState) :
    Storable db' := by
  refine { hinv with blocks := ?_, root_numbered := ?_, root_validated := ?_ }
  · intro b' hb'
    obtain ⟨b, hb, heq⟩ := hindex b' hb'
    rw [heq]
    exact h.blocks b hb
  · rw [hroot]
    exact h.root_numbered
  · rw [hroot]
    exact h.root_validated

omit h

@[simp] theorem ForkDatabase.insertBlock_index (n : BlockState) (db : ForkDatabase) :
    (db.insertBlock n).index = db.index ++ [n] := by
  simp only [insertBlock]
  split <;> rfl

@[simp] theorem ForkDatabase.insertBlock_root (n : BlockState) (db : ForkDatabase) :
    (db.insertBlock n).root = db.root := by
  simp only [insertBlock]
  split <;> rfl

@[simp] theorem ForkDatabase.validateBlock_index (id : BlockId) (db : ForkDatabase) :
    (db.validateBlock id).index = db.index.map (setValidated id) := by
  simp only [validateBlock]
  split <;> rfl

@[simp] theorem ForkDatabase.validateBlock_root (id : BlockId) (db : ForkDatabase) :
    (db.validateBlock id).root = db.root := by
  simp only [validateBlock]
  split <;> rfl

theorem ForkDatabase.add_run_new {ignoreDuplicate validate : Bool}
    {validator : FeatureValidator}
    (hparent : db.getBlockHeader n.prev = some p) (hnew : db.getBlock n.id = none)
    (hfeatures : (if validate then validateFeatures validator p n else pure ()) = .ok ()) :
    (add n ignoreDuplicate validate validator).run db = (.ok (), db.insertBlock n) := by
  unfold add
  rw [run_get_bind, hparent]
  simp only [hfeatures, hnew]
  rfl

include h

theorem Storable.add {ignoreDuplicate : Bool} (hop : ForkOp.Linked db (.add n ignoreDuplicate)) :
    Storable (ForkOp.run db (.add n ignoreDuplicate)).2 := by
  obtain ⟨hnum, hextracted, hfollows⟩ := hop
  rw [(db.add_run n ignoreDuplicate).1]
  split
  swap
  · exact h
  · next hinsert =>
    obtain ⟨p, hparent⟩ := isSome_iff_exists.mp hinsert.1
    obtain ⟨hp, -⟩ := getBlockHeader_eq_some hparent
    have hfol := hfollows p hparent
    -- the number in the id of the block is above the one in the id of the root
    have hroot : n.id ≠ db.root.id := by
      intro hid
      have hle : db.root.blockNum ≤ p.blockNum := by
        rcases hp with rfl | hp
        · exact le_refl _
        · exact (h.below_root hp).2.2.le
      have hnumber := hfol.blockNum
      rw [← hnum, hid, h.root_numbered] at hnumber
      omega
    have hinv := h.toForkInv.insertBlock hp hfol hroot (getBlock_eq_none.mp hinsert.2)
    refine { hinv with blocks := ?_, root_numbered := ?_, root_validated := ?_ }
    · intro b hb
      rw [insertBlock_index, mem_append, mem_singleton] at hb
      rcases hb with hb | rfl
      · exact h.blocks b hb
      · exact ⟨hnum, hextracted⟩
    · rw [insertBlock_root]
      exact h.root_numbered
    · rw [insertBlock_root]
      exact h.root_validated

theorem Storable.markValid (b : BlockState) : Storable ((markValid b).run db).2 := by
  rcases markValid_cases b with hrun | ⟨e, hrun⟩ | ⟨b, hb, hrun⟩
  all_goals rw [hrun]
  · exact h
  · exact h
  · refine h.of_frame (h.toForkInv.validateBlock hb) (validateBlock_root _ _) fun b' hb' => ?_
    rw [validateBlock_index] at hb'
    obtain ⟨c, hc, rfl⟩ := mem_map.mp hb'
    exact ⟨c, hc, setValidated_frame _ c⟩

theorem Storable.remove (id : BlockId) : Storable ((remove id).run db).2 := by
  have hinv := h.toForkInv.remove id
  rcases remove_run h.isForest id with ⟨-, e, hrun⟩ | ⟨-, index', hpruned, hrun⟩
  · rw [hrun]
    exact h
  · rw [hrun] at hinv ⊢
    exact h.of_frame hinv rfl fun b hb => ⟨b, hpruned.1.subset hb, rfl⟩

theorem Storable.advanceRoot {id : BlockId} (hhead : Below db.index id db.head.id) :
    Storable ((advanceRoot id).run db).2 := by
  have hinv := h.toForkInv.advanceRoot hhead
  rcases db.advanceRoot_cases id with ⟨e, hrun⟩ | ⟨r, hr, rfl, hvalid⟩
  · rw [hrun]
    exact h
  · obtain ⟨index', hrun, hsub, -⟩ := h.toForkInv.advanceRoot_ok hr hvalid hhead
    rw [hrun] at hinv ⊢
    exact { hinv with
      blocks := fun b hb => h.blocks b (hsub.subset hb)
      root_numbered := (h.blocks r hr).numbered
      root_validated := hvalid }

omit h

theorem ForkBuilt.storable (h : ForkBuilt db) : Storable db := by
  induction h with
  | reset hroot => exact storable_reset hroot
  | @step db op _ hop ih =>
    cases op with
    | reset root => exact storable_reset hop
    | add n ignoreDuplicate => exact ih.add hop
    | markValid b => exact ih.markValid b
    | remove id => exact ih.remove id
    | advanceRoot id => exact ih.advanceRoot hop
    | rollbackHeadToRoot =>
      refine ih.of_frame ih.toForkInv.rollbackHeadToRoot rfl fun b' hb' => ?_
      obtain ⟨b, hb, rfl⟩ := mem_map.mp hb'
      exact ⟨b, hb, rfl⟩

/-! ## The order of the file -/

/-- The order of the index but for the ids: validated blocks first, then by
preference. -/
def Before (a b : BlockState) : Prop :=
  (b.validated → a.validated) ∧ (b.validated = a.validated → ¬ firstPreferred b a)

instance : Std.Total fun a b => byLibBlockNumLess b a = false where
  total a b := by
    simp only [← Bool.not_eq_true, byLibBlockNumLess_iff_lt, not_lt]
    exact le_total _ _

instance : IsTrans BlockState fun a b => byLibBlockNumLess b a = false where
  trans a b c hab hbc := by
    simp only [← Bool.not_eq_true, byLibBlockNumLess_iff_lt, not_lt] at *
    exact hab.trans hbc

theorem pairwise_byLibBlockNum (index : List BlockState) : (byLibBlockNum index).Pairwise Before :=
  (pairwise_insertionSort _ index).imp fun h => not_byLibBlockNumLess_spec (by simp [h])

/-- Not preferred, as the merge compares. -/
abbrev notPreferred (a b : BlockState) : Bool := !decide (firstPreferred a b)

/-- One run of the file: blocks with one flag, walked from the end. -/
theorem pairwise_run (index : List BlockState) (flag : BlockState → Bool) (v : Bool)
    (hflag : ∀ b, flag b = true → b.validated = v) :
    (((byLibBlockNum index).filter flag).reverse).Pairwise
      fun a b => notPreferred a b = true := by
  rw [pairwise_reverse]
  refine ((pairwise_byLibBlockNum index).filter flag).imp_of_mem ?_
  intro a b ha hb hbefore
  have hv : b.validated = a.validated := by
    rw [hflag a (mem_filter.mp ha).2, hflag b (mem_filter.mp hb).2]
  simpa using hbefore.2 hv

theorem pairwise_writeOrder (index : List BlockState) :
    (writeOrder index).Pairwise fun a b => ¬ firstPreferred a b := by
  have htrans : ∀ a b c, notPreferred a b = true → notPreferred b c = true →
      notPreferred a c = true := by
    intro a b c hab hbc
    rw [Bool.not_eq_true', decide_eq_false_iff_not] at *
    exact not_firstPreferred_trans hab hbc
  have htotal : ∀ a b, (notPreferred a b || notPreferred b a) = true := by
    intro a b
    rw [Bool.or_eq_true, Bool.not_eq_true', Bool.not_eq_true', decide_eq_false_iff_not,
      decide_eq_false_iff_not]
    by_cases hab : firstPreferred a b
    · exact .inr (not_firstPreferred_of_firstPreferred hab)
    · exact .inl hab
  have hmerged := pairwise_merge htrans htotal _ _
    (pairwise_run index (fun b => b.validated) true fun _ h => h)
    (pairwise_run index (fun b => !b.validated) false fun _ h => by simpa using h)
  exact hmerged.imp fun h => by simpa using h

theorem perm_writeOrder (index : List BlockState) : (writeOrder index).Perm index := by
  refine (merge_perm_append _).trans ?_
  refine ((reverse_perm _).append (reverse_perm _)).trans ?_
  refine (filter_append_perm (fun b : BlockState => b.validated) _).trans ?_
  exact perm_insertionSort _ index

/-- Each of the blocks finds its parent among those loaded before it, and none
with its id. -/
def Loadable (root : BlockState) : List BlockState → List BlockState → Prop
  | _, [] => True
  | loaded, b :: rest => (∃ p, (p = root ∨ p ∈ loaded) ∧ p.id = b.prev) ∧
      b.id ∉ loaded.map (·.id) ∧ Loadable root (loaded ++ [b]) rest

theorem loadable_of_pairwise {written : List BlockState} (hids : (written.map (·.id)).Nodup)
    (hordered : written.Pairwise fun a b => ¬ firstPreferred a b)
    (hlinked : ∀ b ∈ written, root.id = b.prev ∨ ∃ p ∈ written, Follows p b)
    {loaded rest : List BlockState} (hsplit : loaded ++ rest = written) :
    Loadable root loaded rest := by
  induction rest generalizing loaded with
  | nil => trivial
  | cons b rest ih =>
    have hb : b ∈ written := by rw [← hsplit]; simp
    refine ⟨?_, ?_, ih (by rw [← hsplit, append_assoc]; rfl)⟩
    · rcases hlinked b hb with hroot | ⟨p, hp, hfol⟩
      · exact ⟨root, .inl rfl, hroot⟩
      · refine ⟨p, .inr ?_, hfol.link⟩
        rw [← hsplit, mem_append, mem_cons] at hp
        -- a block is preferred to its parent, so the parent is not behind it
        have hpreferred : firstPreferred b p := by
          have hnum := hfol.blockNum
          have hirr := hfol.irreversible
          unfold firstPreferred
          omega
        rcases hp with hp | rfl | hp
        · exact hp
        · exact absurd hpreferred (not_firstPreferred_of_firstPreferred hpreferred)
        · rw [← hsplit, pairwise_append] at hordered
          exact absurd hpreferred ((pairwise_cons.mp hordered.2.1).1 p hp)
    · rw [← hsplit, map_append, nodup_append] at hids
      intro hmem
      exact hids.2.2 _ hmem _ (mem_map_of_mem mem_cons_self) rfl

/-! ## Loading -/

section Loading

variable {β : Type} {files : BlockFiles β} {validator : FeatureValidator}

/-- The validator refuses features that one of the blocks activates over those of its parent,
which is reported as `e`. -/
def FeaturesRefused (validator : FeatureValidator) (root : BlockState) (blocks : List BlockState)
    (e : ChainException) : Prop :=
  ∃ b ∈ blocks, ∃ p, (p = root ∨ p ∈ blocks) ∧ p.id = b.prev ∧
    ∃ features cause, featureActivation? b.headerExts = some features ∧
      validator b.header.timestamp p.activatedProtocolFeatures features = .error cause ∧
      e = cause.rethrow incompatible

variable {e : ChainException}

theorem FeaturesRefused.mono {blocks blocks' : List BlockState} (hsub : blocks ⊆ blocks')
    (h : FeaturesRefused validator root blocks e) : FeaturesRefused validator root blocks' e := by
  obtain ⟨b, hb, p, hp, hrefused⟩ := h
  exact ⟨b, hsub hb, p, hp.imp_right fun hp => hsub hp, hrefused⟩

namespace ForkDatabase

theorem unpackFrom_pack {α : Type} {f : Format α} {a : α} {w : Bytes} (h : f.pack a = some w)
    (rest : Bytes) : unpackFrom f (w ++ rest) = .ok (a, rest) := by
  rw [unpackFrom, f.read_pack h rest]
  rfl

variable (validator) in
theorem validateFeatures_cases (p n : BlockState) :
    validateFeatures validator p n = .ok () ∨
    ∃ e, validateFeatures validator p n = .error e ∧
      ∃ features cause, featureActivation? n.headerExts = some features ∧
        validator n.header.timestamp p.activatedProtocolFeatures features = .error cause ∧
        e = cause.rethrow incompatible := by
  unfold validateFeatures
  cases hfeatures : featureActivation? n.headerExts with
  | none => exact .inl rfl
  | some features =>
    cases hvalidator : validator n.header.timestamp p.activatedProtocolFeatures features with
    | ok _ => exact .inl (by simp only [hvalidator]; rfl)
    | error e => exact .inr ⟨_, by simp only [hvalidator], features, e, rfl, hvalidator, rfl⟩

theorem loadBlock_stored (hmade : WellMade b.toBlockHeaderState) :
    loadBlock files validator db (stored files b) =
      match (add b false true validator).run db with
      | (.ok (), db) => pure (db, files.contents b)
      | (.error e, _) => .error e := by
  simp only [loadBlock, stored, files.header_contents, hmade.extracted, ok_bind]
  rfl

variable (files validator) in
/-- One block: it is added, or the validator refuses its features. -/
theorem loadBlock_cases (hmade : WellMade b.toBlockHeaderState)
    (hparent : ∃ p, (p = db.root ∨ p ∈ db.index) ∧ p.id = b.prev)
    (hnew : b.id ∉ db.index.map (·.id)) :
    loadBlock files validator db (stored files b) = .ok (db.insertBlock b, files.contents b) ∨
    ∃ e, loadBlock files validator db (stored files b) = .error e ∧
      FeaturesRefused validator db.root (db.index ++ [b]) e := by
  have hknown : ∃ p, db.getBlockHeader b.prev = some p := by
    obtain ⟨p, hp, hid⟩ := hparent
    unfold getBlockHeader
    split
    · exact ⟨_, rfl⟩
    · next hroot =>
      cases hget : db.getBlock b.prev with
      | some p => exact ⟨p, rfl⟩
      | none =>
        rcases hp with rfl | hp
        · exact absurd hid hroot
        · exact absurd hid (getBlock_eq_none.mp hget p hp)
  obtain ⟨p, hp⟩ := hknown
  obtain ⟨hmem, hid⟩ := getBlockHeader_eq_some hp
  have hfresh : db.getBlock b.id = none :=
    getBlock_eq_none.mpr fun c hc hcid => hnew (hcid ▸ mem_map_of_mem hc)
  rw [loadBlock_stored hmade]
  rcases validateFeatures_cases validator p b with hok | ⟨e, herror, hrefused⟩
  · left
    rw [add_run_new hp hfresh (by rw [if_pos rfl]; exact hok)]
    rfl
  · right
    refine ⟨e, ?_, ?_⟩
    · have hrun : (add b false true validator).run db = (.error e, db) := by
        unfold add
        rw [run_get_bind, hp]
        simp only [if_pos, herror]
        rfl
      rw [hrun]
    · refine ⟨b, by simp, p, ?_, hid, hrefused⟩
      exact hmem.imp_right fun hp => mem_append_left _ hp

variable (validator) in
/-- The loop: all blocks are added in their order, or the validator refuses the features of one. -/
theorem loadBlocks_stored {rest : List BlockState} (hload : Loadable db.root db.index rest)
    (hmade : ∀ b ∈ rest, WellMade b.toBlockHeaderState) {w : Bytes}
    (hw : (blockStateFormat files).packMany (rest.map (stored files)) = some w) (ds : Bytes) :
    (∃ head, loadBlocks files validator rest.length (w ++ ds) db =
      .ok (ds, ⟨db.index ++ rest, db.root, head⟩, rest.map files.contents)) ∨
    ∃ e, loadBlocks files validator rest.length (w ++ ds) db = .error e ∧
      FeaturesRefused validator db.root (db.index ++ rest) e := by
  induction rest generalizing db w with
  | nil =>
    cases hw
    exact .inl ⟨db.head, by simp [loadBlocks]; rfl⟩
  | cons b rest ih =>
    obtain ⟨hparent, hnew, hload⟩ := hload
    rw [map_cons] at hw
    obtain ⟨w₁, w₂, hw₁, hw₂, rfl⟩ := Format.packMany_cons_eq_some.mp hw
    have hread := unpackFrom_pack hw₁ (w₂ ++ ds)
    rw [← append_assoc] at hread
    simp only [length_cons, loadBlocks, hread, ok_bind]
    rcases loadBlock_cases files validator (hmade b mem_cons_self) hparent hnew with
      hok | ⟨e, herror, hrefused⟩
    · have hload' : Loadable (db.insertBlock b).root (db.insertBlock b).index rest := by
        simpa using hload
      rw [hok, ok_bind]
      rcases ih hload' (fun c hc => hmade c (mem_cons_of_mem _ hc)) hw₂ with
        ⟨head, hrun⟩ | ⟨e, hrun, hrefused⟩
      · refine .inl ⟨head, ?_⟩
        rw [hrun, insertBlock_index, insertBlock_root, append_assoc]
        rfl
      · refine .inr ⟨e, ?_, ?_⟩
        · rw [hrun]
          rfl
        · simpa [append_assoc] using hrefused
    · refine .inr ⟨e, by rw [herror]; rfl, hrefused.mono fun c hc => ?_⟩
      simp only [mem_append, mem_cons, not_mem_nil, or_false] at hc ⊢
      exact hc.imp_right .inl

theorem head_eq_root_of_id (h : ForkInv db) (hid : db.head.id = db.root.id) : db.head = db.root :=
  h.head.resolve_right fun hmem => h.root_fresh _ hmem.1 hid

theorem findHead_of_perm (h : Storable db) {loaded : ForkDatabase}
    (hroot : loaded.root.id = db.root.id) (hperm : loaded.index.Perm db.index) :
    loaded.findHead db.head.id =
      .ok (if db.head.id = db.root.id then loaded.root else db.head) := by
  unfold findHead
  by_cases hhead : db.head.id = db.root.id
  · rw [if_pos (hroot.trans hhead.symm), if_pos hhead]
    rfl
  · rw [if_neg fun heq => hhead (heq.symm.trans hroot), if_neg hhead]
    rcases h.head with heq | ⟨hmem, -⟩
    · exact absurd (congrArg (fun b : BlockState => b.id) heq) hhead
    · have hfound : loaded.getBlock db.head.id = some db.head := by
        cases hget : loaded.getBlock db.head.id with
        | none => exact absurd rfl (getBlock_eq_none.mp hget _ (hperm.mem_iff.mpr hmem))
        | some c =>
          obtain ⟨hc, hid⟩ := getBlock_eq_some hget
          rw [h.eq_of_id (hperm.mem_iff.mp hc) hmem hid]
      rw [hfound]
      rfl

theorem checkHead_of_perm (h : Storable db) {loaded : ForkDatabase}
    (hperm : loaded.index.Perm db.index) (hroot : loaded.root.id = db.root.id)
    (hhead : loaded.head.id = db.head.id ∧ loaded.head.blockNum = db.head.blockNum ∧
      loaded.head.dposIrreversibleBlocknum = db.head.dposIrreversibleBlocknum) :
    loaded.checkHead = .ok () := by
  obtain ⟨hid, hnum, hirr⟩ := hhead
  unfold checkHead
  split
  · next hvalid =>
    obtain ⟨best, hbest, hbestv⟩ := (any_eq_true _ _).mp hvalid
    rw [ineAssert_eq_ok]
    intro candidate hcandidate
    obtain rfl : best = candidate := some.inj (hbest.symm.trans hcandidate)
    have hmem := hperm.mem_iff.mp (firstByLibBlockNum_spec hbest).1
    have hpref := h.best best hmem hbestv
    unfold firstPreferred at hpref ⊢
    rwa [hnum, hirr]
  · next hinvalid =>
    rw [ineAssert_eq_ok, hid, hroot]
    rcases h.head with heq | ⟨hmem, hv⟩
    · rw [heq]
    · -- a validated head would make the first of the index validated
      obtain ⟨best, hbest⟩ := firstByLibBlockNum_isSome (hperm.mem_iff.mpr hmem)
      have hbestv := ((firstByLibBlockNum_spec hbest).2 _ (hperm.mem_iff.mpr hmem)).1 hv
      rw [hbest, any_some, hbestv] at hinvalid
      exact absurd rfl hinvalid

end ForkDatabase

/-- `db'` is `db` with the decoded extensions of the root forgotten. -/
structure Reopened (db db' : ForkDatabase) : Prop where
  root : db'.root = { db.root with headerExts := [] }
  blocks : db'.index.Perm db.index
  head : db'.head = if db.head.id = db.root.id then db'.root else db.head

open ForkDatabase in
/-- **A closed fork database opens again.** Every database that the operations build, with fewer
than 2^32 blocks, is restored from the bytes that `close` writes: the root but for its decoded
extensions, the blocks with their flags, and the head.  Only the protocol features can stop it. -/
theorem fork_database_reopens (hdb : ForkBuilt db) (hsize : db.index.length < 2 ^ 32)
    {bytes : Bytes} (hclose : close files db = some bytes) (validator : FeatureValidator) :
    (∃ db', openFile files validator bytes = .ok (db', db'.index.map files.contents) ∧
      Reopened db db') ∨
    ∃ e, openFile files validator bytes = .error e ∧
      FeaturesRefused validator { db.root with headerExts := [] } db.index e := by
  have h := hdb.storable
  obtain ⟨rootBytes, hrootBytes, hclose⟩ := bind_eq_some_iff.mp hclose
  obtain ⟨size, hsizeBytes, hclose⟩ := bind_eq_some_iff.mp hclose
  obtain ⟨blocks, hblocks, hclose⟩ := bind_eq_some_iff.mp hclose
  obtain ⟨headId, hheadId, hclose⟩ := bind_eq_some_iff.mp hclose
  cases hclose
  have hperm := perm_writeOrder db.index
  have hcount : u32 db.index.length = (writeOrder db.index).length := by
    rw [hperm.length_eq]
    exact Nat.mod_eq_of_lt hsize
  rw [hcount] at hsizeBytes
  -- the root of the reset is the old one without its extensions
  have hreset : (reset db.root.toBlockHeaderState.reflected).root =
      { db.root with headerExts := [] } := by
    simp only [reset, BlockHeaderState.reflected, ← h.root_validated]
  have hload : Loadable (reset db.root.toBlockHeaderState.reflected).root
      (reset db.root.toBlockHeaderState.reflected).index (writeOrder db.index) := by
    refine loadable_of_pairwise ((hperm.map _).nodup_iff.mpr h.nodup)
      (pairwise_writeOrder db.index) (fun b hb => ?_) rfl
    refine (h.linked b (hperm.mem_iff.mp hb)).imp (fun hfol => hfol.link) ?_
    rintro ⟨p, hp, hfol⟩
    exact ⟨p, hperm.mem_iff.mpr hp, hfol⟩
  have hmade : ∀ b ∈ writeOrder db.index, WellMade b.toBlockHeaderState :=
    fun b hb => h.blocks b (hperm.mem_iff.mp hb)
  have hhead := unpackFrom_pack hheadId []
  rw [append_nil] at hhead
  have htotem : (Format.uint 4).pack magicNumber = some (leBytes 4 magicNumber) := rfl
  have hversion : (Format.uint 4).pack maxSupportedVersion =
      some (leBytes 4 maxSupportedVersion) := rfl
  simp only [openFile, unpackFrom_pack htotem, unpackFrom_pack hversion,
    unpackFrom_pack hrootBytes, unpackFrom_pack hsizeBytes, ok_bind]
  rw [ineAssert, ensure_pos trivial, ok_bind, ineAssert, ensure_pos (by decide), ok_bind]
  rcases loadBlocks_stored validator hload hmade hblocks headId with
    ⟨head, hrun⟩ | ⟨e, hrun, hrefused⟩
  · left
    rw [hreset] at hrun
    let loaded : ForkDatabase := ⟨writeOrder db.index, { db.root with headerExts := [] }, head⟩
    have hfind : loaded.findHead db.head.id = _ := findHead_of_perm h rfl hperm
    let db' : ForkDatabase := { loaded with
      head := if db.head.id = db.root.id then loaded.root else db.head }
    have hsame : db'.head.id = db.head.id ∧ db'.head.blockNum = db.head.blockNum ∧
        db'.head.dposIrreversibleBlocknum = db.head.dposIrreversibleBlocknum := by
      dsimp only [db']
      split
      · next heq =>
        rw [head_eq_root_of_id h.toForkInv heq]
        exact ⟨rfl, rfl, rfl⟩
      · exact ⟨rfl, rfl, rfl⟩
    have hchecked : db'.checkHead = .ok () := checkHead_of_perm h hperm rfl hsame
    refine ⟨db', ?_, ⟨rfl, hperm, rfl⟩⟩
    simp only [BlockHeaderState.reflect, hrun, ok_bind, hhead]
    change (do
      let head ← loaded.findHead db.head.id
      checkHead { loaded with head }
      pure ({ loaded with head }, loaded.index.map files.contents)) = _
    rw [hfind, ok_bind, hchecked, ok_bind]
    rfl
  · right
    rw [hreset] at hrefused
    simp only [BlockHeaderState.reflect, hrun]
    exact ⟨e, rfl, hrefused.mono hperm.subset⟩

end Loading

/-! ## A small database -/

/-- Blocks that are their headers, with keys and signatures of eight bytes. -/
def plainFiles : BlockFiles SignedBlockHeader where
  publicKey := .uint 8
  signature := .uint 8
  block := KeyFormats.signedBlockHeader ⟨.uint 8, .uint 8⟩
  header h := h
  contents b := b.header
  header_contents _ := rfl

/-- An id that carries the number `n`. -/
def numberedId (branch n : ℕ) : BlockId :=
  BitVec.ofNat 224 branch ++ endianReverseU32 (BitVec.ofNat 32 n)

def rootBlock : BlockState := plainBlock (numberedId 0 1) 0 1 0

def leftBlock : BlockState := plainBlock (numberedId 0 2) (numberedId 0 1) 2 1

def rightBlock : BlockState := plainBlock (numberedId 1 2) (numberedId 0 1) 2 0

def rightChild : BlockState := plainBlock (numberedId 1 3) (numberedId 1 2) 3 0

/-- Two validated blocks over the root, and an unvalidated one over the second. -/
def forked : ForkDatabase :=
  let ops : List ForkOp := [.add leftBlock false, .add rightBlock false, .add rightChild false,
    .markValid leftBlock, .markValid rightBlock]
  ops.foldl (fun db op => (ForkOp.run db op).2) (reset rootBlock.toBlockHeaderState)

theorem forkBuilt_forked : ForkBuilt forked := by
  have hroot : ForkBuilt (reset rootBlock.toBlockHeaderState) := .reset (by decide)
  have hleft : ForkBuilt (ForkOp.run _ (.add leftBlock false)).2 := .step hroot ?_
  have hright : ForkBuilt (ForkOp.run _ (.add rightBlock false)).2 := .step hleft ?_
  have hchild : ForkBuilt (ForkOp.run _ (.add rightChild false)).2 := .step hright ?_
  have hvalid : ForkBuilt (ForkOp.run _ (.markValid leftBlock)).2 := .step hchild trivial
  · exact (.step hvalid trivial : ForkBuilt (ForkOp.run _ (.markValid rightBlock)).2)
  all_goals
    refine ⟨by decide, by decide, ?_⟩
    intro p hp
    cases hp
    exact ⟨by decide, by decide, by decide⟩

theorem writeOrder_forked : writeOrder forked.index =
    [{ rightBlock with validated := true }, rightChild, { leftBlock with validated := true }] := by
  have hindex : byLibBlockNum forked.index =
      [{ leftBlock with validated := true }, { rightBlock with validated := true },
        rightChild] := by
    decide +kernel
  rw [writeOrder, hindex]
  simp [leftBlock, rightBlock, rightChild, plainBlock, firstPreferred]

theorem fork_database_reopens_forked : ∃ bytes db',
    close plainFiles forked = some bytes ∧
    openFile plainFiles (fun _ _ _ => .ok ()) bytes =
      .ok (db', db'.index.map plainFiles.contents) ∧ Reopened forked db' := by
  have hclosed : (close plainFiles forked).isSome := by
    rw [close, writeOrder_forked]
    decide +kernel
  obtain ⟨bytes, hclose⟩ := isSome_iff_exists.mp hclosed
  rcases fork_database_reopens forkBuilt_forked (by decide +kernel) hclose
    (fun _ _ _ => .ok ()) with ⟨db', hopen, hreopened⟩ | ⟨_, -, _, -, _, -, -, _, _, -, herror, -⟩
  · exact ⟨bytes, db', hclose, hopen, hreopened⟩
  · cases herror

def activatingRoot : BlockHeaderState :=
  { id := numberedId 0 1
    blockNum := 1
    header := { headerExtensions := [.protocolFeatureActivation [1]] }
    headerExts := [.protocolFeatureActivation [1]] }

/-- The root advances to the block beside the head: it is erased before the
check that fails. -/
def orphaned : ForkDatabase := (ForkOp.run forked (.advanceRoot rightBlock.id)).2

theorem writeOrder_orphaned : writeOrder orphaned.index =
    [rightChild, { leftBlock with validated := true }] := by
  have hindex : byLibBlockNum orphaned.index =
      [{ leftBlock with validated := true }, rightChild] := by
    decide +kernel
  rw [writeOrder, hindex]
  simp [leftBlock, rightChild, plainBlock, firstPreferred]

theorem writeOrder_nil : writeOrder [] = [] := by
  simp [writeOrder, byLibBlockNum]

/-- **Two things are lost.** The decoded extensions of the root are gone after `open`; and a file
that is written after a failed `advance_root` cannot be opened. -/
theorem fork_database_not_restored :
    (∃ bytes db', close plainFiles (reset activatingRoot) = some bytes ∧
      openFile plainFiles (fun _ _ _ => .ok ()) bytes = .ok (db', []) ∧
      db'.root.headerExts ≠ activatingRoot.headerExts) ∧
    ∃ bytes e, close plainFiles orphaned = some bytes ∧
      openFile plainFiles (fun _ _ _ => .ok ()) bytes = .error e ∧
      e.kind = .unlinkableBlockException := by
  have hroot : (close plainFiles (reset activatingRoot)).map
      (openFile plainFiles fun _ _ _ => .ok ()) =
      some (.ok (reset activatingRoot.reflected, [])) := by
    rw [close, show (reset activatingRoot).index = [] from rfl, writeOrder_nil]
    decide +kernel
  have horphaned : (close plainFiles orphaned).map
      (openFile plainFiles fun _ _ _ => .ok ()) =
      some (.error ⟨.unlinkableBlockException, "unlinkable block"⟩) := by
    rw [close, writeOrder_orphaned]
    decide +kernel
  obtain ⟨bytes, hclose, hopen⟩ := map_eq_some_iff.mp hroot
  obtain ⟨bytes', hclose', hopen'⟩ := map_eq_some_iff.mp horphaned
  exact ⟨⟨bytes, _, hclose, hopen, by decide⟩, bytes', _, hclose', hopen', rfl⟩

end Inery.Chain
