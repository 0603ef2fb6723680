import Inery.Chain.ForkDatabase
import Mathlib.Data.Prod.Lex

/-!
# Invariants of the fork database

Whatever sequence of operations has built it, the index is a tree over the
root, the head is the root or a validated block, and nothing validated is
preferred to it.  Everything follows from five facts, `ForkInv`, that each
operation keeps.
-/

namespace Inery.Chain

open Foundation List Stateful ForkDatabase BlockState

variable {db : ForkDatabase} {index : List BlockState} {a b n h best : BlockState} {id k : BlockId}

/-! ## The order of preference -/

/-- `firstPreferred` is a strict weak order: not being preferred is transitive. -/
theorem not_firstPreferred_trans (hab : ¬ firstPreferred a b) (hbh : ¬ firstPreferred b h) :
    ¬ firstPreferred a h := by
  unfold firstPreferred at *
  omega

theorem not_firstPreferred_of_firstPreferred (hab : firstPreferred a b) : ¬ firstPreferred b a := by
  unfold firstPreferred at *
  omega

/-- What the index is ordered by: the flag, then preference, then the words of the id. -/
def BlockState.orderKey (b : BlockState) : Bool ×ₗ ℕᵒᵈ ×ₗ ℕᵒᵈ ×ₗ List ℕ :=
  toLex (!b.validated, toLex (.toDual b.dposIrreversibleBlocknum, toLex (.toDual b.blockNum,
    [digestWord b.id 0, digestWord b.id 1, digestWord b.id 2, digestWord b.id 3])))

theorem byLibBlockNumLess_iff_lt : byLibBlockNumLess a b = true ↔ a.orderKey < b.orderKey := by
  simp only [byLibBlockNumLess, firstPreferred, sha256Less, orderKey, Prod.Lex.toLex_lt_toLex,
    OrderDual.toDual_lt_toDual, OrderDual.toDual_inj]
  cases a.validated <;> cases b.validated
  · grind
  · simp
  · simp
  · grind

theorem not_byLibBlockNumLess_spec (hless : ¬ byLibBlockNumLess a b = true) :
    (a.validated → b.validated) ∧ (a.validated = b.validated → ¬ firstPreferred a b) := by
  unfold byLibBlockNumLess at hless
  split at hless
  next hne =>
    exact ⟨fun ha => absurd ha hless, fun heq => absurd heq hne⟩
  next heq =>
    rw [ne_eq, not_not] at heq
    refine ⟨fun ha => heq ▸ ha, fun _ hpref => ?_⟩
    rw [if_pos hpref] at hless
    exact hless rfl

theorem firstByLibBlockNum_isSome (hmem : b ∈ index) :
    ∃ best, firstByLibBlockNum index = some best := by
  cases index with
  | nil => cases hmem
  | cons c rest =>
    unfold firstByLibBlockNum
    split
    · exact ⟨_, rfl⟩
    · split <;> exact ⟨_, rfl⟩

theorem firstByLibBlockNum_first (hbest : firstByLibBlockNum index = some best) :
    best ∈ index ∧ ∀ b ∈ index, ¬ byLibBlockNumLess b best = true := by
  simp only [byLibBlockNumLess_iff_lt, not_lt]
  induction index generalizing best with
  | nil => cases hbest
  | cons x rest ih =>
    unfold firstByLibBlockNum at hbest
    rw [forall_mem_cons]
    cases hrest : firstByLibBlockNum rest with
    | none =>
      rw [hrest] at hbest
      cases hbest
      refine ⟨mem_cons_self, le_refl _, fun b hb => ?_⟩
      obtain ⟨first, hfirst⟩ := firstByLibBlockNum_isSome hb
      rw [hrest] at hfirst
      cases hfirst
    | some best' =>
      obtain ⟨hmem, hall⟩ := ih hrest
      simp only [hrest, byLibBlockNumLess_iff_lt] at hbest
      split at hbest
      · next hless =>
        cases hbest
        exact ⟨mem_cons_of_mem _ hmem, hless.le, hall⟩
      · next hless =>
        cases hbest
        exact ⟨mem_cons_self, le_refl _, fun b hb => (not_lt.mp hless).trans (hall b hb)⟩

theorem firstByLibBlockNum_spec (hbest : firstByLibBlockNum index = some best) :
    best ∈ index ∧ ∀ b ∈ index, (b.validated → best.validated) ∧
      (b.validated = best.validated → ¬ firstPreferred b best) := by
  obtain ⟨hmem, hfirst⟩ := firstByLibBlockNum_first hbest
  exact ⟨hmem, fun b hb => not_byLibBlockNumLess_spec (hfirst b hb)⟩

/-! ## The invariant -/

/-- `k` is `a` or is built on it. -/
abbrev Below (index : List BlockState) (a k : BlockId) : Prop :=
  Forest.Descends (fun b : BlockState => b.id) prev index a k

/-- `b` follows `p`: linked, numbered consecutively, not less irreversible. -/
structure Follows (p b : BlockState) : Prop where
  link : p.id = b.prev
  blockNum : b.blockNum = p.blockNum + 1
  irreversible : p.dposIrreversibleBlocknum ≤ b.dposIrreversibleBlocknum

/-- Only the header states count. -/
theorem Follows.congr {p p' b b' : BlockState} (h : Follows p b)
    (hp : p'.toBlockHeaderState = p.toBlockHeaderState)
    (hb : b'.toBlockHeaderState = b.toBlockHeaderState) : Follows p' b' := by
  obtain ⟨hlink, hnum, hirr⟩ := h
  rw [BlockState.prev, ← hp, ← hb] at hlink
  rw [← hp, ← hb] at hnum hirr
  exact ⟨hlink, hnum, hirr⟩

/-- What every operation keeps. -/
structure ForkInv (db : ForkDatabase) : Prop where
  nodup : (db.index.map (·.id)).Nodup
  root_fresh : ∀ b ∈ db.index, b.id ≠ db.root.id
  linked : ∀ b ∈ db.index, Follows db.root b ∨ ∃ p ∈ db.index, Follows p b
  head : db.head = db.root ∨ db.head ∈ db.index ∧ db.head.validated
  best : ∀ b ∈ db.index, b.validated → ¬ firstPreferred b db.head

namespace ForkDatabase

theorem getBlock_eq_some (hget : db.getBlock id = some b) : b ∈ db.index ∧ b.id = id := by
  unfold getBlock at hget
  exact ⟨mem_of_find?_eq_some hget, by simpa using find?_some hget⟩

theorem getBlock_eq_none : db.getBlock id = none ↔ ∀ b ∈ db.index, b.id ≠ id := by
  simp [getBlock]

theorem getBlockHeader_eq_some (h : db.getBlockHeader id = some b) :
    (b = db.root ∨ b ∈ db.index) ∧ b.id = id := by
  unfold getBlockHeader at h
  split at h
  · next hid =>
    cases h
    exact ⟨.inl rfl, hid⟩
  · obtain ⟨hmem, hid⟩ := getBlock_eq_some h
    exact ⟨.inr hmem, hid⟩

def rank (db : ForkDatabase) (k : BlockId) : ℕ := ((db.getBlockHeader k).map (·.blockNum)).getD 0

end ForkDatabase

namespace ForkInv

theorem eq_of_id (h : ForkInv db) (ha : a ∈ db.index) (hb : b ∈ db.index) (hid : a.id = b.id) :
    a = b :=
  inj_on_of_nodup_map h.nodup ha hb hid

theorem getBlock (h : ForkInv db) (hb : b ∈ db.index) : db.getBlock b.id = some b := by
  cases hget : db.getBlock b.id with
  | none => exact absurd rfl (getBlock_eq_none.mp hget b hb)
  | some c =>
    obtain ⟨hc, hid⟩ := getBlock_eq_some hget
    rw [h.eq_of_id hc hb hid]

theorem getBlockHeader (h : ForkInv db) (hb : b ∈ db.index) : db.getBlockHeader b.id = some b := by
  unfold ForkDatabase.getBlockHeader
  rw [if_neg (Ne.symm (h.root_fresh b hb)), h.getBlock hb]

theorem rank_id (h : ForkInv db) (hb : b ∈ db.index) : db.rank b.id = b.blockNum := by
  simp [rank, h.getBlockHeader hb]

theorem rank_root : db.rank db.root.id = db.root.blockNum := by
  simp [ForkDatabase.rank, ForkDatabase.getBlockHeader]

theorem isForest (h : ForkInv db) :
    Forest.IsForest (fun b : BlockState => b.id) prev db.rank db.index := by
  refine ⟨h.nodup, ?_⟩
  intro b hb
  rw [h.rank_id hb]
  rcases h.linked b hb with hroot | ⟨p, hp, hfollows⟩
  · rw [← hroot.link, rank_root, hroot.blockNum]
    omega
  · rw [← hfollows.link, h.rank_id hp, hfollows.blockNum]
    omega

theorem below_root (h : ForkInv db) (hb : b ∈ db.index) : Below db.index db.root.id b.id ∧
    firstPreferred b db.root ∧ db.root.blockNum < b.blockNum := by
  induction hnum : b.blockNum using Nat.strong_induction_on generalizing b with
  | _ num ih =>
    rcases h.linked b hb with ⟨hprev, hnum', hirr⟩ | ⟨p, hp, hid, hnum', hirr⟩
    · refine ⟨.child (by rw [← hprev]; exact .refl) hb, ?_⟩
      unfold firstPreferred
      omega
    · obtain ⟨hbelow, hpref⟩ := ih p.blockNum (by omega) hp rfl
      refine ⟨.child (hid ▸ hbelow) hb, ?_⟩
      unfold firstPreferred at hpref ⊢
      omega

theorem root_not_below (h : ForkInv db) (hb : b ∈ db.index) : ¬ Below db.index b.id db.root.id := by
  intro hbelow
  rcases hbelow.eq_or_mem with heq | hmem
  · exact h.root_fresh b hb heq.symm
  · obtain ⟨c, hc, hid⟩ := mem_map.mp hmem
    exact h.root_fresh c hc hid

theorem not_validated_of_head_eq_root (h : ForkInv db) (hhead : db.head = db.root)
    (hb : b ∈ db.index) : b.validated = false := by
  by_contra hv
  exact h.best b hb (by simpa using hv) (hhead ▸ (h.below_root hb).2.1)

theorem pendingHead_best (h : ForkInv db) (hb : b ∈ db.index) :
    ¬ firstPreferred b db.pendingHead := by
  -- nothing unvalidated beats the first unvalidated block
  have hinvalid : ∀ best, firstByLibBlockNum (db.index.filter fun b => !b.validated) = some best →
      b.validated = false → ¬ firstPreferred b best := by
    intro best hbest hv
    obtain ⟨hmem, hall⟩ := firstByLibBlockNum_spec hbest
    have hbest' : best.validated = false := by simpa using (mem_filter.mp hmem).2
    exact (hall b (mem_filter.mpr ⟨hb, by simp [hv]⟩)).2 (hv.trans hbest'.symm)
  unfold pendingHead
  split
  next best hbest =>
    split
    next hpref =>
      cases hv : b.validated with
      | false => exact hinvalid best hbest hv
      | true =>
        exact not_firstPreferred_trans (h.best b hb hv)
          (not_firstPreferred_of_firstPreferred hpref)
    next hpref =>
      cases hv : b.validated with
      | false => exact not_firstPreferred_trans (hinvalid best hbest hv) hpref
      | true => exact h.best b hb hv
  next hnone =>
    cases hv : b.validated with
    | true => exact h.best b hb hv
    | false =>
      obtain ⟨best, hbest⟩ := firstByLibBlockNum_isSome
        (mem_filter.mpr ⟨hb, by simp [hv]⟩ :
          b ∈ db.index.filter fun b => !b.validated)
      rw [hnone] at hbest
      cases hbest

end ForkInv

/-! ## The operations -/

inductive ForkOp where
  | reset (root : BlockHeaderState)
  | add (n : BlockState) (ignoreDuplicate : Bool)
  | markValid (h : BlockState)
  | remove (id : BlockId)
  | advanceRoot (id : BlockId)
  | rollbackHeadToRoot

def ForkOp.run (db : ForkDatabase) : ForkOp → Result Unit × ForkDatabase
  | .reset root => (.ok (), ForkDatabase.reset root)
  | .add n ignoreDuplicate =>
    (ForkDatabase.add n ignoreDuplicate false fun _ _ _ => .ok ()).run db
  | .markValid h => (ForkDatabase.markValid h).run db
  | .remove id => (ForkDatabase.remove id).run db
  | .advanceRoot id => (ForkDatabase.advanceRoot id).run db
  | .rollbackHeadToRoot => ForkDatabase.rollbackHeadToRoot.run db

/-- What a caller guarantees: an added block has a fresh id and follows its
parent, and the root advances to the head or an ancestor of it. -/
def ForkOp.Allowed (db : ForkDatabase) : ForkOp → Prop
  | .add n _ => n.id ≠ db.root.id ∧ (∀ b ∈ db.index, b.id ≠ n.id) ∧
      ∀ p, db.getBlockHeader n.prev = some p → Follows p n
  | .advanceRoot id => Below db.index id db.head.id
  | _ => True

theorem ForkInv.map_index (hinv : ForkInv db) {f : BlockState → BlockState} {head : BlockState}
    (hf : ∀ b, (f b).toBlockHeaderState = b.toBlockHeaderState)
    (hhead : head = db.root ∨ head ∈ db.index.map f ∧ head.validated)
    (hbest : ∀ b ∈ db.index.map f, b.validated → ¬ firstPreferred b head) :
    ForkInv { db with index := db.index.map f, head } := by
  refine ⟨?_, ?_, ?_, hhead, hbest⟩
  · have hids : (db.index.map f).map (·.id) = db.index.map (·.id) := by
      rw [map_map]
      exact map_congr_left fun b _ => congrArg _ (hf b)
    rw [hids]
    exact hinv.nodup
  · intro b hb
    obtain ⟨c, hc, rfl⟩ := mem_map.mp hb
    rw [hf c]
    exact hinv.root_fresh c hc
  · intro b hb
    obtain ⟨c, hc, rfl⟩ := mem_map.mp hb
    exact (hinv.linked c hc).imp (·.congr rfl (hf c)) fun ⟨p, hp, hfol⟩ =>
      ⟨f p, mem_map_of_mem hp, hfol.congr (hf p) (hf c)⟩

theorem forkInv_reset (root : BlockHeaderState) : ForkInv (reset root) :=
  ⟨nodup_nil, nofun, nofun, .inl rfl, nofun⟩

theorem ForkInv.rollbackHeadToRoot (hinv : ForkInv db) : ForkInv (rollbackHeadToRoot.run db).2 := by
  apply hinv.map_index
  · exact fun b => rfl
  · exact .inl rfl
  · intro b hb hv
    obtain ⟨c, -, rfl⟩ := mem_map.mp hb
    cases hv

theorem setValidated_frame (id : BlockId) (b : BlockState) :
    (setValidated id b).toBlockHeaderState = b.toBlockHeaderState := by
  unfold setValidated
  split <;> rfl

theorem setValidated_of_validated (id : BlockId) (hb : b.validated = true) :
    setValidated id b = b := by
  unfold setValidated
  split
  · rw [← hb]
  · rfl

/-- A head is sought among the validated blocks. -/
theorem ForkDatabase.validateBlock_eq (hb : b ∈ db.index) :
    ∃ candidate ∈ db.index.map (setValidated b.id), candidate.validated = true ∧
      (∀ x ∈ db.index.map (setValidated b.id), x.validated → ¬ firstPreferred x candidate) ∧
      db.validateBlock b.id = { db with
        index := db.index.map (setValidated b.id)
        head := if firstPreferred candidate db.head then candidate else db.head } := by
  have hmarked : setValidated b.id b ∈ db.index.map (setValidated b.id) := mem_map_of_mem hb
  have hflag : (setValidated b.id b).validated = true := by simp [setValidated]
  obtain ⟨candidate, hcand⟩ := firstByLibBlockNum_isSome hmarked
  obtain ⟨hmem, hall⟩ := firstByLibBlockNum_spec hcand
  have hvalid : candidate.validated = true := (hall _ hmarked).1 hflag
  refine ⟨candidate, hmem, hvalid, fun x hx hv => (hall x hx).2 (hv.trans hvalid.symm), ?_⟩
  simp only [validateBlock, hcand]

theorem ForkInv.validateBlock (hinv : ForkInv db) (hb : b ∈ db.index) :
    ForkInv (db.validateBlock b.id) := by
  obtain ⟨candidate, hmem, hvalid, hbest, heq⟩ := validateBlock_eq hb
  rw [heq]
  split
  next => exact hinv.map_index (setValidated_frame b.id) (.inr ⟨hmem, hvalid⟩) hbest
  next hpref =>
    apply hinv.map_index (setValidated_frame b.id)
    · refine hinv.head.imp_right ?_
      rintro ⟨hhead, hheadv⟩
      refine ⟨?_, hheadv⟩
      rw [← setValidated_of_validated b.id hheadv]
      exact mem_map_of_mem hhead
    · exact fun x hx hv => not_firstPreferred_trans (hbest x hx hv) hpref

/-- What `mark_valid` can do: nothing, throw and change nothing, or set a flag. -/
theorem ForkDatabase.markValid_cases (h : BlockState) :
    (markValid h).run db = (.ok (), db) ∨ (∃ e, (markValid h).run db = (.error e, db)) ∨
      ∃ b ∈ db.index, (markValid h).run db = (.ok (), db.validateBlock b.id) := by
  unfold markValid
  by_cases hv : h.validated = true
  · rw [if_pos hv]
    exact .inl rfl
  · rw [if_neg hv, run_get_bind]
    cases hget : db.getBlock h.id with
    | none => exact .inr (.inl ⟨_, rfl⟩)
    | some b =>
      obtain ⟨hb, hid⟩ := getBlock_eq_some hget
      rw [← hid]
      exact .inr (.inr ⟨b, hb, rfl⟩)

theorem ForkInv.markValid (hinv : ForkInv db) (h : BlockState) :
    ForkInv ((markValid h).run db).2 := by
  rcases markValid_cases h with hrun | ⟨e, hrun⟩ | ⟨b, hb, hrun⟩
  all_goals rw [hrun]
  · exact hinv
  · exact hinv
  · exact hinv.validateBlock hb

theorem ForkInv.insertBlock (hinv : ForkInv db) {p : BlockState}
    (hp : p = db.root ∨ p ∈ db.index) (hfollows : Follows p n) (hroot : n.id ≠ db.root.id)
    (hfresh : ∀ b ∈ db.index, b.id ≠ n.id) : ForkInv (db.insertBlock n) := by
  obtain ⟨candidate, hcand⟩ := firstByLibBlockNum_isSome
    (mem_append_right db.index mem_cons_self : n ∈ db.index ++ [n])
  obtain ⟨hmem, hall⟩ := firstByLibBlockNum_spec hcand
  simp only [ForkDatabase.insertBlock, hcand]
  refine ⟨?_, ?_, ?_, ?_, ?_⟩
  · rw [map_append]
    refine hinv.nodup.append (nodup_singleton _) (disjoint_singleton.mpr fun hmem => ?_)
    obtain ⟨b, hb, hid⟩ := mem_map.mp hmem
    exact hfresh b hb hid
  · exact forall_mem_append.mpr ⟨hinv.root_fresh, forall_mem_singleton.mpr hroot⟩
  · refine forall_mem_append.mpr ⟨fun b hb => ?_, forall_mem_singleton.mpr ?_⟩
    · exact (hinv.linked b hb).imp_right fun ⟨q, hq, hfol⟩ =>
        ⟨q, mem_append_left _ hq, hfol⟩
    · rcases hp with rfl | hp
      · exact .inl hfollows
      · exact .inr ⟨p, mem_append_left _ hp, hfollows⟩
  · split
    next hvalid => exact .inr ⟨hmem, hvalid⟩
    next => exact hinv.head.imp_right fun ⟨hhead, hv⟩ => ⟨mem_append_left _ hhead, hv⟩
  · intro b hb hv
    have hvalid := (hall b hb).1 hv
    rw [if_pos hvalid]
    exact (hall b hb).2 (hv.trans hvalid.symm)

/-- What `add` can do: throw and change nothing, do nothing for a duplicate, or insert. -/
theorem ForkDatabase.add_run (db : ForkDatabase) (n : BlockState) (ignoreDuplicate : Bool) :
    (ForkOp.run db (.add n ignoreDuplicate)).2 =
        (if (db.getBlockHeader n.prev).isSome ∧ db.getBlock n.id = none then db.insertBlock n
          else db) ∧
      ((db.getBlockHeader n.prev).isSome → db.getBlock n.id = none →
        (ForkOp.run db (.add n ignoreDuplicate)).1 = .ok ()) := by
  simp only [ForkOp.run, add, run_get_bind]
  cases db.getBlockHeader n.prev with
  | none => simp
  | some p =>
    cases hget : db.getBlock n.id with
    | none => exact ⟨(if_pos ⟨rfl, rfl⟩).symm, fun _ _ => rfl⟩
    | some old => exact ⟨(if_neg (by simp)).symm, fun _ hnone => by cases hnone⟩

theorem ForkInv.add (hinv : ForkInv db) {ignoreDuplicate : Bool}
    (hallowed : ForkOp.Allowed db (.add n ignoreDuplicate)) :
    ForkInv (ForkOp.run db (.add n ignoreDuplicate)).2 := by
  obtain ⟨hroot, hfresh, hfollows⟩ := hallowed
  rw [(db.add_run n ignoreDuplicate).1]
  split
  · next hinsert =>
    obtain ⟨p, hp⟩ := Option.isSome_iff_exists.mp hinsert.1
    exact hinv.insertBlock (getBlockHeader_eq_some hp).1 (hfollows p hp) hroot hfresh
  · exact hinv

/-! ## Removing subtrees -/

def Pruned (index : List BlockState) (id : BlockId) (index' : List BlockState) : Prop :=
  index'.Sublist index ∧ ∀ b, b ∈ index' ↔ b ∈ index ∧ ¬ Below index id b.id

/-- **Removal.** On a forest, `remove` throws and changes nothing when the head
is in the subtree, and otherwise prunes exactly that subtree. -/
theorem ForkDatabase.remove_run {rank : BlockId → ℕ}
    (hforest : Forest.IsForest (fun b : BlockState => b.id) prev rank db.index) (id : BlockId) :
    (Below db.index id db.head.id ∧ ∃ e, (remove id).run db = (.error e, db)) ∨
    (¬ Below db.index id db.head.id ∧ ∃ index', Pruned db.index id index' ∧
      (remove id).run db = (.ok (), { db with index := index' })) := by
  unfold remove
  rw [run_get_bind]
  rcases Forest.worklist_descends hforest db.head.id (a := id) (Nat.le_refl _) with
    ⟨hbelow, hstop⟩ | ⟨hbelow, l, hok, -, hl⟩
  · simp only [hstop]
    exact .inl ⟨hbelow, _, rfl⟩
  · simp only [hok]
    refine .inr ⟨hbelow, db.index.filter fun b => b.id ∉ l, ⟨filter_sublist, ?_⟩, rfl⟩
    intro b
    simp [hl]

theorem Pruned.parent {index' : List BlockState} (h : Pruned index id index') {p : BlockState}
    (hb : b ∈ index') (hp : p ∈ index) (hlink : p.id = b.prev) : p ∈ index' := by
  obtain ⟨hbi, hbelow⟩ := (h.2 b).mp hb
  refine (h.2 p).mpr ⟨hp, fun hpb => hbelow ?_⟩
  exact .child (n := b) (hlink ▸ hpb) hbi

theorem ForkInv.remove (hinv : ForkInv db) (id : BlockId) : ForkInv ((remove id).run db).2 := by
  rcases remove_run hinv.isForest id with ⟨-, e, hrun⟩ | ⟨hhead, index', hpruned, hrun⟩
  · rw [hrun]
    exact hinv
  · rw [hrun]
    have hsub := hpruned.1.subset
    refine ⟨(hpruned.1.map _).nodup hinv.nodup, fun b hb => hinv.root_fresh b (hsub hb), ?_, ?_,
      fun b hb => hinv.best b (hsub hb)⟩
    · intro b hb
      refine (hinv.linked b (hsub hb)).imp_right ?_
      rintro ⟨p, hp, hfol⟩
      exact ⟨p, hpruned.parent hb hp hfol.link, hfol⟩
    · refine hinv.head.imp_right ?_
      rintro ⟨hmem, hv⟩
      exact ⟨(hpruned.2 _).mpr ⟨hmem, hhead⟩, hv⟩

/-! ## Advancing the root -/

/-- The walk down from a block ends at the root and lists what is below it on
its branch.  `visited` are the blocks the walk has come through. -/
theorem ForkInv.blocksToRemove (hinv : ForkInv db) {rounds : ℕ} (visited : List BlockState)
    (hb : b ∈ db.index) (hnodup : visited.Nodup) (hvisited : ∀ v ∈ visited, v ∈ db.index)
    (habove : ∀ v ∈ visited, b.blockNum < v.blockNum)
    (hrounds : db.index.length ≤ rounds + visited.length) :
    ∃ ids, db.blocksToRemove rounds b = .ok ids ∧ db.root.id ∈ ids ∧
      ∀ id ∈ ids, db.rank id < b.blockNum := by
  induction rounds generalizing b visited with
  | zero =>
    -- `b` and the visited blocks would be more than are indexed
    have hnodup' : (b :: visited).Nodup :=
      nodup_cons.mpr ⟨fun hmem => Nat.lt_irrefl _ (habove b hmem), hnodup⟩
    have hsub : b :: visited ⊆ db.index := cons_subset.mpr ⟨hb, hvisited⟩
    have := (hnodup'.subperm hsub).length_le
    rw [length_cons] at this
    omega
  | succ rounds ih =>
    unfold blocksToRemove
    rcases hinv.linked b hb with hroot | ⟨p, hp, hfol⟩
    · have hnone : db.getBlock b.prev = none := by
        rw [getBlock_eq_none]
        intro c hc hid
        exact hinv.root_fresh c hc (hid.trans hroot.link.symm)
      rw [hnone]
      refine ⟨[b.prev], ?_, by simp [hroot.link], ?_⟩
      · simp only [ineAssert, hroot.link, ensure_pos, ok_bind]
        rfl
      · intro id hid
        obtain rfl : id = b.prev := by simpa using hid
        rw [← hroot.link, ForkInv.rank_root, hroot.blockNum]
        omega
    · have hsome : db.getBlock b.prev = some p := by
        rw [← hfol.link]
        exact hinv.getBlock hp
      have hnum := hfol.blockNum
      obtain ⟨ids, hok, hrootmem, hrank⟩ := ih (b :: visited) hp
        (nodup_cons.mpr ⟨fun hmem => Nat.lt_irrefl _ (habove b hmem), hnodup⟩)
        (forall_mem_cons.mpr ⟨hb, hvisited⟩)
        (forall_mem_cons.mpr ⟨by omega, fun v hv => by have := habove v hv; omega⟩)
        (by rw [length_cons]; omega)
      rw [hsome]
      refine ⟨b.prev :: ids, ?_, mem_cons_of_mem _ hrootmem, ?_⟩
      · simp only [hok, ok_bind]
        rfl
      · refine forall_mem_cons.mpr ⟨?_, fun id hid => by have := hrank id hid; omega⟩
        rw [← hfol.link, hinv.rank_id hp]
        omega

/-- The index while `advance_root` removes what is not built on the new root:
all of the subtree of `r` is still there, and what else is there hangs on the
old root or on `r`. -/
structure Advancing (db : ForkDatabase) (r : BlockState) (index : List BlockState) : Prop where
  sublist : index.Sublist db.index
  cut : r.id ∉ index.map (·.id)
  keeps : ∀ b ∈ db.index, b.id ≠ r.id → Below db.index r.id b.id → b ∈ index
  linked : ∀ b ∈ index, b.prev = db.root.id ∨ b.prev = r.id ∨ ∃ p ∈ index, p.id = b.prev

variable {r : BlockState}

/-- The removals of `advance_root` never hit the head, and in the end only the
subtree of the new root is left. -/
theorem ForkInv.removeAll (hinv : ForkInv db) (hr : r ∈ db.index)
    (hhead : Below db.index r.id db.head.id) {ids : List BlockId}
    (hrank : ∀ id ∈ ids, db.rank id < r.blockNum) {index : List BlockState}
    (h : Advancing db r index) :
    ∃ index', (ForkDatabase.removeAll ids).run { db with index := index } =
        (.ok (), { db with index := index' }) ∧
      Advancing db r index' ∧ index'.Sublist index ∧
      ∀ id ∈ ids, ∀ b ∈ index', ¬ Below index' id b.id := by
  induction ids generalizing index with
  | nil =>
    exact ⟨index, rfl, h, Sublist.refl _, nofun⟩
  | cons id ids ih =>
    have hforest : Forest.IsForest (fun b : BlockState => b.id) prev db.rank index :=
      hinv.isForest.sublist h.sublist
    have hid : db.rank id < db.rank r.id := by
      rw [hinv.rank_id hr]
      exact hrank id mem_cons_self
    -- nothing below the new root is below an older block any more
    have hkeep : ∀ k, Below db.index r.id k → ¬ Below index id k := fun k hk =>
      hinv.isForest.not_descends_of_cut (fun n hn => h.sublist.subset hn) h.cut hid hk
    rcases remove_run (show Forest.IsForest (fun b : BlockState => b.id) prev
        db.rank ({ db with index } : ForkDatabase).index from hforest) id with
      ⟨hbelow, -⟩ | ⟨-, index₁, hpruned, hrun⟩
    · exact absurd hbelow (hkeep _ hhead)
    · have hnext : Advancing db r index₁ := by
        refine ⟨hpruned.1.trans h.sublist, ?_, ?_, ?_⟩
        · exact fun hmem => h.cut ((hpruned.1.map _).subset hmem)
        · intro b hb hne hbelow
          exact (hpruned.2 b).mpr ⟨h.keeps b hb hne hbelow, hkeep _ hbelow⟩
        · intro b hb
          rcases h.linked b (hpruned.1.subset hb) with hroot | hnew | ⟨p, hp, hlink⟩
          · exact .inl hroot
          · exact .inr (.inl hnew)
          · exact .inr (.inr ⟨p, hpruned.parent hb hp hlink, hlink⟩)
      obtain ⟨index', hrun', hadv, hsub, hgone⟩ := ih
        (fun i hi => hrank i (mem_cons_of_mem _ hi)) hnext
      refine ⟨index', ?_, hadv, hsub.trans hpruned.1, ?_⟩
      · unfold ForkDatabase.removeAll
        rw [run_bind_ok hrun]
        exact hrun'
      · intro i hi b hb
        rcases mem_cons.mp hi with rfl | hi
        · -- what is left now was left by this removal already
          intro hbelow
          exact ((hpruned.2 b).mp (hsub.subset hb)).2
            (hbelow.mono fun n hn => hpruned.1.subset (hsub.subset hn))
        · exact hgone i hi b hb

theorem Advancing.below (hinv : ForkInv db) (h : Advancing db r index)
    (hgone : ∀ b ∈ index, ¬ Below index db.root.id b.id) (hb : b ∈ index) :
    Below db.index r.id b.id := by
  have hreach : ∀ num, ∀ b ∈ index, b.blockNum = num →
      Below index db.root.id b.id ∨ Below db.index r.id b.id := by
    intro num
    induction num using Nat.strong_induction_on with
    | _ num ih =>
      intro b hb hnum
      have hbi := h.sublist.subset hb
      rcases h.linked b hb with hroot | hnew | ⟨p, hp, hlink⟩
      · exact .inl (.child (by rw [hroot]; exact .refl) hb)
      · exact .inr (.child (by rw [hnew]; exact .refl) hbi)
      · have hlt : p.blockNum < b.blockNum := by
          have := hinv.isForest.rank_lt b hbi
          rw [hinv.rank_id hbi, ← hlink, hinv.rank_id (h.sublist.subset hp)] at this
          exact this
        rcases ih p.blockNum (by omega) p hp rfl with hbelow | hbelow
        · exact .inl (.child (hlink ▸ hbelow) hb)
        · exact .inr (.child (hlink ▸ hbelow) hbi)
  exact (hreach _ b hb rfl).resolve_left (hgone b hb)

/-- Advancing to a validated block: it goes first, then what is built on those before it. -/
theorem ForkInv.advanceRoot_eq (hinv : ForkInv db) (hr : r ∈ db.index)
    (hvalid : r.validated = true) :
    ∃ ids, db.root.id ∈ ids ∧ (∀ id ∈ ids, db.rank id < r.blockNum) ∧
      (advanceRoot r.id).run db =
        (ForkDatabase.removeAll ids >>= fun _ => modify fun db => { db with root := r }).run
          { db with index := db.index.filter fun b => b.id ≠ r.id } := by
  obtain ⟨ids, hids, hroot, hrank⟩ := hinv.blocksToRemove [] hr nodup_nil nofun nofun
    (Nat.le_succ db.index.length)
  refine ⟨ids, hroot, hrank, ?_⟩
  unfold advanceRoot
  rw [run_get_bind, hinv.getBlock hr]
  refine (run_bind_ok (a := ()) (?_ : _ = (_, db))).trans ?_
  · simp [forkAssert, ineAssert, ensure_pos hvalid]
  rw [hids, run_lift_ok_bind, run_modify_bind]

/-- **Advancing the root.** To a validated block that the head is or is built
on, `advance_root` succeeds, leaves the head, and keeps in the index exactly
what is built on the new root. -/
theorem ForkInv.advanceRoot_ok (hinv : ForkInv db) (hr : r ∈ db.index)
    (hvalid : r.validated = true) (hhead : Below db.index r.id db.head.id) :
    ∃ index', (ForkDatabase.advanceRoot r.id).run db = (.ok (), ⟨index', r, db.head⟩) ∧
      index'.Sublist db.index ∧
      ∀ b, b ∈ index' ↔ b ∈ db.index ∧ b.id ≠ r.id ∧ Below db.index r.id b.id := by
  obtain ⟨ids, hroot, hrank, heq⟩ := hinv.advanceRoot_eq hr hvalid
  have hstart : Advancing db r (db.index.filter fun b => b.id ≠ r.id) := by
    refine ⟨filter_sublist, ?_, ?_, ?_⟩
    · intro hmem
      obtain ⟨b, hb, hid⟩ := mem_map.mp hmem
      exact absurd hid (by simpa using (mem_filter.mp hb).2)
    · intro b hb hne _
      exact mem_filter.mpr ⟨hb, by simpa using hne⟩
    · intro b hb
      rcases hinv.linked b (mem_filter.mp hb).1 with hfol | ⟨p, hp, hfol⟩
      · exact .inl hfol.link.symm
      · by_cases hpr : p.id = r.id
        · exact .inr (.inl (hfol.link.symm.trans hpr))
        · exact .inr (.inr ⟨p, mem_filter.mpr ⟨hp, by simpa using hpr⟩, hfol.link⟩)
  obtain ⟨index', hrun, hadv, -, hgone⟩ := hinv.removeAll hr hhead hrank hstart
  refine ⟨index', ?_, hadv.sublist, ?_⟩
  · rw [heq, run_bind_ok hrun]
    rfl
  · intro b
    constructor
    · intro hb
      refine ⟨hadv.sublist.subset hb, fun hid => hadv.cut ?_, ?_⟩
      · exact hid ▸ mem_map_of_mem hb
      · exact hadv.below hinv (hgone _ hroot) hb
    · rintro ⟨hb, hne, hbelow⟩
      exact hadv.keeps b hb hne hbelow

/-- To a block that is not indexed or not validated, `advance_root` throws and changes
nothing. -/
theorem ForkDatabase.advanceRoot_refused (hnone : ∀ r ∈ db.index, r.id = id → r.validated = false) :
    ∃ e, (advanceRoot id).run db = (.error e, db) := by
  unfold advanceRoot
  rw [run_get_bind]
  cases hget : db.getBlock id with
  | none => exact ⟨_, rfl⟩
  | some r =>
    obtain ⟨hr, hid⟩ := getBlock_eq_some hget
    exact ⟨_, run_bind_error (by simp [forkAssert, ineAssert, ensure, hnone r hr hid]; rfl)⟩

theorem ForkDatabase.advanceRoot_cases (db : ForkDatabase) (id : BlockId) :
    (∃ e, (advanceRoot id).run db = (.error e, db)) ∨
      ∃ r ∈ db.index, r.id = id ∧ r.validated = true := by
  by_cases hvalid : ∃ r ∈ db.index, r.id = id ∧ r.validated = true
  · exact .inr hvalid
  · refine .inl (advanceRoot_refused fun r hr hid => ?_)
    by_contra hv
    exact hvalid ⟨r, hr, hid, by simpa using hv⟩

theorem ForkInv.advanceRoot (hinv : ForkInv db) (hhead : Below db.index id db.head.id) :
    ForkInv ((advanceRoot id).run db).2 := by
  rcases db.advanceRoot_cases id with ⟨e, hrun⟩ | ⟨r, hr, rfl, hvalid⟩
  · rw [hrun]
    exact hinv
  · obtain ⟨index', hrun, hsub, hmem⟩ := hinv.advanceRoot_ok hr hvalid hhead
    rw [hrun]
    refine ⟨(hsub.map _).nodup hinv.nodup, fun b hb => ((hmem b).mp hb).2.1, ?_, ?_,
      fun b hb => hinv.best b (hsub.subset hb)⟩
    · intro b hb
      obtain ⟨hbi, hne, hbelow⟩ := (hmem b).mp hb
      have hparent := (hinv.isForest.descends_parent hbi hbelow).resolve_left hne
      rcases hinv.linked b hbi with hfol | ⟨p, hp, hfol⟩
      · exact absurd (hfol.link ▸ hparent) (hinv.root_not_below hr)
      · by_cases hpr : p.id = r.id
        · rw [hinv.eq_of_id hp hr hpr] at hfol
          exact .inl hfol
        · exact .inr ⟨p, (hmem p).mpr ⟨hp, hpr, hfol.link ▸ hparent⟩, hfol⟩
    · rcases hinv.head with hroot | ⟨hheadmem, hv⟩
      · exact absurd (hroot ▸ hhead) (hinv.root_not_below hr)
      · by_cases hne : db.head.id = r.id
        · exact .inl (hinv.eq_of_id hheadmem hr hne)
        · exact .inr ⟨(hmem _).mpr ⟨hheadmem, hne, hhead⟩, hv⟩

/-! ## Every run -/

/-- One allowed operation, whether it returns or throws. -/
def ForkStep (db db' : ForkDatabase) : Prop :=
  ∃ op, ForkOp.Allowed db op ∧ db' = (ForkOp.run db op).2

theorem ForkInv.step {db' : ForkDatabase} (hinv : ForkInv db) (hstep : ForkStep db db') :
    ForkInv db' := by
  obtain ⟨op, hallowed, rfl⟩ := hstep
  cases op with
  | reset root => exact forkInv_reset root
  | add n ignoreDuplicate => exact hinv.add hallowed
  | markValid h => exact hinv.markValid h
  | remove id => exact hinv.remove id
  | advanceRoot id => exact hinv.advanceRoot hallowed
  | rollbackHeadToRoot => exact hinv.rollbackHeadToRoot

/-- The states that allowed operations reach from a reset. -/
def ForkReachable (db : ForkDatabase) : Prop :=
  ∃ root, Relation.ReflTransGen ForkStep (reset root) db

theorem ForkReachable.inv (h : ForkReachable db) : ForkInv db := by
  obtain ⟨root, hrun⟩ := h
  induction hrun with
  | refl => exact forkInv_reset root
  | tail _ hstep ih => exact ih.step hstep

/-- **The fork database is a tree with the best validated block at its head.** In every reachable
state the parent of an indexed block is indexed or is the root, the root is not indexed, the links
from every indexed block lead to the root, the head is the root or an indexed validated block that
no validated block is preferred to, and no indexed block is preferred to the pending head. -/
theorem fork_database_invariants (hdb : ForkReachable db) :
    (∀ b ∈ db.index, b.prev = db.root.id ∨ ∃ p ∈ db.index, p.id = b.prev) ∧
    (∀ b ∈ db.index, b.id ≠ db.root.id) ∧
    (∀ b ∈ db.index, Below db.index db.root.id b.id) ∧
    (db.head = db.root ∨ db.head ∈ db.index ∧ db.head.validated) ∧
    (∀ b ∈ db.index, b.validated → ¬ firstPreferred b db.head) ∧
    (∀ b ∈ db.index, ¬ firstPreferred b db.pendingHead) := by
  have hinv := hdb.inv
  refine ⟨?_, hinv.root_fresh, fun b hb => (hinv.below_root hb).1, hinv.head, hinv.best,
    fun b hb => hinv.pendingHead_best hb⟩
  intro b hb
  exact (hinv.linked b hb).imp (fun h => h.link.symm) fun ⟨p, hp, hfol⟩ => ⟨p, hp, hfol.link⟩

/-- A block state with the fields the fork database reads. -/
def plainBlock (id previous : BlockId) (blockNum irreversible : ℕ) : BlockState :=
  { id, blockNum, dposIrreversibleBlocknum := irreversible, header := { previous } }

/-- Two branches over block 1; the second block of one is validated. -/
def twoBranches : ForkDatabase :=
  let root := (plainBlock 1 0 1 0).toBlockHeaderState
  let ops : List ForkOp := [.add (plainBlock 2 1 2 0) false, .add (plainBlock 3 1 2 1) false,
    .add (plainBlock 4 3 3 1) false, .markValid (plainBlock 3 1 2 1)]
  ops.foldl (fun db op => (ForkOp.run db op).2) (reset root)

theorem forkReachable_twoBranches : ForkReachable twoBranches := by
  refine ⟨(plainBlock 1 0 1 0).toBlockHeaderState, ?_⟩
  refine .tail (.tail (.tail (.tail .refl ⟨.add (plainBlock 2 1 2 0) false, ?_, rfl⟩)
    ⟨.add (plainBlock 3 1 2 1) false, ?_, rfl⟩) ⟨.add (plainBlock 4 3 3 1) false, ?_, rfl⟩)
    ⟨.markValid (plainBlock 3 1 2 1), trivial, rfl⟩
  all_goals
    refine ⟨by decide, by decide, ?_⟩
    intro p hp
    cases hp
    exact ⟨by decide, by decide, by decide⟩

theorem fork_database_invariants_twoBranches :
    ForkReachable twoBranches ∧ twoBranches.head.id = 3 ∧ twoBranches.pendingHead.id = 4 ∧
      ∀ b ∈ twoBranches.index, ¬ firstPreferred b twoBranches.pendingHead :=
  ⟨forkReachable_twoBranches, by decide, by decide,
    (fork_database_invariants forkReachable_twoBranches).2.2.2.2.2⟩

end Inery.Chain
