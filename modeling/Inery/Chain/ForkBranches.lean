import Inery.Chain.ForkInvariant

/-!
# Branches of the fork database (`fork_database.cpp`)

The walks along `previous` links.  A branch is listed from its newest block down, without the block
it starts from.  On a tree the two branches that `fetch_branch_from` returns meet in a block, and no
block is on both.
-/

namespace Inery.Chain

open Foundation List

namespace ForkDatabase

variable (db : ForkDatabase)

/-- `fetch_branch`.  A walk longer than the index does not end. -/
def fetchBranchAux (trimAfter : ℕ) : ℕ → BlockId → Result (List BlockState)
  | 0, _ => .error ⟨.stdBadAlloc, "fetch_branch"⟩
  | rounds + 1, h =>
    match db.getBlock h with
    | none => pure []
    | some s => do
        let below ← fetchBranchAux trimAfter rounds s.prev
        pure (if s.blockNum ≤ trimAfter then s :: below else below)

def fetchBranch (h : BlockId) (trimAfter : ℕ) : Result (List BlockState) :=
  db.fetchBranchAux trimAfter (db.index.length + 1) h

def searchOnBranchAux (num : ℕ) : ℕ → BlockId → Option BlockState
  | 0, _ => none
  | rounds + 1, h =>
    match db.getBlock h with
    | none => none
    | some s => if s.blockNum = num then some s else searchOnBranchAux num rounds s.prev

def searchOnBranch (h : BlockId) (num : ℕ) : Option BlockState :=
  db.searchOnBranchAux num (db.index.length + 1) h

/-- The assertion on a pointer that a lookup returned. -/
def found : Option BlockState → Result BlockState
  | some b => .ok b
  | none => .error ⟨.forkDbBlockNotFound, "block ${id} does not exist"⟩

/-- The two loops of `fetch_branch_from` that bring one side down to the
number of the other. -/
def descendTo (num : ℕ) : ℕ → BlockState → Result (List BlockState × BlockState)
  | 0, _ => .error ⟨.stdBadAlloc, "fetch_branch_from"⟩
  | rounds + 1, b =>
    if num < b.blockNum then do
      let prev ← found (db.getBlockHeader b.prev)
      let (branch, stop) ← descendTo num rounds prev
      pure (b :: branch, stop)
    else pure ([], b)

/-- The loop of `fetch_branch_from` that takes both sides down together. -/
def descendTogether : ℕ → BlockState → BlockState → Result (List BlockState × List BlockState)
  | 0, _, _ => .error ⟨.stdBadAlloc, "fetch_branch_from"⟩
  | rounds + 1, x, y =>
    if x.prev ≠ y.prev then do
      let x' ← found (db.getBlock x.prev)
      let y' ← found (db.getBlock y.prev)
      let (first, second) ← descendTogether rounds x' y'
      pure (x :: first, y :: second)
    else pure ([x], [y])

def fetchBranchFrom (first second : BlockId) : Result (List BlockState × List BlockState) := do
  let x ← found (db.getBlockHeader first)
  let y ← found (db.getBlockHeader second)
  let rounds := db.index.length + 1
  let (firstTop, x) ← db.descendTo y.blockNum rounds x
  let (secondTop, y) ← db.descendTo x.blockNum rounds y
  if x.id = y.id then pure (firstTop, secondTop)
  else do
    let (firstRest, secondRest) ← db.descendTogether rounds x y
    pure (firstTop ++ firstRest, secondTop ++ secondRest)

end ForkDatabase

open ForkDatabase

/-! ## Branches -/

variable {db : ForkDatabase} {b c p x y : BlockState} {l l' : List BlockState}

/-- `l` leads from `b` down to `c`, with `b` in it and without `c`. -/
inductive Branch (db : ForkDatabase) (c : BlockState) : List BlockState → BlockState → Prop
  | nil : Branch db c [] c
  | cons {l : List BlockState} {p b : BlockState} : Branch db c l p → Follows p b → b ∈ db.index →
      Branch db c (b :: l) b

def ForkDatabase.Known (db : ForkDatabase) (b : BlockState) : Prop := b = db.root ∨ b ∈ db.index

namespace Branch

variable (h : Branch db c l b)
include h

theorem mem (hx : x ∈ l) : x ∈ db.index := by
  induction h with
  | nil => cases hx
  | cons _ _ hb ih =>
    rcases mem_cons.mp hx with rfl | hx
    · exact hb
    · exact ih hx

omit h

theorem append (hx : Branch db p l b) (hy : Branch db c l' p) : Branch db c (l ++ l') b := by
  induction hx with
  | nil => exact hy
  | cons _ hfol hb ih => exact .cons ih hfol hb

include h

theorem blockNum : b.blockNum = c.blockNum + l.length := by
  induction h with
  | nil => rfl
  | cons _ hfol _ ih =>
    rw [hfol.blockNum, ih, length_cons]
    omega

theorem eq_nil_iff : l = [] ↔ b = c := by
  constructor
  · rintro rfl
    cases h
    rfl
  · rintro rfl
    have := h.blockNum
    exact length_eq_zero_iff.mp (by omega)

omit h

theorem head_eq (h : Branch db c (x :: l) b) : x = b := by
  cases h
  rfl

theorem tail (h : Branch db c (l ++ x :: l') b) : Branch db c (x :: l') x := by
  induction l generalizing b with
  | nil =>
    obtain rfl := h.head_eq
    exact h
  | cons z l ih =>
    cases h with
    | cons h _ _ => exact ih h

include h

theorem mem_blockNum (hx : x ∈ l) : c.blockNum < x.blockNum ∧ x.blockNum ≤ b.blockNum := by
  obtain ⟨upper, lower, rfl⟩ := append_of_mem hx
  have htop := h.blockNum
  have hx := h.tail.blockNum
  rw [length_append, length_cons] at htop
  rw [length_cons] at hx
  omega

theorem pairwise : l.Pairwise fun newer older => older.blockNum < newer.blockNum := by
  induction h with
  | nil => exact .nil
  | cons hbranch hfol _ ih =>
    refine .cons (fun z hz => ?_) ih
    have hle := (hbranch.mem_blockNum hz).2
    have hnum := hfol.blockNum
    omega

theorem nodup : l.Nodup := by
  refine h.pairwise.imp fun hlt heq => ?_
  rw [heq] at hlt
  exact Nat.lt_irrefl _ hlt

theorem length_le : l.length ≤ db.index.length := (h.nodup.subperm fun _ hx => h.mem hx).length_le

theorem descends : Below db.index c.id b.id := by
  induction h with
  | nil => exact .refl
  | cons _ hfol hb ih => exact .child (hfol.link ▸ ih) hb

end Branch

namespace ForkInv

variable (h : ForkInv db)
include h

theorem getBlockHeader_known (hb : db.Known b) : db.getBlockHeader b.id = some b := by
  rcases hb with rfl | hb
  · exact if_pos rfl
  · exact h.getBlockHeader hb

theorem eq_of_known (hx : db.Known x) (hy : db.Known y) (hid : x.id = y.id) : x = y := by
  have hget := h.getBlockHeader_known hx
  rw [hid, h.getBlockHeader_known hy] at hget
  exact (Option.some.inj hget).symm

theorem exists_parent (hb : b ∈ db.index) :
    ∃ p, db.Known p ∧ Follows p b ∧ db.getBlockHeader b.prev = some p := by
  rcases h.linked b hb with hroot | ⟨p, hp, hfol⟩
  · exact ⟨db.root, .inl rfl, hroot, hroot.link ▸ h.getBlockHeader_known (.inl rfl)⟩
  · exact ⟨p, .inr hp, hfol, hfol.link ▸ h.getBlockHeader_known (.inr hp)⟩

theorem root_blockNum_le (hb : db.Known b) : db.root.blockNum ≤ b.blockNum := by
  rcases hb with rfl | hb
  · exact Nat.le_refl _
  · exact (h.below_root hb).2.2.le

theorem eq_root_of_blockNum_le (hb : db.Known b) (hnum : b.blockNum ≤ db.root.blockNum) :
    b = db.root :=
  hb.resolve_right fun hb => Nat.not_lt.mpr hnum (h.below_root hb).2.2

theorem exists_branch (hb : db.Known b) : ∃ l, Branch db db.root l b := by
  induction hnum : b.blockNum using Nat.strong_induction_on generalizing b with
  | _ num ih =>
    rcases hb with rfl | hb
    · exact ⟨[], .nil⟩
    · obtain ⟨p, hp, hfol, -⟩ := h.exists_parent hb
      have hlt := hfol.blockNum
      obtain ⟨l, hl⟩ := ih p.blockNum (by omega) hp rfl
      exact ⟨b :: l, .cons hl hfol hb⟩

theorem blockNum_le (hb : db.Known b) : b.blockNum ≤ db.root.blockNum + db.index.length := by
  obtain ⟨l, hl⟩ := h.exists_branch hb
  have := hl.blockNum
  have := hl.length_le
  omega

/-- The one-sided loop ends at the wanted number, or where it starts if that is
already low enough. -/
theorem descendTo_spec {num : ℕ} (rounds : ℕ) (hb : db.Known b) (hnum : db.root.blockNum ≤ num)
    (hrounds : b.blockNum < num + rounds) (hpos : 0 < rounds) :
    ∃ l stop, db.descendTo num rounds b = .ok (l, stop) ∧ Branch db stop l b ∧ db.Known stop ∧
      stop.blockNum = min b.blockNum num := by
  induction rounds generalizing b with
  | zero => omega
  | succ rounds ih =>
    unfold descendTo
    split
    next hlt =>
      have hindexed : b ∈ db.index := by
        rcases hb with rfl | hb
        · omega
        · exact hb
      obtain ⟨p, hp, hfol, hget⟩ := h.exists_parent hindexed
      have hpnum := hfol.blockNum
      obtain ⟨l, stop, hok, hbranch, hknown, hstop⟩ := ih hp (by omega) (by omega)
      rw [hget]
      simp only [found, ok_bind, hok]
      exact ⟨b :: l, stop, rfl, .cons hbranch hfol hindexed, hknown, by omega⟩
    next hle => exact ⟨[], b, rfl, .nil, hb, by omega⟩

theorem mem_index_of_ne (hx : db.Known x) (hy : db.Known y) (hne : x ≠ y)
    (hnum : x.blockNum = y.blockNum) : x ∈ db.index := by
  rcases hx with rfl | hx
  · exact absurd (h.eq_root_of_blockNum_le hy hnum.ge).symm hne
  · exact hx

theorem descendTogether_spec (rounds : ℕ) (hx : db.Known x) (hy : db.Known y) (hne : x ≠ y)
    (hnum : x.blockNum = y.blockNum) (hrounds : x.blockNum ≤ db.root.blockNum + rounds) :
    ∃ c first second, db.descendTogether rounds x y = .ok (first, second) ∧ db.Known c ∧
      Branch db c first x ∧ Branch db c second y ∧ ∀ b ∈ first, b ∉ second := by
  induction rounds generalizing x y with
  | zero =>
    have hxroot := h.eq_root_of_blockNum_le hx (by omega)
    have hyroot := h.eq_root_of_blockNum_le hy (by omega)
    exact absurd (hxroot.trans hyroot.symm) hne
  | succ rounds ih =>
    have hxindex := h.mem_index_of_ne hx hy hne hnum
    have hyindex := h.mem_index_of_ne hy hx hne.symm hnum.symm
    obtain ⟨p, hp, hpx, -⟩ := h.exists_parent hxindex
    obtain ⟨q, hq, hqy, -⟩ := h.exists_parent hyindex
    have hpnum := hpx.blockNum
    have hqnum := hqy.blockNum
    unfold descendTogether
    split
    next hprev =>
      have hpq : p ≠ q := by
        rintro rfl
        exact hprev (hpx.link.symm.trans hqy.link)
      have hpindex := h.mem_index_of_ne hp hq hpq (by omega)
      have hqindex := h.mem_index_of_ne hq hp hpq.symm (by omega)
      obtain ⟨c, first, second, hok, hc, hfirst, hsecond, hdisj⟩ :=
        ih (.inr hpindex) (.inr hqindex) hpq (by omega) (by omega)
      rw [← hpx.link, ← hqy.link, h.getBlock hpindex, h.getBlock hqindex]
      simp only [found, ok_bind, hok]
      refine ⟨c, x :: first, y :: second, rfl, hc, .cons hfirst hpx hxindex,
        .cons hsecond hqy hyindex, ?_⟩
      intro b hb hb'
      rcases mem_cons.mp hb with rfl | hb <;> rcases mem_cons.mp hb' with rfl | hb'
      · exact hne rfl
      · have := (hsecond.mem_blockNum hb').2
        omega
      · have := (hfirst.mem_blockNum hb).2
        omega
      · exact hdisj b hb hb'
    next hprev =>
      rw [ne_eq, not_not] at hprev
      obtain rfl : p = q := h.eq_of_known hp hq (hpx.link.trans (hprev.trans hqy.link.symm))
      refine ⟨p, [x], [y], rfl, hp, .cons .nil hpx hxindex, .cons .nil hqy hyindex, ?_⟩
      intro b hb hb'
      rw [mem_singleton] at hb hb'
      exact hne (hb.symm.trans hb')

/-- **The two branches.** For known blocks `fetch_branch_from` returns the
branches down to a common ancestor, which share no block. -/
theorem fetchBranchFrom_spec (hx : db.Known x) (hy : db.Known y) :
    ∃ c first second, db.fetchBranchFrom x.id y.id = .ok (first, second) ∧ db.Known c ∧
      Branch db c first x ∧ Branch db c second y ∧ ∀ b ∈ first, b ∉ second := by
  have hxlow := h.root_blockNum_le hx
  have hylow := h.root_blockNum_le hy
  have hxhigh := h.blockNum_le hx
  have hyhigh := h.blockNum_le hy
  obtain ⟨top, x', hdown, htop, hx', hxnum⟩ :=
    h.descendTo_spec (db.index.length + 1) hx hylow (by omega) (by omega)
  obtain ⟨top', y', hdown', htop', hy', hynum⟩ :=
    h.descendTo_spec (db.index.length + 1) hy (h.root_blockNum_le hx') (by omega)
      (by omega)
  -- only one of the two sides had to come down
  have htops : ∀ b ∈ top, b ∉ top' := by
    intro b hb hb'
    have := htop.mem_blockNum hb
    have := htop'.mem_blockNum hb'
    omega
  unfold fetchBranchFrom
  rw [h.getBlockHeader_known hx, h.getBlockHeader_known hy]
  simp only [found, ok_bind, hdown, hdown']
  by_cases hid : x'.id = y'.id
  · obtain rfl := h.eq_of_known hx' hy' hid
    rw [if_pos hid]
    exact ⟨x', top, top', rfl, hx', htop, htop', htops⟩
  · rw [if_neg hid]
    obtain ⟨c, first, second, hok, hc, hfirst, hsecond, hdisj⟩ :=
      h.descendTogether_spec (db.index.length + 1) hx' hy' (fun heq => hid (heq ▸ rfl))
        (by omega) (by have := h.blockNum_le hx'; omega)
    simp only [hok, ok_bind]
    refine ⟨c, top ++ first, top' ++ second, rfl, hc, htop.append hfirst, htop'.append hsecond, ?_⟩
    intro b hb hb'
    rcases mem_append.mp hb with hb | hb <;> rcases mem_append.mp hb' with hb' | hb'
    · exact htops b hb hb'
    · have := htop.mem_blockNum hb
      have := hsecond.mem_blockNum hb'
      omega
    · have := hfirst.mem_blockNum hb
      have := htop'.mem_blockNum hb'
      omega
    · exact hdisj b hb hb'

end ForkInv

/-! ## Branches and descent -/

theorem Branch.of_mem {db' : ForkDatabase} (hbranch : Branch db c l b)
    (hmem : ∀ x ∈ l, x ∈ db'.index) : Branch db' c l b := by
  induction hbranch with
  | nil => exact .nil
  | cons _ hfol _ ih =>
    exact .cons (ih fun x hx => hmem x (mem_cons_of_mem _ hx)) hfol
      (hmem _ mem_cons_self)

theorem Branch.getLast? (hbranch : Branch db c l b) (hl : l ≠ []) :
    ∃ x, l.getLast? = some x ∧ x.prev = c.id := by
  induction hbranch with
  | nil => exact absurd rfl hl
  | @cons l p b hbranch hfol _ ih =>
    cases hbranch with
    | nil => exact ⟨b, rfl, hfol.link.symm⟩
    | cons hbranch hfol' hp =>
      obtain ⟨o, ho, hprev⟩ := ih (cons_ne_nil _ _)
      exact ⟨o, by rw [List.getLast?_cons_cons, ho], hprev⟩

/-- A block below `b` on a branch to `b` is on the branch or below its start. -/
theorem ForkInv.below_branch {k : BlockId} (hinv : ForkInv db) (hbranch : Branch db c l b)
    (hbelow : Below db.index k b.id) :
    (∃ x ∈ l, x.id = k) ∨ Below db.index k c.id := by
  induction hbranch with
  | nil => exact .inr hbelow
  | @cons l p b _ hfol hb ih =>
    rcases hinv.isForest.descends_parent hb hbelow with heq | hparent
    · exact .inl ⟨b, mem_cons_self, heq⟩
    · rcases ih (hfol.link ▸ hparent) with ⟨x, hx, hid⟩ | hbase
      · exact .inl ⟨x, mem_cons_of_mem _ hx, hid⟩
      · exact .inr hbase

theorem ForkInv.rank_known (hinv : ForkInv db) (hb : db.Known b) : db.rank b.id = b.blockNum := by
  simp [rank, hinv.getBlockHeader_known hb]

theorem ForkInv.second_eq_nil_iff {first second : List BlockState} (hinv : ForkInv db)
    (hy : db.Known y) (hbase : db.Known c) (hfirst : Branch db c first x)
    (hsecond : Branch db c second y)
    (hdisj : ∀ b ∈ first, b ∉ second) : second = [] ↔ Below db.index y.id x.id := by
  constructor
  · intro hnil
    rw [hsecond.eq_nil_iff.mp hnil]
    exact hfirst.descends
  · intro hbelow
    by_contra hne
    rcases hinv.below_branch hfirst hbelow with ⟨z, hz, hid⟩ | hbelow'
    · obtain rfl := hinv.eq_of_known (.inr (hfirst.mem hz)) hy hid
      cases second with
      | nil => exact hne rfl
      | cons top older =>
        obtain rfl := hsecond.head_eq
        exact hdisj _ hz mem_cons_self
    · have hrank := hinv.isForest.rank_le hbelow'
      rw [hinv.rank_known hy, hinv.rank_known hbase] at hrank
      have hnum := hsecond.blockNum
      exact hne (length_eq_zero_iff.mp (by omega))

end Inery.Chain
