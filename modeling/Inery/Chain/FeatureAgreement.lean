import Inery.Chain.ProtocolFeatures

/-!
# The three records of activated features

`Built` relates the manager to the list that it was built from, and `Stacked` every header state to
the protocol state under it.  Both survive every call that leaves the database where the head is;
a call that does not, and whose block activates a feature, leaves the records different.
-/

namespace Inery.Chain

open Foundation List Stateful SnapshotStack FeatureController Stateful.Keeps

/-! ## The manager and its list -/

/-- The manager after the activations of a list, one after the other. -/
inductive Built (pfs : ProtocolFeatureSet) : ProtocolFeatureManager → List (Digest × ℕ) → Prop
  | empty : Built pfs {} []
  | link {m : ProtocolFeatureManager} {l : List (Digest × ℕ)} {d : Digest}
      {codename : BuiltinProtocolFeature} {blockNum : ℕ} (h : Built pfs m l)
      (hd : pfs.builtinOf d = some codename)
      (hentry : (m.builtinProtocolFeatures codename).activationBlockNum = notActive)
      (hle : ∀ e ∈ l, e.2 ≤ blockNum) (hnum : blockNum < notActive) :
      Built pfs (m.link d codename blockNum) (l ++ [(d, blockNum)])

namespace Built

variable {pfs : ProtocolFeatureSet} {m m' : ProtocolFeatureManager} {l : List (Digest × ℕ)}
  {d : Digest} {blockNum : ℕ}

variable (h : Built pfs m l)
include h

theorem activated_eq : m.activatedProtocolFeatures = l := by
  induction h with
  | empty => rfl
  | link _ _ _ _ _ ih => simp only [ProtocolFeatureManager.link, ih]

theorem lt_notActive : ∀ e ∈ l, e.2 < notActive := by
  induction h with
  | empty => simp
  | link _ _ _ _ hnum ih =>
    exact forall_mem_append.mpr ⟨ih, forall_mem_singleton.mpr hnum⟩

theorem entry (codename : BuiltinProtocolFeature) :
    (m.builtinProtocolFeatures codename = {} ∧ ∀ e ∈ l, pfs.builtinOf e.1 ≠ some codename) ∨
      ∃ e ∈ l, pfs.builtinOf e.1 = some codename ∧
        (m.builtinProtocolFeatures codename).activationBlockNum = e.2 := by
  induction h with
  | empty => exact .inl ⟨rfl, by simp⟩
  | @link m l d codename' blockNum _ hd _ _ _ ih =>
    by_cases heq : codename = codename'
    · subst heq
      exact .inr ⟨(d, blockNum), by simp, hd, by simp [ProtocolFeatureManager.link]⟩
    · have hother : (m.link d codename' blockNum).builtinProtocolFeatures codename =
          m.builtinProtocolFeatures codename := Function.update_of_ne heq _ _
      rw [hother]
      rcases ih with ⟨hblank, hnone⟩ | ⟨e, he, hcode, hnum⟩
      · refine .inl ⟨hblank, forall_mem_append.mpr ⟨hnone, forall_mem_singleton.mpr ?_⟩⟩
        rw [hd]
        exact fun h => heq (Option.some.inj h).symm
      · exact .inr ⟨e, mem_append_left _ he, hcode, hnum⟩

theorem entry_of_notActive {codename : BuiltinProtocolFeature}
    (hentry : (m.builtinProtocolFeatures codename).activationBlockNum = notActive) :
    m.builtinProtocolFeatures codename = {} ∧ ∀ e ∈ l, pfs.builtinOf e.1 ≠ some codename := by
  rcases h.entry codename with hblank | ⟨e, he, -, hnum⟩
  · exact hblank
  · have hlt := h.lt_notActive e he
    omega

theorem isBuiltinActivated_iff (hle : ∀ e ∈ l, e.2 ≤ blockNum) (hnum : blockNum < notActive)
    (codename : BuiltinProtocolFeature) :
    m.isBuiltinActivated codename blockNum ↔ ∃ e ∈ l, pfs.builtinOf e.1 = some codename := by
  simp only [ProtocolFeatureManager.isBuiltinActivated, decide_eq_true_eq]
  rcases h.entry codename with ⟨hblank, hnone⟩ | ⟨e, he, hcode, hentry⟩
  · rw [hblank]
    constructor
    · intro hactive
      exact absurd hactive (Nat.not_le.mpr hnum)
    · rintro ⟨e, he, hcode⟩
      exact absurd hcode (hnone e he)
  · rw [hentry]
    exact ⟨fun _ => ⟨e, he, hcode⟩, fun _ => hle e he⟩

theorem nodup : (l.map (·.1)).Nodup := by
  induction h with
  | empty => simp
  | @link m l d codename blockNum h hd hentry _ _ ih =>
    rw [map_append]
    refine Nodup.append ih (by simp) ?_
    intro d' hd' hmem
    obtain rfl : d' = d := by simpa using hmem
    obtain ⟨e, he, rfl⟩ := mem_map.mp hd'
    exact (h.entry_of_notActive hentry).2 e he hd

theorem activateFeature (hle : ∀ e ∈ l, e.2 ≤ blockNum) (hnum : blockNum < notActive)
    (hact : m.activateFeature pfs d blockNum = .ok m') : Built pfs m' (l ++ [(d, blockNum)]) := by
  unfold ProtocolFeatureManager.activateFeature at hact
  split at hact
  · cases hact
  · next f hf =>
    simp only [bind_eq_ok] at hact
    obtain ⟨_, _, hact⟩ := hact
    split at hact
    · cases hact
    · next codename hcode =>
      simp only [bind_eq_ok, ineAssert_eq_ok, pure_eq_ok] at hact
      obtain ⟨_, hentry, rfl⟩ := hact
      have hd : pfs.builtinOf d = some codename := by
        simp [ProtocolFeatureSet.builtinOf, hf, hcode]
      exact h.link hd hentry hle hnum

end Built

namespace ProtocolFeatureManager

/-- The first loop does not look at the vector. -/
theorem popBuiltins_with (blockNum fuel : ℕ) (m : ProtocolFeatureManager) (l : List (Digest × ℕ)) :
    popBuiltins blockNum fuel { m with activatedProtocolFeatures := l } =
      { popBuiltins blockNum fuel m with activatedProtocolFeatures := l } := by
  induction fuel generalizing m with
  | zero => rfl
  | succ fuel ih =>
    obtain ⟨activated, builtin, head⟩ := m
    cases head with
    | none => rfl
    | some codename =>
      by_cases hle : (builtin codename).activationBlockNum ≤ blockNum
      · simp only [popBuiltins, hle, if_true]
      · simp only [popBuiltins, hle, if_false]
        exact ih ⟨activated, Function.update builtin codename {}, (builtin codename).previous⟩

theorem popBuiltins_activated (blockNum fuel : ℕ) (m : ProtocolFeatureManager) :
    (popBuiltins blockNum fuel m).activatedProtocolFeatures = m.activatedProtocolFeatures := by
  have h := popBuiltins_with blockNum fuel m m.activatedProtocolFeatures
  exact congrArg (·.activatedProtocolFeatures) h

variable {pfs : ProtocolFeatureSet} {m : ProtocolFeatureManager} {l : List (Digest × ℕ)}

theorem poppedBlocksTo_link_of_le {d : Digest} {codename : BuiltinProtocolFeature}
    {num blockNum : ℕ} (h : num ≤ blockNum) :
    (m.link d codename num).poppedBlocksTo blockNum = m.link d codename num := by
  have hfirst : (m.link d codename num).popBuiltins blockNum
      (m.link d codename num).activatedProtocolFeatures.length = m.link d codename num := by
    simp [link, popBuiltins, h]
  simp only [poppedBlocksTo, hfirst]
  simp [link, h]

theorem poppedBlocksTo_link_of_lt (hm : Built pfs m l) {d : Digest}
    {codename : BuiltinProtocolFeature} {num blockNum : ℕ}
    (hentry : (m.builtinProtocolFeatures codename).activationBlockNum = notActive)
    (h : blockNum < num) :
    (m.link d codename num).poppedBlocksTo blockNum = m.poppedBlocksTo blockNum := by
  have hblank := (hm.entry_of_notActive hentry).1
  have hback : Function.update (m.link d codename num).builtinProtocolFeatures codename {} =
      m.builtinProtocolFeatures := by
    simp only [link, Function.update_idem]
    rw [← hblank, Function.update_eq_self]
  have hfirst : (m.link d codename num).popBuiltins blockNum
      (m.link d codename num).activatedProtocolFeatures.length =
      { m.popBuiltins blockNum m.activatedProtocolFeatures.length with
        activatedProtocolFeatures := m.activatedProtocolFeatures ++ [(d, num)] } := by
    rw [← popBuiltins_with]
    have hlength : (m.link d codename num).activatedProtocolFeatures.length =
        m.activatedProtocolFeatures.length + 1 := by simp [link]
    rw [hlength, popBuiltins]
    simp only [link] at hback ⊢
    simp only [Function.update_self, Nat.not_le.mpr h, if_false, hback]
  simp only [poppedBlocksTo, hfirst, popBuiltins_activated]
  rw [rdropWhile_concat_pos _ _ _ (by simpa using h)]

end ProtocolFeatureManager

open ProtocolFeatureManager

theorem Built.poppedBlocksTo {pfs : ProtocolFeatureSet} {m : ProtocolFeatureManager}
    {l : List (Digest × ℕ)} (h : Built pfs m l) (blockNum : ℕ) :
    Built pfs (m.poppedBlocksTo blockNum) (l.filter (·.2 ≤ blockNum)) := by
  induction h with
  | empty => exact .empty
  | @link m l d codename num h hd hentry hle hnum ih =>
    by_cases hpop : num ≤ blockNum
    · rw [poppedBlocksTo_link_of_le hpop, filter_eq_self.mpr]
      · exact h.link hd hentry hle hnum
      · exact forall_mem_append.mpr ⟨fun e he => decide_eq_true ((hle e he).trans hpop),
          forall_mem_singleton.mpr (decide_eq_true hpop)⟩
    · rw [poppedBlocksTo_link_of_lt h hentry (by omega), filter_append]
      simpa [hpop] using ih

/-! ## Activation at the start of a block -/

namespace FeatureController

variable {pfs : ProtocolFeatureSet} {handler : BuiltinProtocolFeature → Result Unit}
  {blockNum : ℕ} {d : Digest} {s : ActivationLoop} {l : List (Digest × ℕ)}

theorem keeps_checkActivation (f : ProtocolFeature) (m : ProtocolFeatureManager) :
    Keeps (fun s : ActivationLoop => s.protocolFeatures = m) (checkActivation f d) := by
  refine get_bind fun t => ?_
  cases t.activatedProtocolFeatures.lookup d with
  | none => exact bind (fun _ h => h) fun _ => modify fun _ h => h
  | some done =>
    exact bind (fun _ h => h) fun _ => modify fun _ h => h

/-- One turn of the loop: the manager gains the feature or is left alone. -/
theorem built_activateOne (h : Built pfs s.protocolFeatures l) (hle : ∀ e ∈ l, e.2 ≤ blockNum)
    (hnum : blockNum < notActive) {outcome : Result Unit} {s' : ActivationLoop}
    (hrun : (activateOne pfs handler blockNum d).run s = (outcome, s')) :
    Built pfs s'.protocolFeatures (l ++ [(d, blockNum)]) ∨
      (outcome ≠ .ok () ∧ s'.protocolFeatures = s.protocolFeatures) := by
  unfold activateOne at hrun
  split at hrun
  · cases hrun
    exact .inr ⟨by simp, rfl⟩
  · next f _ =>
    cases hcheck : (checkActivation f d).run s with
    | mk checked t =>
      have ht : t.protocolFeatures = s.protocolFeatures :=
        (keeps_checkActivation f s.protocolFeatures).of_run rfl hcheck
      cases checked with
      | error e =>
        rw [run_bind_error hcheck] at hrun
        cases hrun
        exact .inr ⟨by simp, ht⟩
      | ok _ =>
        rw [run_bind_ok hcheck] at hrun
        cases hhandler : triggerActivationHandler handler f with
        | error e =>
          rw [hhandler, run_lift_error_bind] at hrun
          cases hrun
          exact .inr ⟨by simp, ht⟩
        | ok _ =>
          rw [hhandler, run_lift_ok_bind, run_get_bind] at hrun
          cases hact : t.protocolFeatures.activateFeature pfs d blockNum with
          | error e =>
            rw [hact, run_lift_error_bind] at hrun
            cases hrun
            exact .inr ⟨by simp, ht⟩
          | ok m =>
            rw [hact, run_lift_ok_bind, run_modify] at hrun
            cases hrun
            rw [ht] at hact
            exact .inl (h.activateFeature hle hnum hact)

/-- The loop activates some of the features from the front, and all of them when it
succeeds. -/
theorem built_activateAll (new : List Digest) (h : Built pfs s.protocolFeatures l)
    (hle : ∀ e ∈ l, e.2 ≤ blockNum) (hnum : blockNum < notActive) {outcome : Result Unit}
    {s' : ActivationLoop} (hrun : (activateAll pfs handler blockNum new).run s = (outcome, s')) :
    ∃ done : List Digest, Built pfs s'.protocolFeatures (l ++ done.map fun d => (d, blockNum)) ∧
      (outcome = .ok () → done = new) := by
  induction new generalizing s l with
  | nil =>
    cases hrun
    exact ⟨[], by simpa using h, fun _ => rfl⟩
  | cons d rest ih =>
    rw [activateAll] at hrun
    cases hone : (activateOne pfs handler blockNum d).run s with
    | mk first t =>
      have hstep := built_activateOne h hle hnum hone
      cases first with
      | error e =>
        rw [run_bind_error hone] at hrun
        cases hrun
        rcases hstep with hstep | ⟨_, hsame⟩
        · exact ⟨[d], hstep, by simp⟩
        · exact ⟨[], by simpa [hsame] using h, by simp⟩
      | ok _ =>
        rw [run_bind_ok hone] at hrun
        rcases hstep with hstep | ⟨hfail, _⟩
        · have hle' : ∀ e ∈ l ++ [(d, blockNum)], e.2 ≤ blockNum :=
            forall_mem_append.mpr ⟨hle, forall_mem_singleton.mpr (le_refl _)⟩
          obtain ⟨done, hdone, hall⟩ := ih hstep hle' hrun
          exact ⟨d :: done, by simpa using hdone, fun hok => by rw [hall hok]⟩
        · exact absurd rfl hfail

/-! ## Header states over protocol states -/

structure Recorded (h : FeatureHead) (ps : ProtocolState) : Prop where
  set_eq : h.activatedProtocolFeatures = (ps.activatedProtocolFeatures.map (·.1)).toFinset
  le_blockNum : ∀ e ∈ ps.activatedProtocolFeatures, e.2 ≤ h.blockNum

/-- The head over the header states below it, and its protocol state over the undo
states. -/
inductive Stacked : FeatureHead → ProtocolState → List FeatureHead → List (ProtocolState × ℤ) → Prop
  | root {h : FeatureHead} {ps : ProtocolState} (hrec : Recorded h ps) : Stacked h ps [] []
  | block {h h' : FeatureHead} {ps ps' : ProtocolState} {below : List FeatureHead}
      {saved : List (ProtocolState × ℤ)} (hbelow : Stacked h ps below saved)
      (hrec : Recorded h' ps') (hnum : h'.blockNum = h.blockNum + 1)
      (hprev : ps.activatedProtocolFeatures =
        ps'.activatedProtocolFeatures.filter (·.2 ≤ h.blockNum)) :
      Stacked h' ps' (h :: below) ((ps, (h'.blockNum : ℤ)) :: saved)

namespace Stacked

variable {h : FeatureHead} {ps ps' : ProtocolState} {below : List FeatureHead}
  {saved : List (ProtocolState × ℤ)}

variable (hs : Stacked h ps below saved)
include hs

theorem recorded : Recorded h ps := by
  cases hs with
  | root hrec => exact hrec
  | block _ hrec _ _ => exact hrec

theorem of_activated_eq (heq : ps'.activatedProtocolFeatures = ps.activatedProtocolFeatures) :
    Stacked h ps' below saved := by
  cases hs with
  | root hrec => exact .root ⟨by rw [heq]; exact hrec.set_eq, by rw [heq]; exact hrec.le_blockNum⟩
  | block hbelow hrec hnum hprev =>
    exact .block hbelow ⟨by rw [heq]; exact hrec.set_eq, by rw [heq]; exact hrec.le_blockNum⟩
      hnum (by rw [heq]; exact hprev)

theorem revision_le : ∀ e ∈ saved, e.2 ≤ (h.blockNum : ℤ) := by
  induction hs with
  | root _ => simp
  | block _ _ hnum _ ih =>
    intro e he
    rcases mem_cons.mp he with rfl | he
    · exact le_refl _
    · have hle := ih e he
      push_cast [hnum]
      omega

/-- The root of the fork database and the oldest undo state move up together. -/
theorem commitIrreversible (blockNum : ℕ) : Stacked h ps (below.takeWhile (blockNum ≤ ·.blockNum))
      (saved.rdropWhile fun e => e.2 ≤ (blockNum : ℤ)) := by
  induction hs with
  | root hrec => exact .root hrec
  | @block h h' ps ps' below saved hbelow hrec hnum hprev ih =>
    by_cases hle : blockNum ≤ h.blockNum
    · -- the block on top stays, whatever is dropped below it
      have hkeep : ¬ (h'.blockNum : ℤ) ≤ blockNum := by
        push_cast [hnum]
        omega
      rw [takeWhile_cons_of_pos (by simpa using hle), rdropWhile_cons]
      simp only [hkeep, decide_false, Bool.false_eq_true, if_false]
      split
      · next hnil =>
        rw [hnil] at ih
        exact .block ih hrec hnum hprev
      · exact .block ih hrec hnum hprev
    · have hdrop : saved.rdropWhile (fun e => e.2 ≤ (blockNum : ℤ)) = [] := by
        rw [rdropWhile_eq_nil_iff]
        intro e he
        have hle' := hbelow.revision_le e he
        simp only [decide_eq_true_eq]
        omega
      have htop : (h'.blockNum : ℤ) ≤ blockNum := by
        push_cast [hnum]
        omega
      rw [takeWhile_cons_of_neg (by simpa using hle), rdropWhile_cons, hdrop]
      simp only [if_true, htop, decide_true]
      exact .root hrec

end Stacked

/-! ## Agreement -/

section
variable (pfs : ProtocolFeatureSet) (c : FeatureController)

def currentBlockNum : ℕ := if c.pending.isSome then c.head.blockNum + 1 else c.head.blockNum

/-- The features that `is_protocol_feature_activated` finds, in the pending or the head
header state. -/
def activatedProtocolFeatures : Finset Digest :=
  match c.pending with
  | none => c.head.activatedProtocolFeatures
  | some p => c.head.activatedProtocolFeatures ∪
      (p.newProtocolFeatureActivations.take p.numActivated).toFinset

/-- The header state, the database and the manager have the same features, the last two
in the same order, and the builtin features are answered for accordingly. -/
structure Agree : Prop where
  set_eq : c.activatedProtocolFeatures = (c.db.current.activatedProtocolFeatures.map (·.1)).toFinset
  list_eq : c.protocolFeatures.reported c.currentBlockNum =
    c.db.current.activatedProtocolFeatures.map (·.1)
  builtin_iff : ∀ codename, c.protocolFeatures.isBuiltinActivated codename c.currentBlockNum ↔
    ∃ d ∈ c.activatedProtocolFeatures, pfs.builtinOf d = some codename

/-- The controller between two blocks. -/
structure Settled : Prop where
  pending_eq : c.pending = none
  stacked : Stacked c.head c.db.current c.below c.db.saved
  revision_eq : c.db.revision = c.head.blockNum
  built : Built pfs c.protocolFeatures c.db.current.activatedProtocolFeatures
  lt_notActive : c.head.blockNum < notActive

def activations (p : PendingFeatures) : List (Digest × ℕ) :=
  (p.newProtocolFeatureActivations.take p.numActivated).map fun d => (d, c.head.blockNum + 1)

/-- The controller with a pending block over the database `db` of the head. -/
structure Building (p : PendingFeatures) (db : SnapshotStack ProtocolState) : Prop where
  pending_eq : c.pending = some p
  stacked : Stacked c.head db.current c.below db.saved
  revision_eq : db.revision = c.head.blockNum
  saved_eq : c.db.saved = (if p.session then db.push else db).saved
  revision_eq_db : c.db.revision = (if p.session then db.push else db).revision
  -- irreversible blocks are replayed without undo states
  saved_of_replay : p.session = false → db.saved = []
  list_eq : c.db.current.activatedProtocolFeatures =
    db.current.activatedProtocolFeatures ++ c.activations p
  built : Built pfs c.protocolFeatures c.db.current.activatedProtocolFeatures
  none_or_all : p.numActivated = 0 ∨ p.numActivated = p.newProtocolFeatureActivations.length
  lt_notActive : c.head.blockNum + 1 < notActive

def Sound : Prop := Settled pfs c ∨ ∃ p db, Building pfs c p db

end

variable {c : FeatureController} {p : PendingFeatures} {db : SnapshotStack ProtocolState}

/-- What agreement needs besides the sets. -/
theorem agree_of_built
    (hset : c.activatedProtocolFeatures =
      (c.db.current.activatedProtocolFeatures.map (·.1)).toFinset)
    (hbuilt : Built pfs c.protocolFeatures c.db.current.activatedProtocolFeatures)
    (hle : ∀ e ∈ c.db.current.activatedProtocolFeatures, e.2 ≤ c.currentBlockNum)
    (hnum : c.currentBlockNum < notActive) : c.Agree pfs := by
  refine ⟨hset, ?_, fun codename => ?_⟩
  · rw [reported, hbuilt.activated_eq, takeWhile_eq_self_iff.mpr]
    intro e he
    exact decide_eq_true (hle e he)
  · rw [hbuilt.isBuiltinActivated_iff hle hnum, hset]
    simp only [mem_toFinset, mem_map, exists_exists_and_eq_and]

/-- Popped back to the block before, a list loses what one block has added. -/
theorem filter_append_activations (hle : ∀ e ∈ l, e.2 ≤ blockNum) (new : List Digest) :
    (l ++ new.map fun d => (d, blockNum + 1)).filter (·.2 ≤ blockNum) = l := by
  rw [filter_append, filter_eq_self.mpr, filter_eq_nil_iff.mpr, append_nil]
  · intro e he
    obtain ⟨d, -, rfl⟩ := mem_map.mp he
    simp
  · intro e he
    exact decide_eq_true (hle e he)

theorem map_fst_append (new : List Digest) :
    (l ++ new.map fun d => (d, blockNum)).map (·.1) = l.map (·.1) ++ new := by
  rw [map_append, map_map]
  congr 1
  exact map_id _

theorem Settled.agree (h : Settled pfs c) : c.Agree pfs := by
  have hcurrent : c.currentBlockNum = c.head.blockNum := by
    simp [currentBlockNum, h.pending_eq]
  refine agree_of_built ?_ h.built ?_ ?_
  · simpa [activatedProtocolFeatures, h.pending_eq] using h.stacked.recorded.set_eq
  · rw [hcurrent]
    exact h.stacked.recorded.le_blockNum
  · rw [hcurrent]
    exact h.lt_notActive

namespace Building

variable (h : Building pfs c p db)
include h

theorem le_succ : ∀ e ∈ c.db.current.activatedProtocolFeatures, e.2 ≤ c.head.blockNum + 1 := by
  rw [h.list_eq, forall_mem_append]
  exact ⟨fun e he => (h.stacked.recorded.le_blockNum e he).trans (Nat.le_succ _),
    forall_mem_map.mpr fun _ _ => le_refl _⟩

theorem digests_eq :
    c.db.current.activatedProtocolFeatures.map (·.1) =
      db.current.activatedProtocolFeatures.map (·.1) ++
        p.newProtocolFeatureActivations.take p.numActivated := by
  rw [h.list_eq, activations, map_fst_append]

theorem agree : c.Agree pfs := by
  have hcurrent : c.currentBlockNum = c.head.blockNum + 1 := by
    simp [currentBlockNum, h.pending_eq]
  refine agree_of_built ?_ h.built ?_ ?_
  · rw [h.digests_eq, toFinset_append, ← h.stacked.recorded.set_eq]
    simp [activatedProtocolFeatures, h.pending_eq]
  · rw [hcurrent]
    exact h.le_succ
  · rw [hcurrent]
    exact h.lt_notActive

theorem built_popped : Built pfs (c.protocolFeatures.poppedBlocksTo c.head.blockNum)
      db.current.activatedProtocolFeatures := by
  have hpop := h.built.poppedBlocksTo c.head.blockNum
  rwa [h.list_eq, activations, filter_append_activations h.stacked.recorded.le_blockNum] at hpop

theorem closeSession_eq (hs : p.session = true) : closeSession p.session c.db = db := by
  have hsaved := h.saved_eq
  have hrevision := h.revision_eq_db
  rw [hs, if_pos rfl] at hsaved hrevision
  rw [hs, closeSession, if_pos rfl]
  exact undo_of_saved hsaved hrevision

theorem replay_eq (hs : p.session = false) :
    closeSession p.session c.db = c.db ∧ c.db.saved = [] ∧ c.db.revision = c.head.blockNum := by
  have hsaved := h.saved_eq
  have hrevision := h.revision_eq_db
  simp only [hs, Bool.false_eq_true, if_false] at hsaved hrevision
  refine ⟨by simp [closeSession, hs], ?_, ?_⟩
  · rw [hsaved, h.saved_of_replay hs]
  · rw [hrevision, h.revision_eq]

end Building

variable {new : List Digest}

theorem not_agree_of_head {old : Finset Digest} (hpending : c.pending = none)
    (hhead : c.head.activatedProtocolFeatures = old ∪ new.toFinset)
    (hdb : (c.db.current.activatedProtocolFeatures.map (·.1)).toFinset = old) (hnew : new ≠ [])
    (hfresh : ∀ d ∈ new, d ∉ old) : ¬ c.Agree pfs := by
  obtain ⟨d, hd⟩ := exists_mem_of_ne_nil new hnew
  refine fun hagree => hfresh d hd ?_
  have hset := hagree.set_eq
  simp only [activatedProtocolFeatures, hpending, hhead, hdb] at hset
  rw [← hset]
  exact Finset.mem_union_right _ (mem_toFinset.mpr hd)

theorem not_agree_of_db {old : List Digest} (hpending : c.pending = none)
    (hhead : c.head.activatedProtocolFeatures = old.toFinset)
    (hdb : c.db.current.activatedProtocolFeatures.map (·.1) = old ++ new) (hnew : new ≠ [])
    (hnodup : (old ++ new).Nodup) : ¬ c.Agree pfs := by
  intro hagree
  obtain ⟨d, hd⟩ := exists_mem_of_ne_nil new hnew
  have hset := hagree.set_eq
  simp only [activatedProtocolFeatures, hpending, hhead, hdb] at hset
  have hmem : d ∈ old.toFinset := by
    rw [hset]
    simp [hd]
  exact (disjoint_of_nodup_append hnodup) (mem_toFinset.mp hmem) hd

/-! ## Dropping a block -/

/-- A block is dropped without a session to undo, after it has activated features. -/
def DropLoses (p : PendingFeatures) : Prop :=
  p.session = false ∧ p.newProtocolFeatureActivations.take p.numActivated ≠ []

variable (h : Building pfs c p db)
include h

theorem Building.abortBlock (hkeep : ¬ DropLoses p) : Settled pfs c.abortBlock := by
  cases hs : p.session with
  | true =>
    simp only [FeatureController.abortBlock, h.pending_eq, h.closeSession_eq hs]
    exact ⟨rfl, h.stacked, h.revision_eq, h.built_popped, Nat.lt_of_succ_lt h.lt_notActive⟩
  | false =>
    obtain ⟨hclose, hsaved, hrevision⟩ := h.replay_eq hs
    have hnone : p.newProtocolFeatureActivations.take p.numActivated = [] := by
      by_contra hsome
      exact hkeep ⟨hs, hsome⟩
    have hsame : c.db.current.activatedProtocolFeatures = db.current.activatedProtocolFeatures := by
      rw [h.list_eq, activations, hnone, map_nil, append_nil]
    have hstacked := h.stacked.of_activated_eq hsame
    rw [h.saved_of_replay hs, ← hsaved] at hstacked
    simp only [FeatureController.abortBlock, h.pending_eq, hclose]
    refine ⟨rfl, hstacked, hrevision, ?_, Nat.lt_of_succ_lt h.lt_notActive⟩
    rw [hsame]
    exact h.built_popped

theorem Building.not_agree_abortBlock (hlose : DropLoses p) : ¬ c.abortBlock.Agree pfs := by
  obtain ⟨hs, hnew⟩ := hlose
  obtain ⟨hclose, -, -⟩ := h.replay_eq hs
  simp only [FeatureController.abortBlock, h.pending_eq, hclose]
  refine not_agree_of_db rfl h.stacked.recorded.set_eq h.digests_eq hnew ?_
  rw [← h.digests_eq]
  exact h.built.nodup

/-! ## Starting a block -/

omit h

/-- `start_block` throws after it has written the activated features to a database
without an undo session. -/
def StartLoses (pfs : ProtocolFeatureSet) (c : FeatureController) (i : StartInput) : Prop :=
  c.pending = none ∧ i.session = false ∧ i.modifies = true ∧ c.activated pfs i = true ∧
    i.later ≠ .ok () ∧ i.newProtocolFeatureActivations ≠ []

theorem Settled.built_activation (h : Settled pfs c) (i : StartInput)
    (hnum : c.head.blockNum + 1 < notActive) :
    ∃ done : List Digest, Built pfs (c.activation pfs i).2.protocolFeatures
      (c.db.current.activatedProtocolFeatures ++ done.map fun d => (d, c.head.blockNum + 1)) ∧
      (c.activated pfs i = true → done = i.newProtocolFeatureActivations) := by
  have hle : ∀ e ∈ c.db.current.activatedProtocolFeatures, e.2 ≤ c.head.blockNum + 1 :=
    fun e he => (h.stacked.recorded.le_blockNum e he).trans (Nat.le_succ _)
  cases hrun : c.activation pfs i with
  | mk outcome loop =>
    obtain ⟨done, hbuilt, hall⟩ := built_activateAll i.newProtocolFeatureActivations h.built
      hle hnum hrun
    refine ⟨done, hbuilt, fun hact => hall ?_⟩
    simp only [activated, hrun, Bool.and_eq_true] at hact
    cases outcome with
    | error e => cases hact.1
    | ok u => rfl

/-- Whatever the loop has done to the manager, `guard_pending` takes it back. -/
theorem Settled.guardPending (h : Settled pfs c) {m : ProtocolFeatureManager} {session : Bool}
    {db : SnapshotStack ProtocolState} {done : List Digest}
    (hm : Built pfs m
      (c.db.current.activatedProtocolFeatures ++ done.map fun d => (d, c.head.blockNum + 1)))
    (hdb : closeSession session db = c.db) : Settled pfs (c.guardPending m session db) := by
  have hpop := hm.poppedBlocksTo c.head.blockNum
  rw [filter_append_activations h.stacked.recorded.le_blockNum] at hpop
  simp only [FeatureController.guardPending, hdb]
  exact ⟨h.pending_eq, h.stacked, h.revision_eq, hpop, h.lt_notActive⟩

theorem activated_recordActivations (new : List Digest) (blockNum : ℕ) (ps : ProtocolState) :
    (recordActivations new blockNum ps).activatedProtocolFeatures =
      ps.activatedProtocolFeatures ++ new.map fun d => (d, blockNum) := by
  cases new with
  | nil => simp [recordActivations]
  | cons d rest => simp [recordActivations]

theorem current_openSession (session : Bool) : (c.openSession session).current = c.db.current := by
  cases session <;> rfl

theorem closeSession_openSession (session : Bool) (f : ProtocolState → ProtocolState)
    (hf : session = true ∨ f c.db.current = c.db.current) :
    closeSession session ((c.openSession session).update f) = c.db := by
  cases session with
  | true => exact undo_of_saved rfl rfl
  | false =>
    have hf : f c.db.current = c.db.current := by simpa using hf
    simp only [closeSession, openSession, update, hf, Bool.false_eq_true, if_false]

theorem Settled.openBlock (h : Settled pfs c) {i : StartInput}
    (hreplay : i.session = false → c.db.saved = []) (hnum : c.head.blockNum + 1 < notActive)
    (hkeep : ¬ c.StartLoses pfs i) : Sound pfs (c.openBlock pfs i) := by
  obtain ⟨done, hbuilt, hall⟩ := h.built_activation i hnum
  unfold FeatureController.openBlock
  simp only
  split
  · -- a speculative block that leaves the database alone
    refine .inr ⟨_, c.db, rfl, h.stacked, h.revision_eq, rfl, rfl, hreplay, ?_, ?_, .inl rfl, hnum⟩
    · simp [activations, current_openSession]
    · rw [current_openSession]
      exact h.built
  · next hmod =>
    split
    · next hact =>
      rw [hall hact] at hbuilt
      split
      · next e hlater =>
        have hfail : i.later ≠ .ok () := by simp [hlater]
        refine .inl (h.guardPending hbuilt (closeSession_openSession _ _ ?_))
        by_contra hlost
        rw [not_or] at hlost
        refine hkeep ⟨h.pending_eq, by simpa using hlost.1, by simpa using hmod, hact, hfail,
          fun hnil => hlost.2 ?_⟩
        simp [recordActivations, hnil]
      · -- the block is open, and has activated all its features
        have hlist : (((c.openSession i.session).update
            (recordActivations i.newProtocolFeatureActivations
              (c.head.blockNum + 1))).current).activatedProtocolFeatures =
            c.db.current.activatedProtocolFeatures ++
              i.newProtocolFeatureActivations.map fun d => (d, c.head.blockNum + 1) := by
          rw [update, current_openSession, activated_recordActivations]
        refine .inr ⟨_, c.db, rfl, h.stacked, h.revision_eq, ?_, ?_, hreplay, ?_, ?_, .inr rfl,
          hnum⟩
        · rfl
        · rfl
        · rw [hlist, activations, take_length]
        · rw [hlist]
          exact hbuilt
    · refine .inl (h.guardPending hbuilt ?_)
      exact closeSession_openSession i.session id (.inr rfl)

theorem Settled.not_agree_openBlock (h : Settled pfs c) {i : StartInput}
    (hnum : c.head.blockNum + 1 < notActive) (hlose : c.StartLoses pfs i) :
    ¬ (c.openBlock pfs i).Agree pfs := by
  obtain ⟨-, hsession, hmod, hact, hlater, hnew⟩ := hlose
  obtain ⟨done, hbuilt, hall⟩ := h.built_activation i hnum
  rw [hall hact] at hbuilt
  have hnodup := hbuilt.nodup
  rw [map_fst_append] at hnodup
  unfold FeatureController.openBlock
  simp only [hmod, hact, Bool.true_eq_false, if_false, if_true]
  split
  · refine not_agree_of_db h.pending_eq h.stacked.recorded.set_eq ?_ hnew hnodup
    simp only [FeatureController.guardPending, closeSession, openSession, hsession,
      update, Bool.false_eq_true, if_false, activated_recordActivations]
    exact map_fst_append _
  · next hok => exact absurd hok hlater

/-! ## Committing a block -/

theorem addActivatedFeatures_eq_ok {prev activated : Finset Digest} :
    addActivatedFeatures prev new = .ok activated ↔
      (new.Nodup ∧ ∀ d ∈ new, d ∉ prev) ∧ prev ∪ new.toFinset = activated := by
  simp only [addActivatedFeatures, bind_eq_ok, ineAssert_eq_ok, pure_eq_ok, exists_const]

def ActivatesAll (p : PendingFeatures) : Prop :=
  p.newProtocolFeatureActivations.take p.numActivated = p.newProtocolFeatureActivations

/-- The ends of `commit_block` that leave the database behind the head or ahead of it. -/
def CommitLoses (c : FeatureController) (p : PendingFeatures) (progress : CommitProgress) : Prop :=
  match addActivatedFeatures c.head.activatedProtocolFeatures p.newProtocolFeatureActivations,
    progress with
  | .ok _, .committed => ¬ ActivatesAll p
  | .ok _, .threwAfterHead =>
    if p.session then p.newProtocolFeatureActivations ≠ [] else ¬ ActivatesAll p
  | _, _ => DropLoses p

variable {activated : Finset Digest} (hok : addActivatedFeatures c.head.activatedProtocolFeatures
  p.newProtocolFeatureActivations = .ok activated)

include h

/-- The head that moves has the features of the database when all were activated. -/
theorem Building.recorded_moveHead (hall : ActivatesAll p)
    (hset : c.head.activatedProtocolFeatures ∪
      p.newProtocolFeatureActivations.toFinset = activated) :
    Recorded (c.moveHead p activated).head c.db.current := by
  refine ⟨?_, h.le_succ⟩
  rw [h.digests_eq, hall, toFinset_append, ← h.stacked.recorded.set_eq]
  exact hset.symm

include hok in
theorem Building.not_agree_moveHead {c' : FeatureController}
    (hpending : c'.pending = none) (hhead : c'.head = (c.moveHead p activated).head)
    (hdb : c'.db.current.activatedProtocolFeatures = db.current.activatedProtocolFeatures)
    (hnew : p.newProtocolFeatureActivations ≠ []) : ¬ c'.Agree pfs := by
  obtain ⟨⟨-, hfresh⟩, hset⟩ := addActivatedFeatures_eq_ok.mp hok
  refine not_agree_of_head hpending ?_ ?_ hnew hfresh
  · rw [hhead]
    exact hset.symm
  · rw [hdb]
    exact h.stacked.recorded.set_eq.symm

theorem Building.of_not_activatesAll (hall : ¬ ActivatesAll p) :
    c.db.current.activatedProtocolFeatures = db.current.activatedProtocolFeatures ∧
      p.newProtocolFeatureActivations ≠ [] := by
  rcases h.none_or_all with hnone | hlength
  · refine ⟨by simp [h.list_eq, activations, hnone], fun hnil => hall ?_⟩
    simp [ActivatesAll, hnil]
  · exact absurd (by rw [ActivatesAll, hlength, take_length]) hall

theorem Building.commit (hall : ActivatesAll p)
    (hset : c.head.activatedProtocolFeatures ∪
      p.newProtocolFeatureActivations.toFinset = activated) :
    Settled pfs { c.moveHead p activated with db := c.keepSession p, pending := none } := by
  have hrec := h.recorded_moveHead hall hset
  cases hs : p.session with
  | true =>
    have hsaved := h.saved_eq
    have hrevision := h.revision_eq_db
    simp only [hs, if_true, push, h.revision_eq] at hsaved hrevision
    have hprev : db.current.activatedProtocolFeatures =
        c.db.current.activatedProtocolFeatures.filter (·.2 ≤ c.head.blockNum) := by
      rw [h.list_eq, activations, filter_append_activations h.stacked.recorded.le_blockNum]
    have hstacked := h.stacked.block hrec rfl hprev
    refine ⟨rfl, ?_, ?_, ?_, h.lt_notActive⟩
    · simp only [keepSession, moveHead, hs, if_true, hsaved]
      exact hstacked
    · simp only [keepSession, moveHead, hs, if_true, hrevision]
      rfl
    · simp only [keepSession, moveHead, hs, if_true]
      exact h.built
  | false =>
    obtain ⟨-, hsaved, -⟩ := h.replay_eq hs
    refine ⟨rfl, ?_, ?_, ?_, h.lt_notActive⟩
    · simp only [keepSession, moveHead, hs, Bool.false_eq_true, if_false, hsaved]
      exact .root hrec
    · simp only [keepSession, moveHead, hs, Bool.false_eq_true, if_false]
      rfl
    · simp only [keepSession, moveHead, hs, Bool.false_eq_true, if_false]
      exact h.built

include hok in
/-- The head moved and the database did not follow: the records agree when the block
has no features. -/
theorem Building.agree_threwAfterHead_iff :
    (c.moveHead p activated).abortBlock.Agree pfs ↔
      ¬ if p.session then p.newProtocolFeatureActivations ≠ [] else ¬ ActivatesAll p := by
  obtain ⟨-, hset⟩ := addActivatedFeatures_eq_ok.mp hok
  have hbuilt := h.built.poppedBlocksTo (c.head.blockNum + 1)
  rw [filter_eq_self.mpr fun e he => decide_eq_true (h.le_succ e he)] at hbuilt
  have habort : (c.moveHead p activated).abortBlock =
      { c.moveHead p activated with
        pending := none
        db := closeSession p.session c.db
        protocolFeatures := c.protocolFeatures.poppedBlocksTo (c.head.blockNum + 1) } := by
    simp only [FeatureController.abortBlock, moveHead, h.pending_eq]
  rw [habort]
  cases hs : p.session with
  | true =>
    have hclose := h.closeSession_eq hs
    rw [hs] at hclose
    simp only [if_true, not_not, hclose]
    refine ⟨fun hagree => by_contra fun hnew => ?_, fun hnil => ?_⟩
    · exact absurd hagree (h.not_agree_moveHead hok rfl rfl rfl hnew)
    have hlist : c.db.current.activatedProtocolFeatures = db.current.activatedProtocolFeatures := by
      simp [h.list_eq, activations, hnil]
    rw [hlist] at hbuilt
    have hhead : activated = c.head.activatedProtocolFeatures := by
      simp [← hset, hnil]
    refine agree_of_built ?_ hbuilt ?_ h.lt_notActive
    · exact hhead.trans h.stacked.recorded.set_eq
    · exact fun e he => (h.stacked.recorded.le_blockNum e he).trans (Nat.le_succ _)
  | false =>
    obtain ⟨hclose, -, -⟩ := h.replay_eq hs
    rw [hs] at hclose
    simp only [Bool.false_eq_true, if_false, not_not, hclose]
    refine ⟨fun hagree => by_contra fun hall => ?_, fun hall => ?_⟩
    · obtain ⟨hdb, hnew⟩ := h.of_not_activatesAll hall
      exact absurd hagree (h.not_agree_moveHead hok rfl rfl hdb hnew)
    · have hrec := h.recorded_moveHead hall hset
      exact agree_of_built hrec.set_eq hbuilt hrec.le_blockNum h.lt_notActive

/-! ## Every call -/

omit h

section
variable (pfs : ProtocolFeatureSet) (c : FeatureController)

/-- The calls after which the database and the head differ by the features of a block:
- `commit_block` throws after the head has moved to a block with new features;
- a block without an undo session fails or is aborted after its features were recorded;
- a block is committed that announces features but did not activate them. -/
def Loses : FeatureCall → Prop
  | .startBlock i => c.StartLoses pfs i
  | .abortBlock => ∃ p, c.pending = some p ∧ DropLoses p
  | .commitBlock progress => ∃ p, c.pending = some p ∧ c.CommitLoses p progress
  | _ => False

/-- Block numbers stay under `not_active`, and irreversible blocks are replayed without
sessions only when there are no undo states (`set_revision` insists on that). -/
def Possible : FeatureCall → Prop
  | .startBlock i => c.head.blockNum + 1 < notActive ∧ (i.session = false → c.db.saved = [])
  | _ => True

end

/-- The controllers reached from genesis by calls that leave the database where the
head is. -/
inductive FeatureRun (pfs : ProtocolFeatureSet) : FeatureController → Prop
  | genesis : FeatureRun pfs .genesis
  | call {c : FeatureController} {op : FeatureCall} (h : FeatureRun pfs c)
      (hpossible : c.Possible op) (hkeep : ¬ c.Loses pfs op)
      (hhead : op ≠ .commitBlock .threwAfterHead) : FeatureRun pfs (c.call pfs op)

theorem settled_genesis : Settled pfs .genesis := ⟨rfl, .root ⟨rfl, nofun⟩, rfl, .empty, by decide⟩

theorem Settled.popBlock (h : Settled pfs c) : Settled pfs c.popBlock := by
  obtain ⟨head, below, ⟨current, revision, saved⟩, m, pending⟩ := c
  obtain ⟨rfl, hstacked, hrevision, hbuilt, hnum⟩ := h
  simp only at hstacked hrevision hbuilt hnum
  cases hstacked with
  | root hrec => exact ⟨rfl, .root hrec, hrevision, hbuilt, hnum⟩
  | @block prev _ _ _ _ _ hbelow hrec hsucc hprev =>
    have hpop := hbuilt.poppedBlocksTo prev.blockNum
    rw [← hprev] at hpop
    refine ⟨rfl, hbelow, ?_, hpop, ?_⟩
    · simp only [popBlock, undo] at hrevision ⊢
      omega
    · simp only [popBlock] at hnum ⊢
      omega

theorem Settled.commitIrreversible (h : Settled pfs c) (blockNum : ℕ) :
    Settled pfs (c.commitIrreversible blockNum) := by
  have hstacked := h.stacked.commitIrreversible blockNum
  simp only [FeatureController.commitIrreversible, h.pending_eq]
  exact ⟨rfl, hstacked, h.revision_eq, h.built, h.lt_notActive⟩

variable (h : Building pfs c p db)
include h

theorem Building.preactivateFeature (d : Digest) (valid : Bool) :
    Building pfs (c.preactivateFeature d valid) p db := by
  unfold FeatureController.preactivateFeature
  split
  · exact { h with }
  · exact h

/-- The block is dropped, or it is committed, or the head has moved without it. -/
theorem Building.commitBlock_cases (progress : CommitProgress) :
    (c.commitBlock progress = c.abortBlock ∧ c.CommitLoses p progress = DropLoses p) ∨
    ∃ activated, addActivatedFeatures c.head.activatedProtocolFeatures
        p.newProtocolFeatureActivations = .ok activated ∧
      ((c.commitBlock progress =
          { c.moveHead p activated with db := c.keepSession p, pending := none } ∧
        c.CommitLoses p progress = ¬ ActivatesAll p) ∨
      progress = .threwAfterHead ∧ c.commitBlock progress = (c.moveHead p activated).abortBlock ∧
        c.CommitLoses p progress =
          if p.session then p.newProtocolFeatureActivations ≠ [] else ¬ ActivatesAll p) := by
  simp only [commitBlock, h.pending_eq, CommitLoses]
  cases addActivatedFeatures c.head.activatedProtocolFeatures
      p.newProtocolFeatureActivations with
  | error e => exact .inl ⟨rfl, rfl⟩
  | ok activated =>
    cases progress with
    | committed => exact .inr ⟨activated, rfl, .inl ⟨rfl, rfl⟩⟩
    | threwBeforeHead => exact .inl ⟨rfl, rfl⟩
    | threwAfterHead => exact .inr ⟨activated, rfl, .inr ⟨rfl, rfl, rfl⟩⟩

theorem Building.commitBlock {progress : CommitProgress} (hkeep : ¬ c.CommitLoses p progress)
    (hhead : progress ≠ .threwAfterHead) : Settled pfs (c.commitBlock progress) := by
  rcases h.commitBlock_cases progress with
    ⟨hrun, hlose⟩ | ⟨activated, hok, ⟨hrun, hlose⟩ | ⟨hthrew, -⟩⟩
  · rw [hlose] at hkeep
    rw [hrun]
    exact h.abortBlock hkeep
  · rw [hlose, not_not] at hkeep
    rw [hrun]
    exact h.commit hkeep (addActivatedFeatures_eq_ok.mp hok).2
  · exact absurd hthrew hhead

theorem Building.agree_commitBlock_iff (progress : CommitProgress) :
    (c.commitBlock progress).Agree pfs ↔ ¬ c.CommitLoses p progress := by
  rcases h.commitBlock_cases progress with
    ⟨hrun, hlose⟩ | ⟨activated, hok, ⟨hrun, hlose⟩ | ⟨-, hrun, hlose⟩⟩
  · rw [hrun, hlose]
    exact ⟨fun hagree hlose => h.not_agree_abortBlock hlose hagree,
      fun hkeep => (h.abortBlock hkeep).agree⟩
  · rw [hrun, hlose]
    refine ⟨fun hagree hall => ?_, fun hkeep =>
      (h.commit (not_not.mp hkeep) (addActivatedFeatures_eq_ok.mp hok).2).agree⟩
    obtain ⟨hdb, hnew⟩ := h.of_not_activatesAll hall
    refine absurd hagree (h.not_agree_moveHead hok rfl rfl ?_ hnew)
    cases hs : p.session <;> simpa [keepSession, hs] using hdb
  · rw [hrun, hlose]
    exact h.agree_threwAfterHead_iff hok

omit h

theorem Sound.agree (h : Sound pfs c) : c.Agree pfs := by
  rcases h with h | ⟨p, db, h⟩
  · exact h.agree
  · exact h.agree

variable {op : FeatureCall}

theorem Settled.startBlock_eq (h : Settled pfs c) (i : StartInput) :
    c.call pfs (.startBlock i) = c.openBlock pfs i := by
  simp only [call, startBlock, h.pending_eq, h.revision_eq,
    Option.isSome_none, Bool.false_eq_true, ne_eq, not_true_eq_false, and_false, if_false]

/-- Without a pending block only `start_block`, `pop_block` and irreversibility do
anything. -/
theorem Settled.call (h : Settled pfs c) (hpossible : c.Possible op) (hkeep : ¬ c.Loses pfs op) :
    Sound pfs (c.call pfs op) := by
  cases op with
  | startBlock i =>
    rw [h.startBlock_eq]
    exact h.openBlock hpossible.2 hpossible.1 hkeep
  | preactivateFeature d valid =>
    refine .inl ?_
    simpa [call, preactivateFeature, h.pending_eq] using h
  | abortBlock =>
    refine .inl ?_
    simpa only [call, abortBlock, h.pending_eq] using h
  | commitBlock progress =>
    refine .inl ?_
    simpa only [call, commitBlock, h.pending_eq] using h
  | popBlock => exact .inl h.popBlock
  | commitIrreversible blockNum => exact .inl (h.commitIrreversible blockNum)

include h

theorem Building.call (hkeep : ¬ c.Loses pfs op) (hhead : op ≠ .commitBlock .threwAfterHead) :
    Sound pfs (c.call pfs op) := by
  cases op with
  | startBlock i =>
    refine .inr ⟨p, db, ?_⟩
    simpa [call, startBlock, h.pending_eq] using h
  | preactivateFeature d valid => exact .inr ⟨p, db, h.preactivateFeature d valid⟩
  | abortBlock => exact .inl (h.abortBlock fun hlose => hkeep ⟨p, h.pending_eq, hlose⟩)
  | commitBlock progress =>
    refine .inl (h.commitBlock (fun hlose => hkeep ⟨p, h.pending_eq, hlose⟩) fun heq => ?_)
    exact hhead (by rw [heq])
  | popBlock =>
    refine .inr ⟨p, db, ?_⟩
    simpa only [call, popBlock, h.pending_eq] using h
  | commitIrreversible blockNum =>
    refine .inr ⟨p, db, ?_⟩
    simpa only [call, commitIrreversible, h.pending_eq] using h

omit h

theorem FeatureRun.sound (h : FeatureRun pfs c) : Sound pfs c := by
  induction h with
  | genesis => exact .inl settled_genesis
  | call _ hpossible hkeep hhead ih =>
    rcases ih with ih | ⟨p, db, ih⟩
    · exact ih.call hpossible hkeep
    · exact ih.call hkeep hhead

theorem Settled.agree_call_iff (h : Settled pfs c) (hpossible : c.Possible op) :
    (c.call pfs op).Agree pfs ↔ ¬ c.Loses pfs op := by
  refine ⟨fun hagree hlose => ?_, fun hkeep => (h.call hpossible hkeep).agree⟩
  cases op with
  | startBlock i =>
    rw [h.startBlock_eq] at hagree
    exact h.not_agree_openBlock hpossible.1 hlose hagree
  | abortBlock | commitBlock =>
    obtain ⟨p, hpending, -⟩ := hlose
    rw [h.pending_eq] at hpending
    cases hpending
  | _ => exact hlose

include h

theorem Building.agree_call_iff (op : FeatureCall) :
    (c.call pfs op).Agree pfs ↔ ¬ c.Loses pfs op := by
  by_cases hhead : op = .commitBlock .threwAfterHead
  · subst hhead
    rw [FeatureController.call, h.agree_commitBlock_iff, Loses]
    simp [h.pending_eq]
  · refine ⟨fun hagree hlose => ?_, fun hkeep => (h.call hkeep hhead).agree⟩
    cases op with
    | startBlock i =>
      have hnone := hlose.1
      rw [h.pending_eq] at hnone
      cases hnone
    | abortBlock =>
      obtain ⟨p', hpending, hdrop⟩ := hlose
      cases h.pending_eq.symm.trans hpending
      exact h.not_agree_abortBlock hdrop hagree
    | commitBlock progress =>
      obtain ⟨p', hpending, hcommit⟩ := hlose
      cases h.pending_eq.symm.trans hpending
      exact (h.agree_commitBlock_iff progress).mp hagree hcommit
    | _ => exact hlose

include hok in
theorem Building.not_agree_threwAfterHead (hs : p.session = true)
    (hnew : p.newProtocolFeatureActivations ≠ []) :
    ¬ (c.call pfs (.commitBlock .threwAfterHead)).Agree pfs := by
  rw [h.agree_call_iff, not_not]
  refine ⟨p, h.pending_eq, ?_⟩
  simp only [CommitLoses, hok, hs, if_true]
  exact hnew

omit h

include hok in
theorem not_loses_committed (hp : c.pending = some p) (hall : ActivatesAll p) :
    ¬ c.Loses pfs (.commitBlock .committed) := by
  rintro ⟨p', hp', hlose⟩
  cases hp.symm.trans hp'
  simp only [CommitLoses, hok] at hlose
  exact hlose hall

end FeatureController

open FeatureController in
/-- **The records of activated features agree unless a call loses the database.**  In every
controller reached by calls that leave the database where the head is, the header state, the
database and the manager agree; and they agree after any next call exactly if it does not lose the
features of a block. -/
theorem feature_records_agree_iff {pfs : ProtocolFeatureSet} {c : FeatureController}
    (h : FeatureRun pfs c) (op : FeatureCall) (hpossible : c.Possible op) :
    c.Agree pfs ∧ ((c.call pfs op).Agree pfs ↔ ¬ c.Loses pfs op) := by
  refine ⟨h.sound.agree, ?_⟩
  rcases h.sound with hs | ⟨p, db, hs⟩
  · exact hs.agree_call_iff hpossible
  · exact hs.agree_call_iff op

def oneFeature : ProtocolFeatureSet where
  find d := if d = 7 then some ⟨some .preactivateFeature, false⟩ else none

def activating : FeatureController :=
  genesis.call oneFeature (.startBlock { newProtocolFeatureActivations := [7] })

theorem pending_activating : activating.pending = some ⟨[7], 1, true⟩ := rfl

theorem featureRun_activating : FeatureRun oneFeature activating := by
  refine .call .genesis ⟨by decide, nofun⟩ (fun hlose => ?_) (by simp)
  exact absurd hlose.2.1 (by decide)

theorem addActivatedFeatures_activating :
    addActivatedFeatures activating.head.activatedProtocolFeatures [7] = .ok {7} := by
  refine addActivatedFeatures_eq_ok.mpr ⟨⟨nodup_singleton _, ?_⟩, rfl⟩
  intro d _ hd
  exact Finset.notMem_empty d hd

/-- `commit_block` throws after the head has moved to a block that activates a feature:
the head has it, the database does not. -/
theorem commit_throws_after_head :
    FeatureRun oneFeature activating ∧
      ¬ (activating.call oneFeature (.commitBlock .threwAfterHead)).Agree oneFeature := by
  refine ⟨featureRun_activating, fun hagree => ?_⟩
  rcases featureRun_activating.sound with hs | ⟨p, db, hs⟩
  · cases pending_activating.symm.trans hs.pending_eq
  · cases pending_activating.symm.trans hs.pending_eq
    exact hs.not_agree_threwAfterHead addActivatedFeatures_activating rfl
      (cons_ne_nil _ _) hagree

/-- Committed without an exception, the same block leaves the three records equal. -/
theorem feature_records_agree_committed :
    (activating.call oneFeature (.commitBlock .committed)).Agree oneFeature := by
  refine (feature_records_agree_iff featureRun_activating (.commitBlock .committed)
    trivial).2.mpr ?_
  exact not_loses_committed (p := ⟨[7], 1, true⟩) addActivatedFeatures_activating
    pending_activating rfl

end Inery.Chain
