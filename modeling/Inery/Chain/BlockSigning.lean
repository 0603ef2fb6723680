import Inery.Chain.HeaderChain
import Mathlib.Algebra.GroupWithZero.Nat

/-!
# Block signing authorities (`wasm_interface.cpp`, `block_header_state.cpp`)

In a proposed schedule keys do not repeat in an authority, its threshold is not zero and its keys
together reach it.  For such an authority `verify_signee` counts correctly: it compares the number
of entries whose key has signed with the number of keys, and adds their weights up to the threshold.
-/

namespace Inery.Chain

open Foundation List Finset

/-! ## Proposing authorities -/

structure ProposalContext where
  isAccount : Name → Bool
  keyType : PublicKey → ℕ
  validKey : PublicKey → Bool
  numSupportedKeyTypes : ℕ
  disallowEmptyProducerSchedule : Bool

namespace ProposalContext

variable (ctx : ProposalContext)

/-- The loop over the keys of an authority: the sum of the weights, saturating. -/
def sumWeights (validateKeys : Bool) : List KeyWeight → ℕ → Result ℕ
  | [], sum => pure sum
  | kw :: rest, sum => do
      ineAssert (ctx.keyType kw.key < ctx.numSupportedKeyTypes) .unactivatedKeyType
        "Unactivated key type used in proposed producer schedule"
      ineAssert (validateKeys → ctx.validKey kw.key) .wasmExecutionError
        "producer schedule includes an invalid key"
      sumWeights validateKeys rest
        (if 2 ^ 32 - 1 - sum ≤ kw.weight.toNat then 2 ^ 32 - 1 else sum + kw.weight.toNat)

/-- The visitor of `set_proposed_producers_common`. -/
def checkAuthority (validateKeys : Bool) (a : BlockSigningAuthority) : Result Unit := do
  let sumWeights ← ctx.sumWeights validateKeys a.keys 0
  ineAssert (a.keys.length = (a.keys.map (·.key)).dedup.length) .wasmExecutionError
    "producer schedule includes a duplicated key for ${account}"
  ineAssert (0 < a.threshold) .wasmExecutionError
    "producer schedule includes an authority with a threshold of 0 for ${account}"
  ineAssert (a.threshold ≤ sumWeights) .wasmExecutionError
    "producer schedule includes an unsatisfiable authority for ${account}"

def checkProducers (validateKeys : Bool) : List ProducerAuthority → Result Unit
  | [] => pure ()
  | p :: rest => do
      ineAssert (ctx.isAccount p.producerName) .wasmExecutionError
        "producer schedule includes a nonexisting account"
      ctx.checkAuthority validateKeys p.authority
      checkProducers validateKeys rest

def setProposedProducersCommon (producers : List ProducerAuthority) (validateKeys : Bool) :
    Result (List ProducerAuthority) := do
  ineAssert (producers.length ≤ Config.maxProducers) .wasmExecutionError
    "Producer schedule exceeds the maximum producer count for this chain"
  ineAssert (0 < producers.length ∨ !ctx.disallowEmptyProducerSchedule) .wasmExecutionError
    "Producer schedule cannot be empty"
  ctx.checkProducers validateKeys producers
  ineAssert (producers.length = (producers.map (·.producerName)).dedup.length) .wasmExecutionError
    "duplicate producer name in producer schedule"
  pure producers

def setProposedProducers (oldVersion : List ProducerKey) : Result (List ProducerAuthority) :=
  ctx.setProposedProducersCommon
    (oldVersion.map fun p => ⟨p.producerName, ⟨1, [⟨p.blockSigningKey, 1⟩]⟩⟩) true

/-- `set_proposed_producers_ex`, on the schedule unpacked in the format. -/
def setProposedProducersEx : ℕ → List ProducerKey ⊕ List ProducerAuthority →
    Result (List ProducerAuthority)
  | 0, .inl oldVersion => ctx.setProposedProducers oldVersion
  | 1, .inr producers => ctx.setProposedProducersCommon producers false
  | _, _ => .error ⟨.wasmExecutionError, "Producer schedule is in an unknown format!"⟩

end ProposalContext

open ProposalContext

def AcceptedAuthority (a : BlockSigningAuthority) : Prop :=
  ∃ (ctx : ProposalContext) (producers : List ProducerAuthority),
    ((∃ oldVersion, ctx.setProposedProducers oldVersion = .ok producers) ∨
      ∃ format packed, ctx.setProposedProducersEx format packed = .ok producers) ∧
    ∃ p ∈ producers, p.authority = a

/-! ## What acceptance gives -/

namespace ProposalContext

variable {ctx : ProposalContext} {validateKeys : Bool} {a : BlockSigningAuthority}
  {producers accepted : List ProducerAuthority}

theorem sumWeights_le {keys : List KeyWeight} {sum total : ℕ} (hsum : sum ≤ 2 ^ 32 - 1)
    (h : ctx.sumWeights validateKeys keys sum = .ok total) : total ≤ 2 ^ 32 - 1 := by
  induction keys generalizing sum with
  | nil =>
    cases h
    exact hsum
  | cons kw rest ih =>
    simp only [sumWeights, bind_eq_ok, ineAssert_eq_ok] at h
    obtain ⟨-, -, -, -, h⟩ := h
    refine ih ?_ h
    split <;> omega

theorem of_checkAuthority (h : ctx.checkAuthority validateKeys a = .ok ()) :
    (a.keys.map (·.key)).Nodup ∧ a.threshold ≤ 2 ^ 32 - 1 := by
  simp only [checkAuthority, bind_eq_ok, ineAssert_eq_ok] at h
  obtain ⟨total, htotal, -, hunique, -, -, hreach⟩ := h
  refine ⟨?_, hreach.trans (sumWeights_le (Nat.zero_le _) htotal)⟩
  rw [← List.dedup_eq_self]
  refine (List.dedup_sublist _).eq_of_length ?_
  rw [← hunique, List.length_map]

theorem of_checkProducers (h : ctx.checkProducers validateKeys producers = .ok ()) :
    ∀ p ∈ producers, ctx.checkAuthority validateKeys p.authority = .ok () := by
  induction producers with
  | nil => simp
  | cons p rest ih =>
    simp only [checkProducers, bind_eq_ok, ineAssert_eq_ok] at h
    obtain ⟨-, -, _, hp, hrest⟩ := h
    exact forall_mem_cons.mpr ⟨hp, ih hrest⟩

theorem of_setProposedProducersCommon
    (h : ctx.setProposedProducersCommon producers validateKeys = .ok accepted) :
    ∀ p ∈ accepted, ctx.checkAuthority validateKeys p.authority = .ok () := by
  simp only [setProposedProducersCommon, bind_eq_ok, ineAssert_eq_ok, pure_eq_ok] at h
  obtain ⟨-, -, -, -, _, hcheck, -, -, rfl⟩ := h
  exact of_checkProducers hcheck

end ProposalContext

/-- Whichever intrinsic accepted the authority, its visitor has passed it. -/
theorem AcceptedAuthority.checked {a : BlockSigningAuthority} (h : AcceptedAuthority a) :
    ∃ (ctx : ProposalContext) (validateKeys : Bool),
      ctx.checkAuthority validateKeys a = .ok () := by
  obtain ⟨ctx, producers, ⟨oldVersion, hok⟩ | ⟨format, packed, hok⟩, p, hp, rfl⟩ := h
  · exact ⟨ctx, true, of_setProposedProducersCommon hok p hp⟩
  · unfold setProposedProducersEx at hok
    split at hok
    · exact ⟨ctx, true, of_setProposedProducersCommon hok p hp⟩
    · exact ⟨ctx, false, of_setProposedProducersCommon hok p hp⟩
    · cases hok

/-! ## The two counts -/

namespace BlockSigningAuthority

variable (a : BlockSigningAuthority)

/-- The weights of the entries whose keys are given, saturating at 32 bits. -/
def weightOf (keys : Finset PublicKey) : ℕ :=
  min (2 ^ 32 - 1) ((a.keys.filter (·.key ∈ keys)).map (·.weight.toNat)).sum

/-- The loop over the entries: the weight stops at the threshold, which does not change
whether it is reached. -/
theorem foldl_spec {threshold : ℕ} (hthreshold : threshold ≤ 2 ^ 32 - 1)
    (keys : List KeyWeight) (presented : Finset PublicKey) (weight count : ℕ)
    (hweight : weight ≤ 2 ^ 32 - 1) :
    ∃ total, keys.foldl (fun (totalWeight, numRelevantKeys) kw =>
        if kw.key ∈ presented then
          (if totalWeight < threshold then
              totalWeight + min (2 ^ 32 - 1 - totalWeight) kw.weight.toNat
            else totalWeight, numRelevantKeys + 1)
        else (totalWeight, numRelevantKeys)) (weight, count) =
        (total, count + (keys.filter (·.key ∈ presented)).length) ∧
      (threshold ≤ total ↔
        threshold ≤ weight + ((keys.filter (·.key ∈ presented)).map (·.weight.toNat)).sum) := by
  induction keys generalizing weight count with
  | nil => exact ⟨weight, by simp, by simp⟩
  | cons kw rest ih =>
    by_cases hkey : kw.key ∈ presented
    · obtain ⟨total, hfold, hreach⟩ := ih (if weight < threshold then
          weight + min (2 ^ 32 - 1 - weight) kw.weight.toNat else weight) (count + 1)
        (by split <;> omega)
      refine ⟨total, ?_, ?_⟩
      · simp only [List.foldl_cons, hkey, if_true, hfold, List.filter_cons, decide_true,
          length_cons]
        congr 1
        omega
      · rw [hreach]
        simp only [List.filter_cons, hkey, decide_true, if_true, List.map_cons, List.sum_cons]
        split <;> omega
    · obtain ⟨total, hfold, hreach⟩ := ih weight count hweight
      refine ⟨total, ?_, ?_⟩
      · simp only [foldl_cons, hkey, if_false, hfold, List.filter_cons, decide_false,
          Bool.false_eq_true]
      · simpa [List.filter_cons, hkey] using hreach

theorem keysSatisfyAndRelevant_eq (presented : Finset PublicKey)
    (hthreshold : a.threshold ≤ 2 ^ 32 - 1) : a.keysSatisfyAndRelevant presented =
      (decide (a.threshold ≤ a.weightOf presented),
        (a.keys.filter (·.key ∈ presented)).length) := by
  obtain ⟨total, hfold, hreach⟩ := foldl_spec hthreshold a.keys presented 0 0 (Nat.zero_le _)
  have hiff : a.threshold ≤ total ↔ a.threshold ≤ a.weightOf presented := by
    rw [hreach, weightOf]
    omega
  simp only [keysSatisfyAndRelevant, hfold, hiff, Nat.zero_add]

/-- Without repeated entries every presented key is counted exactly if it is in the
authority. -/
theorem relevant_eq_card_iff (presented : Finset PublicKey) (hnodup : (a.keys.map (·.key)).Nodup) :
    (a.keys.filter (·.key ∈ presented)).length = presented.card ↔
      ∀ k ∈ presented, k ∈ a.keys.map (·.key) := by
  have hcount : (a.keys.filter (·.key ∈ presented)).length =
      (presented.filter (· ∈ a.keys.map (·.key))).card := by
    have hmap : (a.keys.filter (·.key ∈ presented)).map (·.key) =
        (a.keys.map (·.key)).filter (· ∈ presented) := by
      rw [filter_map]
      rfl
    rw [← List.length_map (·.key), hmap, ← List.toFinset_card_of_nodup (hnodup.filter _)]
    congr 1
    ext k
    simp only [List.mem_toFinset, List.mem_filter, Finset.mem_filter, decide_eq_true_eq]
    exact and_comm
  rw [hcount, Finset.card_filter_eq_iff]

end BlockSigningAuthority

/-! ## Recovered keys -/

variable {crypto : HeaderCrypto} {digest : Digest}

theorem recoverAdditionalKeys_eq_ok {sigs : List Signature} {keys all : Finset PublicKey} :
    recoverAdditionalKeys crypto digest sigs keys = .ok all ↔
      ∃ more, sigs.mapM (crypto.recoverKey · digest) = .ok more ∧ more.Nodup ∧
        (∀ k ∈ more, k ∉ keys) ∧ all = keys ∪ more.toFinset := by
  induction sigs generalizing keys with
  | nil =>
    simp only [recoverAdditionalKeys, pure_eq_ok, mapM_nil]
    constructor
    · rintro rfl
      exact ⟨[], rfl, nodup_nil, by simp, by simp⟩
    · rintro ⟨more, rfl, -, -, rfl⟩
      simp
  | cons sig rest ih =>
    simp only [recoverAdditionalKeys, mapM_cons, bind_eq_ok, ineAssert_eq_ok, pure_eq_ok, ih]
    constructor
    · rintro ⟨k, hk, -, hfresh, more, hmore, hnodup, hout, rfl⟩
      refine ⟨k :: more, ⟨k, hk, more, hmore, rfl⟩, ?_, ?_, ?_⟩
      · refine nodup_cons.mpr ⟨fun hmem => hout k hmem (mem_insert_self _ _), hnodup⟩
      · exact forall_mem_cons.mpr
          ⟨hfresh, fun k' hk' hmem => hout k' hk' (mem_insert_of_mem hmem)⟩
      · rw [toFinset_cons, insert_union, union_insert]
    · rintro ⟨_, ⟨k, hk, more, hmore, rfl⟩, hnodup, hout, rfl⟩
      obtain ⟨hk', hnodup⟩ := nodup_cons.mp hnodup
      refine ⟨k, hk, (), hout k mem_cons_self, more, hmore, hnodup, ?_, ?_⟩
      · intro k' hk'' hmem
        rcases mem_insert.mp hmem with rfl | hmem
        · exact hk' hk''
        · exact hout k' (mem_cons_of_mem _ hk'') hmem
      · rw [toFinset_cons, insert_union, union_insert]

theorem length_of_recoveredKeys {sigs : List Signature} {keys : List PublicKey}
    (h : sigs.mapM (crypto.recoverKey · digest) = .ok keys) : keys.length = sigs.length := by
  induction sigs generalizing keys with
  | nil =>
    cases h
    rfl
  | cons sig rest ih =>
    simp only [mapM_cons, bind_eq_ok, pure_eq_ok] at h
    obtain ⟨k, -, more, hmore, rfl⟩ := h
    simp [ih hmore]

namespace BlockHeaderState

def recoveredKeys (crypto : HeaderCrypto) (s : BlockHeaderState) : Result (List PublicKey) :=
  (s.header.producerSignature :: s.additionalSignatures).mapM
    (crypto.recoverKey · (s.sigDigest crypto))

/-- The condition of the rule for weighted keys: distinct keys of the authority, whose
weights reach the threshold. -/
structure SignedBy (s : BlockHeaderState) (keys : List PublicKey) : Prop where
  nodup : keys.Nodup
  mem : ∀ k ∈ keys, k ∈ s.validBlockSigningAuthority.keys.map (·.key)
  reaches : s.validBlockSigningAuthority.threshold ≤
    s.validBlockSigningAuthority.weightOf keys.toFinset

theorem verifySignee_eq_ok {s : BlockHeaderState}
    (hnodup : (s.validBlockSigningAuthority.keys.map (·.key)).Nodup)
    (hthreshold : s.validBlockSigningAuthority.threshold ≤ 2 ^ 32 - 1) :
    s.verifySignee crypto = .ok () ↔
      ∃ keys, s.recoveredKeys crypto = .ok keys ∧ s.SignedBy keys := by
  simp only [verifySignee, bind_eq_ok, ineAssert_eq_ok, recoverAdditionalKeys_eq_ok,
    BlockSigningAuthority.keysSatisfyAndRelevant_eq _ _ hthreshold, decide_eq_true_eq,
    BlockSigningAuthority.relevant_eq_card_iff _ _ hnodup]
  simp only [recoveredKeys, mapM_cons, bind_eq_ok, pure_eq_ok]
  constructor
  · rintro ⟨-, -, k, hk, -, ⟨more, hmore, hmnodup, hout, rfl⟩, -, hmem, hreach⟩
    have hset : {k} ∪ more.toFinset = (k :: more).toFinset := by
      rw [List.toFinset_cons, Finset.insert_eq]
    rw [hset] at hmem hreach
    refine ⟨k :: more, ⟨k, hk, more, hmore, rfl⟩, ?_, ?_, hreach⟩
    · refine nodup_cons.mpr ⟨fun hmem => ?_, hmnodup⟩
      exact hout k hmem (Finset.mem_singleton_self k)
    · exact fun k' hk' => hmem k' (mem_toFinset.mpr hk')
  · rintro ⟨_, ⟨k, hk, more, hmore, rfl⟩, hsigned⟩
    have hset : {k} ∪ more.toFinset = (k :: more).toFinset := by
      rw [toFinset_cons, Finset.insert_eq]
    obtain ⟨hk', hmnodup⟩ := nodup_cons.mp hsigned.nodup
    -- distinct keys of the authority are not more than it has
    have hcount : (k :: more).length ≤ s.validBlockSigningAuthority.keys.length := by
      have hsub := (hsigned.nodup.subperm hsigned.mem).length_le
      rwa [length_map] at hsub
    have hlength := length_of_recoveredKeys hmore
    refine ⟨(), ?_, k, hk, _, ⟨more, hmore, hmnodup, ?_, rfl⟩, (), ?_, ?_⟩
    · rw [length_cons] at hcount
      omega
    · intro k' hmem heq
      rw [Finset.mem_singleton.mp heq] at hmem
      exact hk' hmem
    · rw [hset]
      exact fun k' hk' => hsigned.mem k' (mem_toFinset.mp hk')
    · rw [hset]
      exact hsigned.reaches

end BlockHeaderState

/-- **The rule for weighted keys.** With an authority of an accepted schedule, `verify_signee`
succeeds exactly if the keys recovered from the signatures are distinct, are keys of the authority,
and have weights that reach its threshold. -/
theorem verify_signee_iff (crypto : HeaderCrypto) (s : BlockHeaderState)
    (haccepted : AcceptedAuthority s.validBlockSigningAuthority) :
    s.verifySignee crypto = .ok () ↔
      ∃ keys, s.recoveredKeys crypto = .ok keys ∧ s.SignedBy keys := by
  obtain ⟨ctx, validateKeys, hcheck⟩ := haccepted.checked
  obtain ⟨hnodup, hthreshold⟩ := of_checkAuthority hcheck
  exact BlockHeaderState.verifySignee_eq_ok hnodup hthreshold

def twoOfThree : BlockSigningAuthority := ⟨2, [⟨1, 1⟩, ⟨2, 1⟩, ⟨3, 1⟩]⟩

def plainContext : ProposalContext where
  isAccount _ := true
  keyType _ := 0
  validKey _ := true
  numSupportedKeyTypes := 1
  disallowEmptyProducerSchedule := true

theorem verify_signee_iff_twoOfThree :
    ({ validBlockSigningAuthority := twoOfThree, header := { producerSignature := 3 },
       additionalSignatures := [1] } : BlockHeaderState).verifySignee openCrypto =
      .ok () := by
  have haccepted : AcceptedAuthority twoOfThree :=
    ⟨plainContext, [⟨0, twoOfThree⟩], .inr ⟨1, .inr [⟨0, twoOfThree⟩], rfl⟩, _,
      List.mem_singleton.mpr rfl, rfl⟩
  refine (verify_signee_iff openCrypto _ haccepted).mpr ⟨[3, 1], rfl, ?_⟩
  exact ⟨by decide, by decide, by decide⟩

end Inery.Chain
