import Inery.Chain.ResourceUsage

/-!
# Rate limiting bounds what an account uses

The limiter compares a moving average with the account's share, at the moment of billing only.  The
average forgets linearly with the gap since the account was last touched.  Whatever the spacing, an
account gets at most about twice its share out of one window: the average is a meter whose readings
are the billing calls.
-/

namespace Inery.Chain

open Foundation List Finmap UsageAccumulator Config

/-! ## Runs of the manager -/

inductive ManagerCall where
  | initializeAccount (account : Name)
  | setBlockParameters (cpuLimitParameters netLimitParameters : ElasticLimitParameters)
  | updateAccountUsage (accounts : Finset Name) (timeSlot : ℕ)
  | addTransactionUsage (accounts : Finset Name) (cpuUsage netUsage timeSlot : ℕ)
  | addPendingMemUsage (account : Name) (memDelta : ℤ)
  | setAccountLimits (account : Name) (limits : AccountLimits)
  | processAccountLimitUpdates
  | processBlockUsage (blockNum : ℕ)

namespace ManagerCall

def apply (m : ResourceLimitsManager) : ManagerCall → Result ResourceLimitsManager
  | initializeAccount account => m.initializeAccount account
  | setBlockParameters cpu net => m.setBlockParameters cpu net
  | updateAccountUsage accounts timeSlot => m.updateAccountUsage accounts timeSlot
  | addTransactionUsage accounts cpu net timeSlot => m.addTransactionUsage accounts cpu net timeSlot
  | addPendingMemUsage account memDelta => m.addPendingMemUsage account memDelta
  | setAccountLimits account limits => do
      let (_, m) ← m.setAccountLimits account limits
      pure m
  | processAccountLimitUpdates => m.processAccountLimitUpdates
  | processBlockUsage blockNum => m.processBlockUsage blockNum

/-- The slot at which a call touches the averages of an account. -/
def slotOf (a : Name) : ManagerCall → Option ℕ
  | updateAccountUsage accounts timeSlot => if a ∈ accounts then some timeSlot else none
  | addTransactionUsage accounts _ _ timeSlot => if a ∈ accounts then some timeSlot else none
  | _ => none

def Bills (a : Name) : ManagerCall → Prop
  | addTransactionUsage accounts _ _ _ => a ∈ accounts
  | _ => False

def billed (r : Resource) (a : Name) : ManagerCall → ℕ
  | addTransactionUsage accounts cpu net _ => if a ∈ accounts then r.amount cpu net else 0
  | _ => 0

end ManagerCall

namespace ResourceLimitsManager

def run (m : ResourceLimitsManager) (calls : List ManagerCall) : Result ResourceLimitsManager :=
  calls.foldlM ManagerCall.apply m

theorem run_snoc {m m' : ResourceLimitsManager} {calls : List ManagerCall} {c : ManagerCall} :
    m.run (calls ++ [c]) = .ok m' ↔ ∃ s, m.run calls = .ok s ∧ c.apply s = .ok m' := by
  unfold run
  rw [foldlM_append, bind_eq_ok]
  simp only [foldlM_cons, foldlM_nil, bind_eq_ok, pure_eq_ok, exists_eq_right]

variable {m m' : ResourceLimitsManager} {a : Name} {r : Resource}

/-! ## What a call does to one account -/

def averageOf (r : Resource) (m : ResourceLimitsManager) (a : Name) : Option UsageAccumulator :=
  (m.usage.lookup a).map r.accumulator

theorem averageOf_eq_some {acc : UsageAccumulator} :
    m.averageOf r a = some acc ↔ ∃ u, m.usage.lookup a = some u ∧ r.accumulator u = acc :=
  Option.map_eq_some_iff

theorem averageOf_updateAccountUsage {accounts : Finset Name} {timeSlot : ℕ}
    (h : m.updateAccountUsage accounts timeSlot = .ok m') :
    m'.config = m.config ∧
    (a ∉ accounts → m'.averageOf r a = m.averageOf r a) ∧
    (a ∈ accounts → ∃ acc, m.averageOf r a = some acc ∧ acc.lastOrdinal ≤ timeSlot ∧
      m'.averageOf r a = some (acc.added 0 timeSlot (r.window m.config))) := by
  obtain ⟨usages, rfl, hout, hin⟩ := updateAccountUsage_spec h
  refine ⟨rfl, fun ha => congrArg (Option.map r.accumulator) (hout a ha), fun ha => ?_⟩
  obtain ⟨u, hu, hroom, hu'⟩ := hin a ha
  refine ⟨r.accumulator u, averageOf_eq_some.mpr ⟨u, hu, rfl⟩, (hroom r).order, ?_⟩
  exact averageOf_eq_some.mpr ⟨_, hu', u.accumulator_added m.config timeSlot r⟩

theorem averageOf_addTransactionUsage {accounts : Finset Name} {cpuUsage netUsage timeSlot : ℕ}
    (h : m.addTransactionUsage accounts cpuUsage netUsage timeSlot = .ok m') :
    m'.config = m.config ∧
    (a ∉ accounts → m'.averageOf r a = m.averageOf r a) ∧
    (a ∈ accounts → ∃ acc limits, m.averageOf r a = some acc ∧ acc.lastOrdinal ≤ timeSlot ∧
      m.getAccountLimits a = .ok limits ∧
      (∀ most ∈ m.maxUserUseInWindow r limits,
        (acc.added (r.amount cpuUsage netUsage) timeSlot (r.window m.config)).valueEx *
          r.window m.config / rateLimitingPrecision ≤ most) ∧
      m'.averageOf r a =
        some (acc.added (r.amount cpuUsage netUsage) timeSlot (r.window m.config))) := by
  obtain ⟨usages, rfl, -, hout, hin⟩ := addTransactionUsage_spec h
  refine ⟨rfl, fun ha => congrArg (Option.map r.accumulator) (hout a ha), fun ha => ?_⟩
  obtain ⟨u, limits, hu, hlimits, hc, hu'⟩ := hin a ha
  have hacc := u.accumulator_charged m.config cpuUsage netUsage timeSlot r
  refine ⟨r.accumulator u, limits, averageOf_eq_some.mpr ⟨u, hu, rfl⟩, (hc.room r).order,
    hlimits, ?_, averageOf_eq_some.mpr ⟨_, hu', hacc⟩⟩
  rw [← hacc]
  exact hc.used r

theorem averageOf_addPendingMemUsage {account : Name} {memDelta : ℤ}
    (h : m.addPendingMemUsage account memDelta = .ok m') :
    m'.averageOf r a = m.averageOf r a := by
  obtain ⟨-, rfl⟩ | ⟨u, hu, -, rfl⟩ := addPendingMemUsage_cases h
  · rfl
  · rw [averageOf, setUsage, Table.lookup_insert_ite]
    split
    next ha =>
      rw [averageOf, ha, hu]
      cases r <;> rfl
    next => rfl

end ResourceLimitsManager

namespace ManagerCall

open ResourceLimitsManager

variable {m m' : ResourceLimitsManager} {a : Name} {r : Resource} {c : ManagerCall}

/-- No call changes the length of the window, and a call that does not touch
an account's averages keeps them. -/
theorem apply_keeps (h : c.apply m = .ok m') (a : Name) :
    r.window m'.config = r.window m.config ∧
    (c.slotOf a = none → ∀ acc, m.averageOf r a = some acc → m'.averageOf r a = some acc) := by
  cases c with
  | initializeAccount account =>
    obtain ⟨⟨-, hfresh⟩, rfl⟩ := initializeAccount_eq_ok.mp h
    refine ⟨rfl, fun _ acc hacc => ?_⟩
    obtain ⟨u, hu, rfl⟩ := averageOf_eq_some.mp hacc
    -- the account has a row, so it is not the one created
    have hne : a ≠ account := by
      rintro rfl
      exact hfresh (Table.mem_of_lookup hu)
    refine averageOf_eq_some.mpr ⟨u, ?_, rfl⟩
    show (insert account _ m.usage).lookup a = _
    rw [lookup_insert_of_ne _ hne, hu]
  | setBlockParameters cpu net =>
    simp only [apply, ResourceLimitsManager.setBlockParameters, bind_eq_ok, pure_eq_ok] at h
    obtain ⟨_, -, _, -, rfl⟩ := h
    exact ⟨by cases r <;> rfl, fun _ acc hacc => hacc⟩
  | updateAccountUsage accounts timeSlot =>
    obtain ⟨hconfig, hout, -⟩ := averageOf_updateAccountUsage (a := a) (r := r) h
    refine ⟨by rw [hconfig], fun hslot acc hacc => ?_⟩
    rw [hout (by simpa [slotOf] using hslot), hacc]
  | addTransactionUsage accounts cpu net timeSlot =>
    obtain ⟨hconfig, hout, -⟩ := averageOf_addTransactionUsage (a := a) (r := r) h
    refine ⟨by rw [hconfig], fun hslot acc hacc => ?_⟩
    rw [hout (by simpa [slotOf] using hslot), hacc]
  | addPendingMemUsage account memDelta =>
    exact ⟨congrArg (r.window ·.config) (rest_addPendingMemUsage h), fun _ acc hacc =>
      (averageOf_addPendingMemUsage h).trans hacc⟩
  | setAccountLimits account limits =>
    obtain ⟨_, hset, ⟨⟩⟩ := bind_eq_ok.mp h
    rw [eq_of_setAccountLimits hset]
    exact ⟨rfl, fun _ acc hacc => hacc⟩
  | processAccountLimitUpdates =>
    have hkept := unlimited_processAccountLimitUpdates h
    refine ⟨congrArg (r.window ·.config) hkept, fun _ acc hacc => ?_⟩
    exact (congrArg (averageOf r · a) hkept).trans hacc
  | processBlockUsage blockNum =>
    simp only [apply, ResourceLimitsManager.processBlockUsage, bind_eq_ok, pure_eq_ok] at h
    obtain ⟨_, -, _, -, _, -, _, -, rfl⟩ := h
    exact ⟨rfl, fun _ acc hacc => hacc⟩

theorem not_bills_of_slotOf (h : c.slotOf a = none) : c.billed r a = 0 := by
  cases c with
  | addTransactionUsage accounts cpu net timeSlot =>
    have ha : a ∉ accounts := by simpa [slotOf] using h
    exact if_neg ha
  | _ => rfl

end ManagerCall

/-! ## The account's meter -/

namespace ResourceLimitsManager

variable {m m' : ResourceLimitsManager} {a : Name} {r : Resource} {c : ManagerCall}
  {w bound start total : ℕ}

/-- The account's average as a meter: nothing was billed yet, or the average
is a reading of the meter that started at the first billing. -/
def MeteredFrom (r : Resource) (a : Name) (w bound start : ℕ) (m : ResourceLimitsManager)
    (total : ℕ) : Prop :=
  total = 0 ∨ ∃ first acc, m.averageOf r a = some acc ∧ start ≤ first ∧
    first < start + w ∧ acc.lastOrdinal < start + w ∧
    Metered rateLimitingPrecision w bound first acc.lastOrdinal acc.valueEx total

theorem mul_le_of_used_le {v most M : ℕ} (hmost : most ≤ M)
    (h : v * w / rateLimitingPrecision ≤ most) :
    w * v ≤ (M + 1) * rateLimitingPrecision - 1 := by
  have hlt : v * w < (M + 1) * rateLimitingPrecision :=
    (Nat.div_lt_iff_lt_mul (by decide)).mp (by omega)
  rw [Nat.mul_comm w v]
  omega

theorem contribution_share {units : ℕ} (hw : 0 < w) :
    rateLimitingPrecision * units ≤ w * contribution units w := by
  rw [Nat.mul_comm rateLimitingPrecision]
  exact le_mul_integerDivideCeil hw

theorem MeteredFrom.step {M : ℕ}
    (h : MeteredFrom r a w ((M + 1) * rateLimitingPrecision - 1) start m total)
    (hcall : c.apply m = .ok m') (hwindow : r.window m.config = w)
    (hslot : ∀ slot ∈ c.slotOf a, start ≤ slot ∧ slot < start + w)
    (hmax : c.Bills a → ∀ limits, m.getAccountLimits a = .ok limits →
      ∃ most ∈ m.maxUserUseInWindow r limits, most ≤ M) :
    MeteredFrom r a w ((M + 1) * rateLimitingPrecision - 1) start m'
      (total + c.billed r a) := by
  cases hs : c.slotOf a with
  | none =>
    rw [ManagerCall.not_bills_of_slotOf hs, Nat.add_zero]
    refine h.imp_right ?_
    rintro ⟨first, acc, hacc, hrest⟩
    exact ⟨first, acc, (ManagerCall.apply_keeps hcall a).2 hs acc hacc, hrest⟩
  | some slot =>
    obtain ⟨hstart, hend⟩ := hslot slot hs
    have hw : 0 < w := by omega
    cases c with
    | updateAccountUsage accounts timeSlot =>
      obtain ⟨ha, rfl⟩ : a ∈ accounts ∧ timeSlot = slot := by
        simpa [ManagerCall.slotOf] using hs
      refine h.imp_right ?_
      rintro ⟨first, acc, hacc, hfirst, hfirst', -, hmeter⟩
      obtain ⟨acc', hacc', hle, hnew⟩ := (averageOf_updateAccountUsage hcall).2.2 ha
      obtain rfl : acc = acc' := Option.some.inj (hacc.symm.trans hacc')
      refine ⟨first, _, hnew, hfirst, hfirst', ?_, ?_⟩
      · rwa [lastOrdinal_added]
      · rw [lastOrdinal_added, hwindow, valueEx_added hw, contribution_zero, Nat.add_zero]
        exact hmeter.idle hle
    | addTransactionUsage accounts cpu net timeSlot =>
      obtain ⟨ha, rfl⟩ : a ∈ accounts ∧ timeSlot = slot := by
        simpa [ManagerCall.slotOf] using hs
      obtain ⟨acc, limits, hacc, hle, hlimits, hused, hnew⟩ :=
        (averageOf_addTransactionUsage hcall).2.2 ha
      obtain ⟨most, hmost, hle'⟩ := hmax ha limits hlimits
      have hbound := mul_le_of_used_le hle' (hused most hmost)
      have hbilled : (ManagerCall.addTransactionUsage accounts cpu net timeSlot).billed r a =
          r.amount cpu net := if_pos ha
      rw [hwindow, valueEx_added hw] at hbound
      rw [hwindow] at hnew
      -- a first billing starts the meter, whatever the average held before it
      rcases h with rfl | ⟨first, acc', hacc', hfirst, hfirst', -, hmeter⟩
      · refine Or.inr ⟨timeSlot, _, hnew, hstart, hend, ?_, ?_⟩
        · rwa [lastOrdinal_added]
        · rw [lastOrdinal_added, valueEx_added hw, hbilled, Nat.zero_add]
          exact .start (contribution_share hw) (Nat.le_add_left _ _) hbound
      · obtain rfl : acc = acc' := Option.some.inj (hacc.symm.trans hacc')
        refine Or.inr ⟨first, _, hnew, hfirst, hfirst', ?_, ?_⟩
        · rwa [lastOrdinal_added]
        · rw [lastOrdinal_added, valueEx_added hw, hbilled]
          exact hmeter.use hle (contribution_share hw) hbound
    | _ => cases hs

theorem window_run {calls : List ManagerCall} (h : m.run calls = .ok m') :
    r.window m'.config = r.window m.config :=
  foldlM_keeps (fun m => r.window m.config)
    -- any account will do
    (fun h => (ManagerCall.apply_keeps h 0).1) h

theorem meteredFrom_run {M : ℕ} {calls : List ManagerCall} (hrun : m.run calls = .ok m')
    (hwindow : r.window m.config = w)
    (hslot : ∀ c ∈ calls, ∀ slot ∈ c.slotOf a, start ≤ slot ∧ slot < start + w)
    (hmax : ∀ earlier c later s limits, calls = earlier ++ c :: later →
      m.run earlier = .ok s → c.Bills a → s.getAccountLimits a = .ok limits →
      ∃ most ∈ s.maxUserUseInWindow r limits, most ≤ M) :
    MeteredFrom r a w ((M + 1) * rateLimitingPrecision - 1) start m'
      (calls.map (ManagerCall.billed r a)).sum := by
  induction calls using reverseRecOn generalizing m' with
  | nil => exact Or.inl rfl
  | append_singleton calls c ih =>
    obtain ⟨s, hs, hc⟩ := run_snoc.mp hrun
    have hprev := ih hs (fun c' hc' => hslot c' (mem_append_left _ hc')) (by
      intro earlier c' later s' limits heq
      exact hmax earlier c' (later ++ [c]) s' limits (by rw [heq, append_assoc]; rfl))
    rw [map_append, sum_append, map_singleton, sum_singleton]
    refine hprev.step hc ((window_run hs).trans hwindow) (hslot c (by simp)) ?_
    intro hbills limits hlimits
    exact hmax calls c [] s limits rfl hs hbills hlimits

/-- **Rate limiting bounds what is used.** Take any run of successful calls in which every call that
touches account `a` has its slot within one window of `w` slots.  If the account's share is at most
`M` whenever the account is billed, then all that is billed to it is at most twice `M + 1`, and `w *
w` over the precision. -/
theorem billed_in_window_le (r : Resource) (a : Name) (m m' : ResourceLimitsManager)
    (calls : List ManagerCall) (start M : ℕ) (hrun : m.run calls = .ok m')
    (hslot : ∀ c ∈ calls, ∀ slot ∈ c.slotOf a,
      start ≤ slot ∧ slot < start + r.window m.config)
    (hmax : ∀ earlier c later s limits, calls = earlier ++ c :: later →
      m.run earlier = .ok s → c.Bills a → s.getAccountLimits a = .ok limits →
      ∃ most ∈ s.maxUserUseInWindow r limits, most ≤ M) :
    (calls.map (ManagerCall.billed r a)).sum ≤ 2 * (M + 1) +
        r.window m.config * r.window m.config / rateLimitingPrecision := by
  rcases meteredFrom_run hrun rfl hslot hmax with h |
    ⟨first, acc, -, hfirst, hfirst', hlast, hmeter⟩
  · rw [h]
    exact Nat.zero_le _
  · have hw : 0 < r.window m.config := by omega
    have htotal := hmeter.total_le hw (by omega)
    have hP : 0 < rateLimitingPrecision := by decide
    rw [← Nat.sub_le_iff_le_add', Nat.le_div_iff_mul_le hP, Nat.sub_mul]
    rw [Nat.mul_comm rateLimitingPrecision] at htotal
    have hM : 0 < (M + 1) * rateLimitingPrecision := Nat.mul_pos (Nat.succ_pos M) hP
    rw [Nat.mul_assoc 2]
    omega

/-- A fresh chain whose account `1` holds all the weight. -/
def soleUser : ResourceLimitsManager :=
  { initializeDatabase with
    limits := singleton 1 ⟨1, 1, -1⟩
    usage := singleton 1 {}
    state := { initializeDatabase.state with totalCpuWeight := 1, totalNetWeight := 1 } }

/-- The account is brought up to date and billed for a transaction, and again half a window
later. -/
def twoTransactions : List ManagerCall :=
  [.updateAccountUsage {1} 10, .addTransactionUsage {1} 300 200 20,
    .updateAccountUsage {1} 86400, .addTransactionUsage {1} 500 100 86410]

theorem billed_in_window_le_twoTransactions :
    ∃ m', soleUser.run twoTransactions = .ok m' ∧
      (twoTransactions.map (ManagerCall.billed .cpu 1)).sum = 800 ∧
      800 ≤ 2 * (200000 * 172800 + 1) + 172800 * 172800 / 1000000 := by
  obtain ⟨m', hrun, -⟩ : ∃ m', soleUser.run twoTransactions = .ok m' ∧ True := by decide +kernel
  refine ⟨m', hrun, rfl, ?_⟩
  refine billed_in_window_le .cpu 1 soleUser m' twoTransactions 0 (200000 * 172800) hrun ?_ ?_
  · decide
  · intro earlier c later s limits heq hs _ hlimits
    -- no call changes the share
    have hshare : ∀ i < 4, ∃ s, soleUser.run (twoTransactions.take i) = .ok s ∧
        s.getAccountLimits 1 = .ok ⟨1, 1, -1⟩ ∧
        s.maxUserUseInWindow .cpu ⟨1, 1, -1⟩ = some (200000 * 172800) := by
      decide +kernel
    have hlength : earlier.length < twoTransactions.length := by
      rw [heq, length_append, length_cons]
      omega
    obtain ⟨s', hs', hlimits', hmost⟩ := hshare earlier.length hlength
    rw [heq, take_left' rfl, hs] at hs'
    cases hs'
    cases hlimits.symm.trans hlimits'
    exact ⟨_, hmost, le_rfl⟩

end ResourceLimitsManager

end Inery.Chain
