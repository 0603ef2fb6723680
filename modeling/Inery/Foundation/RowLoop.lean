import Inery.Foundation.Outcome

/-!
# Loops that visit each row once

A loop walks over distinct keys; at each it checks the row of that key against what the loop never
changes, and writes the row back.  Such a loop succeeds exactly when every visited row passes on its
own, and then each row has become what its own step made of it.
-/

namespace Inery.Foundation

open List

variable {ε : Type} {σ ρ κ α : Type}

/-- What every step keeps holds at the end of the loop, and of the state in
which a step threw. -/
theorem foldlM_invariant {step : σ → κ → Except ε σ} (I : σ → Prop) {ks : List κ}
    (hstep : ∀ k ∈ ks, ∀ {s s'}, I s → step s k = .ok s' → I s') {s : σ} (hs : I s) :
    (∀ s', ks.foldlM step s = .ok s' → I s') ∧
    (∀ e, ks.foldlM step s = .error e → ∃ s₁ k, I s₁ ∧ step s₁ k = .error e) := by
  induction ks generalizing s with
  | nil =>
    constructor
    · intro s' hrun
      cases hrun
      exact hs
    · intro e hrun
      cases hrun
  | cons k ks ih =>
    rw [forall_mem_cons] at hstep
    constructor
    · intro s' hrun
      rw [foldlM_cons, bind_eq_ok] at hrun
      obtain ⟨s₁, hs₁, hrun⟩ := hrun
      exact (ih hstep.2 (hstep.1 hs hs₁)).1 s' hrun
    · intro e hrun
      rw [foldlM_cons, bind_eq_error] at hrun
      rcases hrun with hthrow | ⟨s₁, hs₁, hrun⟩
      · exact ⟨s, k, hs, hthrow⟩
      · exact (ih hstep.2 (hstep.1 hs hs₁)).2 e hrun

/-- What no step changes, the loop does not change. -/
theorem foldlM_keeps {step : σ → κ → Except ε σ} (view : σ → α)
    (hstep : ∀ {s k s'}, step s k = .ok s' → view s' = view s) {ks : List κ} {s s' : σ}
    (hrun : ks.foldlM step s = .ok s') : view s' = view s :=
  (foldlM_invariant (fun s₁ => view s₁ = view s) (fun _ _ _ _ h hs => (hstep hs).trans h) rfl).1
    s' hrun

/-- A step that changes one row.  `rest` is what the step reads and keeps, and
`R` relates the row before to the row after. -/
structure RowStep (step : σ → κ → Except ε σ) (rest : σ → ρ) (row : σ → κ → Option α)
    (R : ρ → κ → α → α → Prop) : Prop where
  before : ∀ {s k s'}, step s k = .ok s' →
    ∃ v v', row s k = some v ∧ row s' k = some v' ∧ R (rest s) k v v'
  other : ∀ {s k s' j}, step s k = .ok s' → j ≠ k → row s' j = row s j
  frame : ∀ {s k s'}, step s k = .ok s' → rest s' = rest s
  progress : ∀ {s k v v'}, row s k = some v → R (rest s) k v v' → ∃ s', step s k = .ok s'

namespace RowStep

variable {step : σ → κ → Except ε σ} {rest : σ → ρ} {row : σ → κ → Option α}
  {R : ρ → κ → α → α → Prop}

variable {ks : List κ} (h : RowStep step rest row R)
include h

theorem foldlM_frame {s s' : σ} (hrun : ks.foldlM step s = .ok s') :
    rest s' = rest s ∧ ∀ j ∉ ks, row s' j = row s j := by
  induction ks generalizing s with
  | nil =>
    cases hrun
    exact ⟨rfl, fun _ _ => rfl⟩
  | cons k ks ih =>
    rw [foldlM_cons, bind_eq_ok] at hrun
    obtain ⟨s₁, hstep, hrun⟩ := hrun
    obtain ⟨hrest, hrows⟩ := ih hrun
    refine ⟨hrest.trans (h.frame hstep), fun j hj => ?_⟩
    rw [mem_cons, not_or] at hj
    rw [hrows j hj.2, h.other hstep hj.1]

/-- Each visited row is changed once, by its own step. -/
theorem foldlM_row (hks : ks.Nodup) {s s' : σ} (hrun : ks.foldlM step s = .ok s') {k : κ}
    (hk : k ∈ ks) : ∃ v v', row s k = some v ∧ row s' k = some v' ∧ R (rest s) k v v' := by
  induction ks generalizing s with
  | nil => cases hk
  | cons j ks ih =>
    rw [nodup_cons] at hks
    rw [foldlM_cons, bind_eq_ok] at hrun
    obtain ⟨s₁, hstep, hrun⟩ := hrun
    rcases mem_cons.mp hk with rfl | hmem
    · obtain ⟨v, v', hv, hv', hR⟩ := h.before hstep
      refine ⟨v, v', hv, ?_, hR⟩
      rw [(h.foldlM_frame hrun).2 k hks.1, hv']
    · have hne : k ≠ j := by
        rintro rfl
        exact hks.1 hmem
      obtain ⟨v, v', hv, hv', hR⟩ := ih hks.2 hrun hmem
      rw [h.other hstep hne] at hv
      rw [h.frame hstep] at hR
      exact ⟨v, v', hv, hv', hR⟩

/-- **A loop over rows.** It succeeds exactly when every row would on its own. -/
theorem foldlM_isOk_iff (hks : ks.Nodup) (s : σ) :
    (∃ s', ks.foldlM step s = .ok s') ↔ ∀ k ∈ ks, ∃ v v', row s k = some v ∧ R (rest s) k v v' := by
  constructor
  · rintro ⟨s', hrun⟩ k hk
    obtain ⟨v, v', hv, -, hR⟩ := h.foldlM_row hks hrun hk
    exact ⟨v, v', hv, hR⟩
  · intro hrows
    induction ks generalizing s with
    | nil => exact ⟨s, rfl⟩
    | cons j ks ih =>
      rw [nodup_cons] at hks
      obtain ⟨v, v', hv, hR⟩ := hrows j mem_cons_self
      obtain ⟨s₁, hstep⟩ := h.progress hv hR
      -- the rows still to be visited are as they were
      obtain ⟨s', hrun⟩ := ih hks.2 s₁ (by
        intro k hk
        obtain ⟨u, u', hu, hRu⟩ := hrows k (mem_cons_of_mem j hk)
        have hne : k ≠ j := by
          rintro rfl
          exact hks.1 hk
        rw [h.frame hstep, h.other hstep hne]
        exact ⟨u, u', hu, hRu⟩)
      exact ⟨s', by rw [foldlM_cons, hstep, ok_bind, hrun]⟩

end RowStep

end Inery.Foundation
