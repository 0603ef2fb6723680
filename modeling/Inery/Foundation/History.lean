import Mathlib.Data.List.Chain

/-!
# Histories of a transition system

`History init step s past` says that `s` is reached from `init` by steps of `step`, and that `past`
lists the states left behind, newest first.  An invariant may talk about the past, which is what a
statement about "every block of this chain" needs.
-/

namespace Inery.Foundation

universe u

variable {σ : Type u} {init : σ} {step step' : σ → σ → Prop} {s s' : σ} {past : List σ}

/-- `s` is reached from `init` through the states `past`, newest first. -/
inductive History (init : σ) (step : σ → σ → Prop) : σ → List σ → Prop
  | start : History init step init []
  | step {s s' : σ} {past : List σ} :
      History init step s past → step s s' → History init step s' (s :: past)

namespace History

/-- **Invariant rule.** A property of a state and its past that holds at the
start and is kept by every step of a history holds along every history. -/
theorem invariant {I : σ → List σ → Prop} (hstart : I init [])
    (hstep : ∀ s past s', History init step s past → I s past → step s s' →
      I s' (s :: past)) (h : History init step s past) : I s past := by
  induction h with
  | start => exact hstart
  | step hpast hs ih => exact hstep _ _ _ hpast ih hs

/-- A history of a finer step relation is a history of a coarser one. -/
theorem mono (hsub : ∀ s s', step s s' → step' s s') (h : History init step s past) :
    History init step' s past := by
  induction h with
  | start => exact .start
  | step _ hs ih => exact .step ih (hsub _ _ hs)

/-- A history whose neighbouring states are all related. -/
theorem and_of_isChain {related : σ → σ → Prop} (h : History init step s past)
    (hchain : (s :: past).IsChain fun s' s => related s s') :
    History init (fun s s' => step s s' ∧ related s s') s past := by
  induction h with
  | start => exact .start
  | step _ hs ih =>
    obtain ⟨hrelated, hpast⟩ := List.isChain_cons_cons.mp hchain
    exact .step (ih hpast) ⟨hs, hrelated⟩

/-- A history that has left a state behind ends in a step from it. -/
theorem of_cons {t : σ} (h : History init step s (t :: past)) :
    History init step t past ∧ step t s := by
  cases h with
  | step hpast hs => exact ⟨hpast, hs⟩

end History

end Inery.Foundation
