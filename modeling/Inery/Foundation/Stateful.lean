import Inery.Foundation.Outcome

/-!
# Computations that keep their state when they throw

A C++ function that throws leaves behind whatever it had already changed.
`Stateful ε σ α` returns the state next to the outcome, so a failed call and
its partial effects can be talked about.
-/

namespace Inery.Foundation

universe u v

/-- A computation over the state `σ` that may throw an `ε`. -/
def Stateful (ε σ : Type u) (α : Type u) : Type u := σ → Except ε α × σ

namespace Stateful

variable {ε σ α β : Type u} {s s' : σ}

def run (x : Stateful ε σ α) (s : σ) : Except ε α × σ := x s

instance : Monad (Stateful ε σ) where
  pure a := fun s => (.ok a, s)
  bind x f := fun s =>
    match x s with
    | (.ok a, s') => f a s'
    | (.error e, s') => (.error e, s')

def get : Stateful ε σ σ := fun s => (.ok s, s)

def modify (f : σ → σ) : Stateful ε σ PUnit := fun s => (.ok ⟨⟩, f s)

def throw (e : ε) : Stateful ε σ α := fun s => (.error e, s)

def lift (x : Except ε α) : Stateful ε σ α := fun s => (x, s)

/-- Catch what `x` throws; the handler starts from the state it left. -/
def tryCatch (x : Stateful ε σ α) (handler : ε → Stateful ε σ α) : Stateful ε σ α := fun s =>
  match x s with
  | (.ok a, s') => (.ok a, s')
  | (.error e, s') => handler e s'

@[simp] theorem run_modify (f : σ → σ) : (modify f : Stateful ε σ PUnit).run s = (.ok ⟨⟩, f s) :=
  rfl

@[simp] theorem run_throw (e : ε) : (throw e : Stateful ε σ α).run s = (.error e, s) := rfl

@[simp] theorem run_lift (x : Except ε α) : (lift x : Stateful ε σ α).run s = (x, s) := rfl

theorem run_bind (x : Stateful ε σ α) (f : α → Stateful ε σ β) :
    (x >>= f).run s =
      match x.run s with
      | (.ok a, s') => (f a).run s'
      | (.error e, s') => (.error e, s') := rfl

variable {x : Stateful ε σ α} {f : α → Stateful ε σ β}

theorem run_bind_ok {a : α} (h : x.run s = (.ok a, s')) : (x >>= f).run s = (f a).run s' := by
  rw [run_bind, h]

theorem run_bind_error {e : ε} (h : x.run s = (.error e, s')) :
    (x >>= f).run s = (.error e, s') := by
  rw [run_bind, h]

theorem run_bind_eq_ok {b : β} :
    (x >>= f).run s = (.ok b, s') ↔ ∃ a t, x.run s = (.ok a, t) ∧ (f a).run t = (.ok b, s') := by
  constructor
  · intro h
    rw [run_bind] at h
    cases hx : x.run s with
    | mk outcome t =>
      rw [hx] at h
      cases outcome with
      | error e => cases h
      | ok a => exact ⟨a, t, rfl, h⟩
  · rintro ⟨a, t, hx, hf⟩
    rw [run_bind_ok hx, hf]

theorem run_tryCatch_ok {handler : ε → Stateful ε σ α} {a : α} (h : x.run s = (.ok a, s')) :
    (tryCatch x handler).run s = (.ok a, s') := by
  simp only [run, tryCatch] at *
  rw [h]

theorem run_tryCatch_error {handler : ε → Stateful ε σ α} {e : ε} (h : x.run s = (.error e, s')) :
    (tryCatch x handler).run s = (handler e).run s' := by
  simp only [run, tryCatch] at *
  rw [h]

@[simp] theorem run_get_bind (f : σ → Stateful ε σ β) :
    ((get : Stateful ε σ σ) >>= f).run s = (f s).run s := rfl

@[simp] theorem run_modify_bind (g : σ → σ) (f : PUnit → Stateful ε σ β) :
    ((modify g : Stateful ε σ PUnit) >>= f).run s = (f ⟨⟩).run (g s) := rfl

@[simp] theorem run_lift_ok_bind (a : α) (f : α → Stateful ε σ β) :
    ((lift (.ok a) : Stateful ε σ α) >>= f).run s = (f a).run s := rfl

@[simp] theorem run_lift_error_bind (e : ε) (f : α → Stateful ε σ β) :
    ((lift (.error e) : Stateful ε σ α) >>= f).run s = (.error e, s) := rfl

/-- `x` keeps `I`, whether it returns or throws. -/
def Keeps (I : σ → Prop) (x : Stateful ε σ α) : Prop := ∀ s, I s → I (x.run s).2

namespace Keeps

variable {I : σ → Prop} {x : Stateful ε σ α} {f : α → Stateful ε σ β}

theorem pure {a : α} : Keeps I (Pure.pure a : Stateful ε σ α) := fun _ h => h

theorem modify {g : σ → σ} (h : ∀ s, I s → I (g s)) :
    Keeps I (Stateful.modify g : Stateful ε σ PUnit) := h

/-- A first part that establishes `I` and a second part that keeps it. -/
theorem of_bind (hx : I (x.run s).2) (hf : ∀ a, Keeps I (f a)) : I ((x >>= f).run s).2 := by
  cases h : x.run s with
  | mk outcome t =>
    rw [h] at hx
    cases outcome with
    | error e => rwa [run_bind_error h]
    | ok a =>
      rw [run_bind_ok h]
      exact hf a t hx

theorem bind (hx : Keeps I x) (hf : ∀ a, Keeps I (f a)) : Keeps I (x >>= f) :=
  fun s hs => of_bind (hx s hs) hf

theorem get_bind {g : σ → Stateful ε σ β} (h : ∀ t, Keeps I (g t)) :
    Keeps I (Stateful.get >>= g) := fun s hs => h s s hs

/-- What held at the start holds of the state left by a run. -/
theorem of_run (hx : Keeps I x) (hs : I s) {outcome : Except ε α}
    (h : x.run s = (outcome, s')) : I s' := by
  have hI := hx s hs
  rwa [h] at hI

end Keeps

end Stateful

end Inery.Foundation
