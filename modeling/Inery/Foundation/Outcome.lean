import Mathlib.Tactic.Common

/-!
# Fallible computations

The lemmas here peel a successful `do` block apart one statement at a time: a bind that succeeded
had a successful head, an assertion that succeeded had a true condition.  Later modules never unfold
the monad.
-/

namespace Inery.Foundation

universe u v

variable {ε : Type u} {α β : Type v}

/-- Succeed when `c` holds, fail with `e` otherwise. -/
def ensure (c : Prop) [Decidable c] (e : ε) : Except ε Unit :=
  if c then .ok () else .error e

variable {e : ε}

@[simp] theorem ensure_eq_ok {c : Prop} [Decidable c] {u : Unit} : ensure c e = .ok u ↔ c := by
  unfold ensure
  split <;> simp_all

@[simp] theorem ensure_eq_error {c : Prop} [Decidable c] {e' : ε} :
    ensure c e = .error e' ↔ ¬ c ∧ e = e' := by
  unfold ensure
  split <;> simp_all

theorem ensure_pos {c : Prop} [Decidable c] (h : c) : ensure c e = .ok () := if_pos h

theorem ensure_neg {c : Prop} [Decidable c] (h : ¬ c) : ensure c e = .error e := if_neg h

variable {f : α → Except ε β}

@[simp] theorem ok_bind {a : α} : ((Except.ok a : Except ε α) >>= f) = f a := rfl

@[simp] theorem error_bind : ((Except.error e : Except ε α) >>= f) = .error e := rfl

variable {x : Except ε α}

theorem bind_eq_ok {b : β} : (x >>= f) = .ok b ↔ ∃ a, x = .ok a ∧ f a = .ok b := by
  constructor
  · intro h
    cases x with
    | error e => cases h
    | ok a => exact ⟨a, rfl, h⟩
  · rintro ⟨a, rfl, h⟩
    exact h

theorem bind_eq_error : (x >>= f) = .error e ↔ x = .error e ∨ ∃ a, x = .ok a ∧ f a = .error e := by
  constructor
  · intro h
    cases x with
    | error e' =>
      cases h
      exact Or.inl rfl
    | ok a => exact Or.inr ⟨a, rfl, h⟩
  · rintro (rfl | ⟨a, rfl, h⟩)
    · rfl
    · exact h

theorem bind_ne_error (hx : x ≠ .error e) (hf : ∀ a, x = .ok a → f a ≠ .error e) :
    (x >>= f) ≠ .error e := by
  intro h
  obtain hxe | ⟨a, ha, hfa⟩ := bind_eq_error.mp h
  · exact hx hxe
  · exact hf a ha hfa

theorem bind_pure_ne_error {g : α → β} (hx : x ≠ .error e) :
    (x >>= fun a => pure (g a)) ≠ .error e :=
  bind_ne_error hx nofun

theorem pure_eq_ok {a b : α} : (pure a : Except ε α) = .ok b ↔ a = b := by
  simp [pure, Except.pure]

theorem toOption_eq_some {a : α} : x.toOption = some a ↔ x = .ok a := by
  cases x with
  | error e => simp [Except.toOption]
  | ok b => simp [Except.toOption]

theorem mapError_eq_ok {ε' : Type*} {f : ε → ε'} {a : α} : x.mapError f = .ok a ↔ x = .ok a := by
  cases x with
  | error e => exact ⟨nofun, nofun⟩
  | ok b =>
    constructor
    · exact fun h => congrArg Except.ok (Except.ok.inj h)
    · exact fun h => congrArg Except.ok (Except.ok.inj h)

/-- A loop that has come to its end has passed every element. -/
theorem forM_passed {l : List α} {f : α → Except ε PUnit} (h : l.forM f = .ok ()) {x : α}
    (hx : x ∈ l) : f x = .ok () := by
  induction l with
  | nil => cases hx
  | cons y rest ih =>
    obtain ⟨_, hy, hrest⟩ := bind_eq_ok.mp h
    rcases List.mem_cons.mp hx with rfl | hx
    · exact hy
    · exact ih hrest hx

/-- Whether a computation returns what has a decidable property is decided by running it. -/
instance decidableExistsOk {P : α → Prop} [DecidablePred P] : Decidable (∃ a, x = .ok a ∧ P a) :=
  match x with
  | .error _ => .isFalse fun ⟨_, h, _⟩ => nomatch h
  | .ok a => decidable_of_iff (P a) ⟨fun h => ⟨a, rfl, h⟩, fun ⟨_, h, hp⟩ => Except.ok.inj h ▸ hp⟩

/-! ## What a computation may end with -/

/-- It returns only what satisfies `P`, and fails only with what satisfies `E`. -/
structure Ends (E : ε → Prop) (P : α → Prop) (x : Except ε α) : Prop where
  ok : ∀ {a}, x = .ok a → P a
  error : ∀ {e}, x = .error e → E e

namespace Ends

variable {E : ε → Prop} {P Q : α → Prop} {R : β → Prop} {x : Except ε α} {f : α → Except ε β}

theorem of_ok {a : α} (hx : x = .ok a) (ha : P a) : Ends E P x where
  ok h := by
    rw [hx] at h
    exact Except.ok.inj h ▸ ha
  error h := nomatch hx.symm.trans h

theorem of_error {e : ε} (hx : x = .error e) (he : E e) : Ends E P x where
  ok h := nomatch hx.symm.trans h
  error h := by
    rw [hx] at h
    exact Except.error.inj h ▸ he

theorem bind (h : Ends E P x) (hf : ∀ a, P a → Ends E R (f a)) : Ends E R (x >>= f) := by
  cases x with
  | ok a => exact hf a (h.ok rfl)
  | error e => exact of_error rfl (h.error rfl)

theorem map {g : α → β} (h : Ends E P x) (hg : ∀ a, P a → R (g a)) :
    Ends E R (x >>= fun a => pure (g a)) :=
  h.bind fun a ha => of_ok rfl (hg a ha)

theorem mono (h : Ends E P x) (himp : ∀ a, P a → Q a) : Ends E Q x where
  ok hx := himp _ (h.ok hx)
  error hx := h.error hx

theorem ensure {c : Prop} [Decidable c] {e : ε} (he : ¬ c → E e) :
    Ends E (fun _ => c) (Foundation.ensure c e) := by
  by_cases hc : c
  · exact of_ok (ensure_pos hc) hc
  · exact of_error (ensure_neg hc) (he hc)

end Ends

end Inery.Foundation
