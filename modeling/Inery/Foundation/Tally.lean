import Mathlib.Algebra.Order.BigOperators.Group.List
import Mathlib.Algebra.Order.Ring.Nat

/-!
# Weighted tallies

A tally walks over weighted entries, asks for each whether it counts, and stops with success as soon
as the weight counted reaches a threshold.  Asking may have effects, so the walk is written in any
monad; a state, an answer that may be missing and marks that are only added are treated.  One
induction over two tallies of the same entries (`tally_induction`) gives the other rules: what
success means, what a tally keeps, when two tallies agree and how the verdict changes with what
counts.
-/

namespace Inery.Foundation

open List Option

variable {ε σ τ : Type} (weight : ε → ℕ) (add : ℕ → ℕ → ℕ) (threshold : ℕ)

/-- Ask each entry in turn whether it counts, until the threshold is reached. -/
def tally {m : Type → Type} [Monad m] (counts : ε → m Bool) : List ε → ℕ → m Bool
  | [], _ => pure false
  | e :: es, total => do
      let counted ← counts e
      let total := if counted then add total (weight e) else total
      if threshold ≤ total then pure true else tally counts es total

variable {weight add threshold}

section Rules

variable {m n : Type → Type} [Monad m] [Monad n] (counts : ε → m Bool) (counts' : ε → n Bool)
  {es : List ε} {total : ℕ}

/-- **Induction.** What holds at the ends, and of a question if it holds of what follows its
answers, holds of two tallies of the same entries. -/
theorem tally_induction (P : List ε → ℕ → m Bool → n Bool → Prop)
    (hnil : ∀ total, P [] total (pure false) (pure false))
    (hreach : ∀ es total, threshold ≤ total → P es total (pure true) (pure true))
    (hstep : ∀ e ∈ es, ∀ es' total f g,
      (∀ b : Bool, P es' (if b then add total (weight e) else total) (f b) (g b)) →
      P (e :: es') total (counts e >>= f) (counts' e >>= g)) :
    P es total (tally weight add threshold counts es total)
      (tally weight add threshold counts' es total) := by
  induction es generalizing total with
  | nil => exact hnil total
  | cons e es ih =>
    refine hstep e mem_cons_self es total _ _ fun b => ?_
    by_cases h : threshold ≤ if b then add total (weight e) else total
    · simp only [if_pos h]
      exact hreach es _ h
    · simp only [if_neg h]
      exact ih fun e' he' => hstep e' (mem_cons_of_mem e he')

/-- The same for what does not depend on the weights. -/
theorem tally_rel (R : m Bool → n Bool → Prop) (hpure : ∀ b, R (pure b) (pure b))
    (hbind : ∀ e ∈ es, ∀ f g, (∀ b, R (f b) (g b)) → R (counts e >>= f) (counts' e >>= g)) :
    R (tally weight add threshold counts es total) (tally weight add threshold counts' es total) :=
  tally_induction counts counts' (fun _ _ => R) (fun _ => hpure false) (fun _ _ _ => hpure true)
    fun e he _ _ => hbind e he

end Rules

section State

variable {counts : ε → StateM σ Bool} {es : List ε} {total : ℕ}

/-- **Invariants.** What every question keeps, the tally keeps. -/
theorem tally_invariant (I : σ → Prop) (hstep : ∀ e ∈ es, ∀ s, I s → I (counts e s).2) {s : σ}
    (hs : I s) : I (tally weight add threshold counts es total s).2 :=
  tally_rel counts counts (fun x _ => ∀ s, I s → I (x s).2) (fun _ _ hs => hs)
    (fun e he _ _ hf s hs => hf _ _ (hstep e he s hs)) s hs

/-- **Success.** A tally that succeeds has counted entries, each once, whose
weights reach the threshold.  What supports a counted entry is kept by the
questions after it. -/
theorem tally_counted (hadd : ∀ a b, add a b ≤ a + b) (I : σ → Prop) (Supports : σ → ε → Prop)
    (hstep : ∀ e ∈ es, ∀ s, I s → I (counts e s).2 ∧
      (∀ e', Supports s e' → Supports (counts e s).2 e') ∧
      ((counts e s).1 = true → Supports (counts e s).2 e))
    {s s' : σ} (hs : I s) (h : tally weight add threshold counts es total s = (true, s')) :
    ∃ counted : List ε, counted.Sublist es ∧ threshold ≤ total + (counted.map weight).sum ∧
      ∀ e ∈ counted, Supports s' e := by
  -- stated with the entries counted so far, so that their supports are carried along
  have hgen := tally_induction counts counts (fun es total x _ => ∀ s before, I s →
    (∀ e ∈ before, Supports s e) → x s = (true, s') →
    ∃ counted : List ε, counted.Sublist es ∧ threshold ≤ total + (counted.map weight).sum ∧
      (∀ e ∈ counted, Supports s' e) ∧ ∀ e ∈ before, Supports s' e) ?_ ?_ ?_ s [] hs nofun h
  · obtain ⟨counted, hsub, hsum, hsupport, -⟩ := hgen
    exact ⟨counted, hsub, hsum, hsupport⟩
  · intro total s before _ _ h
    cases h
  · intro es total hreach s before _ hbefore h
    cases h
    exact ⟨[], nil_sublist _, hreach, nofun, hbefore⟩
  · intro e he es total f _ hf s before hs hbefore h
    obtain ⟨hI, hkeep, hcount⟩ := hstep e he s hs
    have hbefore' := fun e' he' => hkeep e' (hbefore e' he')
    change f (counts e s).1 (counts e s).2 = _ at h
    cases hb : (counts e s).1 with
    | false =>
      rw [hb] at h
      obtain ⟨counted, hsub, hrest⟩ := hf false _ before hI hbefore' h
      exact ⟨counted, hsub.cons e, hrest⟩
    | true =>
      rw [hb] at h
      obtain ⟨counted, hsub, hsum, hsupport, hafter⟩ :=
        hf true _ (e :: before) hI (forall_mem_cons.mpr ⟨hcount hb, hbefore'⟩) h
      rw [forall_mem_cons] at hafter
      refine ⟨e :: counted, hsub.cons_cons e, ?_, forall_mem_cons.mpr ⟨hafter.1, hsupport⟩,
        hafter.2⟩
      have hweight := hadd total (weight e)
      rw [if_pos rfl] at hsum
      rw [map_cons, sum_cons]
      omega

end State

/-! ## Tallies that may have no answer -/

section Exact

variable {exact exact' : ε → Option Bool} {es es' : List ε} {total : ℕ} {b b' : Bool}

/-- A tally with effects gives the exact answer if every question does. -/
theorem tally_of_exact {counts : ε → StateM σ Bool} (I : σ → Prop)
    (hstep : ∀ e ∈ es, ∀ s a, I s → exact e = some a → (counts e s).1 = a ∧ I (counts e s).2)
    {s : σ} (hs : I s) (h : tally weight add threshold exact es total = some b) :
    (tally weight add threshold counts es total s).1 = b ∧
      I (tally weight add threshold counts es total s).2 := by
  refine tally_rel counts exact (fun x o => ∀ s b, I s → o = some b → (x s).1 = b ∧ I (x s).2)
    (fun _ _ _ hs h => ⟨some.inj h, hs⟩) (fun e he f g hfg s b hs h => ?_) s b hs h
  obtain ⟨a, ha, h⟩ := bind_eq_some_iff.mp h
  obtain ⟨rfl, hI⟩ := hstep e he s a hs ha
  exact hfg _ _ b hI h

/-- Answers that agree wherever both exist give verdicts that do. -/
theorem tally_exact_unique
    (hagree : ∀ e ∈ es, ∀ a a', exact e = some a → exact' e = some a' → a = a')
    (h : tally weight add threshold exact es total = some b)
    (h' : tally weight add threshold exact' es total = some b') : b = b' := by
  refine tally_rel exact exact' (fun o o' => ∀ b b', o = some b → o' = some b' → b = b')
    (fun _ _ _ h h' => some.inj (h.symm.trans h')) (fun e he f g hfg b b' h h' => ?_) b b' h h'
  obtain ⟨a, ha, h⟩ := bind_eq_some_iff.mp h
  obtain ⟨a', ha', h'⟩ := bind_eq_some_iff.mp h'
  obtain rfl := hagree e he a a' ha ha'
  exact hfg a b b' h h'

theorem tally_exact_counted (hadd : ∀ a b, add a b ≤ a + b)
    (h : tally weight add threshold exact es total = some true) :
    ∃ counted : List ε, counted.Sublist es ∧ threshold ≤ total + (counted.map weight).sum ∧
      ∀ e ∈ counted, exact e = some true := by
  -- the same tally, with a state that plays no part
  let counts : ε → StateM Unit Bool := fun e s => ((exact e).getD false, s)
  have hrun : (tally weight add threshold counts es total ()).1 = true :=
    (tally_of_exact (fun _ => True)
      (fun e _ _ a _ ha => ⟨congrArg (getD · false) ha, trivial⟩) trivial h).1
  refine tally_counted hadd (fun _ => True) (fun _ e => exact e = some true)
    (fun e _ _ _ => ⟨trivial, fun _ he => he, fun hcount => ?_⟩) trivial (Prod.ext hrun rfl)
  exact (getD_eq_iff.mp hcount).resolve_right nofun

theorem tally_exact_false {bound : ℕ} (hadd : ∀ a b, a + b < bound → add a b = a + b)
    (hbound : total + (es.map weight).sum < bound)
    (h : tally weight add threshold exact es total = some false) :
    (∀ e ∈ es, exact e ≠ none) ∧ (es = [] ∨
      total + ((es.filter fun e => exact e = some true).map weight).sum < threshold) := by
  induction es generalizing total with
  | nil => exact ⟨nofun, .inl rfl⟩
  | cons e es ih =>
    simp only [map_cons, sum_cons] at hbound
    obtain ⟨a, ha, h⟩ := bind_eq_some_iff.mp h
    have hreach : ¬ threshold ≤ if a then add total (weight e) else total := by
      intro hreach
      simp only [if_pos hreach] at h
      cases h
    simp only [if_neg hreach] at h
    rw [hadd total (weight e) (by omega)] at h hreach
    obtain ⟨hasked, hless⟩ := ih (by split <;> omega) h
    refine ⟨forall_mem_cons.mpr ⟨by simp [ha], hasked⟩, .inr ?_⟩
    rcases hless with rfl | hless
    · cases a <;> simp_all
    · cases a with
      | false => simp_all
      | true =>
        simp_all
        omega

/-- **Monotonicity.** Where more counts, a tally over the same entries in any
order does not fail instead. -/
theorem tally_exact_mono {bound : ℕ} (hle : ∀ a b, add a b ≤ a + b)
    (hadd : ∀ a b, a + b < bound → add a b = a + b) (hbound : (es.map weight).sum < bound)
    (hperm : es.Perm es') (hcounts : ∀ e ∈ es, exact e = some true → exact' e ≠ some false)
    (h : tally weight add threshold exact es 0 = some true) :
    tally weight add threshold exact' es' 0 ≠ some false := by
  intro h'
  obtain ⟨counted, hsub, hsum, htrue⟩ := tally_exact_counted hle h
  have hbound' : 0 + (es'.map weight).sum < bound := by
    rw [Nat.zero_add, ← (hperm.map weight).sum_eq]
    exact hbound
  obtain ⟨hasked, hless⟩ := tally_exact_false hadd hbound' h'
  rcases hless with rfl | hless
  · obtain rfl := hperm.eq_nil
    cases h
  · -- the counted entries are among those that count in the second tally
    have hsub' : counted.Sublist (es.filter fun e => exact' e = some true) := by
      have hall : ∀ e ∈ counted, exact' e = some true := by
        intro e he
        have hes := hsub.subset he
        have hfalse := hcounts e hes (htrue e he)
        have hnone := hasked e (hperm.subset hes)
        cases hx : exact' e with
        | none => exact absurd hx hnone
        | some a =>
          cases a with
          | false => exact absurd hx hfalse
          | true => rfl
      have hfilter := hsub.filter fun e => decide (exact' e = some true)
      rwa [filter_eq_self.mpr (by simpa using hall)] at hfilter
    have hle₁ := (hsub'.map weight).sum_le_sum fun _ _ => Nat.zero_le _
    have hle₂ := ((hperm.filter fun e => decide (exact' e = some true)).map weight).sum_eq
    omega

end Exact

/-! ## Tallies that only leave marks -/

@[ext] structure Marked (α β : Type) where
  value : β
  marks : α

namespace Marked

variable {α β : Type} [SemilatticeSup α] [OrderBot α]

instance : Monad (Marked α) where
  pure b := ⟨b, ⊥⟩
  bind x f := ⟨(f x.value).value, x.marks ⊔ (f x.value).marks⟩

def mark (a : α) : Marked α Unit := ⟨(), a⟩

def revert (x : Marked α Bool) : Marked α Bool := if x.value then x else ⟨false, ⊥⟩

theorem revert_of_true {x : Marked α Bool} (h : x.value = true) : x.revert = x := if_pos h

theorem revert_of_false {x : Marked α Bool} (h : x.value = false) : x.revert = ⟨false, ⊥⟩ :=
  if_neg (by rw [h]; exact Bool.false_ne_true)

@[simp] theorem value_revert (x : Marked α Bool) : x.revert.value = x.value := by
  cases h : x.value with
  | true => rw [revert_of_true h, h]
  | false => rw [revert_of_false h]

end Marked

section Marks

variable {α : Type} [SemilatticeSup α] [OrderBot α] {plain plain' : ε → Marked α Bool}
  {es : List ε} {total : ℕ}

theorem tally_value (plain : ε → Marked α Bool) (es : List ε) (total : ℕ) :
    tally weight add threshold (fun e => some (plain e).value) es total =
      some (tally weight add threshold plain es total).value :=
  tally_rel _ plain (fun o x => o = some x.value) (fun _ => rfl) fun _ _ _ _ hfg => hfg _

theorem tally_marked_of_exact {exact : ε → Option Bool} {b : Bool}
    (hstep : ∀ e ∈ es, ∀ a, exact e = some a → (plain e).value = a)
    (h : tally weight add threshold exact es total = some b) :
    (tally weight add threshold plain es total).value = b :=
  tally_exact_unique (fun e he _ a ha' ha => (some.inj ha').symm.trans (hstep e he a ha))
    (tally_value plain es total) h

end Marks

end Inery.Foundation
