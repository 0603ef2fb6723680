import Mathlib.Data.List.Nodup
import Mathlib.Data.List.Perm.Subperm

/-!
# Forests given by parent keys

A list of nodes, each with its own key and the key of its parent, is a forest when keys do not
repeat and a rank grows along the links.  The breadth-first worklist from one key visits exactly
that key and its descendants, each once, within as many rounds as there are nodes, plus one.
-/

namespace Inery.Foundation.Forest

open List

variable {N K : Type} {key parent : N → K} {nodes sub : List N} {a b k : K}

/-- `k` is `a` itself or lies below it. -/
inductive Descends (key parent : N → K) (nodes : List N) (a : K) : K → Prop
  | refl : Descends key parent nodes a a
  | child {n : N} : Descends key parent nodes a (parent n) → n ∈ nodes →
      Descends key parent nodes a (key n)

/-- Keys do not repeat and `rank` grows along the links. -/
structure IsForest (key parent : N → K) (rank : K → ℕ) (nodes : List N) : Prop where
  nodup : (nodes.map key).Nodup
  rank_lt : ∀ n ∈ nodes, rank (parent n) < rank (key n)

namespace Descends

theorem mono (hsub : ∀ n ∈ sub, n ∈ nodes) (h : Descends key parent sub a k) :
    Descends key parent nodes a k := by
  induction h with
  | refl => exact .refl
  | child _ hn ih => exact .child ih (hsub _ hn)

theorem eq_or_mem (h : Descends key parent nodes a k) : k = a ∨ k ∈ nodes.map key := by
  cases h with
  | refl => exact .inl rfl
  | child _ hn => exact .inr (mem_map_of_mem hn)

/-- Descent survives a cut of nodes below `b` when it ends outside of them. -/
theorem of_not_descends (hkeep : ∀ n ∈ nodes, ¬ Descends key parent nodes b (key n) → n ∈ sub)
    (h : Descends key parent nodes a k) (hcut : ¬ Descends key parent nodes b k) :
    Descends key parent sub a k := by
  induction h with
  | refl => exact .refl
  | child _ hn ih =>
    refine .child (ih fun hparent => hcut ?_) (hkeep _ hn hcut)
    exact .child hparent hn

/-- Relabelling nodes without touching their keys does not change descent. -/
theorem map_iff {f : N → N} (hkey : ∀ n, key (f n) = key n)
    (hparent : ∀ n, parent (f n) = parent n) :
    Descends key parent (nodes.map f) a k ↔ Descends key parent nodes a k := by
  constructor
  · intro h
    induction h with
    | refl => exact .refl
    | child _ hn ih =>
      obtain ⟨m, hm, rfl⟩ := mem_map.mp hn
      rw [hkey]
      exact .child (hparent m ▸ ih) hm
  · intro h
    induction h with
    | refl => exact .refl
    | @child n _ hn ih =>
      rw [← hkey n]
      exact .child ((hparent n).symm ▸ ih) (mem_map_of_mem hn)

end Descends

namespace IsForest

variable {rank : K → ℕ} (h : IsForest key parent rank nodes)
include h

theorem key_inj {m n : N} (hm : m ∈ nodes) (hn : n ∈ nodes) (heq : key m = key n) : m = n :=
  inj_on_of_nodup_map h.nodup hm hn heq

theorem sublist (hsub : sub.Sublist nodes) : IsForest key parent rank sub :=
  ⟨(hsub.map key).nodup h.nodup, fun n hn => h.rank_lt n (hsub.subset hn)⟩

theorem rank_le (hd : Descends key parent nodes a k) : rank a ≤ rank k := by
  induction hd with
  | refl => exact Nat.le_refl _
  | child _ hn ih => exact Nat.le_of_lt (Nat.lt_of_le_of_lt ih (h.rank_lt _ hn))

theorem descends_parent {n : N} (hn : n ∈ nodes) (hd : Descends key parent nodes a (key n)) :
    key n = a ∨ Descends key parent nodes a (parent n) := by
  generalize hk : key n = k at hd
  cases hd with
  | refl => exact .inl rfl
  | child hd hm =>
    obtain rfl := h.key_inj hn hm hk
    exact .inr hd

/-- Cutting `b` out of the forest cuts off everything below it: what descends
from `b` no longer descends from a key of smaller rank. -/
theorem not_descends_of_cut (hsub : ∀ n ∈ sub, n ∈ nodes) (hcut : b ∉ sub.map key)
    (hrank : rank a < rank b) (hb : Descends key parent nodes b k) :
    ¬ Descends key parent sub a k := by
  intro ha
  induction ha with
  | refl =>
    have := h.rank_le hb
    omega
  | @child n _ hn ih =>
    rcases h.descends_parent (hsub _ hn) hb with heq | hparent
    · exact hcut (heq ▸ mem_map_of_mem hn)
    · exact ih hparent

end IsForest

/-! ## The worklist -/

variable [DecidableEq K]

inductive Halt where
  /-- The key that must not be visited came up. -/
  | stopped
  /-- The rounds ran out. -/
  | exhausted
deriving DecidableEq

def children (key parent : N → K) (nodes : List N) (k : K) : List K :=
  (nodes.filter fun n => parent n = k).map key

theorem mem_children : b ∈ children key parent nodes k ↔ ∃ n ∈ nodes, parent n = k ∧ key n = b := by
  simp [children, and_assoc]

/-- Take a key off the queue, put its children behind the rest, and go on;
`stop` may not be visited. -/
def worklist (key parent : N → K) (nodes : List N) (stop : K) : ℕ → List K → Except Halt (List K)
  | _, [] => .ok []
  | 0, _ :: _ => .error .exhausted
  | rounds + 1, k :: queue =>
    if k = stop then .error .stopped
    else (worklist key parent nodes stop rounds
      (queue ++ children key parent nodes k)).map (k :: ·)

/-- The worklist between two rounds: `done` has been visited, `queue` waits. -/
structure Frontier (key parent : N → K) (nodes : List N) (a : K) (done queue : List K) : Prop where
  start : a ∈ done ++ queue
  nodup : (done ++ queue).Nodup
  sound : ∀ k ∈ done ++ queue, Descends key parent nodes a k
  closed : ∀ n ∈ nodes, parent n ∈ done → key n ∈ done ++ queue
  born : ∀ n ∈ nodes, key n ∈ done ++ queue → key n = a ∨ parent n ∈ done

namespace Frontier

variable {rank : K → ℕ} {done queue : List K}

omit [DecidableEq K] in
theorem initial : Frontier key parent nodes a [] [a] := by
  refine ⟨by simp, by simp, ?_, ?_, ?_⟩
  · intro k hk
    obtain rfl : k = a := by simpa using hk
    exact .refl
  · intro n _ hn
    exact absurd hn not_mem_nil
  · intro n _ hn
    exact .inl (by simpa using hn)

theorem next (hforest : IsForest key parent rank nodes)
    (h : Frontier key parent nodes a done (k :: queue)) :
    Frontier key parent nodes a (done ++ [k]) (queue ++ children key parent nodes k) := by
  have hk : k ∈ done ++ k :: queue := by simp
  have hknew : k ∉ done := by
    have := nodup_append.mp h.nodup
    exact fun hd => this.2.2 k hd k mem_cons_self rfl
  have hsplit : done ++ [k] ++ (queue ++ children key parent nodes k) =
      (done ++ k :: queue) ++ children key parent nodes k := by simp
  -- a child of `k` is new: its parent has not been visited before, and it is not `a`
  have hfresh : ∀ c ∈ children key parent nodes k, c ∉ done ++ k :: queue := by
    intro c hc hmem
    obtain ⟨n, hn, hparent, rfl⟩ := mem_children.mp hc
    rcases h.born n hn hmem with hstart | hdone
    · have hle := hforest.rank_le (h.sound k hk)
      have hlt := hforest.rank_lt n hn
      rw [hparent, hstart] at hlt
      omega
    · exact hknew (hparent ▸ hdone)
  refine ⟨?_, ?_, ?_, ?_, ?_⟩
  · rw [hsplit]
    exact mem_append_left _ h.start
  · rw [hsplit, nodup_append]
    refine ⟨h.nodup, ?_, ?_⟩
    · exact ((filter_sublist).map key).nodup hforest.nodup
    · intro x hx y hy hxy
      exact hfresh y hy (hxy ▸ hx)
  · intro x hx
    rw [hsplit] at hx
    rcases mem_append.mp hx with hx | hx
    · exact h.sound x hx
    · obtain ⟨n, hn, hparent, rfl⟩ := mem_children.mp hx
      exact .child (hparent ▸ h.sound k hk) hn
  · intro n hn hparent
    rw [hsplit]
    rcases mem_append.mp hparent with hdone | hlast
    · exact mem_append_left _ (h.closed n hn hdone)
    · exact mem_append_right _ (mem_children.mpr ⟨n, hn, by simpa using hlast, rfl⟩)
  · intro n hn hmem
    rw [hsplit] at hmem
    rcases mem_append.mp hmem with hmem | hmem
    · exact (h.born n hn hmem).imp_right (mem_append_left _)
    · obtain ⟨m, hm, hparent, hkey⟩ := mem_children.mp hmem
      obtain rfl := hforest.key_inj hm hn hkey
      exact .inr (by simp [hparent])

omit [DecidableEq K] in
/-- What has been visited or waits fits into the forest. -/
theorem length_le (h : Frontier key parent nodes a done queue) :
    (done ++ queue).length ≤ nodes.length + 1 := by
  have hsub : done ++ queue ⊆ a :: nodes.map key := by
    intro k hk
    rcases (h.sound k hk).eq_or_mem with rfl | hmem
    · exact mem_cons_self
    · exact mem_cons_of_mem _ hmem
  simpa using (h.nodup.subperm hsub).length_le

omit [DecidableEq K] in
theorem complete (h : Frontier key parent nodes a done []) (hd : Descends key parent nodes a k) :
    k ∈ done := by
  induction hd with
  | refl => simpa using h.start
  | child _ hn ih => simpa using h.closed _ hn ih

omit [DecidableEq K] in
theorem finished (h : Frontier key parent nodes a done []) :
    (done ++ []).Nodup ∧ ∀ k, k ∈ done ++ [] ↔ Descends key parent nodes a k :=
  ⟨h.nodup, fun k => ⟨h.sound k, fun hd => by simpa using h.complete hd⟩⟩

end Frontier

theorem worklist_spec {rank : K → ℕ} (hforest : IsForest key parent rank nodes) (stop : K)
    {rounds : ℕ} {done queue : List K} (h : Frontier key parent nodes a done queue)
    (hstop : stop ∉ done) (hrounds : nodes.length + 1 ≤ rounds + done.length) :
    (Descends key parent nodes a stop ∧
      worklist key parent nodes stop rounds queue = .error .stopped) ∨
    (¬ Descends key parent nodes a stop ∧
      ∃ l, worklist key parent nodes stop rounds queue = .ok l ∧ (done ++ l).Nodup ∧
        ∀ k, k ∈ done ++ l ↔ Descends key parent nodes a k) := by
  induction rounds generalizing done queue with
  | zero =>
    cases queue with
    | nil => exact .inr ⟨fun hd => hstop (h.complete hd), [], rfl, h.finished⟩
    | cons k queue =>
      have := h.length_le
      simp only [length_append, length_cons] at this
      omega
  | succ rounds ih =>
    cases queue with
    | nil => exact .inr ⟨fun hd => hstop (h.complete hd), [], rfl, h.finished⟩
    | cons k queue =>
      unfold worklist
      by_cases hk : k = stop
      · subst hk
        exact .inl ⟨h.sound k (by simp), by rw [if_pos rfl]⟩
      · rw [if_neg hk]
        have hstop' : stop ∉ done ++ [k] := by
          simp only [mem_append, mem_singleton, not_or]
          exact ⟨hstop, fun heq => hk heq.symm⟩
        rcases ih (h.next hforest) hstop' (by simp; omega) with ⟨hd, herr⟩ | ⟨hd, l, hok, hnd, hl⟩
        · exact .inl ⟨hd, by rw [herr]; rfl⟩
        · refine .inr ⟨hd, k :: l, by rw [hok]; rfl, by simpa using hnd, ?_⟩
          intro x
          rw [← hl x]
          simp

/-- **The worklist from one key.** It stops exactly when the forbidden key is
below the start, and otherwise lists the start and everything below it. -/
theorem worklist_descends {rank : K → ℕ} (hforest : IsForest key parent rank nodes) (stop : K)
    {rounds : ℕ} (hrounds : nodes.length + 1 ≤ rounds) :
    (Descends key parent nodes a stop ∧
      worklist key parent nodes stop rounds [a] = .error .stopped) ∨
    (¬ Descends key parent nodes a stop ∧
      ∃ l, worklist key parent nodes stop rounds [a] = .ok l ∧ l.Nodup ∧
        ∀ k, k ∈ l ↔ Descends key parent nodes a k) :=
  worklist_spec hforest stop Frontier.initial not_mem_nil (by simpa using hrounds)

end Inery.Foundation.Forest
