import Inery.Chainbase.KeyedIndex

/-!
# Objects that count their references

References name an object by its key.  An object is there as long as there are references to it,
and stores how many: the last one takes it away, the first one puts it there.
-/

namespace Inery.Chainbase

open Foundation Table Multiset Finmap

variable {V κ : Type} [DecidableEq κ] {key : V → κ} {count : V → ℕ} {refs : Multiset κ}
  {t : Table ℕ V} {v w : V} {i : ℕ} {k : κ}

/-- The objects of a table are those that are referred to, and know how often. -/
structure Counted (key : V → κ) (count : V → ℕ) (refs : Multiset κ) (t : Table ℕ V) : Prop where
  apart : KeysApart key t
  counted : ∀ ⦃i v⦄, t.lookup i = some v → count v = refs.count (key v)
  held : ∀ ⦃i v⦄, t.lookup i = some v → key v ∈ refs
  found : ∀ ⦃k⦄, k ∈ refs → ∃ i v, t.lookup i = some v ∧ key v = k

namespace Counted

theorem empty : Counted key count 0 ∅ := by
  have hnone : ∀ {i v}, (∅ : Table ℕ V).lookup i ≠ some v := by
    intro i v hv
    rw [Finmap.lookup_empty] at hv
    cases hv
  exact ⟨fun _ _ _ _ hv => absurd hv hnone, fun _ _ hv => absurd hv hnone,
    fun _ _ hv => absurd hv hnone, fun k hk => absurd hk (notMem_zero k)⟩

theorem release_last (h : Counted key count (k ::ₘ refs) t) (hv : t.lookup i = some v)
    (hkey : key v = k) (hone : count v = 1) : Counted key count refs (t.erase i) := by
  have hnone : k ∉ refs := by
    rw [← count_eq_zero]
    have hcount := h.counted hv
    rw [hone, hkey, count_cons_self] at hcount
    exact (Nat.succ.inj hcount).symm
  have hrow : ∀ {j w}, (t.erase i).lookup j = some w → t.lookup j = some w ∧ key w ≠ k := by
    intro j w hw
    obtain ⟨hne, hw⟩ := lookup_erase_eq_some.mp hw
    exact ⟨hw, fun hk => hne (h.apart hw hv (hk.trans hkey.symm))⟩
  refine ⟨h.apart.erase, ?_, ?_, ?_⟩
  · intro j w hw
    obtain ⟨hw, hne⟩ := hrow hw
    rw [h.counted hw, count_cons_of_ne hne]
  · intro j w hw
    obtain ⟨hw, hne⟩ := hrow hw
    exact (mem_cons.mp (h.held hw)).resolve_left hne
  · intro k' hk'
    obtain ⟨j, w, hw, rfl⟩ := h.found (mem_cons_of_mem hk')
    refine ⟨j, w, lookup_erase_eq_some.mpr ⟨?_, hw⟩, rfl⟩
    rintro rfl
    rw [hv] at hw
    cases hw
    exact hnone (hkey ▸ hk')

/-- An object with the same key takes the place of the one that was there. -/
theorem replace (h : Counted key count refs t) {refs' : Multiset κ} (hv : t.lookup i = some v)
    (hkey : key w = key v) (hcount : count w = refs'.count (key v)) (hmem : key v ∈ refs')
    (hother : ∀ k, k ≠ key v → refs'.count k = refs.count k) :
    Counted key count refs' (t.insert i w) := by
  have hrow : ∀ {j x}, (t.insert i w).lookup j = some x →
      w = x ∨ t.lookup j = some x ∧ key x ≠ key v := fun hx =>
    (lookup_insert_eq_some.mp hx).imp And.right fun hx =>
      ⟨hx.2, fun hk => hx.1 (h.apart hx.2 hv hk)⟩
  have hsame : ∀ {k}, k ≠ key v → (k ∈ refs' ↔ k ∈ refs) := by
    intro k hk
    rw [← count_pos, ← count_pos, hother k hk]
  refine ⟨h.apart.insert fun j x hj hx hk => hj (h.apart hx hv (hk.trans hkey)), ?_, ?_, ?_⟩
  · intro j x hx
    rcases hrow hx with rfl | ⟨hx, hne⟩
    · rw [hcount, hkey]
    · rw [h.counted hx, hother _ hne]
  · intro j x hx
    rcases hrow hx with rfl | ⟨hx, hne⟩
    · exact hkey ▸ hmem
    · exact (hsame hne).mpr (h.held hx)
  · intro k hk
    by_cases hkv : k = key v
    · exact ⟨i, w, lookup_insert _, hkey.trans hkv.symm⟩
    · obtain ⟨j, x, hx, rfl⟩ := h.found ((hsame hkv).mp hk)
      refine ⟨j, x, lookup_insert_eq_some.mpr (.inr ⟨?_, hx⟩), rfl⟩
      rintro rfl
      rw [hv] at hx
      cases hx
      exact hkv rfl

theorem release (h : Counted key count (k ::ₘ refs) t) (hv : t.lookup i = some v)
    (hkey : key v = k) (hkey' : key w = k) (hmany : count v ≠ 1) (hcount : count w = count v - 1) :
    Counted key count refs (t.insert i w) := by
  have hold := h.counted hv
  rw [hkey, count_cons_self] at hold
  have hnew : count w = refs.count (key v) := by
    rw [hcount, hold, hkey]
    rfl
  refine h.replace hv (hkey'.trans hkey.symm) hnew ?_ ?_
  · rw [← count_pos, hkey]
    omega
  · intro k' hk'
    rw [count_cons_of_ne (hkey ▸ hk')]

theorem retain (h : Counted key count refs t) (hv : t.lookup i = some v) (hkey : key w = key v)
    (hcount : count w = count v + 1) : Counted key count (key v ::ₘ refs) (t.insert i w) := by
  refine h.replace hv hkey ?_ (mem_cons_self _ _) fun k hk => count_cons_of_ne hk _
  rw [hcount, h.counted hv, count_cons_self]

theorem retain_first (h : Counted key count refs t) (hfresh : t.lookup i = none)
    (hnew : ∀ j w, t.lookup j = some w → key w ≠ key v) (hone : count v = 1) :
    Counted key count (key v ::ₘ refs) (t.insert i v) := by
  have hnone : key v ∉ refs := by
    intro hmem
    obtain ⟨j, w, hw, hk⟩ := h.found hmem
    exact hnew j w hw hk
  refine ⟨h.apart.insert fun j w _ hw => hnew j w hw, ?_, ?_, ?_⟩
  · intro j w hw
    rcases lookup_insert_eq_some.mp hw with ⟨-, rfl⟩ | ⟨-, hw⟩
    · rw [hone, count_cons_self, count_eq_zero.mpr hnone]
    · rw [h.counted hw, count_cons_of_ne (hnew j w hw)]
  · intro j w hw
    rcases lookup_insert_eq_some.mp hw with ⟨-, rfl⟩ | ⟨-, hw⟩
    · exact mem_cons_self _ _
    · exact mem_cons_of_mem (h.held hw)
  · intro k hk
    rcases mem_cons.mp hk with rfl | hk
    · exact ⟨i, v, lookup_insert _, rfl⟩
    · obtain ⟨j, w, hw, hkw⟩ := h.found hk
      exact ⟨j, w, lookup_insert_of_none hfresh hw, hkw⟩

end Counted

end Inery.Chainbase
