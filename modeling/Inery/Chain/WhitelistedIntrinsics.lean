import Inery.Chain.Types
import Mathlib.Data.Finset.Sort
import Mathlib.Data.String.Basic

/-!
# The whitelist of intrinsics

The names stand in a multimap, in the order of their hashes.  A name is looked
for among the entries with its hash, so names whose hashes collide do not get in
each other's way: the whitelist is a set of names, whatever the hash function.
-/

namespace Inery.Chain

open Foundation List

/-- A flat multimap from hashes to names. -/
abbrev WhitelistedIntrinsics := List (ℕ × String)

namespace WhitelistedIntrinsics

/-- How far the walk over the entries with this hash goes until it meets the name. -/
def findIntrinsicHelper (h : ℕ) (name : String) : WhitelistedIntrinsics → Option ℕ
  | [] => none
  | entry :: rest =>
    if entry.1 = h then
      if entry.2 = name then some 0 else (findIntrinsicHelper h name rest).map (· + 1)
    else
      none

/-- The walk starts at `lower_bound( h )`. -/
def findIntrinsic (h : ℕ) (name : String) (whitelist : WhitelistedIntrinsics) : Option ℕ :=
  (findIntrinsicHelper h name (whitelist.dropWhile (·.1 < h))).map
    (· + (whitelist.takeWhile (·.1 < h)).length)

/-- The entry goes behind those with the same hash. -/
def emplace (whitelist : WhitelistedIntrinsics) (entry : ℕ × String) : WhitelistedIntrinsics :=
  whitelist.orderedInsert (fun a b => a.1 < b.1) entry

section

variable (hash : String → ℕ) (whitelist : WhitelistedIntrinsics) (name : String)

def isIntrinsicWhitelisted : Bool := (whitelist.findIntrinsic (hash name) name).isSome

def addIntrinsicToWhitelist : Result WhitelistedIntrinsics := do
  let itr := whitelist.findIntrinsic (hash name) name
  ineAssert (itr = none) .databaseException
    "cannot add intrinsic '${name}' since it already exists in the whitelist"
  pure (whitelist.emplace (hash name, name))

def removeIntrinsicFromWhitelist : Result WhitelistedIntrinsics :=
  match whitelist.findIntrinsic (hash name) name with
  | none => .error ⟨.databaseException,
      "cannot remove intrinsic '${name}' since it does not exist in the whitelist"⟩
  | some itr => .ok (whitelist.eraseIdx itr)

def resetIntrinsicWhitelist (s : Finset String) : WhitelistedIntrinsics :=
  s.sort.foldl (fun whitelist name => whitelist.emplace (hash name, name)) []

def convertIntrinsicWhitelistToSet : Finset String := (whitelist.map Prod.snd).toFinset

end

/-! ## The search -/

variable {hash : String → ℕ} {whitelist : WhitelistedIntrinsics} {names : Finset String}
  {name : String} {h : ℕ}

def Sorted (whitelist : WhitelistedIntrinsics) : Prop := whitelist.Pairwise fun a b => a.1 ≤ b.1

theorem findIntrinsicHelper_eq (hsorted : whitelist.Sorted) (hlower : ∀ e ∈ whitelist, h ≤ e.1) :
    whitelist.findIntrinsicHelper h name = whitelist.idxOf? (h, name) := by
  induction whitelist with
  | nil => rfl
  | cons entry rest ih =>
    obtain ⟨hfirst, hrest⟩ := pairwise_cons.mp hsorted
    rw [forall_mem_cons] at hlower
    rw [findIntrinsicHelper, idxOf?_cons, ih hrest hlower.2]
    by_cases hhash : entry.1 = h
    · simp [hhash, Prod.ext_iff]
    · -- every later hash is greater, too
      have hnot : (h, name) ∉ rest := fun hmem =>
        hhash (Nat.le_antisymm (hfirst _ hmem) hlower.1)
      simp [hhash, Prod.ext_iff, hnot]

theorem findIntrinsic_eq (hsorted : whitelist.Sorted) :
    whitelist.findIntrinsic h name = whitelist.idxOf? (h, name) := by
  induction whitelist with
  | nil => rfl
  | cons entry rest ih =>
    obtain ⟨hfirst, hrest⟩ := pairwise_cons.mp hsorted
    by_cases hlt : entry.1 < h
    · have hne : entry ≠ (h, name) := fun heq => hlt.ne (congrArg Prod.fst heq)
      rw [idxOf?_cons, ← ih hrest]
      simp [findIntrinsic, hlt, hne, Function.comp_def, Nat.add_assoc]
    · have hlower : ∀ e ∈ entry :: rest, h ≤ e.1 := forall_mem_cons.mpr
        ⟨not_lt.mp hlt, fun e he => (not_lt.mp hlt).trans (hfirst e he)⟩
      rw [← findIntrinsicHelper_eq hsorted hlower]
      simp [findIntrinsic, hlt]

theorem Sorted.emplace (hsorted : whitelist.Sorted) (entry : ℕ × String) :
    (whitelist.emplace entry).Sorted := by
  induction whitelist with
  | nil => exact pairwise_singleton _ _
  | cons first rest ih =>
    obtain ⟨hfirst, hrest⟩ := pairwise_cons.mp hsorted
    rw [WhitelistedIntrinsics.emplace, orderedInsert_cons]
    split_ifs with hlt
    · exact pairwise_cons.mpr ⟨forall_mem_cons.mpr ⟨hlt.le, fun e he =>
        hlt.le.trans (hfirst e he)⟩, hsorted⟩
    · refine pairwise_cons.mpr ⟨fun e he => ?_, ih hrest⟩
      rcases (mem_orderedInsert _).mp he with rfl | he
      · exact not_lt.mp hlt
      · exact hfirst e he

/-! ## The set of names -/

/-- The whitelist holds the names, each once, in the order of their hashes. -/
structure Represents (hash : String → ℕ) (whitelist : WhitelistedIntrinsics)
    (names : Finset String) : Prop where
  sorted : whitelist.Sorted
  entries : (whitelist : Multiset (ℕ × String)) = names.val.map fun name => (hash name, name)

namespace Represents

variable (hr : Represents hash whitelist names)
include hr

theorem mem_iff {entry : ℕ × String} :
    entry ∈ whitelist ↔ entry.2 ∈ names ∧ hash entry.2 = entry.1 := by
  rw [← Multiset.mem_coe, hr.entries]
  simp [Prod.ext_iff]

theorem findIntrinsic_of_mem (hname : name ∈ names) :
    whitelist.findIntrinsic (hash name) name = some (whitelist.idxOf (hash name, name)) := by
  rw [findIntrinsic_eq hr.sorted, idxOf?, findIdx?_eq_some_iff_findIdx_eq]
  exact ⟨idxOf_lt_length_iff.mpr (hr.mem_iff.mpr ⟨hname, rfl⟩), rfl⟩

theorem findIntrinsic_of_notMem (hname : name ∉ names) :
    whitelist.findIntrinsic (hash name) name = none := by
  rw [findIntrinsic_eq hr.sorted]
  exact idxOf?_eq_none_iff.mpr fun hmem => hname (hr.mem_iff.mp hmem).1

theorem emplace (hname : name ∉ names) :
    Represents hash (whitelist.emplace (hash name, name)) (insert name names) where
  sorted := hr.sorted.emplace _
  entries := by
    rw [Finset.insert_val_of_notMem hname, Multiset.map_cons, ← hr.entries]
    exact Multiset.coe_eq_coe.mpr (perm_orderedInsert _ _ _)

theorem erase : Represents hash (whitelist.erase (hash name, name)) (names.erase name) where
  sorted := hr.sorted.sublist erase_sublist
  entries := by
    have hinj : Function.Injective fun name => (hash name, name) :=
      fun _ _ heq => congrArg Prod.snd heq
    rw [Finset.erase_val, Multiset.map_erase _ hinj, ← hr.entries]
    convert (Multiset.coe_erase whitelist (hash name, name)).symm

omit hr

theorem reset (s : Finset String) : Represents hash (resetIntrinsicWhitelist hash s) s := by
  suffices hloop : ∀ (added : List String) whitelist, Sorted whitelist →
      let result := added.foldl (fun whitelist name => whitelist.emplace (hash name, name))
        whitelist
      Sorted result ∧ result.Perm (added.map (fun name => (hash name, name)) ++ whitelist) by
    obtain ⟨hsorted, hperm⟩ := hloop s.sort [] .nil
    refine ⟨hsorted, (Multiset.coe_eq_coe.mpr hperm).trans ?_⟩
    rw [append_nil, ← Multiset.map_coe, s.sort_eq]
  intro added
  induction added with
  | nil => exact fun whitelist hsorted => ⟨hsorted, .refl _⟩
  | cons name rest ih =>
    intro whitelist hsorted
    obtain ⟨hresult, hperm⟩ := ih _ (hsorted.emplace (hash name, name))
    refine ⟨hresult, hperm.trans (((perm_orderedInsert _ _ _).append_left _).trans ?_)⟩
    exact perm_middle

end Represents

/-! ## Operations -/

inductive Operation where
  | add (name : String)
  | remove (name : String)
  | reset (s : Finset String)

def apply (hash : String → ℕ) (whitelist : WhitelistedIntrinsics) :
    Operation → Result WhitelistedIntrinsics
  | .add name => whitelist.addIntrinsicToWhitelist hash name
  | .remove name => whitelist.removeIntrinsicFromWhitelist hash name
  | .reset s => .ok (resetIntrinsicWhitelist hash s)

/-- An operation that throws leaves the whitelist as it is. -/
def run (hash : String → ℕ) (operations : List Operation) : WhitelistedIntrinsics :=
  operations.foldl (fun whitelist op => (whitelist.apply hash op).toOption.getD whitelist) []

/-- What the operations make of a set of names. -/
def onNames (names : Finset String) : Operation → Finset String
  | .add name => insert name names
  | .remove name => names.erase name
  | .reset s => s

theorem Represents.apply (hr : Represents hash whitelist names) (op : Operation) :
    Represents hash ((whitelist.apply hash op).toOption.getD whitelist) (onNames names op) := by
  cases op with
  | add name =>
    rw [WhitelistedIntrinsics.apply, addIntrinsicToWhitelist, onNames]
    by_cases hname : name ∈ names
    · rw [hr.findIntrinsic_of_mem hname, Finset.insert_eq_of_mem hname]
      exact hr
    · rw [hr.findIntrinsic_of_notMem hname]
      exact hr.emplace hname
  | remove name =>
    rw [WhitelistedIntrinsics.apply, removeIntrinsicFromWhitelist, onNames]
    by_cases hname : name ∈ names
    · rw [hr.findIntrinsic_of_mem hname]
      show Represents hash (whitelist.eraseIdx _) _
      rw [eraseIdx_idxOf_eq_erase]
      exact hr.erase
    · rw [hr.findIntrinsic_of_notMem hname, Finset.erase_eq_of_notMem hname]
      exact hr
  | reset s => exact .reset s

theorem Represents.run (operations : List Operation) :
    Represents hash (run hash operations) (operations.foldl onNames ∅) := by
  induction operations using reverseRecOn with
  | nil => exact ⟨.nil, rfl⟩
  | append_singleton operations op ih =>
    rw [WhitelistedIntrinsics.run, foldl_append, foldl_append]
    exact ih.apply op

/-- **The whitelist is a set of names**, for every hash function and every
sequence of operations: the set that the operations make of the empty one. -/
theorem whitelist_is_set (hash : String → ℕ) (operations : List Operation) (name : String) :
    let whitelist := run hash operations
    let names := operations.foldl onNames ∅
    (whitelist.isIntrinsicWhitelisted hash name = true ↔ name ∈ names) ∧
    ((∃ e, whitelist.addIntrinsicToWhitelist hash name = .error e) ↔ name ∈ names) ∧
    ((∃ e, whitelist.removeIntrinsicFromWhitelist hash name = .error e) ↔ name ∉ names) ∧
    whitelist.convertIntrinsicWhitelistToSet = names := by
  intro whitelist names
  have hr : Represents hash whitelist names := .run operations
  have hset : whitelist.convertIntrinsicWhitelistToSet = names := by
    ext n
    simp [convertIntrinsicWhitelistToSet, hr.mem_iff]
  simp only [isIntrinsicWhitelisted, addIntrinsicToWhitelist, removeIntrinsicFromWhitelist,
    bind_eq_error, ineAssert_eq_error]
  by_cases hname : name ∈ names
  · simp [hr.findIntrinsic_of_mem hname, hname, hset]
  · simp [hr.findIntrinsic_of_notMem hname, hname, hset, pure, Except.pure]

end WhitelistedIntrinsics

end Inery.Chain
