import Inery.Chain.Types
import Inery.Foundation.SortedScan

/-!
# The lists of actors a node accepts (`check_actor_list`)
-/

namespace Inery.Chain

open Foundation

structure ActorLists where
  actorWhitelist : FlatSet Name
  actorBlacklist : FlatSet Name

/-- `check_actor_list`: the extents are compared first, then the elements. -/
def ActorLists.checkActorList (conf : ActorLists) (actors : FlatSet Name) : Result Unit :=
  match extents actors.elems with
  | none => pure ()
  | some (firstActor, lastActor) =>
    match extents conf.actorWhitelist.elems, extents conf.actorBlacklist.elems with
    | some (first, last), _ =>
      let isSubset := firstActor ≥ first ∧ lastActor ≤ last ∧
        includesScan conf.actorWhitelist.elems actors.elems = true
      ineAssert isSubset .actorWhitelistException
        "authorizing actor(s) in transaction are not on the actor whitelist: ${actors}"
    | none, some (first, last) =>
      let intersects := firstActor ≤ last ∧ lastActor ≥ first ∧
        intersectsScan conf.actorBlacklist.elems actors.elems = true
      ineAssert (¬ intersects) .actorBlacklistException
        "authorizing actor(s) in transaction are on the actor blacklist: ${actors}"
    | none, none => pure ()

variable {l : List Name}

theorem extents_eq_none : extents l = none ↔ l = [] := by
  cases l <;> simp [extents]

/-- **The quick tests and the scans agree with inclusion and disjointness.** -/
theorem ActorLists.check_actor_list_iff (conf : ActorLists) (actors : FlatSet Name) :
    conf.checkActorList actors = .ok () ↔
      actors.elems = [] ∨
      (conf.actorWhitelist.elems ≠ [] ∧ ∀ a ∈ actors.elems, a ∈ conf.actorWhitelist.elems) ∨
      (conf.actorWhitelist.elems = [] ∧ ∀ a ∈ actors.elems, a ∉ conf.actorBlacklist.elems) := by
  unfold checkActorList
  simp only [← extents_eq_none, ne_eq]
  cases hactors : extents actors.elems with
  | none => simp [pure, Except.pure]
  | some e =>
    obtain ⟨hfirst, hlast, -⟩ := extents_spec actors.sorted hactors
    cases hwhite : extents conf.actorWhitelist.elems with
    | some w =>
      have hw := (extents_spec conf.actorWhitelist.sorted hwhite).2.2
      simp only [ineAssert_eq_ok,
        includesScan_iff conf.actorWhitelist.sorted actors.sorted, reduceCtorEq, not_false_eq_true,
        true_and, false_and, or_false, false_or]
      exact ⟨fun h => h.2.2, fun h => ⟨(hw _ (h _ hfirst)).1, (hw _ (h _ hlast)).2, h⟩⟩
    | none =>
      cases hblack : extents conf.actorBlacklist.elems with
      | none =>
        simp [pure, Except.pure, extents_eq_none.mp hblack]
      | some b =>
        have ha := (extents_spec actors.sorted hactors).2.2
        have hb := (extents_spec conf.actorBlacklist.sorted hblack).2.2
        simp only [ineAssert_eq_ok,
          intersectsScan_iff conf.actorBlacklist.sorted actors.sorted, reduceCtorEq,
          not_true_eq_false, false_and, true_and, false_or]
        constructor
        · rintro h x hx hmem
          exact h ⟨Std.le_trans (ha x hx).1 (hb x hmem).2, Std.le_trans (hb x hmem).1 (ha x hx).2,
            x, hx, hmem⟩
        · rintro h ⟨-, -, x, hx, hmem⟩
          exact h x hx hmem

end Inery.Chain
