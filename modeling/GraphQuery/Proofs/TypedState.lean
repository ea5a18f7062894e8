import GraphQuery.Proofs.Coherence
import GraphQuery.Proofs.WellTyped
/-!
# Typed evaluators

An evaluator is typed if it is orderly and everything that it has found for a frame, cached or
pending, is of the type that the end of the frame takes. Frames that are closed together share what
they found, so this needs that they have one end.
-/

namespace GraphQuery

namespace ItemSet

variable {s t : ItemSet} {u : ItemType}

theorem isOf_empty (t u : ItemType) : (empty t).IsOf u :=
  nofun

theorem IsOf.union (left : s.IsOf u) (right : t.IsOf u) : (s.union t).IsOf u :=
  fun x member => (mem_items_of_union member).elim (left x) (right x)

theorem isOf_unite {ss : List ItemSet} (each : ∀ s ∈ ss, s.IsOf u) : (unite ss).IsOf u :=
  unite_induction (fun _ => isOf_empty _ u) (fun _ _ => IsOf.union) each

theorem IsOf.of_accepts {t u : ItemType} (isOf : s.IsOf u) (above : t.accepts u = true) :
    s.IsOf t :=
  fun x member => (isOf x member).of_accepts above

end ItemSet

namespace Evaluator

/-- What an evaluator has found is of the types that it was looked for, and it never gives up for
depth. -/
structure Typed (ev : Evaluator) : Prop extends Orderly ev where
  unlimited : ev.config.maxDepth? = none
  cached : ∀ (f : Frame) (found : ItemSet), ev.cache[f]? = some found →
    found.IsOf f.stop.inputType
  pending : ∀ (f : Frame) (p : Pending), ev.pending[f]? = some p → p.found.IsOf f.stop.inputType

variable {ev ev₂ ev' : Evaluator} {new : List Frame}

theorem typed_fresh (memoize : Bool) : Typed (.fresh memoize) where
  toOrderly := orderly_started { memoize }
  unlimited := rfl
  cached f found hit := by simp [fresh] at hit
  pending f p hit := by simp [fresh] at hit

namespace Typed

theorem clearCache (typed : Typed ev) : Typed ev.clearCache where
  toOrderly := typed.toOrderly.clearCache
  unlimited := typed.unlimited
  cached f found hit := by simp [Evaluator.clearCache] at hit
  pending := typed.pending

theorem of_sameBut (typed : Typed ev) (same : ev.SameBut ev') : Typed ev' where
  toOrderly := typed.toOrderly.of_sameBut same
  unlimited := by rw [same.config, typed.unlimited]
  cached f found hit := typed.cached f found (same.cache ▸ hit)
  pending f p hit := typed.pending f p (same.pending ▸ hit)

section

variable {f : Frame} (typed : Typed ev) (unopened : ∀ i, ¬ ev.OpenAt f.spot i)

include typed unopened

theorem enter (uncached : ¬ ev.Cached f.spot) : Typed (enter f ev) where
  toOrderly := typed.toOrderly.enter unopened uncached
  unlimited := typed.unlimited
  cached := typed.cached
  pending := typed.pending

variable (ext : (Evaluator.enter f ev).Extends ev₂ new) (after : Typed ev₂)

include ext after

omit typed in
theorem suspend {found : ItemSet} (isOf : found.IsOf f.stop.inputType) :
    Typed (suspend f ⟨ev.nextIndex, found⟩ (exit f ev₂)) where
  toOrderly := Orderly.suspend unopened ext after.toOrderly found
  unlimited := after.unlimited
  cached := after.cached
  pending g p hit := by
    rw [pending_suspend] at hit
    split at hit
    · next same =>
      obtain rfl := Option.some.inj hit
      have stop : f.stop = g.stop := congrArg Spot.stop same
      exact stop ▸ isOf
    · exact after.pending g p hit

/-- Closing a component whose members have one end keeps the evaluator typed. -/
theorem close {found : ItemSet} (isOf : found.IsOf f.stop.inputType)
    (stops : ∀ g ∈ new, g.stop = f.stop) :
    (close ev.component.size found (exit f ev₂)).1.IsOf f.stop.inputType ∧
      Typed (close ev.component.size found (exit f ev₂)).2 := by
  have members : ∀ g ∈ f :: new, g.stop = f.stop := List.forall_mem_cons.mpr ⟨rfl, stops⟩
  have closed : (Evaluator.close ev.component.size found (exit f ev₂)).1.IsOf f.stop.inputType := by
    rw [close_eq, members_exit ext]
    refine gather_all_induction (P := fun u => u.IsOf f.stop.inputType) (fun _ _ => ItemSet.IsOf.union) _ _
      isOf fun g member p hit => ?_
    exact members g member ▸ after.pending g p hit
  refine ⟨closed, typed.toOrderly.close unopened ext after.toOrderly found, ?_, ?_, ?_⟩
  · rw [(close_extends found ext unopened after.disjoint).config, typed.unlimited]
  · intro g items hit
    rcases Orderly.hit_close ext found hit with ⟨⟨-, listed⟩, rfl⟩ | hit
    · obtain ⟨h, member, same⟩ := List.mem_map.mp listed
      have stop : h.stop = g.stop := congrArg Spot.stop same
      rw [← stop, members h member]
      exact closed
    · exact after.cached g items hit
  · intro g p hit
    rw [close_eq, members_exit ext] at hit
    change ((f :: new).foldl gather (found, (exit f ev₂).pending)).2[g]? = _ at hit
    rw [lookup_gather_all] at hit
    split at hit
    · cases hit
    · exact after.pending g p hit

end

end Typed

end Evaluator

end GraphQuery
