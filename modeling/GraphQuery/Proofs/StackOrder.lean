import Mathlib
import GraphQuery.Proofs.Expansions
/-!
# The order of the stack

Whenever a walk sets out from a frame, and whenever it returns, the component stack holds the frames in
progress and the pending ones, each once and in the order of their visits, and as many frames are in
progress as are nested. No frame is left pending alone: each open frame waits for one in progress that
was visited no later than it was. So a walk that has come upon a frame visited before its own leaves its
own frame pending, and one in progress that was visited no later than what it has come upon.
-/

namespace GraphQuery

namespace Evaluator

open EvalM

/-- The stack holds each open frame once, in the order of their visits. A frame is in progress or
pending, but not both. As many are in progress as are nested, and every open frame waits for one of them
that was visited no later. -/
structure Stacked (ev : Evaluator) : Prop extends Orderly ev where
  nodup : ev.openSpots.Nodup
  apart : ∀ (f : Frame) (i : Nat), ev.inProgress[f]? = some i → ev.pending[f]? = none
  rising : ev.openSpots.Pairwise fun k k' => ∀ i j, ev.OpenAt k i → ev.OpenAt k' j → i < j
  depth : ev.depth = ev.inProgress.size
  awaited : ∀ k i, ev.OpenAt k i → ∃ (f : Frame) (j : Nat), ev.inProgress[f]? = some j ∧ j ≤ i

variable {known queries : Set Query} {config : Config} {q : Query} {start stop : Node}
  {items : ItemSet} {fuel : Nat} {ev ev₂ ev' : Evaluator} {f : Frame} {new : List Frame} {m m' : Moment}

/-- Where no frame is open, there is nothing to be out of order. -/
theorem Resting.stacked (resting : Resting ev) : Stacked ev where
  toOrderly := resting.orderly
  nodup := resting.openSpots ▸ .nil
  apart f _ _ := by
    rw [Std.HashMap.getElem?_eq_none]
    exact Std.HashMap.not_mem_of_isEmpty resting.pending
  rising := resting.openSpots ▸ .nil
  depth := by
    rw [resting.depth]
    exact (beq_iff_eq.mp (Std.HashMap.isEmpty_eq_size_eq_zero.symm.trans resting.inProgress)).symm
  awaited k i opened := by
    have listed := (resting.orderly.opened k).mpr ⟨i, opened⟩
    rw [resting.openSpots] at listed
    cases listed

namespace Stacked

/-- What leaves no frame open leaves the stack as it was, if it has not lost count. -/
theorem restore (before : Stacked ev) (after : Orderly ev') (ext : ev.Extends ev' [])
    (depth : ev'.depth = ev'.inProgress.size) : Stacked ev' where
  toOrderly := after
  nodup := by
    rw [ext.openSpots, List.map_nil, List.append_nil]
    exact before.nodup
  apart g i hit := by
    rw [ext.pending g List.not_mem_nil]
    exact before.apart g i (ext.inProgress g ▸ hit)
  rising := by
    rw [ext.openSpots, List.map_nil, List.append_nil]
    simp only [ext.openAt_iff List.not_mem_nil]
    exact before.rising
  depth := depth
  awaited k i opened := by
    obtain ⟨g, j, hit, le⟩ := before.awaited k i ((ext.openAt_iff List.not_mem_nil).mp opened)
    exact ⟨g, j, (ext.inProgress g).trans hit, le⟩

theorem of_sameBut (stacked : Stacked ev) (same : ev.SameBut ev') : Stacked ev' :=
  stacked.restore (stacked.toOrderly.of_sameBut same) same.extends
    (by rw [same.depth, same.inProgress, stacked.depth])

variable (stacked : Stacked ev) (unopened : ∀ i, ¬ ev.OpenAt f.spot i)

include stacked unopened

/-- A frame that is entered comes after all others. -/
theorem enter (uncached : ¬ ev.Cached f.spot) : Stacked (enter f ev) where
  toOrderly := stacked.toOrderly.enter unopened uncached
  nodup := by
    have unmet : ¬ ev.Met f.spot :=
      not_or.mpr ⟨uncached, stacked.toOrderly.not_mem_openSpots unopened⟩
    exact nodup_enter unmet stacked.nodup
  apart g i hit := by
    change ev.pending[g]? = none
    rw [inProgress_enter] at hit
    split at hit
    · next same =>
      refine Option.eq_none_iff_forall_ne_some.mpr fun p pending => ?_
      exact unopened p.index (same ▸ .of_pending pending)
    · exact stacked.apart g i hit
  rising := by
    have old {k : Spot} {i : Nat} (listed : k ∈ ev.openSpots)
        (opened : (Evaluator.enter f ev).OpenAt k i) : ev.OpenAt k i := by
      obtain opened | ⟨rfl, -⟩ := (openAt_enter unopened).mp opened
      · exact opened
      · exact absurd listed (stacked.toOrderly.not_mem_openSpots unopened)
    rw [openSpots_enter]
    refine List.pairwise_append.mpr ⟨?_, List.pairwise_singleton _ _, ?_⟩
    · refine stacked.rising.imp_of_mem fun listed listed' rising i j opened opened' => ?_
      exact rising i j (old listed opened) (old listed' opened')
    · rintro k listed _ recent i j opened opened'
      obtain rfl := List.mem_singleton.mp recent
      obtain contra | ⟨-, rfl⟩ := (openAt_enter unopened).mp opened'
      · exact (unopened j contra).elim
      · exact stacked.index_lt k i (old listed opened)
  depth := by
    have absent : f ∉ ev.inProgress := by
      rw [Std.HashMap.mem_iff_isSome_getElem?, Option.isSome_iff_exists]
      rintro ⟨i, hit⟩
      exact unopened i (.of_inProgress hit)
    change ev.depth + 1 = (ev.inProgress.insert f ev.nextIndex).size
    rw [Std.HashMap.size_insert, if_neg absent, stacked.depth]
  awaited k i opened := by
    obtain opened | ⟨-, rfl⟩ := (openAt_enter unopened).mp opened
    · obtain ⟨g, j, hit, le⟩ := stacked.awaited k i opened
      exact ⟨g, j, inProgress_enter_of_some unopened hit, le⟩
    · exact ⟨f, ev.nextIndex, (inProgress_enter f).trans (if_pos rfl), Nat.le_refl _⟩

variable (ext : (Evaluator.enter f ev).Extends ev₂ new) (after : Stacked ev₂)

include ext after

omit stacked unopened in
/-- The frame that is left was counted. -/
theorem depth_exit : (exit f ev₂).depth = (exit f ev₂).inProgress.size := by
  have counted : f ∈ ev₂.inProgress := by
    rw [Std.HashMap.mem_iff_isSome_getElem?, inProgress_entered ext, if_pos rfl]
    rfl
  change ev₂.depth - 1 = (ev₂.inProgress.erase f).size
  rw [Std.HashMap.size_erase, if_pos counted, after.depth]

theorem abandon : Stacked (abandon ev.component.size (exit f ev₂)) :=
  stacked.restore (stacked.toOrderly.abandon unopened ext after.toOrderly)
    (abandon_extends unopened ext) (depth_exit ext after)

theorem close (found : ItemSet) : Stacked (close ev.component.size found (exit f ev₂)).2 := by
  refine stacked.restore (stacked.toOrderly.close unopened ext after.toOrderly found)
    (close_extends found ext unopened after.disjoint) ?_
  rw [close_eq]
  exact depth_exit ext after

omit stacked in
/-- A frame may be left pending if another is in progress that was visited before it: whatever has waited
for the frame waits for that one. -/
theorem suspend (found : ItemSet) {g : Frame} {j : Nat} (anchor : ev₂.inProgress[g]? = some j)
    (earlier : j < ev.nextIndex) : Stacked (suspend f ⟨ev.nextIndex, found⟩ (exit f ev₂)) where
  toOrderly := .suspend unopened ext after.toOrderly found
  nodup := after.nodup
  apart h i hit := by
    replace hit : ev.inProgress[h]? = some i := (inProgress_exit unopened ext h).symm.trans hit
    have other : f.spot ≠ h.spot := fun same => unopened i (same ▸ .of_inProgress hit)
    rw [pending_suspend, if_neg other]
    refine after.apart h i ?_
    rw [inProgress_entered ext, if_neg other, hit]
  rising := by
    simp only [openAt_suspend unopened ext]
    exact after.rising
  depth := depth_exit ext after
  awaited k i opened := by
    have still {h : Frame} {j : Nat} (hit : ev₂.inProgress[h]? = some j) (earlier : j < ev.nextIndex) :
        (exit f ev₂).inProgress[h]? = some j := by
      rw [inProgress_entered ext] at hit
      split at hit
      · exact absurd (Option.some.inj hit) earlier.ne'
      · exact (inProgress_exit unopened ext h).trans hit
    obtain ⟨h, j', hit, le⟩ := after.awaited k i ((openAt_suspend unopened ext found).mp opened)
    by_cases earlier' : j' < ev.nextIndex
    · exact ⟨h, j', still hit earlier', le⟩
    · exact ⟨g, j, still anchor earlier, by omega⟩

end Stacked

/-- Computations leave the stack in order if it was. -/
def StaysStacked (_ : Bool) (ev ev' : Evaluator) : Prop :=
  Stacked ev → Stacked ev'

theorem composes_stacked : Composes StaysStacked where
  quiet _ _ _ quiet stacked := stacked.of_sameBut quiet.toSameBut
  trans first second stacked := second (first stacked)

section

variable (shelf : Shelf known)

include shelf

/-- A visit that expands a frame leaves the stack in order, however it ends. -/
theorem Moment.Poised.opens_stacked (poised : Moment.Poised known config ⟨.walk q start stop items, ev⟩) :
    Opens StaysStacked q start stop items ev := by
  intro filled unknown unlimited fuel r₀ ev₀ expanded inner stacked
  obtain ⟨member, -, orderly, clear⟩ := poised
  obtain ⟨uncached, unopened⟩ := consult_eq_none.mp unknown
  have after := inner (stacked.enter unopened uncached)
  obtain ⟨reach, new, rfl, piles⟩ | ⟨e, new, rfl, -, ext⟩ := expandBy_piles shelf
    (visit_disciplined shelf fuel) member (f := ⟨q.id, start, stop, items⟩) rfl orderly clear unknown
    expanded
  · obtain ⟨l, low, lower, same⟩ | ⟨-, same⟩ := settle_ok_cases ⟨q.id, start, stop, items⟩ ev.nextIndex
      ev.component.size reach (exit ⟨q.id, start, stop, items⟩ ev₀) <;> rw [same]
    · obtain ⟨k, -, opened⟩ := piles.hits l low
      obtain ⟨g, j, anchor, le⟩ := after.awaited k l opened
      exact after.suspend unopened piles.ext _ anchor (le.trans_lt lower)
    · exact stacked.close unopened piles.ext after _
  · exact stacked.abandon unopened ext after

theorem visit_stacked (poised : Moment.Poised known config ⟨.walk q start stop items, ev⟩) :
    (visit fuel q start stop items).Keeps StaysStacked ev :=
  visit_keeps composes_stacked fun _ _ _ _ _ follows => (poised.follows shelf follows).opens_stacked shelf

/-- The stack is in order at what a moment sets off. -/
theorem Moment.Poised.stacked (poised : m.Poised known config) (setsOff : m.SetsOff m')
    (stacked : Stacked m.state) : Stacked m'.state := by
  refine setsOff.kept composes_stacked
    (fun _ _ _ _ _ follows => (poised.follows shelf follows).opens_stacked shelf) ?_
  cases setsOff with
  | asks expanding | walks expanding =>
    obtain ⟨uncached, unopened⟩ := consult_eq_none.mp expanding.unknown
    exact stacked.enter unopened uncached
  | selects => exact stacked

/-- It is in order when a call starts. -/
theorem Begins.stacked (included : queries ⊆ known) (resting : Resting ev) (begins : Begins queries ev m) :
    Stacked m.state := by
  cases begins with
  | select member start stop items => exact resting.stacked.of_sameBut (sameBut_announce ..)
  | @selectResults q start stop items before after ev₁ member passed next =>
    refine Stacked.of_sameBut ?_ (sameBut_announce q start stop items ev₁)
    refine passed.kept composes_stacked (fun stops stop' _ ev₂ fuel _ passed => ?_) resting.stacked
    exact visit_stacked shelf (passed.poised shelf (included member) resting.orderly
      (clear_of_closed resting.openSpots q) stop')

/-- So it is at every moment. -/
theorem Happens.stacked (included : queries ⊆ known) (resting : Resting ev)
    (happens : Happens queries ev m) : m.Poised known ev.config ∧ Stacked m.state := by
  obtain ⟨first, begins, follows⟩ := happens
  have poised := begins.poised shelf included resting.orderly resting.openSpots
  induction follows with
  | refl => exact ⟨poised, begins.stacked shelf included resting⟩
  | tail earlier setsOff ih =>
    exact ⟨(ih.1.setsOff shelf setsOff).1, ih.1.stacked shelf setsOff ih.2⟩

end

/-- The least index that a walk has come upon is that of its own frame, which is in progress, or its own
frame is left pending with an index that is no less. -/
theorem open_of_low {reach : Reach} {l : Nat} (ends : (visit fuel q start stop items).Ends ev (.ok reach) ev')
    (low : reach.low? = some l) : ev'.inProgress[(⟨q.id, start, stop, items⟩ : Frame)]? = some l ∨
      ∃ p, ev'.pending[(⟨q.id, start, stop, items⟩ : Frame)]? = some p ∧ l ≤ p.index := by
  cases fuel with
  | zero => exact (not_ends_exhausted ends).elim
  | succ fuel =>
    cases (visitBy_ends (visit fuel)).mp ends with
    | empty => cases low
    | known _ known =>
      have same := sameBut_consult ⟨q.id, start, stop, items⟩ ev
      obtain ⟨found, -, rfl⟩ | ⟨i, hit, rfl⟩ | ⟨p, hit, rfl⟩ := consult_eq_some known
      · cases low
      · exact .inl (by rw [same.inProgress, hit, ← low])
      · exact .inr ⟨p, by rw [same.pending, hit], (Option.some.inj low).ge⟩
    | @expanded r₀ _ _ _ _ _ _ _ settled =>
      cases r₀ with
      | error => cases settled
      | ok reach₀ =>
        obtain ⟨l', low', lower, result⟩ | ⟨-, result⟩ := settle_ok_cases ⟨q.id, start, stop, items⟩
          ev.nextIndex ev.component.size reach₀ (exit ⟨q.id, start, stop, items⟩ _)
        · obtain ⟨same, rfl⟩ := Prod.mk.inj (settled.trans result)
          obtain rfl := Except.ok.inj same
          obtain rfl := Option.some.inj (low.symm.trans low')
          exact .inr ⟨_, (pending_suspend _ _).trans (if_pos rfl), lower.le⟩
        · obtain ⟨same, -⟩ := Prod.mk.inj (settled.trans result)
          cases same
          cases low

/-- Whenever a walk sets out from a frame, in whatever call and however deep in it, the stack is in order,
and so it is when the walk returns, whether it has passed or failed. If the walk comes upon an index below
that of its own frame, then this frame is left pending, and a frame is in progress that was visited no
later than the one with that index. -/
theorem visit_keeps_stack_order (numbered : Query.Numbered queries) (serves : Serves queries config ev)
    {ev₁ : Evaluator} (happens : Happens queries ev ⟨.walk q start stop items, ev₁⟩) :
    Stacked ev₁ ∧ ∀ fuel r ev₂, (visit fuel q start stop items).Ends ev₁ r ev₂ → Stacked ev₂ ∧
      ∀ reach l, r = .ok reach → reach.low? = some l →
        ∃ own, (ev₂.inProgress[(⟨q.id, start, stop, items⟩ : Frame)]? = some own ∨
            ∃ found, ev₂.pending[(⟨q.id, start, stop, items⟩ : Frame)]? = some ⟨own, found⟩) ∧
          l ≤ own ∧ (l < own →
            (∃ found, ev₂.pending[(⟨q.id, start, stop, items⟩ : Frame)]? = some ⟨own, found⟩) ∧
            ∃ (g : Frame) (j : Nat), ev₂.inProgress[g]? = some j ∧ j ≤ l) := by
  have shelf := Shelf.of_queries numbered
  have included := Query.subset_within queries
  obtain ⟨resting, -⟩ := serves.resting shelf included
  obtain ⟨poised, stacked⟩ := happens.stacked shelf included resting
  refine ⟨stacked, fun fuel r ev₂ ends => ?_⟩
  have after := visit_stacked shelf poised ends stacked
  refine ⟨after, ?_⟩
  rintro reach l rfl low
  obtain hit | ⟨p, hit, le⟩ := open_of_low ends low
  · exact ⟨l, .inl hit, Nat.le_refl l, fun contra => absurd contra (Nat.lt_irrefl l)⟩
  · refine ⟨p.index, .inr ⟨p.found, hit⟩, le, fun _ => ⟨⟨p.found, hit⟩, ?_⟩⟩
    obtain ⟨member, -, orderly, clear⟩ := poised
    cases visit_disciplined shelf fuel q member orderly clear ends with
    | ok piles =>
      obtain ⟨k, -, opened⟩ := piles.hits l low
      exact after.awaited k l opened

end Evaluator

/-! A query around two nodes -/

namespace Query

/-- The node that lies across from `tallySource`. -/
def farSide : Node :=
  .plain 1 "far side" .any

/-- Items go back and forth between two nodes. -/
def shuttle : Query where
  id := 0
  graph := Graph.addLabel (Graph.addLabel Graph.empty ⟨tallySource, farSide⟩
    (Operation.filter (.anything .any))) ⟨farSide, tallySource⟩ (Operation.filter (.anything .any))

theorem steps_shuttle : shuttle.steps tallySource =
    [(⟨tallySource, farSide⟩, .filter (.anything .any))] := by
  cbv

theorem flat_shuttle : shuttle.Flat := by
  intro op listed
  obtain rfl | rfl := List.mem_pair.mp (show op ∈ [_, _] from listed) <;> rfl

end Query

namespace Evaluator

open Query

/-- A walk sets out on the way back, while the frame of the way there is in progress: it comes upon that
frame, and its own is left pending. -/
theorem visit_keeps_stack_order_shuttle : ∃ ev₁ reach ev₂,
    Happens {shuttle} (.started {})
      ⟨.walk shuttle farSide tallySource (.singleton (.atom .unit) .any), ev₁⟩ ∧
    (visit 2 shuttle farSide tallySource (.singleton (.atom .unit) .any)).Ends ev₁ (.ok reach) ev₂ ∧
    reach.low? = some 0 ∧ Stacked ev₂ ∧
    (∃ found, ev₂.pending[(⟨0, farSide, tallySource, .singleton (.atom .unit) .any⟩ : Frame)]? =
      some ⟨1, found⟩) ∧
    ∃ (g : Frame) (j : Nat), ev₂.inProgress[g]? = some j ∧ j ≤ 0 := by
  let items := ItemSet.singleton (.atom .unit) .any
  let ev := announce shuttle tallySource tallySource items (.started {})
  let f : Frame := ⟨0, tallySource, tallySource, items⟩
  let g : Frame := ⟨0, farSide, tallySource, items⟩
  have expanding : Expanding shuttle tallySource tallySource items ev [] (enter f ev) :=
    ⟨rfl, consult_announce_started _ _ _ _, rfl, 0, _, EvalM.ends_pure.mpr ⟨rfl, rfl⟩⟩
  have applied : ((Operation.filter (.anything .any)).apply (nested 0) items).Ends (enter f ev) (.ok items)
      (enter f ev) :=
    rfl
  have happens : Happens {shuttle} (.started {})
      ⟨.walk shuttle farSide tallySource items, enter f ev⟩ :=
    ⟨_, .select (Set.mem_singleton shuttle) tallySource tallySource items,
      .single (.walks expanding steps_shuttle applied rfl)⟩
  have ran : ((visit 2 shuttle farSide tallySource items).run (enter f ev)).map (fun p =>
      (p.1.map Reach.low?, (p.2.pending[g]?).map Pending.index)) = some (.ok (some 0), some 1) := by
    cbv
  obtain ⟨⟨r, ev₂⟩, ends, same⟩ := Option.map_eq_some_iff.mp ran
  obtain ⟨passed, pending⟩ := Prod.mk.inj same
  cases r with
  | error => cases passed
  | ok reach =>
    have low : reach.low? = some 0 := Except.ok.inj passed
    obtain ⟨p, hit, index⟩ := Option.map_eq_some_iff.mp pending
    obtain ⟨-, returns⟩ := visit_keeps_stack_order flat_shuttle.numbered .nothing happens
    obtain ⟨stacked, lows⟩ := returns 2 _ ev₂ ends
    obtain ⟨own, opened, -, waits⟩ := lows reach 0 rfl low
    obtain rfl : own = 1 := by
      obtain contra | ⟨found, hit'⟩ := opened
      · cases (stacked.apart g own contra).symm.trans hit
      · obtain rfl := Option.some.inj (hit'.symm.trans hit)
        exact index
    obtain ⟨found, anchor⟩ := waits Nat.one_pos
    exact ⟨_, reach, ev₂, happens, ends, low, stacked, found, anchor⟩

end Evaluator

end GraphQuery
