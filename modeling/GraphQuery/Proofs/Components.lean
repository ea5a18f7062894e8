import GraphQuery.Proofs.Exploration
/-!
# Closed components

A frame is the root of a component if nothing below its own index was come upon while it was
expanded. The frames left pending above a root lead back to it, so they lead to each other, and all
other steps that leave them lead to settled spots. Closing the component therefore collects what each
of its members selects.
-/

namespace GraphQuery

namespace Evaluator

variable {q : Query} {known : Set Query} {ev ev₂ : Evaluator} {new : List Frame} {f g : Frame}
  {k : Spot} {reach : Reach}

/-- All steps of a frame were taken, and nothing below the index of its visit was come upon. -/
structure Root (known : Set Query) (q : Query) (ev : Evaluator) (f : Frame) (reach : Reach)
    (ev₂ : Evaluator) (new : List Frame) : Prop
    extends Progress q (enter f ev) f (q.steps f.start) reach ev₂ new where
  isStable : q.IsStable
  query : f.query = q.id
  before : Truthful known ev
  unopened : ∀ i, ¬ ev.OpenAt f.spot i
  after : Truthful known ev₂
  typed : reach.items.itemType = f.stop.inputType
  least : ∀ l, reach.low? = some l → ev.nextIndex ≤ l

/-- The items that the closed component has found. -/
def gathered (ev : Evaluator) (f : Frame) (reach : Reach) (ev₂ : Evaluator) : ItemSet :=
  (close ev.component.size reach.items (exit f ev₂)).1

namespace Root

variable (root : Root known q ev f reach ev₂ new)

include root

theorem le_of_below {i : Nat} (below : Below reach.low? i) : ev.nextIndex ≤ i := by
  obtain ⟨l, low, le⟩ := below
  exact (root.least l low).trans le

/-- Of the frames that were open before the root was entered, none was come upon. -/
theorem eq_of_entered {i : Nat} (opened : (enter f ev).OpenAt k i) (below : Below reach.low? i) :
    k = f.spot := by
  obtain opened | ⟨same, -⟩ := (openAt_enter root.unopened).mp opened
  · have := root.before.index_lt k i opened
    have := root.le_of_below below
    omega
  · exact same

/-- The open frames that were come upon are members of the component. -/
theorem mem_of_below {i : Nat} (opened : ev₂.OpenAt k i) (below : Below reach.low? i) :
    k ∈ (f :: new).map Frame.spot := by
  by_cases recent : k ∈ new.map Frame.spot
  · exact List.mem_cons_of_mem _ recent
  · rw [root.eq_of_entered ((root.leaves.openAt_iff recent).mp opened) below]
    exact List.mem_cons_self

/-- Every member can be reached from the root. -/
theorem reaches_member (member : g ∈ f :: new) : q.Reaches f.spot g.spot := by
  obtain rfl | member := List.mem_cons.mp member
  · exact .refl q _
  · exact (root.leaves.pends g member).reached

/-- The root can be reached from every member. -/
theorem reaches_root (member : g ∈ f :: new) : q.Reaches g.spot f.spot := by
  obtain rfl | member := List.mem_cons.mp member
  · exact .refl q _
  · obtain ⟨anchor, i, opened, back, below⟩ := (root.leaves.pends g member).anchored
    exact root.eq_of_entered opened below ▸ back

/-- What a member accounts for is among what the component has found. -/
theorem member_accounts (member : g ∈ f :: new) : ∃ found : ItemSet,
    (∀ c ∈ found.contents, c ∈ (gathered ev f reach ev₂).contents) ∧
      Accounts q ev₂ reach.low? g (q.steps g.start) found := by
  obtain rfl | recent := List.mem_cons.mp member
  · exact ⟨reach.items, fun c found => (contents_close _ root.leaves.toExtends c).mpr (.inl found),
      root.accounts⟩
  · obtain ⟨p, hit, -, -, accounts⟩ := (root.leaves.pends g recent).pending
    exact ⟨p.found, fun c found =>
      (contents_close _ root.leaves.toExtends c).mpr (.inr ⟨g, member, p, hit, found⟩), accounts⟩

/-- Steps that leave the component lead to settled spots, and what these gather was found. -/
theorem settled_of_leads (member : g ∈ f :: new) (leads : q.Leads g.spot k)
    (outside : k ∉ (f :: new).map Frame.spot) :
    Settled q ev₂ k ∧ ∀ c, q.Gathers k c → c ∈ (gathered ev f reach ev₂).contents := by
  obtain ⟨found, included, accounts⟩ := root.member_accounts member
  cases accounts.covers_of_leads leads with
  | settled settled gathered => exact ⟨settled, fun c gathers => included c (gathered c gathers)⟩
  | opened opened below => exact absurd (root.mem_of_below opened below) outside

theorem member_safe (member : g ∈ f :: new) : q.Safe g.spot := by
  have finite : {k | k ∈ (f :: new).map Frame.spot}.Finite := List.finite_toSet _
  refine Query.Safe.of_region root.isStable finite ?_ ?_ (List.mem_map_of_mem member)
  · rintro m inside step listed
    obtain ⟨h, member, rfl⟩ := List.mem_map.mp inside
    obtain ⟨found, -, accounts⟩ := root.member_accounts member
    exact accounts.passes step listed
  · rintro m inside next leads outside
    obtain ⟨h, member, rfl⟩ := List.mem_map.mp inside
    exact (root.settled_of_leads member leads outside).1.safe

/-- What a member gathers was found. -/
theorem found_of_gathers (member : g ∈ f :: new) {c : Content} (gathers : q.Gathers g.spot c) :
    c ∈ (gathered ev f reach ev₂).contents := by
  obtain ⟨k, reaches, arrived, content⟩ := gathers
  have within : g.spot ∈ {k | k ∈ (f :: new).map Frame.spot} := List.mem_map_of_mem member
  obtain inside | ⟨m, inside, next, leads, outside, further⟩ := reaches.mem_or_leaves within
  · obtain ⟨h, member, rfl⟩ := List.mem_map.mp inside
    obtain ⟨found, included, accounts⟩ := root.member_accounts member
    exact included c (accounts.own arrived c (ItemSet.mem_essence.mp content))
  · obtain ⟨h, member, rfl⟩ := List.mem_map.mp inside
    exact (root.settled_of_leads member leads outside).2 c ⟨k, further, arrived, content⟩

/-- What was found is gathered by every member. -/
theorem gathers_of_found (member : g ∈ f :: new) {c : Content}
    (found : c ∈ (gathered ev f reach ev₂).contents) : q.Gathers g.spot c := by
  refine .of_reaches (root.reaches_root member) ?_
  obtain found | ⟨h, member, p, hit, found⟩ := (contents_close _ root.leaves.toExtends c).mp found
  · exact root.accounts.sound c found
  · obtain rfl | recent := List.mem_cons.mp member
    · simp [pending_entered root.unopened root.leaves.toExtends rfl] at hit
    · obtain ⟨p', hit', -, -, accounts⟩ := (root.leaves.pends h recent).pending
      obtain rfl := Option.some.inj (hit.symm.trans hit')
      exact (accounts.sound c found).of_reaches (root.reaches_member member)

theorem stop_eq (member : g ∈ f :: new) : g.stop = f.stop :=
  (root.reaches_member member).stop

/-- Every member selects what the component has found. -/
theorem selects (member : g ∈ f :: new) : q.Selects g (gathered ev f reach ev₂) where
  itemType := by
    rw [root.stop_eq member]
    refine itemType_close _ root.leaves.toExtends root.typed fun h member p hit => ?_
    obtain rfl | recent := List.mem_cons.mp member
    · simp [pending_entered root.unopened root.leaves.toExtends rfl] at hit
    · obtain ⟨p', hit', -, typed, -⟩ := (root.leaves.pends h recent).pending
      obtain rfl := Option.some.inj (hit.symm.trans hit')
      exact typed.trans (congrArg Node.inputType (root.stop_eq member))
  contents c := ⟨root.gathers_of_found member, root.found_of_gathers member⟩
  safe := root.member_safe member

theorem close_extends :
    ev.Extends (close ev.component.size reach.items (exit f ev₂)).2 [] :=
  Evaluator.close_extends _ root.leaves.toExtends root.unopened root.after.disjoint

theorem close_truthful (col : Collection known) (member : q ∈ known) :
    Truthful known (close ev.component.size reach.items (exit f ev₂)).2 := by
  refine root.before.close root.unopened root.leaves.toExtends root.after col member reach.items
    (fun g inside => ?_) (fun g => root.selects) fun memoize g inside k leads => ?_
  · exact (root.reaches_member inside).query.trans root.query
  · by_cases within : k ∈ (f :: new).map Frame.spot
    · exact .inl within
    · refine .inr ((root.settled_of_leads inside leads within).1.cached ?_)
      rw [root.leaves.config]
      exact memoize

/-- Nothing that can be reached from the root is open any more. -/
theorem close_settled : Settled q (close ev.component.size reach.items (exit f ev₂)).2 f.spot where
  safe := root.member_safe List.mem_cons_self
  apart k reaches opened := by
    rw [root.close_extends.openSpots, List.map_nil, List.append_nil] at opened
    have within : f.spot ∈ {k | k ∈ (f :: new).map Frame.spot} :=
      List.mem_map_of_mem List.mem_cons_self
    obtain inside | ⟨m, inside, next, leads, outside, further⟩ := reaches.mem_or_leaves within
    · obtain ⟨h, member, rfl⟩ := List.mem_map.mp inside
      obtain ⟨i, opened⟩ := (root.before.opened _).mp opened
      exact unopened_of_mem root.unopened root.leaves.toExtends member i opened
    · obtain ⟨h, member, rfl⟩ := List.mem_map.mp inside
      refine (root.settled_of_leads member leads outside).1.apart k further ?_
      refine root.leaves.mem_openSpots ?_
      rw [openSpots_enter]
      exact List.mem_append_left _ opened
  cached memoize := by
    rw [root.close_extends.config] at memoize
    refine ⟨f, _, rfl, (cache_close _ root.leaves.toExtends f).trans (if_pos ⟨memoize, ?_⟩)⟩
    exact List.mem_map_of_mem List.mem_cons_self

/-- Closing the component of a root ends its visit. -/
theorem arrives : Arrives q ev f ⟨gathered ev f reach ev₂, none⟩
    (close ev.component.size reach.items (exit f ev₂)).2 [] where
  leaves := .of_extends root.close_extends _ _
  typed := (root.selects List.mem_cons_self).itemType
  sound c := root.gathers_of_found List.mem_cons_self
  covers := .settled root.close_settled fun c => root.found_of_gathers List.mem_cons_self
  hits l contra := by cases contra

end Root

/-! Frames whose component stays open -/

section

variable (unopened : ∀ i, ¬ ev.OpenAt f.spot i)
  (progress : Progress q (enter f ev) f (q.steps f.start) reach ev₂ new)

include unopened progress

theorem keeps_suspend :
    Keeps q ev₂ (suspend f ⟨ev.nextIndex, reach.items⟩ (exit f ev₂)) where
  settled _ settled := ⟨settled.safe, settled.apart, settled.cached⟩
  opened _ _ := (openAt_suspend unopened progress.leaves.toExtends reach.items).mpr

/-- What was come upon below the index of a frame was open before. -/
theorem openAt_of_hit {i : Nat} (opened : ev₂.OpenAt k i) (lower : i < ev.nextIndex) :
    ev.OpenAt k i := by
  by_cases recent : k ∈ new.map Frame.spot
  · obtain ⟨g, member, rfl⟩ := List.mem_map.mp recent
    have := (progress.leaves.pends g member).index_le progress.leaves.toExtends member opened
    have : (enter f ev).nextIndex = ev.nextIndex + 1 := rfl
    omega
  · obtain opened | ⟨-, same⟩ :=
      (openAt_enter unopened).mp ((progress.leaves.openAt_iff recent).mp opened)
    · exact opened
    · omega

/-- A frame that is not the root of its component is left pending. -/
theorem suspend_arrives {l : Nat} (typed : reach.items.itemType = f.stop.inputType)
    (low : reach.low? = some l) (lower : l < ev.nextIndex) :
    Arrives q ev f reach (suspend f ⟨ev.nextIndex, reach.items⟩ (exit f ev₂)) (f :: new) := by
  have keeps := keeps_suspend unopened progress
  have ext := progress.leaves.toExtends
  obtain ⟨anchor, hit, reaches⟩ := progress.hits l low
  have opened := openAt_of_hit unopened progress hit lower
  refine ⟨⟨suspend_extends unopened ext _, fun g member => ?_⟩, typed, progress.accounts.sound, ?_, ?_⟩
  · obtain rfl | recent := List.mem_cons.mp member
    · refine ⟨.refl q _, ⟨⟨ev.nextIndex, reach.items⟩, ?_, Nat.le_refl _, typed,
        progress.accounts.mono keeps fun _ => id⟩, anchor, l, opened, reaches, l, low, Nat.le_refl l⟩
      rw [pending_suspend, if_pos rfl]
    · obtain ⟨reached, ⟨p, pending, index, typed, accounts⟩, anchor', i, opened', back, below⟩ :=
        progress.leaves.pends g recent
      have distinct : f.spot ≠ g.spot := fun same =>
        spot_not_mem_new unopened ext (same ▸ List.mem_map_of_mem recent)
      refine ⟨reached, ⟨p, ?_, (Nat.le_succ _).trans index, typed, accounts.mono keeps fun _ => id⟩, ?_⟩
      · rw [pending_suspend, if_neg distinct, pending]
      · obtain opened' | ⟨rfl, rfl⟩ := (openAt_enter unopened).mp opened'
        · exact ⟨anchor', i, opened', back, below⟩
        · exact ⟨anchor, l, opened, back.trans reaches, l, low, Nat.le_refl l⟩
  · refine .opened (keeps.opened _ _ (ext.openAt ((openAt_enter unopened).mpr (.inr ⟨rfl, rfl⟩)))) ?_
    exact ⟨l, low, lower.le⟩
  · intro l' low'
    obtain rfl := Option.some.inj (low.symm.trans low')
    exact ⟨anchor, opened, reaches⟩

end

end Evaluator

end GraphQuery
