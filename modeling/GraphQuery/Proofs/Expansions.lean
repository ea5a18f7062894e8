import GraphQuery.Proofs.Keeping
import GraphQuery.Proofs.Serving
/-!
# Each frame is expanded once

A frame that is expanded was met nowhere before: it was neither cached nor open. From then on it is open
until its component is closed, and cached ever after. So where results are cached, a call that passes
expands frames that are pairwise different, and caches exactly these.
-/

namespace GraphQuery

namespace Evaluator

open EvalM

/-- A frame is cached or open. -/
def Met (ev : Evaluator) (k : Spot) : Prop :=
  ev.Cached k ∨ k ∈ ev.openSpots

/-- Some frames were expanded between two states, each of them for the first time, and they are what is
met since. -/
structure Advances (ev ev' : Evaluator) (frames : List Frame) : Prop where
  expansions : ev'.expansions = ev.expansions ++ frames
  expanded : ev'.stats.expanded = ev.stats.expanded + frames.length
  distinct : (frames.map Frame.spot).Nodup
  unmet : ∀ f ∈ frames, ¬ ev.Met f.spot
  met : ∀ k, ev'.Met k ↔ ev.Met k ∨ k ∈ frames.map Frame.spot
  size : ev'.cachedFrames + ev'.component.size = ev.cachedFrames + ev.component.size + frames.length
  nodup : ev'.openSpots.Nodup

variable {known queries : Set Query} {config : Config} {q : Query} {start stop : Node}
  {items found : ItemSet} {fuel : Nat} {ev ev₁ ev₂ ev' : Evaluator} {f : Frame}
  {frames frames' new : List Frame} {k : Spot}

theorem SameBut.met_iff (same : ev.SameBut ev') : ev'.Met k ↔ ev.Met k := by
  unfold Met Cached openSpots
  rw [same.cache, same.component]

theorem not_met_iff (orderly : Orderly ev) : ¬ ev.Met f.spot ↔ (consult f ev).1 = none := by
  rw [consult_eq_none, Met, not_or, orderly.opened, not_exists]

theorem met_enter_iff : (enter f ev).Met k ↔ ev.Met k ∨ k = f.spot := by
  unfold Met
  rw [openSpots_enter, List.mem_append, List.mem_singleton, or_assoc]
  rfl

/-- Where nothing is noted, no frame was expanded. -/
theorem Quiet.advances (quiet : ev.Quiet ev') (nodup : ev.openSpots.Nodup) : Advances ev ev' [] where
  expansions := by rw [quiet.expansions, List.append_nil]
  expanded := quiet.expanded
  distinct := .nil
  unmet := nofun
  met k := by simp [quiet.met_iff]
  size := by
    rw [cachedFrames, quiet.cache, quiet.component]
    rfl
  nodup := by
    rw [openSpots, quiet.component]
    exact nodup

theorem Advances.trans (first : Advances ev ev₁ frames) (second : Advances ev₁ ev₂ frames') :
    Advances ev ev₂ (frames ++ frames') where
  expansions := by rw [second.expansions, first.expansions, List.append_assoc]
  expanded := by rw [second.expanded, first.expanded, List.length_append, Nat.add_assoc]
  distinct := by
    rw [List.map_append]
    refine first.distinct.append second.distinct fun k member again => ?_
    obtain ⟨g, among, rfl⟩ := List.mem_map.mp again
    exact second.unmet g among ((first.met _).mpr (.inr member))
  unmet g member := by
    obtain member | member := List.mem_append.mp member
    · exact first.unmet g member
    · exact fun met => second.unmet g member ((first.met _).mpr (.inl met))
  met k := by rw [second.met, first.met, List.map_append, List.mem_append, or_assoc]
  size := by rw [second.size, first.size, List.length_append, Nat.add_assoc]
  nodup := second.nodup

theorem size_insert_all {α : Type} {m : Std.HashMap Frame α} {fs : List Frame}
    (distinct : (fs.map Frame.spot).Nodup) (fresh : ∀ f ∈ fs, m[f]? = none) (a : α) :
    (fs.foldl (fun m f => m.insert f a) m).size = m.size + fs.length := by
  induction fs generalizing m with
  | nil => rfl
  | cons f fs ih =>
    obtain ⟨outside, distinct⟩ := List.nodup_cons.mp distinct
    have absent : f ∉ m := by
      rw [Std.HashMap.mem_iff_isSome_getElem?, fresh f List.mem_cons_self]
      exact Bool.false_ne_true
    rw [List.foldl_cons, ih distinct, Std.HashMap.size_insert, if_neg absent, List.length_cons]
    · omega
    · intro g member
      have other : f.spot ≠ g.spot := by
        intro same
        rw [same] at outside
        exact outside (List.mem_map_of_mem member)
      rw [getElem?_insert_spot, if_neg other]
      exact fresh g (List.mem_cons_of_mem f member)

section

variable (unmet : ¬ ev.Met f.spot)

include unmet

theorem nodup_enter (nodup : ev.openSpots.Nodup) : (enter f ev).openSpots.Nodup := by
  rw [openSpots_enter]
  refine nodup.append (List.nodup_singleton _) fun k member again => ?_
  exact unmet (.inr (List.mem_singleton.mp again ▸ member))

/-- What has the counts and the met frames of the expansion of a frame has expanded this frame and those
that the expansion has. -/
theorem Advances.of_entered (advances : Advances (enter f ev) ev₂ frames)
    (expansions : ev'.expansions = ev₂.expansions) (expanded : ev'.stats.expanded = ev₂.stats.expanded)
    (met : ∀ k, ev'.Met k ↔ ev₂.Met k)
    (size : ev'.cachedFrames + ev'.component.size = ev₂.cachedFrames + ev₂.component.size)
    (nodup : ev'.openSpots.Nodup) : Advances ev ev' (f :: frames) where
  expansions := by
    rw [expansions, advances.expansions, expansions_enter, List.append_assoc]
    rfl
  expanded := by
    rw [expanded, advances.expanded, List.length_cons]
    exact Nat.succ_add_eq_add_succ _ _
  distinct := by
    refine List.nodup_cons.mpr ⟨fun again => ?_, advances.distinct⟩
    obtain ⟨g, among, same⟩ := List.mem_map.mp again
    exact advances.unmet g among (met_enter_iff.mpr (.inr same))
  unmet := List.forall_mem_cons.mpr ⟨unmet, fun g member met =>
    advances.unmet g member (met_enter_iff.mpr (.inl met))⟩
  met k := by rw [met, advances.met, met_enter_iff, List.map_cons, List.mem_cons, or_assoc]
  size := by
    have entered : (enter f ev).component.size = ev.component.size + 1 := Array.size_push f
    have cached : (enter f ev).cachedFrames = ev.cachedFrames := rfl
    rw [size, advances.size, entered, cached, List.length_cons]
    omega
  nodup := nodup

theorem Advances.suspend (advances : Advances (enter f ev) ev₂ frames) (p : Pending) :
    Advances ev (suspend f p (exit f ev₂)) (f :: frames) :=
  advances.of_entered unmet rfl rfl (fun _ => Iff.rfl) rfl advances.nodup

/-- A closed component is cached as a whole. -/
theorem Advances.close (advances : Advances (enter f ev) ev₂ frames)
    (ext : (enter f ev).Extends ev₂ new) (orderly : Orderly ev) (after : Orderly ev₂)
    (memoize : ev.config.memoize = true) (nodup : ev.openSpots.Nodup) (found : ItemSet) :
    Advances ev (Evaluator.close ev.component.size found (exit f ev₂)).2 (f :: frames) := by
  obtain ⟨-, unopened⟩ := consult_eq_none.mp ((not_met_iff orderly).mp unmet)
  have stack : ev₂.openSpots = ev.openSpots ++ (f :: new).map Frame.spot := by
    rw [ext.openSpots, openSpots_enter, List.append_assoc]
    rfl
  have ext' := close_extends found ext unopened after.disjoint
  have stack' : (Evaluator.close ev.component.size found (exit f ev₂)).2.openSpots = ev.openSpots := by
    rw [ext'.openSpots, List.map_nil, List.append_nil]
  have members : ((f :: new).map Frame.spot).Nodup := (stack ▸ advances.nodup).of_append_right
  refine advances.of_entered unmet ?_ ?_ (fun k => ?_) ?_ (stack'.symm ▸ nodup)
  · rw [close_eq]
    rfl
  · rw [close_eq]
    rfl
  · rw [Met, Met, stack', stack, List.mem_append, Orderly.cached_close ext found]
    simp only [memoize, true_and]
    constructor
    · rintro ((member | cached) | opened)
      · exact .inr (.inr member)
      · exact .inl cached
      · exact .inr (.inl opened)
    · rintro (cached | opened | member)
      · exact .inl (.inr cached)
      · exact .inr opened
      · exact .inl (.inl member)
  · have uncached : ∀ g ∈ f :: new, ev₂.cache[g]? = none := by
      intro g member
      refine Option.eq_none_iff_forall_ne_some.mpr fun items hit => ?_
      refine after.disjoint g.spot ⟨g, items, rfl, hit⟩ ?_
      rw [stack]
      exact List.mem_append_right _ (List.mem_map_of_mem member)
    have config : (exit f ev₂).config.memoize = true := (congrArg Config.memoize ext.config).trans memoize
    have left : ev₂.component.size = ev.component.size + (f :: new).length := by
      rw [← Array.length_toList, ← Array.length_toList, ← List.length_append, ← component_exit ext]
      rfl
    have kept : (Evaluator.close ev.component.size found (exit f ev₂)).2.component.size =
        ev.component.size := by
      have lengths := congrArg List.length ext'.component
      rwa [List.append_nil, Array.length_toList, Array.length_toList] at lengths
    rw [kept, left, close_eq, members_exit ext]
    simp only [cachedFrames, config, if_true]
    -- each member is a new key, so the cache grows by as many frames as leave the component
    have grown := size_insert_all members uncached
      ((f :: new).foldl gather (found, (exit f ev₂).pending)).1
    change Std.HashMap.size _ + _ = _
    rw [show (exit f ev₂).cache = ev₂.cache from rfl, grown]
    omega

end

/-- A frame whose expansion has passed has taken all its steps. -/
theorem Expanding.of_expandBy {reach : Reach} (filled : items.isEmpty = false)
    (unknown : (consult ⟨q.id, start, stop, items⟩ ev).1 = none) (unlimited : ev.limitReached? = none)
    (expanded : (expandBy (visit fuel) q start stop items).Ends (enter ⟨q.id, start, stop, items⟩ ev)
      (.ok reach) ev') : Expanding q start stop items ev (q.steps start) ev' := by
  obtain ⟨r, taken, same⟩ := (expandBy_ends (visit fuel)).mp expanded
  cases r with
  | error => cases same
  | ok reach => exact ⟨filled, unknown, unlimited, fuel, reach, taken⟩

/-- What passes has expanded each frame once. -/
def Once (ok : Bool) (ev ev' : Evaluator) : Prop :=
  ok = true → ev.openSpots.Nodup → ∃ frames, Advances ev ev' frames

theorem composes_once : Composes Once where
  quiet _ _ _ quiet _ nodup := ⟨[], quiet.advances nodup⟩
  trans first second passed nodup := by
    obtain ⟨frames, before⟩ := first rfl nodup
    obtain ⟨frames', after⟩ := second passed before.nodup
    exact ⟨frames ++ frames', before.trans after⟩

section

variable (shelf : Shelf known)

include shelf

theorem Moment.Poised.opens_once (poised : Moment.Poised known config ⟨.walk q start stop items, ev⟩)
    (memoize : config.memoize = true) : Opens Once q start stop items ev := by
  intro filled unknown unlimited fuel r₀ ev₀ expanded inner passed nodup
  obtain ⟨member, rfl, orderly, clear⟩ := poised
  have unmet := (not_met_iff orderly).mpr unknown
  obtain ⟨frames, advances⟩ := inner passed (nodup_enter unmet nodup)
  cases r₀ with
  | error => cases passed
  | ok reach =>
    have expanding := Expanding.of_expandBy filled unknown unlimited expanded
    obtain ⟨-, low?, new, piles⟩ := expanding.piles shelf member (List.append_nil _).symm orderly clear
    refine ⟨⟨q.id, start, stop, items⟩ :: frames, ?_⟩
    obtain ⟨_, -, -, same⟩ | ⟨-, same⟩ := settle_ok_cases ⟨q.id, start, stop, items⟩ ev.nextIndex
      ev.component.size reach (exit ⟨q.id, start, stop, items⟩ ev₀) <;> rw [same]
    · exact advances.suspend unmet _
    · exact advances.close unmet piles.ext orderly piles.orderly memoize nodup _

/-- A selection that passes has expanded each frame once. -/
theorem select_advances (member : q ∈ known) (resting : Resting ev) (memoize : ev.config.memoize = true)
    (ends : (select fuel q start stop items).Ends ev (.ok found) ev') :
    ∃ frames, Advances ev ev' frames := by
  have poised : Moment.Poised known ev.config
      ⟨.walk q start stop items, announce q start stop items ev⟩ :=
    (Passed.nil ev).poised shelf member resting.orderly (clear_of_closed resting.openSpots q) stop
  have keeps : (select fuel q start stop items).Keeps Once ev :=
    selectBy_keeps composes_once (visit_keeps composes_once fun q' start' stop' items' ev' follows =>
      (poised.follows shelf follows).opens_once shelf memoize)
  exact keeps ends rfl (resting.openSpots ▸ .nil)

end

end Evaluator

end GraphQuery
