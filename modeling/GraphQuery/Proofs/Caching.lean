import Mathlib
import GraphQuery.Proofs.Asking
import GraphQuery.Proofs.Expansions
/-!
# What is cached leads to what is cached

Where results are cached, a frame that is cached has all the selections cached that operations need at
it. For this is so of every frame whose expansion has passed: the selections have passed before, nothing
that is cached is forgotten, and wherever an operation passes it has asked for what it needs on equal
sets. What it needs is left open here, but for this.
-/

namespace GraphQuery

open EvalM

/-- The frame of a selection that an operation makes for an item. -/
def Selection.frame (s : Selection) (x : Item) (stop : Node) : Frame :=
  ⟨s.query.id, s.start, stop, .singleton x s.inputType⟩

namespace Evaluator

variable {known queries : Set Query} {config : Config} {q r : Query} {start stop : Node}
  {items found : ItemSet} {fuel : Nat} {ev ev₁ ev₂ ev' : Evaluator} {f g : Frame} {k : Spot}

/-! Nothing is forgotten -/

/-- What was cached still is. -/
def Grows (ev ev' : Evaluator) : Prop :=
  ∀ k, ev.Cached k → ev'.Cached k

theorem grows_of_cache (same : ev'.cache = ev.cache) : ev.Grows ev' := by
  intro k
  unfold Cached
  rw [same]
  exact id

theorem Extends.grows {new : List Frame} (ext : ev.Extends ev' new) : ev.Grows ev' :=
  fun _ => ext.cached

theorem composes_grows : Composes fun _ => Grows where
  quiet _ _ _ quiet := grows_of_cache quiet.cache
  trans first second k cached := second k (first k cached)

theorem close_grows (mark : Nat) (found : ItemSet) (ev : Evaluator) :
    ev.Grows (close mark found ev).2 := by
  rintro _ ⟨f, items, rfl, hit⟩
  rw [close_eq]
  by_cases closed : ev.config.memoize = true ∧
    f.spot ∈ (ev.component.extract mark).toList.map Frame.spot
  · refine ⟨f, ((ev.component.extract mark).toList.foldl gather (found, ev.pending)).1, rfl, ?_⟩
    simp only [closed.1, if_true, getElem?_insert_all, if_pos closed.2]
  · refine ⟨f, items, rfl, ?_⟩
    cases memoize : ev.config.memoize with
    | false => simpa using hit
    | true =>
      have outside := fun member => closed ⟨memoize, member⟩
      simp only [if_true, getElem?_insert_all, if_neg outside, hit]

theorem visit_grows (fuel : Nat) (q : Query) (start stop : Node) (items : ItemSet) (ev : Evaluator) :
    (visit fuel q start stop items).Keeps (fun _ => Grows) ev := by
  refine visit_keeps composes_grows fun q start stop items ev _ => ?_
  intro _ _ _ _ r₀ ev₀ _ grows
  refine fun k cached => ?_
  have kept := grows k cached
  cases r₀ with
  | error => exact kept
  | ok reach =>
    obtain ⟨_, -, -, same⟩ | ⟨-, same⟩ := settle_ok_cases ⟨q.id, start, stop, items⟩ ev.nextIndex
      ev.component.size reach (exit ⟨q.id, start, stop, items⟩ ev₀) <;> rw [same]
    · exact kept
    · exact close_grows _ _ (exit _ ev₀) k kept

theorem nested_grows (fuel : Nat) (s : Selection) (x : Item) (ev : Evaluator) :
    (nestedBy (visit fuel) s x).Keeps (fun _ => Grows) ev :=
  nestedBy_keeps composes_grows fun q start stop items ev _ => visit_grows fuel q start stop items ev

theorem stepBy_grows (fuel : Nat) (q : Query) (stop : Node) (items : ItemSet) (found : Reach) (a : Arc)
    (op : Operation) (ev : Evaluator) :
    (stepBy (visit fuel) q stop items found a op).Keeps (fun _ => Grows) ev := by
  unfold stepBy
  refine .bind composes_grows (.noting ?_) fun reached ev₁ _ => ?_
  · rw [op.apply_eq_run]
    exact Inquiry.run_keeps composes_grows fun s x ev _ => nested_grows fuel s x ev
  · split
    · exact .pure composes_grows _
    · exact .bind composes_grows (.noting (visit_grows ..)) fun _ _ _ => .pure composes_grows _

/-! What has passed is cached -/

theorem passed_of_nested {s : Selection} {x : Item}
    (ends : (nestedBy (visit fuel) s x).Ends ev (.ok found) ev') :
    Passed s.query s.start (.singleton x s.inputType) s.stops ev ev' := by
  unfold nestedBy at ends
  obtain ⟨r₀, ended, same⟩ := ends_within.mp ends
  cases r₀ with
  | error => cases same
  | ok =>
    cases single : s.stop? with
    | some stop =>
      rw [single] at ended
      rw [Selection.stops, single]
      exact .cons ended (.nil ev')
    | none =>
      rw [single] at ended
      rw [Selection.stops, single]
      change (selectResultsBy _ _ _ _).Ends _ _ _ at ended
      unfold selectResultsBy at ended
      cases listed : s.query.resultNodes with
      | nil =>
        rw [listed] at ended
        obtain ⟨-, rfl⟩ := ends_pure.mp ended
        exact .nil ev'
      | cons stop stops =>
        rw [listed] at ended
        obtain ⟨first, ev₁, selected, rest⟩ := ended.of_bind
        exact .cons selected (passed_of_foldlM rest)

section

variable (col : Collection known)

include col

/-- A selection that passes leaves its frame cached. -/
theorem select_cached (member : q ∈ known) (truthful : Truthful known ev) (clear : Clear q ev)
    (memoize : ev.config.memoize = true) (filled : items.isEmpty = false)
    (ends : (select fuel q start stop items).Ends ev (.ok found) ev') :
    ev'.Cached (Frame.spot ⟨q.id, start, stop, items⟩) := by
  obtain ⟨r₀, ev₀, walked, same, rfl⟩ := (selectBy_ends _).mp ends
  cases r₀ with
  | error => cases same
  | ok reach =>
    have announced := sameBut_announce q start stop items ev
    have concluded := sameBut_conclude q (announce q start stop items ev) (.ok reach) ev₀
    have truthful₀ := truthful.of_sameBut announced
    have clear₀ := clear.extends announced.extends
    have visit := walks_visit col member (understood_of_stable col member).applies fuel
      (clear₀.ready truthful₀) filled walked
    cases visit with | ok after arrives
    have low : reach.low? = none := arrives.low_eq_none truthful₀ fun k reaches opened =>
      clear₀ q .refl k opened reaches.query
    refine grows_of_cache concluded.cache _ ?_
    cases arrives.covers with
    | settled settled =>
      refine settled.cached ?_
      rw [arrives.leaves.config, announced.config, memoize]
    | opened _ below =>
      obtain ⟨l, contra, -⟩ := below
      simp [low] at contra

/-- Selections that have passed one after the other are cached. -/
theorem Passed.cached {stops : List Node} (member : q ∈ known) (truthful : Truthful known ev)
    (clear : Clear q ev) (memoize : ev.config.memoize = true) (filled : items.isEmpty = false)
    (passed : Passed q start items stops ev ev') :
    ∀ stop ∈ stops, ev'.Cached (Frame.spot ⟨q.id, start, stop, items⟩) := by
  induction passed with
  | nil => exact nofun
  | @cons stop stops fuel found ev ev₁ ev' first rest ih =>
    obtain ⟨truthful₁, clear₁⟩ :=
      (Passed.cons first (.nil ev₁)).truthful col member truthful clear
    have returns := select_returns col.toShelf member truthful.toOrderly clear first
    have returns' := rest.returns col.toShelf member truthful₁.toOrderly clear₁
    refine List.forall_mem_cons.mpr ⟨?_, ih truthful₁ clear₁ (by rw [returns.ext.config, memoize])⟩
    exact returns'.ext.cached (select_cached col member truthful clear memoize filled first)

variable {P : Selection → Prop} (nested : ∀ s, P s → s.query ∈ known)

include nested

/-- What an inquiry that passes has asked for is cached. -/
theorem run_logs {α : Type} {p : Inquiry α} {a : α} (asks : p.AsksOnly P) (truthful : Truthful known ev)
    (clear : ∀ s, P s → Clear s.query ev) (memoize : ev.config.memoize = true)
    (ends : (p.run (nestedBy (visit fuel))).Ends ev (.ok a) ev') :
    ∃ log, p.Logs log a ∧
      ∀ s x, (s, x) ∈ log → ∀ stop ∈ s.stops, ev'.Cached (s.frame x stop).spot := by
  induction p generalizing ev with
  | done outcome =>
    obtain ⟨rfl, rfl⟩ := ends_ofOutcome.mp ends
    exact ⟨[], .done a, nofun⟩
  | ask s x next ih =>
    obtain ⟨found, ev₁, passed, rest⟩ := ends.of_bind
    have member := nested s asks.1
    obtain ⟨between, ext, answer⟩ := nested_answers col member (understood_of_stable col member)
      truthful (clear s asks.1) passed
    obtain ⟨log, logs, cached⟩ := ih found (asks.2 found) between
      (fun t holds => (clear t holds).extends ext) (by rw [ext.config, memoize]) rest
    refine ⟨(s, x) :: log, .ask (answer (.inl ⟨found, rfl⟩)) logs, fun t y asked stop ends => ?_⟩
    obtain asked | asked := List.mem_cons.mp asked
    · cases asked
      have grows := Inquiry.run_keeps composes_grows (fun s x ev _ => nested_grows fuel s x ev) rest
      exact grows _ ((passed_of_nested passed).cached col member truthful (clear s asks.1) memoize
        (ItemSet.isEmpty_singleton x s.inputType) stop ends)
    · exact cached t y asked stop ends

end

/-! What is needed is cached -/

section

variable (needs : Operation → ItemSet → Selection → Item → Prop)

/-- All selections are cached that operations need at a frame. -/
def Provided (ev : Evaluator) (q : Query) (f : Frame) : Prop :=
  ∀ a op, (a, op) ∈ q.steps f.start → ∀ s x, needs op f.items s x →
    ∀ stop ∈ s.stops, ev.Cached (s.frame x stop).spot

/-- A frame has been expanded: it is cached, or pending. -/
def Expanded (ev : Evaluator) (f : Frame) : Prop :=
  ev.Cached f.spot ∨ ∃ p, ev.pending[f]? = some p

/-- An evaluator caches results, and has cached all selections that operations need at frames that it has
expanded. -/
structure Thorough (known : Set Query) (ev : Evaluator) : Prop where
  memoize : ev.config.memoize = true
  provided : ∀ q ∈ known, ∀ f : Frame, f.query = q.id → ev.Expanded f → Provided needs ev q f

/-- Computations leave an evaluator thorough if it was. -/
def StaysThorough (known : Set Query) (_ : Bool) (ev ev' : Evaluator) : Prop :=
  Thorough needs known ev → Thorough needs known ev'

end

variable {needs : Operation → ItemSet → Selection → Item → Prop}

theorem Provided.grow (provided : Provided needs ev q f) (grows : ev.Grows ev') :
    Provided needs ev' q f :=
  fun a op listed s x needed stop ends => grows _ (provided a op listed s x needed stop ends)

theorem thorough_of_sameBut (same : ev.SameBut ev') (thorough : Thorough needs known ev) :
    Thorough needs known ev' where
  memoize := by rw [same.config, thorough.memoize]
  provided q member f query expanded := by
    refine (thorough.provided q member f query ?_).grow (grows_of_cache same.cache)
    unfold Expanded Cached at *
    rwa [same.cache, same.pending] at expanded

theorem composes_thorough : Composes (StaysThorough needs known) where
  quiet _ _ _ quiet := thorough_of_sameBut quiet.toSameBut
  trans first second thorough := second (first thorough)

/-- An evaluator is thorough if each frame that it has expanded was expanded already in one of two
thorough states, or is provided for since the second of them. -/
theorem Thorough.join (before : Thorough needs known ev) (after : Thorough needs known ev₁)
    (memoize : ev'.config.memoize = true) (grows : ev.Grows ev') (grows₁ : ev₁.Grows ev')
    (origin : ∀ f : Frame, ev'.Expanded f → ev.Expanded f ∨ ev₁.Expanded f ∨
      ∀ q ∈ known, f.query = q.id → Provided needs ev₁ q f) : Thorough needs known ev' where
  memoize := memoize
  provided q member f query expanded := by
    obtain old | recent | provided := origin f expanded
    · exact (before.provided q member f query old).grow grows
    · exact (after.provided q member f query recent).grow grows₁
    · exact (provided q member query).grow grows₁

/-- What is taken of a list of steps that have passed passes on its own. -/
theorem ends_split {β γ : Type} {step : β → γ → EvalM β} {before after : List γ} {c : γ} {b b' : β}
    (ends : ((before ++ c :: after).foldlM step b).Ends ev (.ok b') ev') :
    ∃ b₁ ev₁ b₂ ev₂, (before.foldlM step b).Ends ev (.ok b₁) ev₁ ∧ (step b₁ c).Ends ev₁ (.ok b₂) ev₂ ∧
      (after.foldlM step b₂).Ends ev₂ (.ok b') ev' := by
  rw [List.foldlM_append] at ends
  obtain ⟨b₁, ev₁, first, rest⟩ := ends.of_bind
  rw [List.foldlM_cons] at rest
  obtain ⟨b₂, ev₂, here, later⟩ := rest.of_bind
  exact ⟨b₁, ev₁, b₂, ev₂, first, here, later⟩

section

variable (col : Collection known) (heeds : ∀ q ∈ known, ∀ op ∈ q.operations, op.Heeds (needs op))

include col heeds

/-- At a frame whose expansion has passed, everything is cached that operations need, and so it is at
all equal frames. -/
theorem provided_of_expanded (member : q ∈ known) (ready : Ready known q ev)
    (memoize : ev.config.memoize = true) (filled : items.isEmpty = false)
    (unknown : (consult ⟨q.id, start, stop, items⟩ ev).1 = none) (unlimited : ev.limitReached? = none)
    {reach : Reach} (taken : ((q.steps start).foldlM (fun found (a, op) =>
        stepBy (visit fuel) q stop items found a op)
        ⟨if start = stop then items else .empty stop.inputType, none⟩).Ends
      (enter ⟨q.id, start, stop, items⟩ ev) (.ok reach) ev')
    (same : g.spot = Frame.spot ⟨q.id, start, stop, items⟩) : Provided needs ev' q g := by
  intro a op listed s x needed last ends
  obtain ⟨-, rfl, -, equal⟩ := Spot.mk.inj same
  obtain ⟨before, after, split⟩ := List.append_of_mem listed
  rw [split] at taken
  obtain ⟨reach₁, ev₁, _, ev₂, first, here, later⟩ := ends_split taken
  have expanding : Expanding q g.start stop items ev before ev₁ :=
    ⟨filled, unknown, unlimited, fuel, reach₁, first⟩
  have ready₁ := expanding.ready col member split ready
  obtain ⟨_, -, contra⟩ | ⟨reached, ev₀, applied, rest⟩ := (stepBy_ends _).mp here
  · cases contra
  have listed' := Query.mem_operations_of_mem_steps listed
  have nests {t : Selection} (selects : t ∈ op.selections) : q.Nests t.query :=
    ⟨op, listed', t, selects, rfl⟩
  obtain ⟨-, _, _, piles⟩ :=
    expanding.piles col.toShelf member split ready.truthful.toOrderly ready.clear
  have memoize₁ : ev₁.config.memoize = true := (congrArg Config.memoize piles.ext.config).trans memoize
  rw [op.apply_eq_run] at applied
  obtain ⟨log, logs, cached⟩ := run_logs col
    (fun t selects => col.closed q member t.query (nests selects)) (op.inquiry_asksOnly items)
    ready₁.truthful (fun t selects => ready₁.clear t.query (nests selects)) memoize₁ applied
  -- whatever is needed at the equal frame was asked for here
  obtain ⟨y, asked, equal'⟩ := heeds q member op listed' equal.symm logs needed
  have hit := cached s y asked last ends
  have frame : (s.frame y last).spot = (s.frame x last).spot := by
    simp only [Selection.frame, Frame.spot, ItemSet.essence_singleton equal']
  rw [← frame]
  -- and nothing is forgotten until all steps are taken
  have grows : ev₀.Grows ev₂ := by
    split at rest
    · obtain ⟨-, rfl⟩ := rest
      exact fun _ => id
    · obtain ⟨r₀, walked, -⟩ := rest
      exact visit_grows _ _ _ _ _ _ walked
  have grows' : ev₂.Grows ev' :=
    Keeps.foldlM composes_grows (fun _ c _ b ev _ _ => stepBy_grows fuel q stop items b c.1 c.2 ev) later
  exact grows' _ (grows _ hit)

/-- A visit that expands a frame leaves an evaluator thorough if the visits that it sets off do. -/
theorem Moment.Honest.opens_thorough
    (honest : Moment.Honest known ⟨.walk q start stop items, ev⟩) :
    Opens (StaysThorough needs known) q start stop items ev := by
  intro filled unknown unlimited fuel r₀ ev₀ expanded inner before
  obtain ⟨member, ready⟩ := honest
  obtain ⟨uncached, unopened⟩ := consult_eq_none.mp unknown
  have entered := ready.enter col member (f := ⟨q.id, start, stop, items⟩) rfl unopened uncached
  have after := inner ⟨before.memoize, before.provided⟩
  obtain ⟨r, taken, rfl⟩ := (expandBy_ends _).mp expanded
  have applies := (understood_of_stable col member).applies
  have stepped := foldlM_stepped col member (walks_visit col member applies fuel) (applies fuel)
    (f := ⟨q.id, start, stop, items⟩) rfl filled entered entered.truthful (.start q _ _)
    (fun _ => id) taken
  rw [List.nil_append] at stepped
  cases stepped with
  | error _ ext =>
    have ext' := abandon_extends unopened ext
    refine before.join after after.memoize ext'.grows (fun _ => id) fun g expanded => ?_
    obtain cached | ⟨p, hit⟩ := expanded
    · exact .inr (.inl (.inl cached))
    · exact .inl (.inr ⟨p, (ext'.pending g List.not_mem_nil).symm.trans hit⟩)
  | @ok reach _ new truthful progress =>
    have ext := progress.leaves.toExtends
    have own (g : Frame) (same : g.spot = Frame.spot ⟨q.id, start, stop, items⟩) (r : Query)
        (known' : r ∈ known) (query : g.query = r.id) : Provided needs ev₀ r g := by
      obtain rfl : q = r :=
        col.numbered q member r known' ((congrArg Spot.query same).symm.trans query)
      exact provided_of_expanded col heeds member ready before.memoize filled unknown unlimited
        taken same
    -- what is cached or pending now was so before this visit settled, or it is of the frame itself
    obtain ⟨_, -, -, settled⟩ | ⟨-, settled⟩ := settle_ok_cases ⟨q.id, start, stop, items⟩ ev.nextIndex
      ev.component.size ⟨reach.items.withType stop.inputType, reach.low?⟩
      (exit ⟨q.id, start, stop, items⟩ ev₀) <;> rw [Except.map, settled]
    · refine before.join after after.memoize (suspend_extends unopened ext _).grows (fun _ => id)
        fun g expanded => ?_
      obtain cached | ⟨p, hit⟩ := expanded
      · exact .inr (.inl (.inl cached))
      · rw [pending_suspend] at hit
        split at hit
        · next same => exact .inr (.inr (own g same.symm))
        · exact .inr (.inl (.inr ⟨p, hit⟩))
    · have ext' := close_extends (reach.items.withType stop.inputType) ext unopened truthful.disjoint
      refine before.join after (by rw [ext'.config, before.memoize]) ext'.grows
        (close_grows _ _ (exit ⟨q.id, start, stop, items⟩ ev₀)) fun g expanded => ?_
      obtain cached | ⟨p, hit⟩ := expanded
      · obtain ⟨-, closed⟩ | cached := (Orderly.cached_close ext _).mp cached
        · obtain ⟨h, among, same⟩ := List.mem_map.mp closed
          obtain rfl | recent := List.mem_cons.mp among
          · exact .inr (.inr (own g same.symm))
          · obtain ⟨p, hit, -⟩ := (progress.leaves.pends h recent).pending
            exact .inr (.inl (.inr ⟨p, (getElem?_of_spot _ same).symm.trans hit⟩))
        · exact .inr (.inl (.inl cached))
      · exact .inl (.inr ⟨p, (ext'.pending g List.not_mem_nil).symm.trans hit⟩)

theorem visit_thorough (honest : Moment.Honest known ⟨.walk q start stop items, ev⟩) :
    (visit fuel q start stop items).Keeps (StaysThorough needs known) ev :=
  visit_keeps composes_thorough fun _ _ _ _ _ follows =>
    (honest.follows col follows).opens_thorough col heeds

/-- A call leaves an evaluator thorough. -/
theorem Selecting.thorough (included : queries ⊆ known) (truthful : Truthful known ev)
    (closed : ev.openSpots = []) (call : Selecting queries ev ev')
    (thorough : Thorough needs known ev) : Thorough needs known ev' := by
  have walks {q : Query} {start stop : Node} {items : ItemSet} {ev₁ : Evaluator} {fuel : Nat}
      (begins : Begins queries ev ⟨.walk q start stop items, ev₁⟩) :
      (visit fuel q start stop items).Keeps (StaysThorough needs known) ev₁ :=
    visit_thorough col heeds (begins.honest col included truthful closed)
  cases call with
  | select member ends => exact selectBy_keeps composes_thorough (walks (.select member ..)) ends thorough
  | selectResults member ends =>
    exact selectResultsBy_keeps composes_thorough (fun _ _ _ _ next passed =>
      walks (.selectResults member passed next)) ends thorough

/-- Between calls, an evaluator that caches results is thorough. -/
theorem Serves.thorough (included : queries ⊆ known) (serves : Serves queries config ev)
    (memoize : config.memoize = true) : Thorough needs known ev := by
  induction serves with
  | nothing =>
    refine ⟨memoize, fun q _ f _ expanded => ?_⟩
    obtain ⟨_, _, -, hit⟩ | ⟨_, hit⟩ := expanded <;> simp [started] at hit
  | selecting before call ih =>
    have resting := (before.resting col.toShelf included).1
    exact call.thorough col heeds included (before.truthful col included) resting.openSpots ih
  | @clearCache ev before ih =>
    have resting := (before.resting col.toShelf included).1
    refine ⟨ih.memoize, fun q _ f _ expanded => ?_⟩
    obtain ⟨_, _, -, hit⟩ | ⟨_, hit⟩ := expanded
    · cases Std.HashMap.getElem?_empty.symm.trans hit
    · have none : ev.pending[f]? = none := Std.HashMap.getElem?_of_isEmpty resting.pending
      cases none.symm.trans hit

end

end Evaluator

end GraphQuery
