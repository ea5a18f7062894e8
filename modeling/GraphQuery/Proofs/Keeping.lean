import GraphQuery.Proofs.Confinement
/-!
# Relations that runs keep

A relation between the states before and after a computation, which may depend on whether it has passed,
composes along a run if it holds where nothing of note is done and goes from one part to the next. Then
it is kept by all calls as soon as it is kept by the visits that expand a frame, which are the only
places where open frames and the cache change. It is kept up to every moment of a run as well.
-/

namespace GraphQuery

open EvalM

/-- The frame whose expansion an event reports. -/
def Event.expanded? : Event → Option Frame
  | .expanding f _ => some f
  | _ => none

namespace Evaluator

/-- The frames that have been expanded, in the order of their visits. -/
def expansions (ev : Evaluator) : List Frame :=
  ev.events.toList.filterMap Event.expanded?

theorem expansions_report {e : Event} (other : e.expanded? = none) (ev : Evaluator) :
    (report e ev).expansions = ev.expansions := by
  change (ev.events.push e).toList.filterMap Event.expanded? = _
  rw [Array.toList_push, List.filterMap_append, List.filterMap_cons_none other, List.filterMap_nil,
    List.append_nil]
  rfl

theorem expansions_enter (f : Frame) (ev : Evaluator) : (enter f ev).expansions = ev.expansions ++ [f] := by
  change (ev.events.push (.expanding f (ev.depth + 1))).toList.filterMap Event.expanded? = _
  rw [Array.toList_push, List.filterMap_append]
  rfl

/-- No frame was expanded, and counts and events apart, two states are the same. -/
structure Quiet (ev ev' : Evaluator) : Prop extends SameBut ev ev' where
  expansions : ev'.expansions = ev.expansions
  expanded : ev'.stats.expanded = ev.stats.expanded

theorem Quiet.refl (ev : Evaluator) : ev.Quiet ev :=
  ⟨⟨rfl, rfl, rfl, rfl, rfl, rfl, rfl⟩, rfl, rfl⟩

theorem Quiet.trans {ev ev₁ ev₂ : Evaluator} (first : ev.Quiet ev₁) (second : ev₁.Quiet ev₂) :
    ev.Quiet ev₂ where
  config := second.config.trans first.config
  depth := second.depth.trans first.depth
  component := second.component.trans first.component
  inProgress := second.inProgress.trans first.inProgress
  pending := second.pending.trans first.pending
  cache := second.cache.trans first.cache
  nextIndex := second.nextIndex.trans first.nextIndex
  expansions := second.expansions.trans first.expansions
  expanded := second.expanded.trans first.expanded

theorem Quiet.report {e : Event} (other : e.expanded? = none) (ev : Evaluator) :
    ev.Quiet (report e ev) :=
  ⟨⟨rfl, rfl, rfl, rfl, rfl, rfl, rfl⟩, expansions_report other ev, rfl⟩

theorem quiet_announce (q : Query) (start stop : Node) (items : ItemSet) (ev : Evaluator) :
    ev.Quiet (announce q start stop items ev) := by
  unfold announce
  split
  · exact Quiet.report rfl _
  · exact .refl _

theorem quiet_conclude (q : Query) (before : Evaluator) (r : Except Error Reach) (ev : Evaluator) :
    ev.Quiet (conclude q before r ev) := by
  unfold conclude
  repeat' split
  · exact .refl _
  · exact Quiet.report rfl _
  · exact .refl _

theorem quiet_consult (f : Frame) (ev : Evaluator) : ev.Quiet (consult f ev).2 where
  toSameBut := sameBut_consult f ev
  expansions := by
    unfold consult
    repeat' split
    · rfl
    · exact expansions_report rfl _
    · exact expansions_report rfl _
    · rfl
  expanded := by
    unfold consult
    repeat' split
    all_goals rfl

/-- A relation holds where nothing of note is done, and goes from what has passed to what follows. -/
structure Composes (R : Bool → Evaluator → Evaluator → Prop) : Prop where
  quiet : ∀ ok {ev ev' : Evaluator}, ev.Quiet ev' → R ok ev ev'
  trans : ∀ {ok : Bool} {ev ev₁ ev₂ : Evaluator}, R true ev ev₁ → R ok ev₁ ev₂ → R ok ev ev₂

end Evaluator

namespace EvalM

open Evaluator

variable {α β : Type} {R : Bool → Evaluator → Evaluator → Prop} {ev : Evaluator}

/-- From a state, a computation leads to related states only. -/
def Keeps (R : Bool → Evaluator → Evaluator → Prop) (x : EvalM α) (ev : Evaluator) : Prop :=
  ∀ ⦃r ev'⦄, x.Ends ev r ev' → R r.isOk ev ev'

namespace Keeps

variable (composes : Composes R)

include composes

theorem pure (a : α) : (Pure.pure a : EvalM α).Keeps R ev := by
  intro r ev' ends
  obtain ⟨rfl, rfl⟩ := ends_pure.mp ends
  exact composes.quiet _ (.refl ev')

theorem bind {x : EvalM α} {f : α → EvalM β} (first : x.Keeps R ev)
    (second : ∀ a ev₁, x.Ends ev (.ok a) ev₁ → (f a).Keeps R ev₁) : (x >>= f).Keeps R ev := by
  intro r ev' ends
  obtain ⟨e, failed, rfl⟩ | ⟨a, ev₁, passed, rest⟩ := ends_bind.mp ends
  · exact first failed
  · exact composes.trans (first passed) (second a ev₁ passed rest)

omit composes in
theorem noting {place : Unit → Place} {x : EvalM α} (inner : x.Keeps R ev) :
    (within place x).Keeps R ev := by
  intro r ev' ends
  obtain ⟨r₀, ended, rfl⟩ := ends_within.mp ends
  have kept := inner ended
  cases r₀ <;> exact kept

theorem composite : Composite fun _ x _ ev => x.Keeps R ev where
  returns a _ := pure composes a
  sequence := bind composes

theorem foldlM {γ : Type} {f : β → γ → EvalM β} {cs : List γ} {b : β}
    (step : ∀ before c after b' ev', cs = before ++ c :: after →
      (before.foldlM f b).Ends ev (.ok b') ev' → (f b' c).Keeps R ev') : (cs.foldlM f b).Keeps R ev :=
  (composite composes).foldlM (g := f) step

end Keeps

end EvalM

/-- An inquiry keeps what its selections keep. -/
theorem Inquiry.run_keeps {α : Type} {select : Selection → Item → EvalM ItemSet}
    {R : Bool → Evaluator → Evaluator → Prop} (composes : Evaluator.Composes R) {p : Inquiry α}
    {ev : Evaluator} (answers : ∀ s x ev', p.AsksIn select ev s x ev' → (select s x).Keeps R ev') :
    (p.run select).Keeps R ev := by
  induction p generalizing ev with
  | done outcome =>
    intro r ev' ends
    obtain ⟨rfl, rfl⟩ := ends_ofOutcome.mp ends
    exact composes.quiet _ (.refl ev')
  | ask s x next ih =>
    exact .bind composes (answers s x ev (.here s x next ev)) fun found ev₁ passed =>
      ih found fun t y ev' asksIn => answers t y ev' (.later passed asksIn)

/-- So it does up to each of them. -/
theorem Inquiry.AsksIn.kept {α : Type} {select : Selection → Item → EvalM ItemSet}
    {R : Bool → Evaluator → Evaluator → Prop} (composes : Evaluator.Composes R) {p : Inquiry α}
    {ev ev' : Evaluator} {s : Selection} {x : Item} (asksIn : p.AsksIn select ev s x ev')
    (answers : ∀ s x ev', p.AsksIn select ev s x ev' → (select s x).Keeps R ev') : R true ev ev' := by
  induction asksIn with
  | here => exact composes.quiet true (.refl _)
  | @later s t x y next found ev ev₁ ev₂ passed rest ih =>
    exact composes.trans (answers s x ev (.here s x next ev) passed)
      (ih fun t y ev' asksIn => answers t y ev' (.later passed asksIn))

namespace Evaluator

variable {q : Query} {start stop : Node} {items : ItemSet} {ev : Evaluator} {fuel : Nat}
  {R : Bool → Evaluator → Evaluator → Prop} (composes : Composes R)

/-- What expanding a frame keeps, the visit keeps that expands it. -/
def Opens (R : Bool → Evaluator → Evaluator → Prop) (q : Query) (start stop : Node) (items : ItemSet)
    (ev : Evaluator) : Prop :=
  items.isEmpty = false → (consult ⟨q.id, start, stop, items⟩ ev).1 = none → ev.limitReached? = none →
    ∀ fuel r₀ ev₀, (expandBy (visit fuel) q start stop items).Ends
      (enter ⟨q.id, start, stop, items⟩ ev) r₀ ev₀ →
    R r₀.isOk (enter ⟨q.id, start, stop, items⟩ ev) ev₀ →
    R r₀.isOk ev (settle ⟨q.id, start, stop, items⟩ ev.nextIndex ev.component.size r₀
      (exit ⟨q.id, start, stop, items⟩ ev₀)).2

theorem isOk_settle (f : Frame) (index mark : Nat) (r : Except Error Reach) (ev : Evaluator) :
    (settle f index mark r ev).1.isOk = r.isOk := by
  cases r with
  | error => rfl
  | ok reach =>
    obtain ⟨_, -, -, same⟩ | ⟨-, same⟩ := settle_ok_cases f index mark reach ev
    · rw [same]
    · rw [same]
      rfl

include composes

theorem selectBy_keeps {walk : Query → Node → Node → ItemSet → EvalM Reach}
    (walks : (walk q start stop items).Keeps R (announce q start stop items ev)) :
    (selectBy walk q start stop items).Keeps R ev := by
  intro r ev' ends
  obtain ⟨r₀, ev₀, ended, rfl, rfl⟩ := (selectBy_ends walk).mp ends
  have announced := composes.trans (composes.quiet true (quiet_announce q start stop items ev)) (walks ended)
  cases r₀ with
  | error => exact announced
  | ok reach => exact composes.trans announced (composes.quiet true (quiet_conclude q _ (.ok reach) ev₀))

theorem selectResultsBy_keeps
    (walks : ∀ before stop after ev₁, q.resultNodes = before ++ stop :: after →
      Passed q start items before ev ev₁ →
        (visit fuel q start stop items).Keeps R (announce q start stop items ev₁)) :
    (selectResultsBy (visit fuel) q start items).Keeps R ev :=
  selectResultsBy_composite (Keeps.composite composes) (visit fuel)
    fun before stop after ev₁ next passed =>
      selectBy_keeps composes (walks before stop after ev₁ next passed)

theorem nestedBy_keeps {s : Selection} {x : Item}
    (walks : ∀ q start stop items ev₁,
      Moment.SetsOff ⟨.nested s x, ev⟩ ⟨.walk q start stop items, ev₁⟩ →
        (visit fuel q start stop items).Keeps R ev₁) :
    (nestedBy (visit fuel) s x).Keeps R ev :=
  nestedBy_composite (D := fun y _ => y.Keeps R ev) (Keeps.composite composes) (visit fuel) .noting
    fun _ _ _ _ next passed => selectBy_keeps composes (walks _ _ _ _ _ (.selects passed next))

section

variable (walks : ∀ q' start' stop' items' ev',
  Moment.Follows ⟨.walk q start stop items, ev⟩ ⟨.walk q' start' stop' items', ev'⟩ →
    (visit fuel q' start' stop' items').Keeps R ev')

include walks

/-- The next operation of a frame that is being expanded keeps what the walks do that follow. -/
theorem Expanding.apply_keeps {before after : List (Arc × Operation)} {a : Arc} {op : Operation}
    {ev₁ : Evaluator} (expanding : Expanding q start stop items ev before ev₁)
    (next : q.steps start = before ++ (a, op) :: after) :
    (op.apply (nestedBy (visit fuel)) items).Keeps R ev₁ := by
  rw [op.apply_eq_run]
  exact Inquiry.run_keeps composes fun s x ev₂ asksIn => nestedBy_keeps composes
    fun _ _ _ _ _ setsOff => walks _ _ _ _ _ (.tail (.single (.asks expanding next asksIn)) setsOff)

/-- So does the whole step. -/
theorem Expanding.stepBy_keeps {before after : List (Arc × Operation)} {a : Arc} {op : Operation}
    {ev₁ : Evaluator} (expanding : Expanding q start stop items ev before ev₁)
    (next : q.steps start = before ++ (a, op) :: after) (found : Reach) :
    (stepBy (visit fuel) q stop items found a op).Keeps R ev₁ := by
  exact stepBy_composite (Keeps.composite composes) (visit fuel)
    (.noting (expanding.apply_keeps composes walks next)) fun _ _ applied filled =>
      .noting (walks _ _ _ _ _ (.single (.walks expanding next applied filled)))

theorem visitBy_keeps (opens : Opens R q start stop items ev) :
    (visitBy (visit fuel) q start stop items).Keeps R ev := by
  intro r ev' ends
  cases (visitBy_ends (visit fuel)).mp ends with
  | empty | limited => exact composes.quiet _ (.refl ev)
  | known => exact composes.quiet _ (quiet_consult _ ev)
  | @expanded r₀ _ ev₀ _ filled unknown unlimited expanded settled =>
    have passes : r.isOk = r₀.isOk := (congrArg (fun p => p.1.isOk) settled).trans (isOk_settle _ _ _ _ _)
    have left : ev' = _ := congrArg Prod.snd settled
    rw [passes, left]
    refine opens filled unknown unlimited fuel r₀ ev₀ expanded ?_
    suffices (expandBy (visit fuel) q start stop items).Keeps R (enter ⟨q.id, start, stop, items⟩ ev) from
      this expanded
    exact expandBy_composite (Keeps.composite composes) (visit fuel) filled unknown unlimited
      fun _ _ _ _ found _ expanding next => expanding.stepBy_keeps composes walks next found

end

/-- A walk keeps what is kept where frames are expanded in what follows from it. -/
theorem visit_keeps (opens : ∀ q' start' stop' items' ev',
      Moment.Follows ⟨.walk q start stop items, ev⟩ ⟨.walk q' start' stop' items', ev'⟩ →
        Opens R q' start' stop' items' ev') :
    (visit fuel q start stop items).Keeps R ev := by
  induction fuel generalizing q start stop items ev with
  | zero => exact fun _ _ ends => (not_ends_exhausted ends).elim
  | succ fuel ih =>
    exact visitBy_keeps composes (fun q' start' stop' items' ev' later =>
      ih fun q'' start'' stop'' items'' ev'' further =>
        opens q'' start'' stop'' items'' ev'' (later.trans further)) (opens q start stop items ev .refl)

/-- Selections that have passed keep what their walks do. -/
theorem Passed.kept {stops : List Node} {ev' : Evaluator} (passed : Passed q start items stops ev ev')
    (walks : ∀ before stop after ev₁ fuel, stops = before ++ stop :: after →
      Passed q start items before ev ev₁ →
        (visit fuel q start stop items).Keeps R (announce q start stop items ev₁)) : R true ev ev' := by
  induction passed with
  | nil => exact composes.quiet true (.refl _)
  | @cons stop stops fuel found ev ev₁ ev' first rest ih =>
    refine composes.trans (selectBy_keeps composes (walks [] stop stops ev fuel rfl (.nil ev)) first) ?_
    exact ih fun before stop' after ev₂ fuel split passed =>
      walks (stop :: before) stop' after ev₂ fuel (by rw [split]; rfl) (.cons first passed)

/-- So do the steps of an expansion that have been taken. -/
theorem Expanding.kept {steps rest : List (Arc × Operation)} {ev₁ : Evaluator}
    (expanding : Expanding q start stop items ev steps ev₁)
    (walks : ∀ fuel q' start' stop' items' ev',
      Moment.Follows ⟨.walk q start stop items, ev⟩ ⟨.walk q' start' stop' items', ev'⟩ →
        (visit fuel q' start' stop' items').Keeps R ev')
    (next : q.steps start = steps ++ rest) : R true (enter ⟨q.id, start, stop, items⟩ ev) ev₁ := by
  obtain ⟨filled, unknown, unlimited, fuel, reach, taken⟩ := expanding
  refine Keeps.foldlM composes (fun before step after found ev₁ split ended => ?_) taken
  have expanding : Expanding q start stop items ev before ev₁ :=
    ⟨filled, unknown, unlimited, fuel, found, ended⟩
  have next : q.steps start = before ++ step :: (after ++ rest) := by
    rw [next, split, List.append_assoc, List.cons_append]
  exact expanding.stepBy_keeps composes (walks fuel) next found

variable {m m' : Moment}

/-- What is kept where frames are expanded is kept from the work of a moment to what it sets off. -/
theorem Moment.SetsOff.kept (setsOff : m.SetsOff m')
    (opens : ∀ q start stop items ev, m.Follows ⟨.walk q start stop items, ev⟩ →
      Opens R q start stop items ev) : R true m.entered m'.state := by
  have walks {q : Query} {start stop : Node} {items : ItemSet} {ev : Evaluator} {fuel : Nat}
      (follows : m.Follows ⟨.walk q start stop items, ev⟩) : (visit fuel q start stop items).Keeps R ev :=
    visit_keeps composes fun _ _ _ _ _ later => opens _ _ _ _ _ (follows.trans later)
  cases setsOff with
  | @asks q start stop items ev ev₁ ev₂ steps rest a op fuel s x expanding next asksIn =>
    refine composes.trans (expanding.kept composes (fun _ _ _ _ _ _ => walks) next) ?_
    exact asksIn.kept composes fun t y ev' asks => nestedBy_keeps composes fun _ _ _ _ _ setsOff =>
      walks (.tail (.single (.asks expanding next asks)) setsOff)
  | @walks q start stop items reached ev ev₁ ev₂ steps rest a op fuel expanding next applied filled =>
    refine composes.trans (expanding.kept composes (fun _ _ _ _ _ _ => walks) next) ?_
    exact expanding.apply_keeps composes (fun _ _ _ _ _ => walks) next applied
  | @selects s x before after stop ev ev₁ passed next =>
    refine composes.trans (passed.kept composes fun stops stop' rest ev₂ fuel split passed => ?_)
      (composes.quiet true (quiet_announce ..))
    have next : s.stops = stops ++ stop' :: (rest ++ stop :: after) := by
      rw [next, split, List.append_assoc, List.cons_append]
    exact walks (.single (.selects passed next))

end Evaluator

end GraphQuery
