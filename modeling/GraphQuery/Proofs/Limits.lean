import Mathlib
import GraphQuery.Proofs.Blame
import GraphQuery.Proofs.Termination
/-!
# The limit on depth

The limit is looked at in one place only, where a frame is about to be expanded. A run that does not
give up there ends as it does with any other limit that is not reached there either: with the same
outcome, and in the same state but for the limit. Nothing on the way out of a run takes an error for
anything else, so a run that gives up somewhere fails, and its error says where.
-/

namespace GraphQuery

open EvalM

namespace Evaluator

/-- The evaluator with another limit on nesting. -/
def withLimit (limit? : Option Nat) (ev : Evaluator) : Evaluator :=
  { ev with config.maxDepth? := limit? }

section

variable {limit? : Option Nat} {ev : Evaluator}

theorem limitReached_withLimit :
    (ev.withLimit limit?).limitReached? = limit?.filter (· ≤ ev.depth) := rfl

theorem announce_withLimit (q : Query) (start stop : Node) (items : ItemSet) :
    announce q start stop items (ev.withLimit limit?) =
      (announce q start stop items ev).withLimit limit? := by
  unfold announce
  rw [apply_ite (withLimit limit?)]
  rfl

theorem conclude_withLimit (q : Query) (before : Evaluator) (r : Except Error Reach) :
    conclude q (before.withLimit limit?) r (ev.withLimit limit?) =
      (conclude q before r ev).withLimit limit? := by
  cases r with
  | error => rfl
  | ok reach =>
    unfold conclude
    rw [apply_ite (withLimit limit?)]
    rfl

theorem consult_withLimit (f : Frame) : consult f (ev.withLimit limit?) =
    ((consult f ev).1, (consult f ev).2.withLimit limit?) := by
  unfold consult
  cases cached : ev.cache[f]? with
  | some => simp [withLimit, cached]
  | none =>
    cases progress : ev.inProgress[f]? with
    | some => simp [withLimit, report, cached, progress]
    | none => cases pending : ev.pending[f]? <;> simp [withLimit, report, cached, progress, pending]

theorem settle_withLimit (f : Frame) (index mark : Nat) (r : Except Error Reach) :
    settle f index mark r (ev.withLimit limit?) =
      ((settle f index mark r ev).1, (settle f index mark r ev).2.withLimit limit?) := by
  cases r with
  | error => rfl
  | ok reach =>
    simp only [settle]
    split <;> rfl

/-- Only a failed expansion makes a visit fail. -/
theorem settle_eq_error {f : Frame} {index mark : Nat} {r : Except Error Reach} {e : Error}
    (failed : (settle f index mark r ev).1 = .error e) : r = .error e := by
  cases r with
  | error => exact failed
  | ok reach =>
    obtain ⟨_, -, -, same⟩ | ⟨-, same⟩ := settle_ok_cases f index mark reach ev <;>
      simp [same] at failed

end

end Evaluator

namespace EvalM

open Evaluator

variable {α β : Type} {limit? : Option Nat} {P Q : Origin → Error → Prop} {ev : Evaluator}

/-- From a state, the computation gives up, or it ends as it does with another limit. There is a
reason for every error. -/
def Bears (limit? : Option Nat) (P : Origin → Error → Prop) (x : EvalM α) (ev : Evaluator) : Prop :=
  ∀ ⦃r ev'⦄, x.Ends ev r ev' → (∃ e, r = .error e ∧ P .limit e) ∨
    x.Ends (ev.withLimit limit?) r (ev'.withLimit limit?) ∧ ∀ e, r = .error e → P .operation e

namespace Bears

theorem pure (a : α) : (Pure.pure a : EvalM α).Bears limit? P ev := by
  intro r ev' ends
  obtain ⟨rfl, rfl⟩ := ends_pure.mp ends
  exact .inr ⟨ends_pure.mpr ⟨rfl, rfl⟩, nofun⟩

theorem bind {x : EvalM α} {f : α → EvalM β} (first : x.Bears limit? P ev)
    (second : ∀ a ev₁, x.Ends ev (.ok a) ev₁ → (f a).Bears limit? P ev₁) :
    (x >>= f).Bears limit? P ev := by
  intro r ev' ends
  obtain ⟨e, failed, rfl⟩ | ⟨a, ev₁, passed, rest⟩ := ends_bind.mp ends
  · obtain ⟨_, ⟨⟩, gaveUp⟩ | ⟨failed', reason⟩ := first failed
    · exact .inl ⟨e, rfl, gaveUp⟩
    · exact .inr ⟨ends_bind.mpr (.inl ⟨e, failed', rfl⟩), fun _ same => Except.error.inj same ▸ reason e rfl⟩
  · obtain ⟨_, ⟨⟩, -⟩ | ⟨passed', -⟩ := first passed
    obtain gaveUp | ⟨rest', reason⟩ := second a ev₁ passed rest
    · exact .inl gaveUp
    · exact .inr ⟨ends_bind.mpr (.inr ⟨a, _, passed', rest'⟩), reason⟩

theorem noting {place : Unit → Place} {x : EvalM α}
    (inner : x.Bears limit? (fun o e => P o (e.through (place ()))) ev) :
    (within place x).Bears limit? P ev := by
  intro r ev' ends
  obtain ⟨r₀, ended, rfl⟩ := ends_within.mp ends
  obtain ⟨e, rfl, gaveUp⟩ | ⟨ended', reason⟩ := inner ended
  · exact .inl ⟨_, rfl, gaveUp⟩
  · refine .inr ⟨ends_within.mpr ⟨r₀, ended', rfl⟩, fun d same => ?_⟩
    cases r₀ with
    | ok => cases same
    | error e => exact Except.error.inj same ▸ reason e rfl

/-- What is known of an error may use that the computation failed with it. -/
theorem mono {x : EvalM α} (bears : x.Bears limit? P ev)
    (imp : ∀ o e ev', x.Ends ev (.error e) ev' → P o e → Q o e) : x.Bears limit? Q ev := by
  intro r ev' ends
  obtain ⟨e, rfl, gaveUp⟩ | ⟨ends', reason⟩ := bears ends
  · exact .inl ⟨e, rfl, imp .limit e ev' ends gaveUp⟩
  · refine .inr ⟨ends', ?_⟩
    rintro e rfl
    exact imp .operation e ev' ends (reason e rfl)

theorem composite : Composite fun _ x _ ev => x.Bears limit? P ev where
  returns a _ := pure a
  sequence := bind

end Bears

end EvalM

/-- An inquiry bears what its selections bear. -/
theorem Inquiry.run_bears {α : Type} {select : Selection → Item → EvalM ItemSet} {limit? : Option Nat}
    {P : Evaluator.Origin → Error → Prop} {p : Inquiry α} {ev : Evaluator}
    (answers : ∀ s x ev', p.AsksIn select ev s x ev' → (select s x).Bears limit? P ev')
    (raises : ∀ e, p.Raises select ev e → P .operation e) : (p.run select).Bears limit? P ev := by
  induction p generalizing ev with
  | done outcome =>
    intro r ev' ends
    obtain ⟨rfl, rfl⟩ := ends_ofOutcome.mp ends
    refine .inr ⟨ends_ofOutcome.mpr ⟨rfl, rfl⟩, ?_⟩
    rintro e rfl
    exact raises e (.here e ev')
  | ask s x next ih =>
    exact (answers s x ev (.here s x next ev)).bind fun found ev₁ passed =>
      ih found (fun t y ev' asksIn => answers t y ev' (.later passed asksIn))
        fun e failed => raises e (.later passed failed)

namespace Evaluator

variable {known queries : Set Query} {config : Config} {q : Query} {start stop : Node}
  {items : ItemSet} {ev : Evaluator} {fuel : Nat} {limit? : Option Nat} {m : Moment}

section

variable {walk : Query → Node → Node → ItemSet → EvalM Reach} {P : Origin → Error → Prop}

theorem selectBy_bears
    (walks : (walk q start stop items).Bears limit? P (announce q start stop items ev)) :
    (selectBy walk q start stop items).Bears limit? P ev := by
  intro r ev' ends
  obtain ⟨r₀, ev₀, ended, rfl, rfl⟩ := (selectBy_ends walk).mp ends
  obtain ⟨e, rfl, gaveUp⟩ | ⟨ended', reason⟩ := walks ended
  · exact .inl ⟨e, rfl, gaveUp⟩
  · refine .inr ⟨(selectBy_ends walk).mpr ⟨r₀, ev₀.withLimit limit?, ?_, rfl, ?_⟩, fun e same => ?_⟩
    · rwa [announce_withLimit]
    · rw [announce_withLimit, conclude_withLimit]
    · cases r₀ with
      | ok => cases same
      | error => exact reason e (congrArg Except.error (Except.error.inj same))

theorem nestedBy_bears {s : Selection} {x : Item}
    (walks : ∀ q start stop items ev₁,
      Moment.SetsOff ⟨.nested s x, ev⟩ ⟨.walk q start stop items, ev₁⟩ →
        (visit fuel q start stop items).Bears limit? (fun o e => P o (e.through (.nested s.text x)))
          ev₁) :
    (nestedBy (visit fuel) s x).Bears limit? P ev :=
  nestedBy_composite (D := fun y _ => y.Bears limit? P ev) Bears.composite (visit fuel) .noting
    fun _ _ _ _ next passed => selectBy_bears (walks _ _ _ _ _ (.selects passed next))

end

/-- One visit bears what the walks bear that it sets off, if it may expand its frame with the other
limit too. -/
theorem visitBy_bears
    (looser : ev.limitReached? = none → (ev.withLimit limit?).limitReached? = none)
    (walks : ∀ q' start' stop' items' ev',
      Moment.Follows ⟨.walk q start stop items, ev⟩ ⟨.walk q' start' stop' items', ev'⟩ →
        (visit fuel q' start' stop' items').Bears limit?
          (fun o e => Spelled o ⟨.walk q' start' stop' items', ev'⟩ e) ev') :
    (visitBy (visit fuel) q start stop items).Bears limit?
      (fun o e => Spelled o ⟨.walk q start stop items, ev⟩ e) ev := by
  intro r ev' ends
  cases (visitBy_ends (visit fuel)).mp ends with
  | empty empty => exact .inr ⟨(visitBy_ends _).mpr (.empty empty), nofun⟩
  | @known reach filled known =>
    refine .inr ⟨(visitBy_ends _).mpr ?_, nofun⟩
    have known' : (consult ⟨q.id, start, stop, items⟩ (ev.withLimit limit?)).1 = some reach := by
      rw [consult_withLimit]
      exact known
    have visited : Visited (visit fuel) q start stop items (ev.withLimit limit?) _ _ :=
      .known filled known'
    rwa [consult_withLimit] at visited
  | limited filled unknown limited => exact .inl ⟨_, rfl, .limited (.nil _) filled unknown limited⟩
  | @expanded r₀ _ ev₀ _ filled unknown unlimited expanded settled =>
    suffices (expandBy (visit fuel) q start stop items).Bears limit?
        (fun o e => Spelled o ⟨.walk q start stop items, ev⟩ e)
        (enter ⟨q.id, start, stop, items⟩ ev) by
      obtain ⟨rfl, rfl⟩ := Prod.mk.inj settled
      obtain ⟨e, rfl, gaveUp⟩ | ⟨expanded', reason⟩ := this expanded
      · exact .inl ⟨e, rfl, gaveUp⟩
      · refine .inr ⟨(visitBy_ends _).mpr (.expanded filled ?_ (looser unlimited) expanded' ?_),
          fun e failed => reason e (settle_eq_error failed)⟩
        · rw [consult_withLimit]
          exact unknown
        · exact (settle_withLimit _ _ _ r₀).symm
    refine expandBy_composite Bears.composite (visit fuel) filled unknown unlimited
      fun before a op after found ev₁ expanding next => ?_
    -- First what the operation says, and then that it said so to the walk.
    have applies : (op.apply (nestedBy (visit fuel)) items).Bears limit?
        (fun o d => o = .operation ∧ (op.inquiry items).Raises (nested fuel) ev₁ d ∨
          ∃ s x ev₂ m' e, (op.inquiry items).AsksIn (nested fuel) ev₁ s x ev₂ ∧
            Moment.SetsOff ⟨.nested s x, ev₂⟩ m' ∧ Spelled o m' e ∧ d = e.through (.nested s.text x))
        ev₁ := by
      rw [op.apply_eq_run]
      refine Inquiry.run_bears (fun s x ev₂ asksIn => nestedBy_bears fun _ _ _ _ _ setsOff => ?_)
        fun d raises => .inl ⟨rfl, raises⟩
      exact (walks _ _ _ _ _ (.tail (.single (.asks expanding next asksIn)) setsOff)).mono
        fun o e _ _ spelled => .inr ⟨s, x, ev₂, _, e, asksIn, setsOff, spelled, rfl⟩
    refine stepBy_composite Bears.composite (visit fuel) (.noting (applies.mono ?_))
      fun reached ev₂ applied filled => .noting ?_
    · rintro o d ev₂ failed (⟨rfl, raises⟩ | ⟨s, x, ev₃, m', e, asksIn, setsOff, spelled, rfl⟩)
      · exact .raised (.nil _) expanding next failed raises
      · exact .passed (.nil _) expanding next failed asksIn setsOff spelled
    · exact (walks _ _ _ _ _ (.single (.walks expanding next applied filled))).mono
        fun o e _ _ spelled => .walking expanding next applied filled spelled

/-- If every frame that is expanded may be expanded with the other limit too, a walk gives up or ends as
it does with that limit, and its error is spelled. -/
theorem visit_bears {first : Moment}
    (looser : ∀ q start stop items ev, first.Follows ⟨.walk q start stop items, ev⟩ →
      ev.limitReached? = none → (ev.withLimit limit?).limitReached? = none)
    (follows : first.Follows ⟨.walk q start stop items, ev⟩) :
    (visit fuel q start stop items).Bears limit?
      (fun o e => Spelled o ⟨.walk q start stop items, ev⟩ e) ev := by
  induction fuel generalizing q start stop items ev with
  | zero => exact fun _ _ ends => (not_ends_exhausted ends).elim
  | succ fuel ih =>
    exact visitBy_bears (looser q start stop items ev follows) fun q' start' stop' items' ev' later =>
      ih (follows.trans later)

/-! How deep a limited run nests -/

/-- What gives up does so at the limit. -/
theorem Moment.SetsOff.unlimited {m' : Moment} (setsOff : Moment.SetsOff ⟨.walk q start stop items, ev⟩ m') :
    ev.limitReached? = none := by
  cases setsOff with
  | asks expanding => exact expanding.unlimited
  | walks expanding => exact expanding.unlimited

theorem limitReached_eq_some {limit : Nat} : ev.limitReached? = some limit ↔
    ev.config.maxDepth? = some limit ∧ limit ≤ ev.depth := by
  rw [limitReached?, Option.filter_eq_some_iff, decide_eq_true_iff]

theorem depth_lt_of_unlimited {limit : Nat} (limited : ev.config.maxDepth? = some limit)
    (unlimited : ev.limitReached? = none) : ev.depth < limit := by
  rw [limitReached?, limited, Option.filter_some] at unlimited
  split at unlimited
  · cases unlimited
  · next high => exact Nat.lt_of_not_le fun low => high (decide_eq_true low)

section

variable (shelf : Shelf known)

include shelf

/-- What is set off is one frame deeper, if a frame is expanded for it. -/
theorem Moment.Poised.depth_eq {m' : Moment} (poised : m.Poised known config) (setsOff : m.SetsOff m') :
    m'.state.depth = m.entered.depth := by
  obtain ⟨-, new, grows⟩ := poised.setsOff shelf setsOff
  exact grows.depth

variable {limit : Nat} (limited : config.maxDepth? = some limit)

include limited

/-- No more frames are nested than the limit allows. -/
theorem Moment.Poised.depth_le {m' : Moment} (poised : m.Poised known config)
    (shallow : m.state.depth ≤ limit) (setsOff : m.SetsOff m') : m'.state.depth ≤ limit := by
  rw [poised.depth_eq shelf setsOff]
  obtain ⟨job, ev⟩ := m
  cases job with
  | nested => exact shallow
  | walk =>
    obtain ⟨-, rfl, -⟩ := poised
    exact depth_lt_of_unlimited limited setsOff.unlimited

theorem Moment.Poised.depth_le_of_follows {m' : Moment} (poised : m.Poised known config)
    (shallow : m.state.depth ≤ limit) (follows : m.Follows m') : m'.state.depth ≤ limit := by
  induction follows with
  | refl => exact shallow
  | tail follows setsOff ih => exact (poised.follows shelf follows).depth_le shelf limited ih setsOff

/-- A walk ends if it may nest one frame more than the limit allows. -/
theorem visit_halts_of_limit (poised : Moment.Poised known config ⟨.walk q start stop items, ev⟩)
    (shallow : ev.depth ≤ limit) (enough : limit < fuel + ev.depth) :
    (visit fuel q start stop items).Halts ev := by
  induction fuel generalizing q start stop items ev with
  | zero => omega
  | succ fuel ih =>
    refine visitBy_halts fun q' start' stop' items' ev' goesOn => ?_
    have deeper := poised.depth_lt shelf goesOn
    have shallow' := poised.depth_le_of_follows shelf limited shallow goesOn.follows
    dsimp only at deeper shallow'
    exact ih (poised.follows shelf goesOn.follows) shallow' (by omega)

omit limited in
/-- The evaluator gives up for its own limit only. -/
theorem Spelled.cause_of_limit {o : Origin} {e : Error} (poised : m.Poised known config)
    (spelled : Spelled o m e) (gaveUp : o = .limit) :
    ∃ limit, config.maxDepth? = some limit ∧ e.cause = .depthExceeded limit := by
  induction spelled with
  | @limited m arcs q start stop items ev limit along _ _ reached =>
    obtain ⟨-, rfl, -⟩ := poised.follows shelf along.follows
    exact ⟨limit, (limitReached_eq_some.mp reached).1, rfl⟩
  | raised => cases gaveUp
  | passed along expanding next _ asksIn setsOff _ ih =>
    refine ih (poised.follows shelf (along.follows.trans ?_)) gaveUp
    exact .tail (.single (.asks expanding next asksIn)) setsOff

end

theorem Resting.withLimit (resting : Resting ev) (limit? : Option Nat) : Resting (ev.withLimit limit?) where
  orderly := ⟨resting.orderly.opened, resting.orderly.index_lt, resting.orderly.disjoint⟩
  inProgress := resting.inProgress
  pending := resting.pending
  component := resting.component
  depth := resting.depth

/-- Whatever calls have been made, a selection ends under a limit on depth. If it passes, or fails with an
error that does not come from the limit, then it does the same under every larger limit and under none:
its outcome is the same, and so is all of the state that it leaves, the cache and the counts included.
What comes from the limit is an error that names it. -/
theorem select_within_limit (numbered : Query.Numbered queries) (serves : Serves queries config ev)
    (member : q ∈ queries) (start stop : Node) (items : ItemSet) (limit : Nat) :
    (∃ r ev', ∀ fuel > limit,
      (select fuel q start stop items).Ends (ev.withLimit (some limit)) r ev') ∧
    (∀ fuel r ev', (select fuel q start stop items).Ends (ev.withLimit (some limit)) r ev' →
      (∀ e, r = .error e → ¬ Spelled .limit ⟨.walk q start stop items,
        announce q start stop items (ev.withLimit (some limit))⟩ e) →
      ∀ limit? : Option Nat, (∀ larger, limit? = some larger → limit ≤ larger) →
        (select fuel q start stop items).Ends (ev.withLimit limit?) r (ev'.withLimit limit?)) ∧
    ∀ e, Spelled .limit ⟨.walk q start stop items,
      announce q start stop items (ev.withLimit (some limit))⟩ e → e.cause = .depthExceeded limit := by
  have shelf := Shelf.of_queries numbered
  have included := Query.subset_within queries
  have resting := (serves.resting shelf included).1.withLimit (some limit)
  have begins : Begins queries (ev.withLimit (some limit)) ⟨.walk q start stop items,
      announce q start stop items (ev.withLimit (some limit))⟩ := .select member start stop items
  have poised := begins.poised shelf included resting.orderly resting.openSpots
  have depth : (announce q start stop items (ev.withLimit (some limit))).depth = 0 :=
    (sameBut_announce q start stop items _).depth.trans resting.depth
  refine ⟨?_, fun fuel r ev' ends unblamed limit? larger => ?_, fun e spelled => ?_⟩
  · have halts : (visit (limit + 1) q start stop items).Halts
        (announce q start stop items (ev.withLimit (some limit))) :=
      visit_halts_of_limit shelf rfl poised (depth.trans_le limit.zero_le) (by omega)
    obtain ⟨r, ev', ends⟩ := selectBy_halts halts
    exact ⟨r, ev', fun fuel enough => growing_select q start stop items enough ends⟩
  · have bears : (select fuel q start stop items).Bears limit? (fun o e => Spelled o
        ⟨.walk q start stop items, announce q start stop items (ev.withLimit (some limit))⟩ e)
        (ev.withLimit (some limit)) := by
      refine selectBy_bears (visit_bears (fun q' start' stop' items' ev' follows unlimited => ?_) .refl)
      obtain ⟨-, settings, -⟩ := poised.follows shelf follows
      have low := depth_lt_of_unlimited (congrArg Config.maxDepth? settings) unlimited
      rw [limitReached_withLimit]
      cases limit? with
      | none => rfl
      | some wider =>
        have := larger wider rfl
        exact Option.filter_some_neg (by simp; omega)
    obtain ⟨e, failed, gaveUp⟩ | ⟨ends', -⟩ := bears ends
    · exact (unblamed e failed gaveUp).elim
    · exact ends'
  · obtain ⟨_, ⟨⟩, cause⟩ := spelled.cause_of_limit shelf poised rfl
    exact cause

/-- A selection in `tally` nests two frames, so a limit of two does not cut it. -/
theorem select_within_limit_tally : ∃ s ev', (select 3 Query.tally Query.tallySource Query.tallySink
      (.singleton (.atom .unit) .any)).Ends ((Evaluator.started {}).withLimit (some 2)) (.ok s) ev' ∧
    ∀ limit? : Option Nat, (∀ larger, limit? = some larger → 2 ≤ larger) →
      (select 3 Query.tally Query.tallySource Query.tallySink (.singleton (.atom .unit) .any)).Ends
        ((Evaluator.started {}).withLimit limit?) (.ok s) (ev'.withLimit limit?) := by
  have serves : Serves {Query.tally} {} (.started {}) := .nothing
  obtain ⟨⟨r, ev', ends⟩, same, -⟩ := select_within_limit Query.numbered_tally serves
    (Set.mem_singleton Query.tally) Query.tallySource Query.tallySink (.singleton (.atom .unit) .any) 2
  have ended := ends 3 (Nat.lt_succ_self 2)
  have passes : ((select 3 Query.tally Query.tallySource Query.tallySink
      (.singleton (.atom .unit) .any)).run ((Evaluator.started {}).withLimit (some 2))).map
        (fun p => p.1.isOk) = some true := by cbv
  rw [ended, Option.map_some, Option.some.injEq] at passes
  cases r with
  | error => cases passes
  | ok s => exact ⟨s, ev', ended, same 3 (.ok s) ev' ended (by rintro _ ⟨⟩)⟩

end Evaluator

end GraphQuery
