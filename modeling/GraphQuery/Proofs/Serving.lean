import Mathlib
import GraphQuery.Proofs.Calls
import GraphQuery.Proofs.History
import GraphQuery.Proofs.Moments
/-!
# Evaluators in service

Between calls an evaluator is at rest: no frame is open, whatever its settings are and however its
calls have ended. Calls that make selections forget nothing that is cached, and if all operations are
pure, then whatever is cached, between calls and while one is served, is the union over all walks. The
selections of operations re-enter the evaluator while frames are open, but come upon none of these,
and so find what they find on an evaluator that has done nothing before.
-/

namespace GraphQuery

namespace Query

/-- The number of items that `tally` counts. -/
def counted : Selection where
  query := tally
  start := tallySource
  stop? := some tallySink

/-- Each item is counted on its own, by a selection in `tally`. -/
def census : Query where
  id := 1
  graph := Graph.addLabel Graph.empty ⟨tallySource, tallySink⟩ (Operation.follow (.select counted))

theorem steps_census : census.steps tallySource =
    [(⟨tallySource, tallySink⟩, .follow (.select counted))] :=
  steps_single 1 ⟨tallySource, tallySink⟩ _

/-- Operations that make no selection but in `tally` nest no other query. -/
theorem eq_of_within_of_counts {p q : Query} (counts : ∀ op ∈ p.operations, op.selections ⊆ [counted])
    (within : p.Within q) : q = p ∨ q = tally := by
  induction within with
  | refl => exact .inl rfl
  | tail _ nests ih =>
    obtain rfl | rfl := ih
    · obtain ⟨op, listed, s, selects, rfl⟩ := nests
      obtain rfl : s = counted := List.mem_singleton.mp (counts op listed selects)
      exact .inr rfl
    · exact .inr (flat_tally.eq_of_within (.single nests))

theorem numbered_of_counts {p : Query} (counts : ∀ op ∈ p.operations, op.selections ⊆ [counted])
    (other : p.id ≠ tally.id) : Numbered {p} := by
  rintro _ rfl _ rfl q r within within' same
  obtain rfl | rfl := eq_of_within_of_counts counts within <;>
    obtain rfl | rfl := eq_of_within_of_counts counts within'
  · rfl
  · exact absurd same other
  · exact absurd same.symm other
  · rfl

theorem counts_census : ∀ op ∈ census.operations, op.selections ⊆ [counted] := by
  intro op listed
  obtain rfl : op = .follow (.select counted) := List.mem_singleton.mp listed
  exact List.Subset.refl _

theorem eq_of_within_census {q : Query} (within : census.Within q) : q = census ∨ q = tally :=
  eq_of_within_of_counts counts_census within

theorem numbered_census : Numbered {census} :=
  numbered_of_counts counts_census nofun

end Query

namespace Evaluator

open EvalM

/-- No frame is open. -/
structure Resting (ev : Evaluator) : Prop where
  orderly : Orderly ev
  inProgress : ev.inProgress.isEmpty = true
  pending : ev.pending.isEmpty = true
  component : ev.component = #[]
  depth : ev.depth = 0

variable {known queries : Set Query} {config : Config} {q : Query} {ev ev' ev₁ : Evaluator}

theorem isEmpty_of_lookups {α : Type} {m m' : Std.HashMap Frame α} (empty : m.isEmpty = true)
    (same : ∀ f : Frame, m'[f]? = m[f]?) : m'.isEmpty = true := by
  refine Std.HashMap.isEmpty_iff_forall_not_mem.mpr fun f => ?_
  rw [Std.HashMap.mem_iff_isSome_getElem?, same f, ← Std.HashMap.mem_iff_isSome_getElem?]
  exact Std.HashMap.not_mem_of_isEmpty empty

namespace Resting

theorem started (config : Config) : Resting (.started config) :=
  ⟨orderly_started config, Std.HashMap.isEmpty_empty, Std.HashMap.isEmpty_empty, rfl, rfl⟩

theorem openSpots (resting : Resting ev) : ev.openSpots = [] := by
  rw [Evaluator.openSpots, resting.component]
  rfl

theorem returns (resting : Resting ev) (returns : Returns ev ev') : Resting ev' where
  orderly := returns.orderly
  inProgress := isEmpty_of_lookups resting.inProgress returns.ext.inProgress
  pending := isEmpty_of_lookups resting.pending fun f => returns.ext.pending f List.not_mem_nil
  component := by
    have same := returns.ext.component
    rw [resting.component] at same
    exact Array.toList_inj.mp same
  depth := returns.ext.depth.trans resting.depth

end Resting

theorem Selecting.returns (shelf : Shelf known) (included : queries ⊆ known) (resting : Resting ev)
    (call : Selecting queries ev ev') : Returns ev ev' := by
  have clear := clear_of_closed resting.openSpots
  cases call with
  | select member ends => exact select_returns shelf (included member) resting.orderly (clear _) ends
  | @selectResults _ _ _ fuel _ member ends =>
    exact selectResultsBy_returns (visit_disciplined shelf fuel) (included member) resting.orderly
      (clear _) ends

/-- Every call leaves the evaluator at rest, with the settings that it was started with. -/
theorem Serves.resting (shelf : Shelf known) (included : queries ⊆ known)
    (serves : Serves queries config ev) : Resting ev ∧ ev.config = config := by
  induction serves with
  | nothing => exact ⟨.started config, rfl⟩
  | selecting _ call ih =>
    have returns := call.returns shelf included ih.1
    exact ⟨ih.1.returns returns, returns.ext.config.trans ih.2⟩
  | clearCache _ ih =>
    obtain ⟨resting, same⟩ := ih
    exact ⟨⟨resting.orderly.clearCache, resting.inProgress, resting.pending, resting.component,
      resting.depth⟩, same⟩

/-- Every call leaves the evaluator truthful, if operations are stable. -/
theorem Serves.truthful (col : Collection known) (included : queries ⊆ known)
    (serves : Serves queries config ev) : Truthful known ev := by
  induction serves with
  | nothing => exact truthful_started known config
  | @selecting ev ev' before call ih =>
    have clear := clear_of_closed (before.resting col.toShelf included).1.openSpots
    have call {q : Query} {x : Nat → EvalM ItemSet} (mirrors : Mirrors known q x x) {fuel : Nat}
        {r : Except Error ItemSet} (ends : (x fuel).Ends ev r ev') : Truthful known ev' :=
      (mirrors ih (coherent_fresh known true) (clear q) (clear_fresh q true) ends).1
    cases ‹Selecting queries ev ev'› with
    | select member ends =>
      have member := included member
      exact call (select_mirrors col member (understood_of_stable col member) _ _ rfl) ends
    | selectResults member ends =>
      have member := included member
      exact call (selectResults_mirrors col member (understood_of_stable col member) _ rfl) ends
  | clearCache _ ih => exact ih.clearCache

/-- Whatever calls have been made, the evaluator is at rest, and a further call that makes selections
keeps everything that is cached, whether it fails or not. If the operations are pure, then every frame
that is cached, now or at any moment of a further call, is cached with the union of what all walks carry
to its end, and nothing fails on these walks. -/
theorem calls_keep (numbered : Query.Numbered queries) (serves : Serves queries config ev) :
    (ev.inProgress.isEmpty = true ∧ ev.pending.isEmpty = true ∧ ev.component = #[] ∧ ev.depth = 0) ∧
    (∀ ev', Selecting queries ev ev' → ∀ (f : Frame) (found : ItemSet),
      ev.cache[f]? = some found → ev'.cache[f]? = some found) ∧
    ((∀ q ∈ queries, q.IsPure) → ∀ st, st = ev ∨ (∃ m, Happens queries ev m ∧ m.state = st) →
      ∀ (f : Frame) (found : ItemSet), st.cache[f]? = some found →
        ∃ q ∈ queries, ∃ r, q.Within r ∧ r.id = f.query ∧ ¬ r.Fails f.start f.items ∧
          found.itemType = f.stop.inputType ∧
          ∀ x, x ∈ found ↔ ∃ s, r.Carries f.start f.items f.stop s ∧ x ∈ s) := by
  have shelf := Shelf.of_queries numbered
  have included := Query.subset_within queries
  obtain ⟨resting, -⟩ := serves.resting shelf included
  refine ⟨⟨resting.inProgress, resting.pending, resting.component, resting.depth⟩,
    fun ev' call => (call.returns shelf included resting).ext.cache, fun pure st during f found hit => ?_⟩
  have lib := Library.of_queries numbered pure
  have truthful : Truthful {r | ∃ q ∈ queries, q.Within r} st := by
    have now := serves.truthful lib.collection included
    obtain rfl | ⟨m, ⟨first, begins, follows⟩, rfl⟩ := during
    · exact now
    · have honest := (begins.honest lib.collection included now resting.openSpots).follows
        lib.collection follows
      exact honest.truthful
  obtain ⟨r, ⟨q, member, within⟩, same, selects⟩ := truthful.cached f found hit
  exact ⟨q, member, r, within, same, carries_of_selects lib ⟨q, member, within⟩ same selects⟩

theorem consult_announce_started (f : Frame) (start stop : Node) (items : ItemSet) :
    (consult f (announce q start stop items (.started config))).1 = none := by
  have same := sameBut_announce q start stop items (.started config)
  refine consult_eq_none.mpr ⟨?_, ?_⟩
  · rintro ⟨g, found, -, hit⟩
    rw [same.cache] at hit
    simp [Evaluator.started] at hit
  · rintro i ⟨g, -, hit | ⟨found, hit⟩⟩
    · rw [same.inProgress] at hit
      simp [Evaluator.started] at hit
    · rw [same.pending] at hit
      simp [Evaluator.started] at hit

/-- A selection in `census` that gives up for depth while its operation counts an item leaves nothing open.
A selection in `tally` that passes leaves its frame cached, with the union of what all walks carry to its
end, which no further call forgets. -/
theorem calls_keep_census : (∃ e ev, (select 3 Query.census Query.tallySource Query.tallySink
      (.singleton (.atom .unit) .any)).Ends (.started ⟨true, some 2⟩) (.error e) ev ∧
      ev.stats.expanded = 2 ∧ ev.inProgress.isEmpty = true ∧ ev.pending.isEmpty = true ∧
      ev.component = #[] ∧ ev.depth = 0) ∧
    ∃ found ev union, (select 3 Query.tally Query.tallySource Query.tallySink
      (.singleton (.atom .unit) .any)).Ends (.started {}) (.ok found) ev ∧
      ev.cache[(⟨0, Query.tallySource, Query.tallySink,
        .singleton (.atom .unit) .any⟩ : Frame)]? = some union ∧
      (∀ x, x ∈ union ↔ ∃ s, Query.tally.Carries Query.tallySource (.singleton (.atom .unit) .any)
        Query.tallySink s ∧ x ∈ s) ∧
      ∀ ev', Selecting {Query.tally} ev ev' → ev'.cache[(⟨0, Query.tallySource, Query.tallySink,
        .singleton (.atom .unit) .any⟩ : Frame)]? = some union := by
  constructor
  · have fails : ((select 3 Query.census Query.tallySource Query.tallySink
        (.singleton (.atom .unit) .any)).run (.started ⟨true, some 2⟩)).map
          (fun p => (p.1.isOk, p.2.stats.expanded)) = some (false, 2) := by cbv
    obtain ⟨⟨r, ev⟩, ended, same⟩ := Option.map_eq_some_iff.mp fails
    obtain ⟨failed, two⟩ := Prod.mk.inj same
    cases r with
    | ok => cases failed
    | error e =>
      have serves : Serves {Query.census} ⟨true, some 2⟩ ev :=
        .selecting .nothing (.select (Set.mem_singleton Query.census) ended)
      exact ⟨e, ev, ended, two, (calls_keep Query.numbered_census serves).1⟩
  · let f : Frame := ⟨0, Query.tallySource, Query.tallySink, .singleton (.atom .unit) .any⟩
    have passes : ((select 3 Query.tally Query.tallySource Query.tallySink
        (.singleton (.atom .unit) .any)).run (.started {})).map
          (fun p => p.1.toOption.map fun _ => p.2.cache[f]?.isSome) = some (some true) := by cbv
    obtain ⟨found, ev, ended, cached⟩ := exists_ends_of_seen (fun _ ev => ev.cache[f]?.isSome) passes
    obtain ⟨union, hit⟩ := Option.isSome_iff_exists.mp cached
    have serves : Serves {Query.tally} {} ev :=
      .selecting .nothing (.select (Set.mem_singleton Query.tally) ended)
    obtain ⟨-, kept, unions⟩ := calls_keep Query.numbered_tally serves
    obtain ⟨q, rfl, r, within, -, -, -, gathered⟩ :=
      unions (fun q same => same ▸ Query.isPure_tally) ev (.inl rfl) f union hit
    obtain rfl := Query.flat_tally.eq_of_within within
    exact ⟨found, ev, union, ended, hit, gathered, fun ev' call => kept ev' call f union hit⟩

/-- An operation that re-enters the evaluator, at whatever moment of whatever call, does not come upon
any frame that is open at that moment: no walk that it sets off, at any depth, is from such a frame, and
those to its ends do not come upon an open frame at all. So if the operations are pure and depth is not
limited, its selection comes to what it comes to on an evaluator that has done nothing before. -/
theorem nested_complete (numbered : Query.Numbered queries) (serves : Serves queries config ev)
    {s : Selection} {x : Item} (happens : Happens queries ev ⟨.nested s x, ev₁⟩) :
    (∀ q start stop items ev₂,
      (⟨.nested s x, ev₁⟩ : Moment).Follows ⟨.walk q start stop items, ev₂⟩ →
        ev₁.inProgress[(⟨q.id, start, stop, items⟩ : Frame)]? = none ∧
        ev₁.pending[(⟨q.id, start, stop, items⟩ : Frame)]? = none) ∧
    (∀ q start stop items ev₂,
      (⟨.nested s x, ev₁⟩ : Moment).SetsOff ⟨.walk q start stop items, ev₂⟩ →
        ∀ fuel reach ev₃, (visit fuel q start stop items).Ends ev₂ (.ok reach) ev₃ →
          reach.low? = none) ∧
    (config.maxDepth? = none → (∀ q ∈ queries, q.IsPure) → ∀ memoize,
      (∀ fuel r ev', (nested fuel s x).Ends ev₁ r ev' →
        ∃ fuel' r' ev'', (nested fuel' s x).Ends (.fresh memoize) r' ev'' ∧ Alike r r') ∧
      ∀ fuel r ev', (nested fuel s x).Ends (.fresh memoize) r ev' →
        ∃ fuel' r' ev'', (nested fuel' s x).Ends ev₁ r' ev'' ∧ Alike r r') := by
  have shelf := Shelf.of_queries numbered
  have included := Query.subset_within queries
  obtain ⟨resting, same⟩ := serves.resting shelf included
  obtain ⟨first, begins, follows⟩ := happens
  have poised := (begins.poised shelf included resting.orderly resting.openSpots).follows shelf follows
  obtain ⟨member, settings, orderly, clear⟩ := id poised
  refine ⟨fun q start stop items ev₂ later => ?_, fun q start stop items ev₂ setsOff fuel reach ev₃ =>
    poised.low_eq_none shelf setsOff, fun unlimited pure memoize => ?_⟩
  · have unopened (i : Nat) : ¬ ev₁.OpenAt (Frame.spot ⟨q.id, start, stop, items⟩) i := fun opened =>
      clear q later.within _ ((orderly.opened _).mpr ⟨i, opened⟩) rfl
    exact ⟨Option.eq_none_iff_forall_ne_some.mpr fun i hit => unopened i (.of_inProgress hit),
      Option.eq_none_iff_forall_ne_some.mpr fun p hit => unopened p.index (.of_pending hit)⟩
  · have lib := Library.of_queries numbered pure
    have now := serves.truthful lib.collection included
    have honest := (begins.honest lib.collection included now resting.openSpots).follows
      lib.collection follows
    obtain ⟨-, truthful, -⟩ := honest
    have coherent : Coherent _ ev₁ := ⟨truthful, by rw [settings, same, unlimited]⟩
    have fresh := coherent_fresh {r | ∃ q ∈ queries, q.Within r} memoize
    have clear' := clear_fresh s.query memoize
    have echoes : Echoes _ s.query (fun n => nested n s x) fun n => nested n s x :=
      (nested_mirrors lib.collection member (understood lib member) BEq.rfl).echoes lib
    exact ⟨fun fuel r ev' ends => (echoes coherent fresh clear clear' ends).2.2,
      fun fuel r ev' ends => (echoes fresh coherent clear' clear ends).2.2⟩

/-- A selection in `census` has a frame open when its operation counts an item. -/
theorem nested_complete_census : ∃ ev₁,
    Happens {Query.census} (.fresh true) ⟨.nested Query.counted (.atom .unit), ev₁⟩ ∧
    ev₁.inProgress[(⟨1, Query.tallySource, Query.tallySink, .singleton (.atom .unit) .any⟩ : Frame)]? =
      some 0 ∧
    ∀ fuel reach ev₂, (visit fuel Query.tally Query.tallySource Query.tallySink
      (.singleton (.atom .unit) .any)).Ends
        (announce Query.tally Query.tallySource Query.tallySink (.singleton (.atom .unit) .any) ev₁)
        (.ok reach) ev₂ → reach.low? = none := by
  let items := ItemSet.singleton (.atom .unit) .any
  let ev := announce Query.census Query.tallySource Query.tallySink items (.fresh true)
  let f : Frame := ⟨1, Query.tallySource, Query.tallySink, items⟩
  have expanding : Expanding Query.census Query.tallySource Query.tallySink items ev [] (enter f ev) :=
    ⟨rfl, consult_announce_started _ _ _ _, rfl, 0, _, ends_pure.mpr ⟨rfl, rfl⟩⟩
  have serves : Serves {Query.census} ⟨true, none⟩ (.fresh true) := .nothing
  have happens : Happens {Query.census} (.fresh true)
      ⟨.nested Query.counted (.atom .unit), enter f ev⟩ := by
    have asked : ((Operation.follow (.select Query.counted)).inquiry items).AsksIn (nested 0)
        (enter f ev) Query.counted (.atom .unit) (enter f ev) := .here Query.counted (.atom .unit) _ _
    exact ⟨_, .select (Set.mem_singleton Query.census) Query.tallySource Query.tallySink items,
      .single (.asks expanding Query.steps_census asked)⟩
  obtain ⟨-, closed, -⟩ := nested_complete Query.numbered_census serves happens
  refine ⟨_, happens, ?_, fun fuel reach ev₂ => closed _ _ _ _ _ (.selects (.nil _) rfl) fuel reach ev₂⟩
  exact (inProgress_enter _).trans (if_pos rfl)

end Evaluator

end GraphQuery
