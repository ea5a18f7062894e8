import GraphQuery.Proofs.Calls
import GraphQuery.Proofs.WalkUnion
/-!
# Histories

Whatever the earlier calls were, and whether results are cached or not, a selection comes to what it
comes to on an evaluator that has done nothing before.
-/

namespace GraphQuery

namespace Evaluator

open EvalM

variable {known queries : Set Query} {memoize : Bool} {ev ev' : Evaluator} {q : Query}

theorem Truthful.clearCache (truthful : Truthful known ev) : Truthful known ev.clearCache where
  toOrderly := truthful.toOrderly.clearCache
  cached f found hit := by simp [Evaluator.clearCache] at hit
  closed r _ k k' cached := by simp [Cached, Evaluator.clearCache] at cached

/-- Every call leaves the evaluator coherent and without open frames. -/
theorem After.coherent (lib : Library known) (included : queries ⊆ known)
    (after : After (fun q _ _ => q ∈ queries) memoize ev) : Coherent known ev ∧ ev.openSpots = [] := by
  have call {q : Query} {x : Nat → EvalM ItemSet} (echoes : Echoes known q x x) {ev ev' : Evaluator}
      {fuel : Nat} {r : Except Error ItemSet} (before : Coherent known ev ∧ ev.openSpots = [])
      (ends : (x fuel).Ends ev r ev') : Coherent known ev' ∧ ev'.openSpots = [] := by
    have clear := clear_of_closed before.2 q
    obtain ⟨coherent, ext, -⟩ := echoes before.1 before.1 clear clear ends
    exact ⟨coherent, by rw [ext.openSpots, before.2]; rfl⟩
  induction after with
  | nothing => exact ⟨coherent_fresh known memoize, rfl⟩
  | select _ member ends ih =>
    have member := included member
    exact call (select_echoes lib member (understood lib member) _ _ rfl) ih ends
  | selectResults _ member ends ih =>
    have member := included member
    exact call (selectResults_echoes lib member (understood lib member) _ rfl) ih ends
  | clearCache _ ih => exact ⟨⟨ih.1.toTruthful.clearCache, ih.1.unlimited⟩, ih.2⟩

/-- After any calls a selection ends if and only if it ends on an evaluator that has done nothing
before, whether either caches or not, and then both fail or both come to equal sets. -/
theorem select_after (numbered : Query.Numbered queries) (pure : ∀ q ∈ queries, q.IsPure)
    (after : After (fun q _ _ => q ∈ queries) memoize ev) (member : q ∈ queries) (memoize' : Bool)
    (start stop : Node) (items : ItemSet) :
    (∀ fuel r ev', (select fuel q start stop items).Ends ev r ev' →
      ∃ fuel' r' ev'', (select fuel' q start stop items).Ends (.fresh memoize') r' ev'' ∧
        Alike r r') ∧
    ∀ fuel r ev', (select fuel q start stop items).Ends (.fresh memoize') r ev' →
      ∃ fuel' r' ev'', (select fuel' q start stop items).Ends ev r' ev'' ∧ Alike r r' := by
  have lib := Library.of_queries numbered pure
  obtain ⟨coherent, closed⟩ := after.coherent lib fun q member => ⟨q, member, .refl⟩
  have clear := clear_of_closed closed q
  have fresh := coherent_fresh {r | ∃ q ∈ queries, q.Within r} memoize'
  have known : q ∈ {r | ∃ q ∈ queries, q.Within r} := ⟨q, member, .refl⟩
  have echoes : Echoes {r | ∃ q ∈ queries, q.Within r} q (fun n => select n q start stop items)
      fun n => select n q start stop items :=
    select_echoes lib known (understood lib known) start stop rfl
  constructor
  · intro fuel r ev' ends
    exact (echoes coherent fresh clear (clear_fresh q memoize') ends).2.2
  · intro fuel r ev' ends
    exact (echoes fresh coherent (clear_fresh q memoize') clear ends).2.2

/-- The second of two selections in `tally`, which finds the results of the first in the cache. -/
theorem select_tally_twice : ∃ fuel r ev,
    (select fuel Query.tally Query.tallySource Query.tallySink (.singleton (.atom .unit) .any)).Ends
      (.fresh true) r ev ∧
    ∃ fuel' r' ev', (select fuel' Query.tally Query.tallySource Query.tallySink
      (.singleton (.atom .unit) .any)).Ends ev r' ev' ∧ Alike r r' := by
  have pure : ∀ q ∈ ({Query.tally} : Set Query), q.IsPure := by
    rintro _ rfl
    exact Query.isPure_tally
  obtain ⟨fuel, r, ev, ends⟩ := select_halts (Library.of_queries Query.numbered_tally pure)
    ⟨Query.tally, rfl, .refl⟩ (Query.reachable_tally (.singleton (.atom .unit) .any))
    (coherent_fresh _ true) (clear_fresh Query.tally true)
  have after : After (fun q _ _ => q ∈ ({Query.tally} : Set Query)) true ev :=
    .select .nothing rfl ends
  obtain ⟨-, echoed⟩ := select_after Query.numbered_tally pure after rfl true Query.tallySource
    Query.tallySink (.singleton (.atom .unit) .any)
  exact ⟨fuel, r, ev, ends, echoed fuel r ev ends⟩

end Evaluator

end GraphQuery
