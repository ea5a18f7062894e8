import GraphQuery.Proofs.Caching
import GraphQuery.Proofs.Congruence
/-!
# Selecting again

Where results are cached, no selection expands a frame that was expanded before: a cached frame is looked
up, and a selection that passes leaves all frames cached that it is sure to meet. These are the frames
that can be reached along arcs, and through the selections that an operation makes whichever of several
equal sets it is applied to. What else it asks for on a set may not have been asked for where an equal set
was met first, as a pure filter set shows whose members tell equal tuples apart.
-/

namespace GraphQuery

/-- A selection leads on along an arc, or to a selection that an operation needs. -/
inductive Call.LeadsBy (needs : Operation → ItemSet → Selection → Item → Prop) : Call → Call → Prop where
  | along {c : Call} {a : Arc} {op : Operation} {t : ItemSet}
    (arc : a ∈ c.query.graph.arcsFrom c.start) (label : op ∈ c.query.graph.labels a)
    (filled : c.items.isEmpty = false) (gives : op.Gives c.items (.ok t))
    (further : t.isEmpty = false) : LeadsBy needs c ⟨c.query, a.target, c.stop, t⟩
  | into {c : Call} {a : Arc} {op : Operation} {s : Selection} {x : Item} {stop : Node}
    (arc : a ∈ c.query.graph.arcsFrom c.start) (label : op ∈ c.query.graph.labels a)
    (filled : c.items.isEmpty = false) (needed : needs op c.items s x) (ends : stop ∈ s.stops) :
    LeadsBy needs c ⟨s.query, s.start, stop, .singleton x s.inputType⟩

theorem Call.Leads.leadsBy {c d : Call} (leads : c.Leads d) : c.LeadsBy Operation.Asks d := by
  cases leads with
  | along arc label filled gives further => exact .along arc label filled gives further
  | into arc label filled asks ends => exact .into arc label filled asks ends

theorem Operation.selects_of_asks {op : Operation} {items : ItemSet} {s : Selection} {x : Item}
    (asks : op.Asks items s x) : s ∈ op.selections :=
  Inquiry.Asks.holds asks (op.inquiry_asksOnly items)

theorem Operation.selects_of_insists {op : Operation} {items : ItemSet} {s : Selection} {x : Item}
    (insists : op.Insists items s x) : s ∈ op.selections := by
  obtain ⟨y, -, asks⟩ := insists items BEq.rfl
  exact selects_of_asks asks

/-! Items that are counted one by one -/

namespace Query

/-- Every item can be counted. -/
theorem exists_counted (x : Item) : ∃ found, counted.Gives x (.ok found) := by
  have lib := Library.of_queries numbered_tally fun q same => same ▸ isPure_tally
  have member : tally ∈ {r | ∃ q ∈ ({tally} : Set Query), q.Within r} := ⟨tally, rfl, .refl⟩
  have coherent := Evaluator.coherent_fresh {r | ∃ q ∈ ({tally} : Set Query), q.Within r} true
  have clear := Evaluator.clear_fresh tally true
  have finite := reachable_tally (.singleton x counted.inputType)
  obtain ⟨n, r, ev, ends⟩ := Evaluator.select_halts lib member finite coherent clear
  obtain ⟨found, rfl, -⟩ | ⟨e, -, fails⟩ := Evaluator.select_outcome lib member coherent clear ends
  · refine ⟨found, n, ev, ?_⟩
    rw [Evaluator.nested, Evaluator.nestedBy]
    exact EvalM.ends_within.mpr ⟨.ok found, ends, rfl⟩
  · exact (not_fails_tally _ _ fails).elim

theorem isStable_counted : counted.IsStable := by
  have lib := Library.of_queries numbered_tally fun q same => same ▸ isPure_tally
  exact Selection.isStable_of_collection lib.collection ⟨tally, rfl, .refl⟩

/-- However often it is asked, every item is counted. -/
theorem counted_passes {x : Item} {o : Option (Except Error ItemSet)}
    (results : (Inquiry.select counted x).Results o) : ∃ found, o = some (.ok found) := by
  obtain ⟨found, gives⟩ := exists_counted x
  obtain ⟨found', same, -⟩ :=
    isStable_counted x x BEq.rfl (.found ⟨_, gives, .refl _⟩ (.done _)) results
  exact ⟨found', same⟩

theorem isPureThroughout_census : census.IsPureThroughout := by
  intro r within op listed
  obtain rfl | rfl := eq_of_within_census within
  · obtain rfl : op = .follow (.select counted) := List.mem_singleton.mp listed
    have stable := Operation.isStable_of_lawful (.follow (.select counted)) nofun fun s selects =>
      List.mem_singleton.mp selects ▸ isStable_counted
    exact ⟨stable.isPure (Operation.exists_passes rfl fun x o => counted_passes), nofun⟩
  · refine ⟨isPure_tally tally .refl op listed, ?_⟩
    obtain rfl | rfl := mem_operations_tally.mp listed <;> exact nofun

/-- Where an operation counts an item, the selection in `tally` is reached that counts it. -/
theorem leads_of_counts {p : Query} {a : Arc} {op : Operation} {stop : Node} {x : Item}
    (step : (a, op) ∈ p.steps tallySource) (asks : op.Asks (.singleton x .any) counted x) :
    Call.Leads ⟨p, tallySource, stop, .singleton x .any⟩
      ⟨tally, tallySource, tallySink, .singleton x .any⟩ := by
  obtain ⟨arc, label⟩ := mem_steps.mp step
  have ends : tallySink ∈ counted.stops := List.mem_singleton_self tallySink
  exact .into arc label rfl asks ends

end Query

/-! What a selection leaves cached -/

namespace Evaluator

open EvalM

variable {queries : Set Query} {config : Config} {q : Query} {start stop : Node} {items found : ItemSet}
  {fuel : Nat} {ev ev' : Evaluator} {needs : Operation → ItemSet → Selection → Item → Prop}

/-- The frame of a selection is cached if it holds items, and the selection expands nothing. -/
structure Knows (ev : Evaluator) (c : Call) : Prop where
  cached : c.items.isEmpty = false → ev.Cached c.frame.spot
  expandsNothing : ∀ fuel > 0, ∃ found ev',
    (select fuel c.query c.start c.stop c.items).Ends ev (.ok found) ev' ∧
      ev'.expansions = ev.expansions ∧ ev'.stats.expanded = ev.stats.expanded

/-- Selecting from a cached frame, or from no items, changes next to nothing. -/
theorem select_quiet
    (cached : items.isEmpty = false → ev.Cached (Frame.spot ⟨q.id, start, stop, items⟩))
    (positive : 0 < fuel) :
    ∃ found ev', (select fuel q start stop items).Ends ev (.ok found) ev' ∧ ev.Quiet ev' := by
  obtain ⟨n, rfl⟩ := Nat.exists_eq_succ_of_ne_zero positive.ne'
  have announced := quiet_announce q start stop items ev
  have visited : ∃ reach ev₁, (visit (n + 1) q start stop items).Ends (announce q start stop items ev)
      (.ok reach) ev₁ ∧ (announce q start stop items ev).Quiet ev₁ := by
    cases empty : items.isEmpty with
    | true => exact ⟨_, _, (visitBy_ends _).mpr (.empty empty), .refl _⟩
    | false =>
      obtain ⟨g, found, same, hit⟩ := grows_of_cache announced.cache _ (cached empty)
      have heard : (consult ⟨q.id, start, stop, items⟩ (announce q start stop items ev)).1 =
          some ⟨found, none⟩ := by
        rw [consult, ← getElem?_of_spot _ same, hit]
      exact ⟨_, _, visitBy_known (f := ⟨q.id, start, stop, items⟩) _ rfl empty heard, quiet_consult _ _⟩
  obtain ⟨reach, ev₁, ends, quiet⟩ := visited
  exact ⟨_, _, (selectBy_ends _).mpr ⟨_, ev₁, ends, rfl, rfl⟩,
    (announced.trans quiet).trans (quiet_conclude q _ (.ok reach) ev₁)⟩

theorem knows_of_cached
    (cached : items.isEmpty = false → ev.Cached (Frame.spot ⟨q.id, start, stop, items⟩)) :
    ev.Knows ⟨q, start, stop, items⟩ where
  cached := cached
  expandsNothing fuel positive := by
    obtain ⟨found, ev', ends, quiet⟩ := select_quiet cached positive
    exact ⟨found, ev', ends, quiet.expansions, quiet.expanded⟩

/-- Where results are cached, a selection that passes leaves everything known that can be reached along
arcs and through the selections that operations need, if these are made wherever operations pass. -/
theorem knows_of_select (numbered : Query.Numbered queries) (pure : ∀ p ∈ queries, p.IsPure)
    (heeds : ∀ r, (∃ p ∈ queries, p.Within r) → ∀ op ∈ r.operations, op.Heeds (needs op))
    (selects : ∀ op items s x, needs op items s x → s ∈ op.selections)
    (serves : Serves queries config ev) (memoize : config.memoize = true) (member : q ∈ queries)
    (ends : (select fuel q start stop items).Ends ev (.ok found) ev') {d : Call}
    (reaches : Relation.ReflTransGen (Call.LeadsBy needs) ⟨q, start, stop, items⟩ d) : ev'.Knows d := by
  have lib := Library.of_queries numbered pure
  have included := Query.subset_within queries
  obtain ⟨resting, settings⟩ := serves.resting lib.collection.toShelf included
  have after : Serves queries config ev' := .selecting serves (.select member ends)
  have truthful := after.truthful lib.collection included
  have thorough := after.thorough lib.collection heeds included memoize
  suffices inside : (∃ p ∈ queries, p.Within d.query) ∧
      (d.items.isEmpty = false → ev'.Cached d.frame.spot) from knows_of_cached inside.2
  -- the closure of cached frames under arcs carries the one case, thoroughness the other
  induction reaches with
  | refl =>
    refine ⟨included member, fun filled => ?_⟩
    exact select_cached lib.collection (included member) (serves.truthful lib.collection included)
      (clear_of_closed resting.openSpots q) (by rw [settings, memoize]) filled ends
  | @tail c d _ leads ih =>
    obtain ⟨inside, cached⟩ := ih
    cases leads with
    | along arc label filled gives further =>
      refine ⟨inside, fun _ => truthful.closed c.query inside c.frame.spot _ (cached filled) rfl ?_⟩
      have results := results_of_gives lib inside (Query.mem_operations_of_mem_labels label) filled gives
      exact ⟨_, _, _, ⟨Query.mem_steps.mpr ⟨arc, label⟩, c.items, rfl, filled, results⟩, further, rfl⟩
    | @into a op s x stop arc label filled needed stops =>
      obtain ⟨p, listed, within⟩ := inside
      have nests : c.query.Nests s.query :=
        ⟨op, Query.mem_operations_of_mem_labels label, s, selects op c.items s x needed, rfl⟩
      refine ⟨⟨p, listed, within.tail nests⟩, fun _ => ?_⟩
      exact thorough.provided c.query ⟨p, listed, within⟩ c.frame rfl (.inl (cached filled)) a op
        (Query.mem_steps.mpr ⟨arc, label⟩) s x needed stop stops

/-- Where results are cached, whatever calls have been made, a selection that passes expands frames that are
pairwise different and none of which was cached; each of them is cached afterwards, so that as many frames
are expanded as are cached anew. If moreover the operations are pure, then all frames that hold items are
cached that can be reached along arcs, and through the selections that operations make on every set that
equals the one at hand. If the members of filter sets are pure too, all selections that operations make
will do. So selecting from any of these frames expands nothing. -/
theorem select_expands_once (numbered : Query.Numbered queries) (serves : Serves queries config ev)
    (memoize : config.memoize = true) (member : q ∈ queries)
    (ends : (select fuel q start stop items).Ends ev (.ok found) ev') :
    (∃ frames : List Frame, ev'.expansions = ev.expansions ++ frames ∧
      frames.Pairwise (fun f g => (f == g) = false) ∧
      (∀ f ∈ frames, ¬ ev.Cached f.spot ∧ ev'.Cached f.spot) ∧
      ev'.stats.expanded = ev.stats.expanded + frames.length ∧
      ev'.cachedFrames = ev.cachedFrames + frames.length) ∧
    ((∀ p ∈ queries, p.IsPure) →
      ∀ d, Relation.ReflTransGen (Call.LeadsBy Operation.Insists) ⟨q, start, stop, items⟩ d →
        ev'.Knows d) ∧
    ((∀ p ∈ queries, p.IsPureThroughout) →
      ∀ d, Relation.ReflTransGen Call.Leads ⟨q, start, stop, items⟩ d → ev'.Knows d) := by
  refine ⟨?_, fun pure d reaches => ?_, fun pure d reaches => ?_⟩
  · have shelf := Shelf.of_queries numbered
    have included := Query.subset_within queries
    obtain ⟨resting, settings⟩ := serves.resting shelf included
    have after : Serves queries config ev' := .selecting serves (.select member ends)
    have resting' := (after.resting shelf included).1
    obtain ⟨frames, advances⟩ :=
      select_advances shelf (included member) resting (by rw [settings, memoize]) ends
    refine ⟨frames, advances.expansions, ?_, fun f among => ⟨fun cached => ?_, ?_⟩, advances.expanded, ?_⟩
    · refine (List.pairwise_map.mp advances.distinct).imp fun different => ?_
      exact Bool.eq_false_iff.mpr fun same => different (Frame.spot_eq_iff.mpr same)
    · exact advances.unmet f among (.inl cached)
    · obtain cached | opened := (advances.met f.spot).mpr (.inr (List.mem_map_of_mem among))
      · exact cached
      · rw [resting'.openSpots] at opened
        cases opened
    · have size := advances.size
      rwa [resting.component, resting'.component] at size
  · have lib := Library.of_queries numbered pure
    refine knows_of_select numbered pure (fun r known op listed => ?_)
      (fun _ _ _ _ => Operation.selects_of_insists) serves memoize member ends reaches
    exact Operation.heeds_insists (lib.isPure r known r .refl op listed).isStable fun s selects =>
      Selection.isStable_of_collection lib.collection (lib.closed r known s.query
        ⟨op, listed, s, selects, rfl⟩)
  · have reaches : Relation.ReflTransGen (Call.LeadsBy Operation.Asks) ⟨q, start, stop, items⟩ d :=
      Relation.ReflTransGen.mono (fun _ _ => Call.Leads.leadsBy) _ _ reaches
    refine knows_of_select numbered (fun p listed => (pure p listed).isPure) (fun r known op listed => ?_)
      (fun _ _ _ _ => Operation.selects_of_asks) serves memoize member ends reaches
    obtain ⟨p, among, within⟩ := known
    obtain ⟨whole, members⟩ := pure p among r within op listed
    exact Operation.heeds_asks whole.isStable members

/-- A selection in `census` expands two frames of its own and two of the selection in `tally` that its
operation makes. All are known then, so counting the item once more expands nothing. -/
theorem select_expands_once_census : ∃ found ev', (select 4 Query.census Query.tallySource Query.tallySink
      (.singleton (.atom .unit) .any)).Ends (.started {}) (.ok found) ev' ∧
    ev'.expansions.length = 4 ∧ ev'.cachedFrames = 4 ∧
    ∃ found' ev'', (select 1 Query.tally Query.tallySource Query.tallySink
      (.singleton (.atom .unit) .any)).Ends ev' (.ok found') ev'' ∧ ev''.expansions = ev'.expansions := by
  have passes : ((select 4 Query.census Query.tallySource Query.tallySink
      (.singleton (.atom .unit) .any)).run (.started {})).map
        (fun p => p.1.toOption.map fun _ => p.2.stats.expanded) = some (some 4) := by cbv
  obtain ⟨found, ev', ended, four⟩ := exists_ends_of_seen (fun _ ev => ev.stats.expanded) passes
  obtain ⟨⟨frames, expansions, -, -, expanded, size⟩, -, again⟩ := select_expands_once
    Query.numbered_census .nothing rfl (Set.mem_singleton Query.census) ended
  have count : frames.length = 4 := (Nat.zero_add _).symm.trans (expanded.symm.trans four)
  have step : (⟨Query.tallySource, Query.tallySink⟩, .follow (.select Query.counted)) ∈
      Query.census.steps Query.tallySource := Query.steps_census ▸ List.mem_singleton_self _
  have known := again (fun q same => same ▸ Query.isPureThroughout_census) _
    (.single (Query.leads_of_counts step (.here Query.counted (.atom .unit) _)))
  obtain ⟨found', ev'', ends', same, -⟩ := known.expandsNothing 1 Nat.one_pos
  refine ⟨found, ev', ended, ?_, ?_, found', ev'', ends', same⟩
  · rw [expansions, List.length_append, count]
    rfl
  · rw [size, count]
    rfl

end Evaluator

/-! A pure filter set whose members tell equal tuples apart -/

namespace Filter

variable {f : Filter}
  (rejects : ∀ x o, (f.accept Inquiry.select x).Results o → o = some (.ok false))

include rejects

/-- Where a filter rejects every item, however selections are answered, nothing is left of a set. -/
theorem results_of_rejects {items : ItemSet} {o : Option (Except Error ItemSet)}
    (results : (Operation.filter f).Results items o) :
    ∃ t, o = some (.ok t) ∧ t.essence = ⟨items.itemType, ∅⟩ := by
  have found (x : Item) (o : Option (Except Error ItemSet))
      (reached : ((Follow.filter f).follow Inquiry.select x).Results o) :
      o = some (.ok (.empty f.itemType)) := by
    obtain ⟨o', verdict, rfl⟩ := Inquiry.exists_of_results_bind_pure reached
    rw [rejects x o' verdict]
    rfl
  rw [Operation.Results, Operation.inquiry_eq_apply rfl] at results
  obtain ⟨t, founds, rfl, typed, all, contents⟩ | ⟨x, -, o', failed, passed⟩ :=
    Follow.results_apply results
  · refine ⟨t, rfl, congrArg₂ ItemSet.Essence.mk typed (Finset.eq_empty_of_forall_notMem fun c => ?_)⟩
    rw [List.mem_toFinset, contents]
    rintro ⟨u, listed, content⟩
    obtain ⟨x, -, reached⟩ := exists_of_mem_forall₂ all.flip listed
    cases found x _ reached
    cases content
  · obtain rfl := found x o' failed
    exact (Inquiry.ok_not_passedOn passed).elim

theorem isPure_of_rejects : (Operation.filter f).IsPure := by
  intro a b equal o o' left right
  obtain ⟨s, rfl, nothing⟩ := results_of_rejects rejects left
  obtain ⟨t, rfl, nothing'⟩ := results_of_rejects rejects right
  have types : a.itemType = b.itemType := (ItemSet.beq_iff.mp equal).1
  exact .some (.ok (ItemSet.essence_eq_iff.mp (by rw [nothing, nothing', types])))

end Filter

/-- Tuples of one number that are declared so. -/
def Predicate.declared : Predicate where
  id := 0
  name := "declared"
  itemType := .any
  test x := .ok (x.fitting? [.kind .int64]).isSome

/-- No item passes, but the declared ones are counted before they are rejected. -/
def Filter.guard : Filter :=
  .every [.test .declared, .counting Query.counted .lt 0] .any

namespace Query

/-- Nothing passes along the only arc. -/
def guarded : Query where
  id := 1
  graph := Graph.addLabel Graph.empty ⟨tallySource, tallySource⟩ (Operation.filter .guard)

theorem mem_operations_guarded {op : Operation} : op ∈ guarded.operations ↔ op = .filter .guard := by
  change op ∈ [_] ↔ _
  exact List.mem_singleton

theorem counts_guarded : ∀ op ∈ guarded.operations, op.selections ⊆ [counted] := by
  intro op listed
  obtain rfl := mem_operations_guarded.mp listed
  exact List.Subset.refl _

theorem numbered_guarded : Numbered {guarded} :=
  numbered_of_counts counts_guarded nofun

/-- There are never fewer items than none. -/
theorem guard_rejects {x : Item} {o : Option (Except Error Bool)}
    (results : (Filter.guard.accept Inquiry.select x).Results o) : o = some (.ok false) := by
  have counting {o : Option (Except Error Bool)}
      (results : ((Filter.counting counted .lt 0).accept Inquiry.select x).Results o) :
      o = some (.ok false) := by
    obtain ⟨o', reached, rfl⟩ := Inquiry.exists_of_results_bind_pure results
    obtain ⟨found, rfl⟩ := counted_passes reached
    exact congrArg (some ∘ Except.ok) (decide_eq_false (Nat.not_lt_zero found.size))
  rw [Filter.guard, Filter.accept, Filter.acceptEvery] at results
  obtain ⟨accepted, -, rest⟩ | ⟨_, tested, passed⟩ := Inquiry.results_bind.mp results
  · cases accepted with
    | false => exact Inquiry.results_pure.mp rest
    | true =>
      obtain ⟨_, verdict, last⟩ | ⟨_, verdict, passed⟩ := Inquiry.results_bind.mp rest
      · cases counting verdict
        exact Inquiry.results_pure.mp last
      · cases counting verdict
        exact (Inquiry.ok_not_passedOn passed).elim
  · cases Inquiry.results_ofOutcome.mp tested
    exact (Inquiry.ok_not_passedOn passed).elim

theorem isPure_guarded : guarded.IsPure := by
  intro r within op listed
  obtain rfl | rfl := eq_of_within_of_counts counts_guarded within
  · obtain rfl := mem_operations_guarded.mp listed
    exact Filter.isPure_of_rejects fun x o => guard_rejects
  · exact isPure_tally tally .refl op listed

/-- On a declared tuple, the guard asks for the number of items. -/
theorem guarded_leads : Call.Leads ⟨guarded, tallySource, tallySource, .singleton .declared .any⟩
    ⟨tally, tallySource, tallySink, .singleton .declared .any⟩ := by
  have step : (⟨tallySource, tallySource⟩, .filter .guard) ∈ guarded.steps tallySource :=
    steps_single guarded.id ⟨tallySource, tallySource⟩ (.filter .guard) ▸ List.mem_singleton_self _
  exact leads_of_counts step (.here counted .declared _)

end Query

namespace Evaluator

open EvalM

/-- An undeclared tuple is guarded, then the equal one that is declared, and then the latter is counted. It
gives the evaluator before the count. -/
def guardThenCount : EvalM Evaluator := do
  let _ ← select 3 Query.guarded Query.tallySource Query.tallySource (.singleton .undeclared .any)
  let _ ← select 3 Query.guarded Query.tallySource Query.tallySource (.singleton .declared .any)
  let before ← get
  let _ ← select 3 Query.tally Query.tallySource Query.tallySink (.singleton .declared .any)
  return before

theorem expanded_guardThenCount : (guardThenCount.run (.started {})).map
    (fun p => p.1.toOption.map fun before => (before.stats.expanded, p.2.stats.expanded)) =
      some (some (1, 3)) := by
  cbv

/-- If the operations are pure and nothing more, a selection that passes may leave frames uncached that
can be reached from it. Where the undeclared tuple was guarded before, guarding the equal one expands
nothing, so nothing is counted, although counting is what the guard asks for on the declared tuple.
Moreover no frame is cached that holds no items, not even the first. -/
theorem select_leaves_uncached : Query.guarded.IsPure ∧ Query.Numbered {Query.guarded} ∧
    (∃ first ev second ev',
      (select 3 Query.guarded Query.tallySource Query.tallySource
        (.singleton .undeclared .any)).Ends (.started {}) (.ok first) ev ∧
      (select 3 Query.guarded Query.tallySource Query.tallySource
        (.singleton .declared .any)).Ends ev (.ok second) ev' ∧
      Call.Leads ⟨Query.guarded, Query.tallySource, Query.tallySource, .singleton .declared .any⟩
        ⟨Query.tally, Query.tallySource, Query.tallySink, .singleton .declared .any⟩ ∧
      ¬ ev'.Cached (Frame.spot ⟨0, Query.tallySource, Query.tallySink, .singleton .declared .any⟩) ∧
      ∃ third ev'', (select 3 Query.tally Query.tallySource Query.tallySink
        (.singleton .declared .any)).Ends ev' (.ok third) ev'' ∧
          ev''.stats.expanded = ev'.stats.expanded + 2) ∧
    ∃ found ev', (select 1 Query.guarded Query.tallySource Query.tallySource (.empty .any)).Ends
        (.started {}) (.ok found) ev' ∧
      ¬ ev'.Cached (Frame.spot ⟨1, Query.tallySource, Query.tallySource, .empty .any⟩) := by
  refine ⟨Query.isPure_guarded, Query.numbered_guarded, ?_, ?_⟩
  · obtain ⟨before, ev'', ran, counts⟩ := exists_ends_of_seen
      (fun (before : Evaluator) ev => (before.stats.expanded, ev.stats.expanded)) expanded_guardThenCount
    obtain ⟨one, three⟩ := Prod.mk.inj counts
    obtain ⟨first, ev, guarded, rest⟩ := ran.of_bind
    obtain ⟨second, ev', guarded', rest⟩ := rest.of_bind
    obtain ⟨_, _, got, rest⟩ := rest.of_bind
    obtain ⟨⟨⟩, rfl⟩ := ends_get.mp got
    obtain ⟨third, _, counted, done⟩ := rest.of_bind
    obtain ⟨⟨⟩, rfl⟩ := ends_pure.mp done
    have two : ev''.stats.expanded = before.stats.expanded + 2 := three.trans (by rw [one])
    refine ⟨first, ev, second, before, guarded, guarded', Query.guarded_leads, fun cached => ?_,
      third, ev'', counted, two⟩
    obtain ⟨_, _, again, quiet⟩ := select_quiet (q := Query.tally) (fun _ => cached) (Nat.zero_lt_succ 2)
    obtain ⟨-, rfl⟩ := again.unique counted
    have same := quiet.expanded
    omega
  · obtain ⟨found, ev', ends, quiet⟩ : ∃ found ev', (select 1 Query.guarded Query.tallySource
        Query.tallySource (.empty .any)).Ends (.started {}) (.ok found) ev' ∧ (started {}).Quiet ev' :=
      select_quiet nofun Nat.one_pos
    refine ⟨found, ev', ends, ?_⟩
    rintro ⟨f, union, -, hit⟩
    rw [quiet.cache] at hit
    simp [started] at hit

end Evaluator

end GraphQuery
