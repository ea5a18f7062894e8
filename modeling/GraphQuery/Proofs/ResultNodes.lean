import Mathlib
import GraphQuery.Proofs.Rewriting
import GraphQuery.Proofs.Serving
import GraphQuery.Proofs.Termination
/-!
# Selections at all result nodes

What is selected at all result nodes of a query is the union of what is selected at each. Neither the
items nor the declared type of it depend on the order of the nodes, nor on that of the steps. The type
is one that the output type of a selection accepts, although that is found from the query alone: sets in
which nothing arrives leave their types out of the union, which makes its type narrower, and never wider.
-/

namespace GraphQuery

namespace Query

variable {q q' : Query}

/-- The result nodes of one query, and the steps that leave each of its nodes, are those of another in
some order. -/
structure Reorders (q q' : Query) : Prop where
  resultNodes : q'.resultNodes.Perm q.resultNodes
  steps : ∀ n, (q'.steps n).Perm (q.steps n)

namespace Reorders

theorem symm (reorders : q.Reorders q') : q'.Reorders q :=
  ⟨reorders.resultNodes.symm, fun n => (reorders.steps n).symm⟩

/-- Graphs with the same nodes, and the same labels on each arc, differ in their order at most. -/
theorem of_labels (consistent : Graph.Consistent q.graph) (consistent' : Graph.Consistent q'.graph)
    (nodes : ∀ n, n ∈ q'.nodes ↔ n ∈ q.nodes)
    (labels : ∀ a, (q'.graph.labels a).Perm (q.graph.labels a)) : q.Reorders q' := by
  have arcs (n : Node) : (q'.graph.arcsFrom n).Perm (q.graph.arcsFrom n) := by
    have nodup {g : Graph Operation} (consistent : g.Consistent) : (g.arcsFrom n).Nodup :=
      consistent.outgoing n ▸ consistent.nodup_arcs.filter _
    refine (List.perm_ext_iff_of_nodup (nodup consistent') (nodup consistent)).mpr fun a => ?_
    rw [consistent'.mem_arcsFrom, consistent.mem_arcsFrom, consistent'.mem_arcs, consistent.mem_arcs,
      Ne, Ne, ← List.length_eq_zero_iff, ← List.length_eq_zero_iff, (labels a).length_eq]
  refine ⟨.filter _ ?_, fun n => (arcs n).flatMap fun a _ => (labels a).map _⟩
  exact (List.perm_ext_iff_of_nodup consistent'.nodup_nodes consistent.nodup_nodes).mpr nodes

variable (reorders : q.Reorders q')

include reorders

theorem takes {k : Spot} {a : Arc} {op : Operation} {o : Option (Except Error ItemSet)}
    (takes : q.Takes k a op o) : q'.Takes k a op o :=
  takes.of_mem_steps ((reorders.steps k.start).mem_iff.mpr takes.1)

theorem leads {k k' : Spot} (leads : q.Leads k k') : q'.Leads k k' := by
  obtain ⟨a, op, reached, takes, further, same⟩ := leads
  exact ⟨a, op, reached, reorders.takes takes, further, same⟩

/-- The order of steps does not matter to what is reached. -/
theorem simulates (stop : Node) : Simulates q q' (fun _ => True) stop where
  leads _ _ _ _ leads := ⟨.single (reorders.symm.leads leads), trivial⟩
  passes _ _ _ _ _ safe takes := safe.takes_ok (reorders.symm.takes takes)
  complete k k' _ _ reaches _ := Relation.ReflTransGen.mono (fun _ _ => reorders.leads) k k' reaches

/-- Whatever numbers the queries have, their frames select the same. -/
theorem selects {start stop : Node} {items found : ItemSet}
    (selects : q.Selects ⟨q.id, start, stop, items⟩ found) :
    q'.Selects ⟨q'.id, start, stop, items⟩ found := by
  obtain ⟨safe, gathers⟩ := (reorders.simulates stop).preserves trivial
    (Frame.spot ⟨q.id, start, stop, items⟩) rfl rfl selects.safe
  refine ⟨selects.itemType, fun c => ?_, safe.inQuery (i := q'.id)⟩
  exact ((selects.contents c).trans (gathers c).symm).trans gathers_inQuery.symm

end Reorders

end Query

namespace Evaluator

open EvalM

variable {known queries : Set Query} {q q' : Query} {start stop : Node} {items found : ItemSet}
  {fuel : Nat} {ev ev' : Evaluator}

section

variable (lib : Library known) (member : q ∈ known)

include lib member

/-- A selection at one node leaves the evaluator fit for the next, and comes to what its frame selects. -/
theorem selects_of_select {r : Except Error ItemSet} (truthful : Truthful known ev) (clear : Clear q ev)
    (ends : (select fuel q start stop items).Ends ev r ev') :
    (Truthful known ev' ∧ Clear q ev' ∧ ev'.config = ev.config) ∧
      ∀ found, r = .ok found → q.Selects ⟨q.id, start, stop, items⟩ found := by
  obtain ⟨after, ext, outcome⟩ :=
    select_clear lib.collection member (understood lib member) truthful clear ends
  refine ⟨⟨after, clear.extends ext, ext.config⟩, fun found same => ?_⟩
  obtain ⟨_, rfl, selects⟩ | ⟨e, rfl, -⟩ := outcome
  · rwa [← Except.ok.inj same]
  · cases same

/-- Selections at all result nodes come to the union of what is selected at each, or one fails. -/
theorem selects_of_selectResults {r : Except Error ItemSet} (truthful : Truthful known ev)
    (clear : Clear q ev) (ends : (selectResults fuel q start items).Ends ev r ev') :
    (∃ founds, r = .ok (ItemSet.unite founds) ∧
      List.Forall₂ (fun stop => q.Selects ⟨q.id, start, stop, items⟩) q.resultNodes founds) ∨
    ∃ e, r = .error e ∧ ∃ stop ∈ q.resultNodes, ∃ ev₁,
      (Truthful known ev₁ ∧ Clear q ev₁ ∧ ev₁.config = ev.config) ∧
      (select fuel q start stop items).Ends ev₁ (.error e) ev' := by
  refine (selectResultsBy_cases (visit fuel) (fun _ _ ev₁ _ ev₂ before ended => ?_)
    ⟨truthful, clear, rfl⟩ ends).2
  obtain ⟨truthful, clear, same⟩ := before
  obtain ⟨⟨truthful', clear', same'⟩, found⟩ := selects_of_select lib member truthful clear ended
  exact ⟨⟨truthful', clear', same'.trans same⟩, found⟩

/-- They pass if something is selected at each. -/
theorem selectResults_of_selects
    (selects : ∀ stop ∈ q.resultNodes, ∃ found, q.Selects ⟨q.id, start, stop, items⟩ found)
    (coherent : Coherent known ev) (clear : Clear q ev) :
    ∃ fuel founds ev', (selectResults fuel q start items).Ends ev (.ok (ItemSet.unite founds)) ev' ∧
      List.Forall₂ (fun stop => q.Selects ⟨q.id, start, stop, items⟩) q.resultNodes founds := by
  have passes {stop : Node} (listed : stop ∈ q.resultNodes) {ev : Evaluator}
      (coherent : Coherent known ev) (clear : Clear q ev) :
      ∃ n found ev₁, (select n q start stop items).Ends ev (.ok found) ev₁ := by
    obtain ⟨found, selects⟩ := selects stop listed
    obtain ⟨n, found', ev₁, ends, -⟩ := select_of_selects lib.collection member
      (understood lib member) rfl selects coherent clear
    exact ⟨n, found', ev₁, ends⟩
  obtain ⟨fuel, r, ev', ends⟩ := selectResults_halts lib member (fun stop listed ev coherent clear => by
    obtain ⟨n, found, ev₁, ends⟩ := passes listed coherent clear
    exact ⟨n, ends.halts⟩) coherent clear
  obtain ⟨founds, rfl, all⟩ | ⟨e, rfl, stop, listed, ev₁, ⟨between, clear', same⟩, failed⟩ :=
    selects_of_selectResults lib member coherent.toTruthful clear ends
  · exact ⟨fuel, founds, ev', ends, all⟩
  · obtain ⟨n, found, ev₂, passed⟩ :=
      passes listed ⟨between, by rw [same, coherent.unlimited]⟩ clear'
    cases (Ends.unique_of_growing (growing_select q start stop items) failed passed).1

end

/-- What is selected at the result nodes of queries that differ in their order is the same. -/
theorem unite_of_reorders (reorders : q.Reorders q') {founds founds' : List ItemSet}
    (all : List.Forall₂ (fun stop => q.Selects ⟨q.id, start, stop, items⟩) q.resultNodes founds)
    (all' : List.Forall₂ (fun stop => q'.Selects ⟨q'.id, start, stop, items⟩) q'.resultNodes founds') :
    (ItemSet.unite founds').essence = (ItemSet.unite founds).essence := by
  have covered {q q' : Query} {founds founds' : List ItemSet} (reorders : q.Reorders q')
      (all : List.Forall₂ (fun stop => q.Selects ⟨q.id, start, stop, items⟩) q.resultNodes founds)
      (all' : List.Forall₂ (fun stop => q'.Selects ⟨q'.id, start, stop, items⟩) q'.resultNodes founds')
      {e : ItemSet.Essence} (listed : e ∈ founds.map ItemSet.essence) :
      e ∈ founds'.map ItemSet.essence := by
    obtain ⟨found, member, rfl⟩ := List.mem_map.mp listed
    obtain ⟨stop, node, selects⟩ := exists_of_mem_forall₂ all.flip member
    obtain ⟨found', member', selects'⟩ :=
      exists_of_mem_forall₂ all' (reorders.resultNodes.mem_iff.mpr node)
    exact List.mem_map.mpr ⟨found', member', selects'.unique (reorders.selects selects) rfl⟩
  exact ItemSet.essence_unite_of_mem_iff fun e =>
    ⟨covered reorders.symm all' all, covered reorders all all'⟩

section

variable (lib : Library known) (member : q' ∈ known) (reorders : q.Reorders q')
  (coherent : Coherent known ev) (clear : Clear q' ev)

include lib member reorders coherent clear

/-- What is selected at a node in one query is selected there in the other. -/
theorem select_of_reorders (selects : q.Selects ⟨q.id, start, stop, items⟩ found) :
    ∃ fuel s ev', (select fuel q' start stop items).Ends ev (.ok s) ev' ∧ found.essence = s.essence :=
  select_of_selects lib.collection member (understood lib member) rfl (reorders.selects selects) coherent
    clear

/-- An item is among those selected at all result nodes of one query if and only if it is selected at one
of them in the other. -/
theorem mem_unite_iff_select {founds : List ItemSet} {x : Item}
    (all : List.Forall₂ (fun stop => q.Selects ⟨q.id, start, stop, items⟩) q.resultNodes founds) :
    x ∈ ItemSet.unite founds ↔ ∃ stop ∈ q.resultNodes, ∃ fuel s ev',
      (select fuel q' start stop items).Ends ev (.ok s) ev' ∧ x ∈ s := by
  rw [ItemSet.mem_unite]
  constructor
  · rintro ⟨found, listed, inside⟩
    obtain ⟨stop, node, selects⟩ := exists_of_mem_forall₂ all.flip listed
    obtain ⟨fuel, s, ev', ends, same⟩ := select_of_reorders lib member reorders coherent clear selects
    exact ⟨stop, node, fuel, s, ev', ends, (ItemSet.mem_congr same).mp inside⟩
  · rintro ⟨stop, node, fuel, s, ev', ends, inside⟩
    obtain ⟨found, listed, selects⟩ := exists_of_mem_forall₂ all node
    have selects' := (selects_of_select lib member coherent.toTruthful clear ends).2 s rfl
    have same := (reorders.selects selects).unique selects' rfl
    exact ⟨found, listed, (ItemSet.mem_congr same).mpr inside⟩

end

/-- The output type of a selection accepts the declared type of what is selected at all its ends. -/
theorem outputType_accepts_unite {s : Selection} {founds : List ItemSet}
    (all : List.Forall₂ (fun stop (found : ItemSet) => found.itemType = stop.inputType) s.stops founds) :
    s.outputType.accepts (ItemSet.unite founds).itemType = true := by
  refine ItemSet.unite_induction (P := fun found => s.outputType.accepts found.itemType = true)
    (fun none => ?_) (fun _ _ => ItemSet.accepts_itemType_union) fun found member => ?_
  · rw [none, List.forall₂_nil_right_iff] at all
    rw [Selection.outputType_eq_any all]
    exact ItemType.any_accepts _
  · obtain ⟨stop, listed, same⟩ := exists_of_mem_forall₂ all.flip member
    exact same ▸ s.outputType_accepts listed

/-- What the selection of an operation finds is declared to be of a type that its output type accepts. -/
theorem outputType_accepts_nested (lib : Library known) {s : Selection} (member : s.query ∈ known)
    {x : Item} (truthful : Truthful known ev) (clear : Clear s.query ev)
    (ends : (nested fuel s x).Ends ev (.ok found) ev') :
    s.outputType.accepts found.itemType = true := by
  unfold nested nestedBy at ends
  obtain ⟨r, ended, same⟩ := ends_within.mp ends
  obtain rfl : r = .ok found := by
    cases r with
    | error => cases same
    | ok => exact same.symm
  cases single : s.stop? with
  | some stop =>
    rw [single] at ended
    have selects := (selects_of_select lib member truthful clear ended).2 found rfl
    have listed : stop ∈ s.stops := by rw [Selection.stops, single]; exact List.mem_singleton_self stop
    exact selects.itemType ▸ s.outputType_accepts listed
  | none =>
    rw [single] at ended
    have stops : s.stops = s.query.resultNodes := by rw [Selection.stops, single]
    obtain ⟨founds, same, all⟩ | ⟨e, contra, -⟩ :=
      selects_of_selectResults lib member truthful clear ended
    · obtain rfl := Except.ok.inj same
      exact outputType_accepts_unite (stops ▸ all.imp fun _ _ selects => selects.itemType)
    · cases contra

/-- An evaluator is in service, with some settings, for queries with numbers of their own, all of whose
operations are pure. -/
structure ServesPure (queries : Set Query) (config : Config) (ev : Evaluator) : Prop where
  numbered : Query.Numbered queries
  isPure : ∀ q ∈ queries, q.IsPure
  serves : Serves queries config ev

namespace ServesPure

variable {config : Config} (serves : ServesPure queries config ev)

include serves

theorem library : Library {r | ∃ q ∈ queries, q.Within r} :=
  .of_queries serves.numbered serves.isPure

theorem truthful : Truthful {r | ∃ q ∈ queries, q.Within r} ev ∧ (∀ q, Clear q ev) ∧
    ev.config = config := by
  have included := Query.subset_within queries
  obtain ⟨resting, same⟩ := serves.serves.resting serves.library.toShelf included
  exact ⟨serves.serves.truthful serves.library.collection included,
    clear_of_closed resting.openSpots, same⟩

/-- So it is wherever an operation makes a selection. -/
theorem truthful_of_happens {s : Selection} {x : Item} {ev₁ : Evaluator}
    (happens : Happens queries ev ⟨.nested s x, ev₁⟩) :
    (∃ q ∈ queries, q.Within s.query) ∧ Truthful {r | ∃ q ∈ queries, q.Within r} ev₁ ∧
      Clear s.query ev₁ := by
  have included := Query.subset_within queries
  have col := serves.library.collection
  have truthful := serves.serves.truthful col included
  obtain ⟨resting, -⟩ := serves.serves.resting serves.library.toShelf included
  obtain ⟨first, begins, follows⟩ := happens
  exact (begins.honest col included truthful resting.openSpots).follows col follows

end ServesPure

/-- What is selected at all result nodes is the union of what is selected at each, on whatever evaluators
without a limit on depth, and it is the same, declared type included, in whatever order the result nodes
stand. The output type of a selection accepts the declared type of what it finds, whether it has an end
or not, and whatever the settings are. -/
theorem selectResults_order_free {config : Config} (serves : ServesPure queries config ev) :
    (∀ q ∈ queries, ∀ start items fuel found ev',
      (selectResults fuel q start items).Ends ev (.ok found) ev' →
      ∀ queries' config' ev₁, ServesPure queries' config' ev₁ → config'.maxDepth? = none →
        ∀ q' ∈ queries', q.Reorders q' →
          (∀ stop ∈ q.resultNodes, ∃ fuel₁ s ev₂,
            (select fuel₁ q' start stop items).Ends ev₁ (.ok s) ev₂) ∧
          (∀ x, x ∈ found ↔ ∃ stop ∈ q.resultNodes, ∃ fuel₁ s ev₂,
            (select fuel₁ q' start stop items).Ends ev₁ (.ok s) ev₂ ∧ x ∈ s) ∧
          ∃ fuel₁ found' ev₂, (selectResults fuel₁ q' start items).Ends ev₁ (.ok found') ev₂ ∧
            (found' == found) = true ∧ found'.itemType = found.itemType) ∧
    ∀ (s : Selection) (x : Item) (ev₁ : Evaluator),
      s.query ∈ queries ∧ ev₁ = ev ∨ Happens queries ev ⟨.nested s x, ev₁⟩ →
      ∀ fuel found ev', (nested fuel s x).Ends ev₁ (.ok found) ev' →
        s.outputType.accepts found.itemType = true := by
  obtain ⟨truthful, clear, -⟩ := serves.truthful
  constructor
  · intro q member start items fuel found ev' ends queries' config' ev₁ serves' unlimited q' member'
      reorders
    obtain ⟨truthful', clear', settings⟩ := serves'.truthful
    have coherent' : Coherent _ ev₁ := ⟨truthful', by rw [settings, unlimited]⟩
    have lib := serves'.library
    have inside : q' ∈ {r | ∃ q ∈ queries', q.Within r} := ⟨q', member', .refl⟩
    obtain ⟨founds, same, all⟩ | ⟨e, contra, -⟩ :=
      selects_of_selectResults serves.library ⟨q, member, .refl⟩ truthful (clear q) ends
    swap
    · cases contra
    obtain rfl := Except.ok.inj same
    refine ⟨fun stop node => ?_,
      fun x => mem_unite_iff_select lib inside reorders coherent' (clear' q') all, ?_⟩
    · obtain ⟨s, -, selects⟩ := exists_of_mem_forall₂ all node
      obtain ⟨fuel₁, s', ev₂, ended, -⟩ :=
        select_of_reorders lib inside reorders coherent' (clear' q') selects
      exact ⟨fuel₁, s', ev₂, ended⟩
    · obtain ⟨fuel₁, founds', ev₂, ended, all'⟩ := selectResults_of_selects lib inside
        (fun stop node => by
          obtain ⟨s, -, selects⟩ := exists_of_mem_forall₂ all (reorders.resultNodes.mem_iff.mp node)
          exact ⟨s, reorders.selects selects⟩) coherent' (clear' q')
      have same := unite_of_reorders reorders all all'
      exact ⟨fuel₁, _, ev₂, ended, ItemSet.essence_eq_iff.mp same, congrArg ItemSet.Essence.itemType same⟩
  · rintro s x ev₁ (⟨member, rfl⟩ | happens) fuel found ev' ends
    · exact outputType_accepts_nested serves.library ⟨s.query, member, .refl⟩ truthful (clear s.query)
        ends
    · obtain ⟨member, truthful', clear'⟩ := serves.truthful_of_happens happens
      exact outputType_accepts_nested serves.library member truthful' clear' ends

end Evaluator

/-! A query with two result nodes -/

namespace Query

/-- A query of two steps. -/
def ofPair (id : QueryId) (first second : Arc × Operation) : Query where
  id
  graph := Graph.addLabel (Graph.addLabel Graph.empty first.1 first.2) second.1 second.2

theorem consistent_ofPair (i : QueryId) (s t : Arc × Operation) :
    Graph.Consistent (ofPair i s t).graph :=
  (Graph.consistent_empty.addLabel s.1 s.2).addLabel t.1 t.2

theorem labels_ofPair {i : QueryId} {s t : Arc × Operation} (apart : s.1 ≠ t.1) (a : Arc) :
    (ofPair i s t).graph.labels a = if a = s.1 then [s.2] else if a = t.1 then [t.2] else [] := by
  have none (a : Arc) : (Graph.empty : Graph Operation).labels a = [] := rfl
  change (Graph.addLabel (Graph.addLabel Graph.empty s.1 s.2) t.1 t.2).labels a = _
  simp only [Graph.labels_addLabel, none, apart.symm, if_false, List.any_nil, and_true,
    List.nil_append]
  split_ifs with there here
  · exact absurd (here.symm.trans there) apart
  · rfl
  · rfl
  · rfl

/-- The order of the steps makes no difference but to that of nodes. -/
theorem reorders_ofPair {i j : QueryId} {s t : Arc × Operation} (apart : s.1 ≠ t.1) :
    (ofPair i s t).Reorders (ofPair j t s) := by
  refine .of_labels (consistent_ofPair i s t) (consistent_ofPair j t s) (fun n => ?_) fun a => ?_
  · have nodes {i : QueryId} {s t : Arc × Operation} : n ∈ (ofPair i s t).nodes ↔
        (n = s.1.source ∨ n = s.1.target) ∨ n = t.1.source ∨ n = t.1.target := by
      have empty := Graph.consistent_empty (α := Operation)
      refine (empty.addLabel s.1 s.2).mem_nodes_addLabel.trans ?_
      rw [empty.mem_nodes_addLabel, show Graph.empty.nodes = [] from rfl]
      simp
    rw [nodes, nodes, or_comm]
  · rw [labels_ofPair apart, labels_ofPair apart.symm]
    split_ifs with there here
    · exact absurd (here.symm.trans there) apart
    all_goals exact .refl _

/-- The node at which items of any kind arrive as they are. -/
def copySink : Node :=
  .result 2 "copies" .any

/-- The number of items arrives at one result node, and the items at another. -/
def fork : Query :=
  ofPair 0 (⟨tallySource, tallySink⟩, .count .any) (⟨tallySource, copySink⟩, .filter (.anything .any))

/-- The same with the nodes the other way around. -/
def forkTurned : Query :=
  ofPair 1 (⟨tallySource, copySink⟩, .filter (.anything .any)) (⟨tallySource, tallySink⟩, .count .any)

theorem mem_operations_fork {q : Query} (member : q ∈ ({fork, forkTurned} : Set Query))
    {op : Operation} (listed : op ∈ q.operations) : op = .count .any ∨ op = .filter (.anything .any) := by
  obtain rfl | rfl := member
  · exact List.mem_pair.mp listed
  · exact (List.mem_pair.mp listed).symm

theorem flat_fork : ∀ q ∈ ({fork, forkTurned} : Set Query), q.Flat := by
  intro q member op listed
  obtain rfl | rfl := mem_operations_fork member listed <;> rfl

theorem numbered_fork : Numbered {fork, forkTurned} := by
  refine .of_flat flat_fork ?_
  rintro q (rfl | rfl) r (rfl | rfl) same
  · rfl
  · cases same
  · cases same
  · rfl

theorem isPure_fork : ∀ q ∈ ({fork, forkTurned} : Set Query), q.IsPure := by
  intro q member r within op listed
  rw [(flat_fork q member).eq_of_within within] at listed
  obtain rfl | rfl := mem_operations_fork member listed
  · exact Operation.isPure_count .any
  · exact (Filter.isPure_iff rfl).mpr (Filter.agrees_anything .any)

end Query

namespace Evaluator

open EvalM

/-- A unit and its number are selected from a unit in either order, and by an operation alike. -/
theorem selectResults_fork : ∃ found ev₁ fuel found' ev₂,
    (selectResults 3 Query.fork Query.tallySource (.singleton (.atom .unit) .any)).Ends (.started {})
      (.ok found) ev₁ ∧
    (selectResults fuel Query.forkTurned Query.tallySource (.singleton (.atom .unit) .any)).Ends
      (.started {}) (.ok found') ev₂ ∧
    (found' == found) = true ∧ found'.itemType = found.itemType ∧
    (nested 3 ⟨Query.fork, Query.tallySource, none⟩ (.atom .unit)).Ends (.started {}) (.ok found) ev₁ ∧
    (Selection.outputType ⟨Query.fork, Query.tallySource, none⟩).accepts found.itemType = true := by
  have serves : ServesPure {Query.fork, Query.forkTurned} {} (.started {}) :=
    ⟨Query.numbered_fork, Query.isPure_fork, .nothing⟩
  obtain ⟨found, ev₁, ends⟩ : ∃ found ev₁, (selectResults 3 Query.fork Query.tallySource
      (.singleton (.atom .unit) .any)).Ends (.started {}) (.ok found) ev₁ :=
    exists_ends_of_isOk (by cbv)
  have asked : (nested 3 ⟨Query.fork, Query.tallySource, none⟩ (.atom .unit)).Ends (.started {})
      (.ok found) ev₁ := by
    unfold nested nestedBy
    exact ends_within.mpr ⟨.ok found, ends, rfl⟩
  obtain ⟨orderFree, fits⟩ := selectResults_order_free serves
  obtain ⟨-, -, fuel, found', ev₂, ended, equal, typed⟩ := orderFree _ (.inl rfl) _ _ _ _ _ ends _ _ _
    serves rfl _ (.inr rfl) (Query.reorders_ofPair (by decide))
  exact ⟨found, ev₁, fuel, found', ev₂, ends, ended, equal, typed, asked,
    fits _ _ _ (.inl ⟨.inl rfl, rfl⟩) _ _ _ asked⟩

end Evaluator

end GraphQuery
