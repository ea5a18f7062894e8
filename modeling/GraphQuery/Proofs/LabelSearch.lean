import GraphQuery.Proofs.Positions
import GraphQuery.Proofs.Termination
import GraphQuery.Proofs.WalkUnion
import Mathlib.Data.List.Find
/-!
# Searching for labels

The query that finds the nodes with a label leads from one node to another, through a filter on labels.
A selection in it ends within two frames and finds the nodes that the filter accepts. So the first node
that is among them is the first with the label, and to find it does not fail.
-/

namespace GraphQuery

/-- The test for a label. -/
def Predicate.hasLabel (label : String) : Predicate :=
  .typed 0 "has label" fun n : Node => n.label == label

/-- The test for a label gives a verdict on every node. -/
theorem Filter.verdict_hasLabel (label : String) (n : Node) :
    (Filter.test (.hasLabel label)).verdict (Datum.toItem n) = .ok (n.label == label) := rfl

theorem Filter.agrees_hasLabel (label : String) : (Filter.test (.hasLabel label)).Agrees := by
  intro x y same
  obtain rfl | ⟨t, u, rfl, rfl⟩ := Item.eq_or_tuple_of_content (Item.beq_iff.mp same) <;> rfl

namespace Query

variable {label : String} {id : QueryId} {start stop : Node}

/-- The query that sends nodes through the test for a label. -/
def searching (label : String) (id : QueryId) (start stop : Node) : Query :=
  Builder.build (Graph.addLabel Graph.empty ⟨start, stop⟩ (Operation.filter (.test (.hasLabel label)))) id

theorem labelled_eq_ok (label : String) (id : QueryId) (number number' : NodeId) :
    labelled label id (.plain number "nodes" (Datum.itemType Node))
        (.plain number' "matches" (Datum.itemType Node)) =
      .ok (searching label id (.plain number "nodes" (Datum.itemType Node))
        (.plain number' "matches" (Datum.itemType Node))) := rfl

theorem mem_operations_searching {op : Operation} : op ∈ (searching label id start stop).operations ↔
    op = .filter (.test (.hasLabel label)) :=
  mem_operations_single

theorem mem_steps_searching {n : Node} {a : Arc} {op : Operation} :
    (a, op) ∈ (searching label id start stop).steps n ↔
      n = start ∧ a = ⟨start, stop⟩ ∧ op = .filter (.test (.hasLabel label)) :=
  mem_steps_single

theorem flat_searching : (searching label id start stop).Flat := by
  intro op listed
  rw [mem_operations_searching.mp listed]
  rfl

theorem isPure_searching : (searching label id start stop).IsPure := by
  intro r within op listed
  rw [flat_searching.eq_of_within within] at listed
  rw [mem_operations_searching.mp listed]
  exact (Filter.isPure_iff rfl).mpr (Filter.agrees_hasLabel label)

/-- What the search makes of a set of items. -/
theorem gives_searching {s : ItemSet} {r : Except Error ItemSet} :
    (Operation.filter (.test (.hasLabel label))).Gives s r ↔
      r = s.filterM (Filter.test (.hasLabel label)).verdict :=
  Operation.gives_of_done (Filter.inquiry_eq_done rfl s)

/-- A search carries its items to its end through the test, and nothing else to anywhere. -/
theorem carries_searching {items s : ItemSet} {n : Node} (apart : start ≠ stop)
    (carries : (searching label id start stop).Carries start items n s) :
    n = start ∧ s = items ∨ n = stop ∧ items.isEmpty = false ∧
      items.filterM (Filter.test (.hasLabel label)).verdict = .ok s := by
  induction carries with
  | here => exact .inl ⟨rfl, rfl⟩
  | along _ arc listed filled gives ih =>
    obtain ⟨back, rfl, rfl⟩ := mem_steps_searching.mp (mem_steps.mpr ⟨arc, listed⟩)
    obtain ⟨-, rfl⟩ | ⟨there, -⟩ := ih
    · exact .inr ⟨rfl, filled, (gives_searching.mp gives).symm⟩
    · exact (apart (back.symm.trans there)).elim

theorem carries_searching_stop {items s : ItemSet} (apart : start ≠ stop) :
    (searching label id start stop).Carries start items stop s ↔ items.isEmpty = false ∧
      items.filterM (Filter.test (.hasLabel label)).verdict = .ok s := by
  constructor
  · intro carries
    obtain ⟨there, -⟩ | ⟨-, passed⟩ := carries_searching apart carries
    · exact (apart there.symm).elim
    · exact passed
  · rintro ⟨filled, passed⟩
    have step : (⟨start, stop⟩, Operation.filter (.test (.hasLabel label))) ∈
        (searching label id start stop).steps start := mem_steps_searching.mpr ⟨rfl, rfl, rfl⟩
    obtain ⟨arc, listed⟩ := mem_steps.mp step
    exact .along .here arc listed filled (gives_searching.mpr passed.symm)

/-- A node is among the items of some nodes if it is one of these. -/
theorem mem_ofList_nodes {nodes : List Node} {n : Node} :
    Datum.toItem n ∈ ItemSet.ofList (nodes.map Datum.toItem) (Datum.itemType Node) ↔ n ∈ nodes := by
  rw [ItemSet.mem_ofList, List.contains_iff_exists_mem_beq]
  constructor
  · rintro ⟨_, listed, equal⟩
    obtain ⟨m, known, rfl⟩ := List.mem_map.mp listed
    have same : (Datum.toItem m : Item) = Datum.toItem n :=
      Item.eq_atom_of_content (Item.beq_iff.mp equal).symm
    exact Atom.node.inj (Item.atom.inj same) ▸ known
  · exact fun listed => ⟨_, List.mem_map_of_mem listed, BEq.rfl⟩

/-- The nodes with the label pass the test and other nodes do not, so it does not fail on nodes. -/
theorem filterM_hasLabel (label : String) (nodes : List Node) :
    ∃ s, (ItemSet.ofList (nodes.map Datum.toItem) (Datum.itemType Node)).filterM
        (Filter.test (.hasLabel label)).verdict = .ok s ∧
      ∀ n : Node, Datum.toItem n ∈ s ↔ n ∈ nodes ∧ n.label = label := by
  have accepts (n : Node) :
      (Filter.test (.hasLabel label)).verdict (Datum.toItem n) = .ok true ↔ n.label = label := by
    rw [Filter.verdict_hasLabel, Except.ok.injEq, beq_iff_eq]
  have listed_iff {s : ItemSet} {n : Node} : Datum.toItem n ∈ s ↔ Datum.toItem n ∈ s.items := by
    refine ⟨fun inside => ?_, ItemSet.mem_of_mem_items⟩
    obtain ⟨x, member, equal⟩ := ItemSet.mem_iff_exists.mp inside
    have same : x = Datum.toItem n := Item.eq_atom_of_content (Item.beq_iff.mp equal).symm
    exact same ▸ member
  rcases ItemSet.filterM_cases _ (Filter.test (.hasLabel label)).verdict with
    ⟨s, passed, -, -, kept⟩ | ⟨e, -, x, member, failed⟩
  · refine ⟨s, passed, fun n => ?_⟩
    rw [listed_iff, kept, ← listed_iff, mem_ofList_nodes, accepts]
  · obtain ⟨n, -, rfl⟩ := List.mem_map.mp (ItemSet.mem_of_mem_items_ofList member)
    cases (Filter.verdict_hasLabel label n).symm.trans failed

end Query

namespace Evaluator

open EvalM Query

variable {label : String} {id : QueryId} {start stop : Node} {items : ItemSet} {ev : Evaluator}

/-- A search ends within two frames. -/
theorem visit_searching_halts (apart : start ≠ stop) :
    (visit 2 (searching label id start stop) start stop items).Halts ev := by
  refine visit_halts_of_shallow flat_searching fun a op listed => ?_
  obtain ⟨-, rfl, -⟩ := mem_steps_searching.mp listed
  refine List.eq_nil_iff_forall_not_mem.mpr fun step listed => ?_
  exact apart (mem_steps_searching.mp listed).1.symm

/-- A search among nodes finds those with the label. -/
theorem select_searching (label : String) (id : QueryId) (apart : start ≠ stop) (nodes : List Node) :
    ∃ found ev, (select 2 (searching label id start stop) start stop
      (.ofList (nodes.map Datum.toItem) (Datum.itemType Node))).Ends (.fresh true) (.ok found) ev ∧
      ∀ n : Node, Datum.toItem n ∈ found ↔ n ∈ nodes ∧ n.label = label := by
  let items := ItemSet.ofList (nodes.map Datum.toItem) (Datum.itemType Node)
  have numbered : Numbered {searching label id start stop} := flat_searching.numbered
  have lib := Library.of_queries numbered fun r same =>
    Set.mem_singleton_iff.mp same ▸ isPure_searching
  obtain ⟨s, passed, kept⟩ := filterM_hasLabel label nodes
  obtain ⟨r, ev, ends⟩ : (select 2 (searching label id start stop) start stop items).Halts
      (.fresh true) := selectBy_halts (visit_searching_halts apart)
  obtain ⟨found, rfl, -, -, union⟩ | ⟨e, rfl, n, t, carries, filled, a, arc, op, listed, e', gives⟩ :=
    select_outcome lib ⟨_, rfl, .refl⟩ (coherent_fresh _ true) (clear_fresh _ true) ends
  · refine ⟨found, ev, ends, fun n => (union _).trans ?_⟩
    constructor
    · rintro ⟨t, carries, inside⟩
      obtain ⟨-, same⟩ := (carries_searching_stop apart).mp carries
      obtain rfl := Except.ok.inj (passed.symm.trans same)
      exact (kept n).mp inside
    · intro both
      have filled := ItemSet.isEmpty_eq_false_of_mem (mem_ofList_nodes.mpr both.1)
      exact ⟨s, (carries_searching_stop apart).mpr ⟨filled, passed⟩, (kept n).mpr both⟩
  · obtain ⟨rfl, -, rfl⟩ := mem_steps_searching.mp (mem_steps.mpr ⟨arc, listed⟩)
    obtain ⟨-, rfl⟩ | ⟨there, -⟩ := carries_searching apart carries
    · cases (gives_searching.mp gives).trans passed
    · exact (apart there).elim

end Evaluator

namespace Query

/-- In any session, the first node with a label is found, or none if there is no such node. -/
theorem findNode?_gives (q : Query) (label : String) (s : Session) :
    ∃ s', (q.findNode? label).Gives s (q.nodes.find? fun n => n.label == label) s' := by
  let start := Node.plain s.nextNode "nodes" (Datum.itemType Node)
  let stop := Node.plain (s.nextNode + 1) "matches" (Datum.itemType Node)
  have apart : start ≠ stop := fun same => Nat.succ_ne_self s.nextNode (congrArg Node.id same).symm
  obtain ⟨found, ev, ends, content⟩ := Evaluator.select_searching label s.nextQuery apart q.nodes
  have same : (q.nodes.find? fun n => found.contains (Datum.toItem n)) =
      q.nodes.find? fun n => n.label == label := by
    refine List.find?_congr fun n listed => ?_
    rw [Bool.eq_iff_iff, beq_iff_eq]
    exact (content n).trans (and_iff_right listed)
  refine ⟨⟨s.nextNode + 2, s.nextQuery + 1, s.events ++ ev.events⟩, ?_⟩
  refine (SessionM.gives_freshNode s).bind ((SessionM.gives_freshNode _).bind
    ((SessionM.gives_freshQuery _).bind ?_))
  rw [labelled_eq_ok]
  refine (SessionM.gives_ofOutcome _ _).bind ((SessionM.gives_select ends _).bind ?_)
  rw [same]
  exact SessionM.gives_pure _ _

end Query

end GraphQuery
