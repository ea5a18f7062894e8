import GraphQuery.Proofs.Tabulation
import GraphQuery.Proofs.UnionOrder
/-!
# Tabulated queries

Looked up in tables, the operations of a query lead from spot to spot whatever an evaluator has met, so
that a tabulated query selects at most one set, up to equality, from the equal frames. A set that is
selected at some end of a nested query is an answer to a selection in it. With these answers the tables
of the query are made, and so the answers are the same for equal items.
-/

namespace GraphQuery

/-! Relabelled graphs -/

namespace Graph

variable {α β : Type}

/-- A graph with other labels in the places of its own. -/
def relabel (h : α → β) (g : Graph α) : Graph β where
  nodes := g.nodes
  nodeIndex := g.nodeIndex
  arcs := g.arcs
  labelled := g.labelled.map fun (a, labels) => (a, labels.map h)
  outgoing := g.outgoing
  incoming := g.incoming

theorem labels_relabel (h : α → β) (g : Graph α) (a : Arc) :
    (g.relabel h).labels a = (g.labels a).map h := by
  have lookup (l : List (Arc × List α)) : (l.map fun (b, labels) => (b, labels.map h)).lookup a =
      (l.lookup a).map (List.map h) := by
    induction l with
    | nil => rfl
    | cons entry l ih =>
      obtain ⟨b, labels⟩ := entry
      rw [List.map_cons, List.lookup_cons, List.lookup_cons, ih]
      cases a == b <;> rfl
  change ((g.labelled.map _).lookup a).getD [] = ((g.labelled.lookup a).getD []).map h
  rw [lookup]
  cases g.labelled.lookup a <;> rfl

end Graph

/-! Answers -/

/-- A selection made in some query finds, for an item, the union of what is selected at its ends. -/
def Selection.FindsIn (q : Query) (s : Selection) (x : Item) (found : ItemSet) : Prop :=
  ∃ founds, List.Forall₂ (fun stop => q.Selects ⟨q.id, s.start, stop, .singleton x s.inputType⟩)
    s.stops founds ∧ found = ItemSet.unite founds

theorem Selection.FindsIn.essence_eq {q : Query} {s : Selection} {x y : Item} {u v : ItemSet}
    (finds : s.FindsIn q x u) (finds' : s.FindsIn q y v) (equal : (x == y) = true) :
    u.essence = v.essence := by
  obtain ⟨founds, all, rfl⟩ := finds
  obtain ⟨founds', all', rfl⟩ := finds'
  refine ItemSet.essence_unite ?_
  generalize s.stops = stops at all all'
  induction all generalizing founds' with
  | nil =>
    cases all'
    exact .nil
  | @cons stop found _ _ selects _ ih =>
    cases all' with
    | @cons _ found' _ _ selects' rest =>
      refine .cons (selects.unique selects' ?_) (ih _ rest)
      rw [Frame.spot, Frame.spot, ItemSet.essence_singleton equal]

namespace Query

/-- A query with tables for operations, made from what the tabulated queries nested in it select. -/
noncomputable def tabulated (q : Query) : Query :=
  ⟨q.id, q.graph.relabel <| Operation.tabulated fun s x found =>
    ∃ _ : q.Nests s.query, s.FindsIn s.query.tabulated x found⟩
termination_by sizeOf q
decreasing_by exact Nests.sizeOf_lt ‹_›

end Query

/-- What a selection finds in the tabulated query. -/
def Selection.Finds (s : Selection) (x : Item) (found : ItemSet) : Prop :=
  s.FindsIn s.query.tabulated x found

theorem settles_finds : Settles Selection.Finds :=
  fun _ _ _ _ _ equal finds finds' => finds.essence_eq finds' equal

namespace Query

variable {q : Query}

theorem id_tabulated (q : Query) : q.tabulated.id = q.id := by
  rw [tabulated]

/-- Each operation has its table, in its place. -/
theorem steps_tabulated (q : Query) (n : Node) : q.tabulated.steps n =
    (q.steps n).map fun (a, op) => (a, op.tabulated Selection.Finds) := by
  rw [tabulated, steps, steps, List.map_flatMap]
  refine List.flatMap_congr fun a _ => ?_
  rw [Graph.labels_relabel, List.map_map, List.map_map]
  refine List.map_congr_left fun op label => congrArg (Prod.mk a) (Operation.tabulated_eq ?_)
  intro s selects x found
  exact exists_prop_of_true ⟨op, mem_operations_of_mem_labels label, s, selects, rfl⟩

theorem exists_of_mem_operations_tabulated {op : Operation} (listed : op ∈ q.tabulated.operations) :
    ∃ answers op₀, op = Operation.tabulated answers op₀ := by
  rw [tabulated] at listed
  obtain ⟨entry, member, label⟩ := List.mem_flatMap.mp listed
  obtain ⟨entry, -, rfl⟩ := List.mem_map.mp member
  obtain ⟨op₀, -, rfl⟩ := List.mem_map.mp label
  exact ⟨_, op₀, rfl⟩

theorem not_nests_tabulated {r : Query} : ¬ q.tabulated.Nests r := by
  rintro ⟨op, listed, s, selects, -⟩
  obtain ⟨answers, op, rfl⟩ := exists_of_mem_operations_tabulated listed
  rw [Operation.selections_tabulated] at selects
  cases selects

theorem isStable_tabulated : q.tabulated.IsStable := by
  intro op listed
  obtain ⟨answers, op, rfl⟩ := exists_of_mem_operations_tabulated listed
  exact Operation.isStable_tabulated

end Query

/-- The tabulated queries of a shelf are a collection. -/
theorem Shelf.tables {known : Set Query} (shelf : Shelf known) :
    Collection (Query.tabulated '' known) where
  closed := by
    rintro _ ⟨q, -, rfl⟩ r nests
    exact (Query.not_nests_tabulated nests).elim
  numbered := by
    rintro _ ⟨q, member, rfl⟩ _ ⟨r, member', rfl⟩ same
    rw [q.id_tabulated, r.id_tabulated] at same
    rw [shelf.numbered q member r member' same]
  isStable := by
    rintro _ ⟨q, -, rfl⟩
    exact Query.isStable_tabulated

end GraphQuery
