import GraphQuery.Proofs.Filtering
import GraphQuery.Proofs.GraphLaws
import GraphQuery.Proofs.Selections
/-!
# Rewriting queries

A query may stand in for another between two nodes if it selects the same wherever the other selects
without failure. This follows if it makes no steps of its own from the nodes that both share: each of
its steps can be taken in the other query by one step or more, and what the other reaches at the end
is reached in it too.
-/

namespace GraphQuery

/-- The spot with the same items between the same nodes of another query. -/
def Spot.inQuery (k : Spot) (i : QueryId) : Spot :=
  { k with query := i }

namespace Query

variable {q q' q'' : Query} {k k' : Spot} {start stop : Node} {i : QueryId}

/-- The operations of a query are the labels of its arcs. -/
theorem mem_operations_iff (consistent : q.graph.Consistent) {op : Operation} :
    op ∈ q.operations ↔ ∃ a, op ∈ q.graph.labels a := by
  constructor
  · intro listed
    obtain ⟨⟨a, ops⟩, entry, member⟩ := List.mem_flatMap.mp listed
    refine ⟨a, ?_⟩
    rwa [Graph.labels, consistent.lookup_of_mem entry]
  · rintro ⟨a, label⟩
    exact mem_operations_of_mem_labels label

theorem mem_steps_iff (consistent : q.graph.Consistent) {n : Node} {a : Arc} {op : Operation} :
    (a, op) ∈ q.steps n ↔ a.source = n ∧ op ∈ q.graph.labels a := by
  rw [mem_steps, consistent.mem_arcsFrom, and_assoc]
  exact ⟨fun ⟨_, source, label⟩ => ⟨source, label⟩,
    fun ⟨source, label⟩ => ⟨consistent.arcs_of_label label, source, label⟩⟩

section single

variable {id : QueryId} {a b : Arc} {op op' : Operation}

theorem mem_operations_single :
    op' ∈ (⟨id, Graph.addLabel Graph.empty a op⟩ : Query).operations ↔ op' = op :=
  List.mem_singleton

/-- The one step of a query with one operation. -/
theorem mem_steps_single {n : Node} :
    (b, op') ∈ (⟨id, Graph.addLabel Graph.empty a op⟩ : Query).steps n ↔
      n = a.source ∧ b = a ∧ op' = op := by
  rw [mem_steps_iff (Graph.consistent_empty.addLabel a op)]
  change b.source = n ∧ op' ∈ (Graph.addLabel Graph.empty a op).labels b ↔ _
  rw [Graph.labels_addLabel]
  by_cases here : b = a
  · subst here
    rw [if_pos ⟨rfl, rfl⟩]
    simp [Graph.labels, Graph.empty, eq_comm]
  · rw [if_neg fun both => here both.1]
    simp [Graph.labels, Graph.empty, here]

end single

/-! The number of a spot's query takes no part in what the spot leads to. -/

theorem Leads.inQuery (leads : q.Leads k k') : q.Leads (k.inQuery i) (k'.inQuery i) := by
  obtain ⟨a, op, reached, takes, further, rfl⟩ := leads
  exact ⟨a, op, reached, takes, further, rfl⟩

theorem Reaches.inQuery (reaches : q.Reaches k k') : q.Reaches (k.inQuery i) (k'.inQuery i) :=
  Relation.ReflTransGen.lift (fun k : Spot => k.inQuery i) (fun _ _ leads => leads.inQuery) k k' reaches

theorem Reaches.of_inQuery (reaches : q.Reaches (k.inQuery i) k') :
    q.Reaches k (k'.inQuery k.query) ∧ (k'.inQuery k.query).inQuery i = k' := by
  have query : k'.query = i := Reaches.query reaches
  exact ⟨reaches.inQuery (i := k.query), query ▸ rfl⟩

theorem Safe.inQuery (safe : q.Safe k) : q.Safe (k.inQuery i) where
  finite := by
    refine (safe.finite.image fun k' => k'.inQuery i).subset fun k' reaches => ?_
    obtain ⟨reaches, same⟩ := Reaches.of_inQuery reaches
    exact ⟨_, reaches, same⟩
  sound k' reaches := safe.sound (k'.inQuery k.query) (Reaches.of_inQuery reaches).1
  lively k' reaches := safe.lively (k'.inQuery k.query) (Reaches.of_inQuery reaches).1

theorem gathers_inQuery {c : Content} : q.Gathers (k.inQuery i) c ↔ q.Gathers k c := by
  constructor
  · rintro ⟨k', reaches, arrived, content⟩
    exact ⟨k'.inQuery k.query, (Reaches.of_inQuery reaches).1, arrived, content⟩
  · rintro ⟨k', reaches, arrived, content⟩
    exact ⟨k'.inQuery i, reaches.inQuery, arrived, content⟩

/-- What an operation comes to does not depend on the query that has it. -/
theorem Takes.of_mem_steps {a : Arc} {op : Operation} {o : Option (Except Error ItemSet)}
    (takes : q.Takes k a op o) (listed : (a, op) ∈ q'.steps k.start) : q'.Takes k a op o :=
  ⟨listed, takes.2⟩

/-- At a safe spot, every operation leads on. -/
theorem Safe.takes_ok (safe : q.Safe k) {a : Arc} {op : Operation}
    {o : Option (Except Error ItemSet)} (takes : q.Takes k a op o) :
    ∃ reached, o = some (.ok reached) := by
  rcases o with _ | e | reached
  · exact (safe.lively k (.refl q k) ⟨a, op, takes⟩).elim
  · exact (safe.sound k (.refl q k) ⟨a, op, e, takes⟩).elim
  · exact ⟨reached, rfl⟩

/-- Between two nodes, a query selects the same as another wherever the other does not fail. -/
def Preserves (q q' : Query) (start stop : Node) : Prop :=
  ∀ k : Spot, k.start = start → k.stop = stop → q.Safe k →
    q'.Safe k ∧ ∀ c, q'.Gathers k c ↔ q.Gathers k c

theorem Preserves.refl (q : Query) (start stop : Node) : Preserves q q start stop :=
  fun _ _ _ safe => ⟨safe, fun _ => Iff.rfl⟩

theorem Preserves.trans (first : Preserves q q' start stop) (second : Preserves q' q'' start stop) :
    Preserves q q'' start stop := by
  intro k starts stops safe
  obtain ⟨safe', gathers⟩ := first k starts stops safe
  obtain ⟨safe'', gathers'⟩ := second k starts stops safe'
  exact ⟨safe'', fun c => (gathers' c).trans (gathers c)⟩

/-- From the nodes that are kept, a query makes no steps of its own, and it reaches what another does
at one node. -/
structure Simulates (q q' : Query) (kept : Node → Prop) (stop : Node) : Prop where
  leads : ∀ ⦃k k'⦄, kept k.start → q.Safe k → q'.Leads k k' → q.Reaches k k' ∧ kept k'.start
  passes : ∀ ⦃k a op o⦄, kept k.start → q.Safe k → q'.Takes k a op o →
    ∃ reached, o = some (.ok reached)
  complete : ∀ ⦃k k'⦄, kept k.start → q.Safe k → q.Reaches k k' → k'.start = stop → q'.Reaches k k'

namespace Simulates

variable {kept : Node → Prop} (simulates : Simulates q q' kept stop)

include simulates

theorem reaches (here : kept k.start) (safe : q.Safe k) (reaches : q'.Reaches k k') :
    q.Reaches k k' ∧ kept k'.start := by
  induction reaches with
  | refl => exact ⟨.refl q k, here⟩
  | tail _ leads ih =>
    obtain ⟨before, there⟩ := ih
    obtain ⟨further, there⟩ := simulates.leads there (safe.of_reaches before) leads
    exact ⟨before.trans further, there⟩

theorem preserves (entry : kept start) : Preserves q q' start stop := by
  intro k starts stops safe
  have here : kept k.start := starts ▸ entry
  have back {k' : Spot} (reaches : q'.Reaches k k') : q.Safe k' ∧ kept k'.start := by
    obtain ⟨reaches, there⟩ := simulates.reaches here safe reaches
    exact ⟨safe.of_reaches reaches, there⟩
  refine ⟨⟨?_, ?_, ?_⟩, fun c => ⟨?_, ?_⟩⟩
  · exact safe.finite.subset fun k' reaches => (simulates.reaches here safe reaches).1
  · rintro k' reaches ⟨a, op, e, takes⟩
    obtain ⟨safe', there⟩ := back reaches
    obtain ⟨reached, contra⟩ := simulates.passes there safe' takes
    cases contra
  · rintro k' reaches ⟨a, op, takes⟩
    obtain ⟨safe', there⟩ := back reaches
    obtain ⟨reached, contra⟩ := simulates.passes there safe' takes
    cases contra
  · rintro ⟨k', reaches, arrived, content⟩
    exact ⟨k', (simulates.reaches here safe reaches).1, arrived, content⟩
  · rintro ⟨k', reaches, arrived, content⟩
    have ends : k'.start = stop := arrived.trans ((Reaches.stop reaches).trans stops)
    exact ⟨k', simulates.complete here safe reaches ends, arrived, content⟩

end Simulates

/-- The predicates that the filters of a query try. -/
def predicates (q : Query) : Set Predicate :=
  {p | ∃ f, .filter f ∈ q.operations ∧ p ∈ f.predicates}

/-- Queries that may be rewritten: graphs as they are built, of pure operations, in which numbers
below `next` identify the queries, and numbers the predicates. -/
structure Optimizable (next : QueryId) (q : Query) : Prop where
  consistent : q.graph.Consistent
  isPure : q.IsPure
  numbered : Numbered {q}
  id_lt : ∀ r, q.Within r → r.id < next
  identified : Filter.Identified q.predicates

namespace Optimizable

variable {next next' : QueryId} (optimizable : q.Optimizable next)

include optimizable

theorem mono (le : next ≤ next') : q.Optimizable next' :=
  { optimizable with id_lt := fun r within => (optimizable.id_lt r within).trans_le le }

/-- A filter among the operations of the query agrees with itself, if it may be fused. -/
theorem agrees {f : Filter} (listed : .filter f ∈ q.operations) (mergeable : f.isMergeable = true) :
    f.Agrees :=
  (Filter.isPure_iff mergeable).mp (optimizable.isPure q .refl _ listed)

/-- A rewriting of the graph of a query, with a number of its own, may be rewritten again if its
operations are those of the query and filters that try nothing new. -/
theorem rewrite {b : Builder} (consistent : b.Consistent)
    (operations : ∀ a, ∀ op ∈ b.labels a, op ∈ q.operations ∨ ∃ f, op = .filter f ∧
      f.isMergeable = true ∧ f.Agrees ∧ ∀ p ∈ f.predicates, p ∈ q.predicates) :
    (b.build next).Optimizable (next + 1) := by
  have listed {op : Operation} (listed : op ∈ (b.build next).operations) :
      op ∈ q.operations ∨ ∃ f, op = .filter f ∧ f.isMergeable = true ∧ f.Agrees ∧
        ∀ p ∈ f.predicates, p ∈ q.predicates := by
    obtain ⟨a, label⟩ := (mem_operations_iff (q := b.build next) consistent).mp listed
    exact operations a op label
  have nests {r : Query} (nests : (b.build next).Nests r) : q.Nests r := by
    obtain ⟨op, member, s, selects, rfl⟩ := nests
    rcases listed member with old | ⟨f, rfl, mergeable, -⟩
    · exact ⟨op, old, s, selects, rfl⟩
    · rw [Operation.selections, Filter.selections_eq_nil mergeable] at selects
      cases selects
  have within {r : Query} (within : (b.build next).Within r) :
      r = b.build next ∨ q.Within r := by
    rcases within.cases_head with same | ⟨s, first, rest⟩
    · exact .inl same.symm
    · exact .inr (rest.head (nests first))
  have predicates : (b.build next).predicates ⊆ q.predicates := by
    rintro p ⟨f, member, tries⟩
    rcases listed member with old | ⟨g, same, -, -, known⟩
    · exact ⟨f, old, tries⟩
    · obtain rfl := Operation.filter.inj same
      exact known p tries
  constructor
  · exact consistent
  · intro r inside op member
    rcases within inside with rfl | old
    · rcases listed member with old | ⟨f, rfl, mergeable, agrees, -⟩
      · exact optimizable.isPure q .refl op old
      · exact (Filter.isPure_iff mergeable).mpr agrees
    · exact optimizable.isPure r old op member
  · rintro _ rfl _ rfl r r' inside inside' same
    rcases within inside with rfl | old
    · rcases within inside' with rfl | old'
      · rfl
      · exact absurd same (optimizable.id_lt r' old').ne'
    · rcases within inside' with rfl | old'
      · exact absurd same (optimizable.id_lt r old).ne
      · exact optimizable.numbered q rfl q rfl r r' old old' same
  · intro r inside
    rcases within inside with rfl | old
    · exact Nat.lt_succ_self next
    · exact (optimizable.id_lt r old).trans (Nat.lt_succ_self next)
  · exact fun p member r member' => optimizable.identified p (predicates member) r (predicates member')

end Optimizable

end Query

end GraphQuery
