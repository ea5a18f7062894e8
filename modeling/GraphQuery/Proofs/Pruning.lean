import GraphQuery.Proofs.Positions
import GraphQuery.Rewrite.Prune
/-!
# Pruning preserves what is selected

The nodes that pruning keeps are those on a walk between the two nodes of a selection. What arrives
at the end has passed through such nodes only, so it arrives without the others too.
-/

namespace GraphQuery

namespace Query

variable {q : Query} {start stop m n : Node} {next : QueryId}

/-- The arcs of a query lead from a node to another. -/
def Joined (q : Query) : Node → Node → Prop :=
  Relation.ReflTransGen fun m n => ⟨m, n⟩ ∈ q.graph.arcs

theorem joined_forward (consistent : q.graph.Consistent) :
    Relation.ReflTransGen (q.Near .forward) = q.Joined :=
  congrArg Relation.ReflTransGen (funext₂ fun _ _ => propext (near_forward consistent))

theorem joined_backward (consistent : q.graph.Consistent) :
    Relation.ReflTransGen (q.Near .backward) m n ↔ q.Joined n m := by
  rw [Joined, ← Relation.reflTransGen_swap]
  refine iff_of_eq (congrArg (fun r => Relation.ReflTransGen r n m) ?_)
  exact funext₂ fun _ _ => propext (near_backward consistent)

/-- A walk from one node to another leads through a third. -/
def OnWalk (q : Query) (start stop n : Node) : Prop :=
  q.Joined start n ∧ q.Joined n stop

/-- The positions found between two nodes are those on a walk from one to the other. -/
theorem between_gives (consistent : q.graph.Consistent) (start stop : Node) (s : Session) :
    ∃ kept s', (q.between start stop).Gives s kept s' ∧ s.nextQuery ≤ s'.nextQuery ∧
      ∀ n, kept.contains (q.position n) = true ↔ q.OnWalk start stop n := by
  obtain ⟨ahead, s₁, gives, le, reached⟩ := reachable_gives consistent .forward start s
  obtain ⟨behind, s₂, gives', le', reached'⟩ := reachable_gives consistent .backward stop s₁
  refine ⟨_, s₂, gives.bind (gives'.bind (SessionM.gives_pure _ s₂)), le.trans le', fun n => ?_⟩
  have place {d : Direction} {o : Node} :
      (∃ m, Relation.ReflTransGen (q.Near d) o m ∧ q.place n = q.place m) ↔
        Relation.ReflTransGen (q.Near d) o n :=
    ⟨fun ⟨_, reaches, same⟩ => q.place_injective same ▸ reaches, fun reaches => ⟨n, reaches, rfl⟩⟩
  change q.position n ∈ ahead.intersection behind ↔ _
  rw [ItemSet.mem_iff_content_mem, ItemSet.mem_contents_intersection, content_position, reached,
    reached', place, place, joined_forward consistent, joined_backward consistent]
  rfl

/-- Pruning removes the nodes on no walk between the two, and gives the query itself if there are
none. -/
theorem prune_removes (consistent : q.graph.Consistent) (start stop : Node) (s : Session) :
    ∃ doomed q' s', (q.prune start stop).Gives s q' s' ∧
      (∀ n, n ∈ doomed ↔ n ∈ q.nodes ∧ ¬ q.OnWalk start stop n) ∧
      (doomed = [] ∧ q' = q ∧ s.nextQuery ≤ s'.nextQuery ∨
        doomed ≠ [] ∧ ∃ id, s.nextQuery ≤ id ∧ s'.nextQuery = id + 1 ∧
          q' = (q.without doomed).build id) := by
  obtain ⟨kept, s₁, gives, le, joined⟩ := between_gives consistent start stop s
  generalize found : (q.nodes.filter fun n => !kept.contains (q.position n)) = doomed
  have off (n : Node) : n ∈ doomed ↔ n ∈ q.nodes ∧ ¬ q.OnWalk start stop n := by
    rw [← found, List.mem_filter, ← joined, Bool.not_eq_true', Bool.not_eq_true]
  cases none : doomed.isEmpty with
  | true =>
    refine ⟨doomed, q, s₁, gives.bind ?_, off, .inl ⟨List.isEmpty_iff.mp none, rfl, le⟩⟩
    rw [found]
    dsimp only
    rw [none, if_pos rfl]
    exact SessionM.gives_pure q s₁
  | false =>
    have gives' : (q.prune start stop).Gives s ((q.without doomed).build s₁.nextQuery)
        ⟨s₁.nextNode, s₁.nextQuery + 1, s₁.events.push (.pruned q.id doomed.length)⟩ := by
      refine gives.bind ?_
      rw [found]
      dsimp only
      rw [none, if_neg Bool.false_ne_true]
      exact (SessionM.gives_report _ s₁).bind
        ((SessionM.gives_freshQuery _).bind (SessionM.gives_pure _ _))
    exact ⟨doomed, _, _, gives', off,
      .inr ⟨List.isEmpty_eq_false_iff.mp none, s₁.nextQuery, le, rfl, rfl⟩⟩

theorem labels_without (consistent : q.graph.Consistent) (doomed : List Node) (a : Arc) :
    Graph.labels (q.without doomed) a =
      if a.source ∈ doomed ∨ a.target ∈ doomed then [] else q.graph.labels a :=
  (Graph.removeNodes_spec consistent doomed).2.2 a

section without

variable {doomed : List Node} (consistent : q.graph.Consistent)

include consistent

theorem mem_steps_without {a : Arc} {op : Operation} :
    (a, op) ∈ ((q.without doomed).build next).steps n ↔
      (a, op) ∈ q.steps n ∧ a.source ∉ doomed ∧ a.target ∉ doomed := by
  have consistent' : (q.without doomed).Consistent := (Graph.removeNodes_spec consistent doomed).1
  rw [mem_steps_iff (q := (q.without doomed).build next) consistent', mem_steps_iff consistent]
  change _ ∧ op ∈ Graph.labels (q.without doomed) a ↔ _
  rw [labels_without consistent]
  split
  · next gone => simp [← not_or, gone]
  · next kept => simp [not_or.mp kept]

/-- A step leads along an arc. -/
theorem Leads.joined {k k' : Spot} (leads : q.Leads k k') : q.Joined k.start k'.start := by
  obtain ⟨a, op, reached, takes, -, rfl⟩ := leads
  obtain ⟨source, label⟩ := (mem_steps_iff consistent).mp takes.1
  exact .single (source ▸ consistent.arcs_of_label label)

theorem Reaches.joined {k k' : Spot} (reaches : q.Reaches k k') : q.Joined k.start k'.start := by
  induction reaches with
  | refl => exact .refl
  | tail _ leads ih => exact ih.trans (leads.joined consistent)

/-- Without nodes that are on no walk between two others, the same is selected between these. -/
theorem without_preserves (off : ∀ n ∈ doomed, ¬ q.OnWalk start stop n) :
    Preserves q ((q.without doomed).build next) start stop := by
  have simulates : Simulates q ((q.without doomed).build next) (q.Joined start) stop := by
    constructor
    · rintro k k' here - ⟨a, op, reached, takes, further, rfl⟩
      obtain ⟨listed, -⟩ := (mem_steps_without consistent).mp takes.1
      have leads : q.Leads k { k with start := a.target, items := reached.essence } :=
        ⟨a, op, reached, takes.of_mem_steps listed, further, rfl⟩
      exact ⟨.single leads, here.trans (leads.joined consistent)⟩
    · intro k a op o _ safe takes
      exact safe.takes_ok (takes.of_mem_steps ((mem_steps_without consistent).mp takes.1).1)
    · rintro k k' here - reaches arrived
      -- all nodes on the way are joined with both ends
      induction reaches using Relation.ReflTransGen.head_induction_on with
      | refl => exact .refl _ k'
      | @head k₁ k₂ leads rest ih =>
        have there := here.trans (leads.joined consistent)
        have onward : q.Joined k₂.start stop := arrived ▸ Reaches.joined consistent rest
        have through : q.Joined k₁.start stop := (leads.joined consistent).trans onward
        obtain ⟨a, op, reached, takes, further, rfl⟩ := leads
        have source := ((mem_steps_iff consistent).mp takes.1).1
        have listed : (a, op) ∈ ((q.without doomed).build next).steps k₁.start :=
          (mem_steps_without consistent).mpr
            ⟨takes.1, fun gone => off _ gone ⟨source ▸ here, source ▸ through⟩,
              fun gone => off _ gone ⟨there, onward⟩⟩
        exact (ih there).head ⟨a, op, reached, takes.of_mem_steps listed, further, rfl⟩
  exact simulates.preserves .refl

end without

/-- Pruning succeeds in every session whose numbers are new, and gives a query that may be rewritten
again and selects the same. -/
theorem Optimizable.prune_gives {s : Session} (optimizable : q.Optimizable s.nextQuery)
    (start stop : Node) : ∃ q' s', (q.prune start stop).Gives s q' s' ∧
      q'.Optimizable s'.nextQuery ∧ Preserves q q' start stop := by
  have consistent := optimizable.consistent
  obtain ⟨doomed, q', s', gives, off, ⟨-, rfl, le⟩ | ⟨-, id, le, next, rfl⟩⟩ :=
    prune_removes consistent start stop s
  · exact ⟨q', s', gives, optimizable.mono le, .refl q' start stop⟩
  · refine ⟨_, s', gives, ?_, without_preserves consistent fun n gone => ((off n).mp gone).2⟩
    rw [next]
    refine (optimizable.mono le).rewrite (Graph.removeNodes_spec consistent doomed).1
      fun a op label => .inl ?_
    rw [labels_without consistent] at label
    split at label
    · cases label
    · exact mem_operations_of_mem_labels label

end Query

end GraphQuery
