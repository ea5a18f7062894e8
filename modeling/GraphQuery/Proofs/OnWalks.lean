import GraphQuery.Proofs.Obtaining
/-!
# Pruning keeps what is on a walk

The selections that pruning makes among the positions of a query succeed on every query and find the
nodes that walks along its arcs reach, in both directions. So the pruned query has the nodes on some
walk from one node to the other and the arcs between these, in the order in which the query has them,
and the operations of every arc that is left are those it had.
-/

namespace GraphQuery

namespace Query

variable {q : Query} {start stop : Node}

/-- A walk, which may be empty, leads from a node to another along the arcs, or against them. -/
def Walks (q : Query) : Direction → Node → Node → Prop
  | .forward, m, n => q.Joined m n
  | .backward, m, n => q.Joined n m

theorem reflTransGen_near_iff (consistent : q.graph.Consistent) {d : Direction} {m n : Node} :
    Relation.ReflTransGen (q.Near d) m n ↔ q.Walks d m n := by
  cases d with
  | forward => rw [joined_forward consistent, Walks]
  | backward => rw [joined_backward consistent, Walks]

/-- The selection among positions succeeds, and finds those of the nodes that walks reach. -/
theorem reachable_finds (consistent : q.graph.Consistent) (d : Direction) (o : Node) (s : Session) :
    ∃ found s', (q.reachable d o).Gives s found s' ∧
      ∀ x, x ∈ found ↔ ∃ n, q.Walks d o n ∧ x = q.position n := by
  obtain ⟨found, s', gives, -, reached⟩ := reachable_gives consistent d o s
  refine ⟨found, s', gives, fun x => ?_⟩
  rw [ItemSet.mem_iff_content_mem, reached]
  refine exists_congr fun n => and_congr (reflTransGen_near_iff consistent) ⟨eq_position, ?_⟩
  rintro rfl
  exact content_position q n

open Classical in
/-- A query is what another one is on the walks between two nodes. -/
structure PrunedTo (q : Query) (start stop : Node) (q' : Query) : Prop where
  /-- The nodes on no walk are gone. -/
  nodes : q'.nodes = q.nodes.filter fun n => q.OnWalk start stop n
  /-- The arcs of a node go with it. -/
  arcs : q'.graph.arcs = q.graph.arcs.filter fun a => a.source ∈ q'.nodes ∧ a.target ∈ q'.nodes
  /-- The other arcs have the operations they had, and in the same order. -/
  labels : ∀ a ∈ q'.graph.arcs, q'.graph.labels a = q.graph.labels a
  /-- The indexes agree with what is left. -/
  consistent : q'.graph.Consistent
  /-- Nothing is rebuilt unless something is removed. -/
  unchanged : q' = q ↔ ∀ n ∈ q.nodes, q.OnWalk start stop n

theorem prunedTo_self (consistent : q.graph.Consistent)
    (all : ∀ n ∈ q.nodes, q.OnWalk start stop n) : q.PrunedTo start stop q where
  nodes := (List.filter_eq_self.mpr fun n known => by simpa using all n known).symm
  arcs := (List.filter_eq_self.mpr fun a known => decide_eq_true (consistent.endpoints a known)).symm
  labels := fun _ _ => rfl
  consistent := consistent
  unchanged := iff_of_true rfl all

/-- Removing the nodes on no walk leaves what is on the walks. -/
theorem prunedTo_without (consistent : q.graph.Consistent) {doomed : List Node}
    (off : ∀ n, n ∈ doomed ↔ n ∈ q.nodes ∧ ¬ q.OnWalk start stop n) (some : doomed ≠ [])
    (id : QueryId) : q.PrunedTo start stop ((q.without doomed).build id) := by
  have keeps := Graph.removeNodes_keeps consistent doomed
  have nodes : ((q.without doomed).build id).nodes = q.nodes.filter (· ∉ doomed) :=
    (Graph.removeNodes_spec consistent doomed).2.1
  have arcs : ((q.without doomed).build id).graph.arcs =
      q.graph.arcs.filter fun a => a.source ∉ doomed ∧ a.target ∉ doomed :=
    keeps.arcs consistent
  have kept {n : Node} (known : n ∈ q.nodes) :
      n ∈ ((q.without doomed).build id).nodes ↔ n ∉ doomed := by
    rw [nodes, List.mem_filter, decide_eq_true_eq, and_iff_right known]
  refine ⟨?_, ?_, fun a known => ?_, keeps.consistent, iff_of_false (fun same => ?_) fun all => ?_⟩
  · rw [nodes]
    refine List.filter_congr fun n known => decide_eq_decide.mpr ?_
    rw [off, and_iff_right known, not_not]
  · rw [arcs]
    refine List.filter_congr fun a known => decide_eq_decide.mpr ?_
    obtain ⟨source, target⟩ := consistent.endpoints a known
    rw [kept source, kept target]
  · rw [arcs, List.mem_filter] at known
    exact (keeps.labels a).trans (if_pos known.2)
  · obtain ⟨n, gone⟩ := List.exists_mem_of_ne_nil _ some
    have known := ((off n).mp gone).1
    exact (kept known).mp (same.symm ▸ known) gone
  · obtain ⟨n, gone⟩ := List.exists_mem_of_ne_nil _ some
    obtain ⟨known, away⟩ := (off n).mp gone
    exact away (all n known)

/-- Whatever query and nodes are given, in it or not, the selections of positions find what walks
reach, and pruning succeeds and keeps what is on a walk between the two. -/
theorem prune_keeps_walks (obtained : Builder.Obtained q.graph) (start stop : Node) (s : Session) :
    (∀ d o, ∃ found s', (q.reachable d o).Gives s found s' ∧
      ∀ x, x ∈ found ↔ ∃ n, q.Walks d o n ∧ x = q.position n) ∧
    (∃ kept s', (q.between start stop).Gives s kept s' ∧
      ∀ n, q.position n ∈ kept ↔ q.OnWalk start stop n) ∧
    ∃ q' s', (q.prune start stop).Gives s q' s' ∧ q.PrunedTo start stop q' := by
  have consistent := obtained.consistent
  refine ⟨fun d o => reachable_finds consistent d o s, ?_, ?_⟩
  · obtain ⟨kept, s', gives, -, joined⟩ := between_gives consistent start stop s
    exact ⟨kept, s', gives, joined⟩
  · obtain ⟨doomed, q', s', gives, off, ⟨rfl, rfl, -⟩ | ⟨some, id, -, -, rfl⟩⟩ :=
      prune_removes consistent start stop s
    · refine ⟨q', s', gives, prunedTo_self consistent fun n known => ?_⟩
      by_contra away
      cases (off n).mpr ⟨known, away⟩
    · exact ⟨_, s', gives, prunedTo_without consistent off some id⟩

/-- From the source of `tally` back to it, walks lead through the source only, so the sink is pruned
with the arc into it. -/
theorem prune_keeps_walks_tally : ∃ q' s',
    (tally.prune tallySource tallySource).Gives ⟨0, 1, #[]⟩ q' s' ∧ q'.nodes = [tallySource] ∧
      q'.graph.arcs = [⟨tallySource, tallySource⟩] ∧
      q'.graph.labels ⟨tallySource, tallySource⟩ = [.filter (.anything .any)] := by
  obtain ⟨-, -, q', s', gives, pruned⟩ :=
    prune_keeps_walks obtained_tally tallySource tallySource ⟨0, 1, #[]⟩
  have listed : tally.graph.arcs = [⟨tallySource, tallySource⟩, ⟨tallySource, tallySink⟩] := rfl
  have source : tally.OnWalk tallySource tallySource tallySource := ⟨.refl, .refl⟩
  have sink : ¬ tally.OnWalk tallySource tallySource tallySink := by
    rintro ⟨-, back⟩
    rcases back.cases_head with same | ⟨n, known, -⟩
    · cases same
    · rw [listed] at known
      revert known
      simp [tallySink, tallySource, Node.plain, Node.result]
  have nodes : q'.nodes = [tallySource] := by
    rw [pruned.nodes, nodes_tally, List.filter_cons_of_pos (by simpa using source),
      List.filter_cons_of_neg (by simpa using sink), List.filter_nil]
  have arcs : q'.graph.arcs = [⟨tallySource, tallySource⟩] := by
    rw [pruned.arcs, nodes, listed]
    decide
  refine ⟨q', s', gives, nodes, arcs, ?_⟩
  rw [pruned.labels _ (arcs ▸ List.mem_singleton_self _)]
  rfl

end Query

end GraphQuery
