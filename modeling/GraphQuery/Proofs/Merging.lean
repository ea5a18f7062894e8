import GraphQuery.Proofs.Obtaining
/-!
# Merging queries into builders

To add a query to a builder is to append what the builder does not have yet: nodes, arcs, and on each
arc the operations that equal none that it has, in the order of the query. All else stays in its place.
So to add a query again changes nothing, and a builder to which nothing else was added is a copy of the
query.
-/

namespace GraphQuery

section

variable {β : Type} [BEq β]

/-- A list, and behind it the members of another that equal none of its own. -/
def appendNew (xs ys : List β) : List β :=
  xs ++ ys.filter fun y => !xs.any (· == y)

@[simp]
theorem appendNew_nil (xs : List β) : appendNew xs [] = xs :=
  List.append_nil xs

@[simp]
theorem nil_appendNew (ys : List β) : appendNew [] ys = ys := by
  simp [appendNew]

/-- The first of several different members may be appended before the others. -/
theorem appendNew_cons {xs ys : List β} {y : β} (apart : ∀ y' ∈ ys, (y == y') = false) :
    appendNew xs (y :: ys) = appendNew (if xs.any (· == y) then xs else xs ++ [y]) ys := by
  cases known : xs.any (· == y) with
  | true => simp [appendNew, known]
  | false =>
    have rest : (ys.filter fun y' => !(xs ++ [y]).any (· == y')) =
        ys.filter fun y' => !xs.any (· == y') := by
      refine List.filter_congr fun y' listed => ?_
      rw [List.any_append, List.any_cons, apart y' listed, List.any_nil, Bool.or_false, Bool.or_false]
    rw [if_neg Bool.false_ne_true, appendNew, appendNew, rest, List.filter_cons, known,
      Bool.not_false, if_pos rfl, List.append_assoc, List.singleton_append]

theorem mem_appendNew [LawfulBEq β] {xs ys : List β} {y : β} :
    y ∈ appendNew xs ys ↔ y ∈ xs ∨ y ∈ ys := by
  rw [appendNew, List.mem_append, List.mem_filter, List.any_beq', Bool.not_eq_true',
    Bool.eq_false_iff, Ne, List.contains_iff_mem]
  by_cases known : y ∈ xs <;> simp [known]

/-- Each member of the second list equals one that is there. -/
theorem any_appendNew [ReflBEq β] {xs ys : List β} {y : β} (member : y ∈ ys) :
    (appendNew xs ys).any (· == y) = true := by
  rw [appendNew, List.any_append]
  cases known : xs.any (· == y) with
  | true => rfl
  | false =>
    rw [Bool.false_or, List.any_eq_true]
    exact ⟨y, List.mem_filter.mpr ⟨member, by rw [known]; rfl⟩, BEq.rfl⟩

/-- The members with a property are those that had it, and behind them the new ones with it. -/
theorem filter_appendNew [LawfulBEq β] (p : β → Bool) (xs ys : List β) :
    (appendNew xs ys).filter p = appendNew (xs.filter p) (ys.filter p) := by
  rw [appendNew, appendNew, List.filter_append, List.filter_filter, List.filter_filter]
  refine congrArg _ (List.filter_congr fun y _ => ?_)
  cases kept : p y with
  | false => simp
  | true =>
    have same : (xs.filter p).any (· == y) = xs.any (· == y) := by
      rw [List.any_beq', List.any_beq', Bool.eq_iff_iff, List.contains_iff_mem,
        List.contains_iff_mem, List.mem_filter, and_iff_left kept]
    rw [same, Bool.true_and, Bool.and_true]

end

/-- To insert what a set contains leaves it as it is. -/
theorem insert_of_contains {β : Type} [BEq β] [Hashable β] {m : Std.HashSet β} {x : β}
    (known : m.contains x = true) : m.insert x = m := by
  obtain ⟨⟨⟨⟨size, buckets⟩, filled⟩⟩⟩ := m
  simp only [Std.HashSet.insert, Std.HashMap.insertIfNew, Std.DHashMap.insertIfNew,
    Std.DHashMap.Internal.Raw₀.insertIfNew]
  congr 3
  rw [if_pos]
  exact known

namespace Graph

variable {α : Type} [BEq α] {g other : Graph α}

/-- A graph has the nodes, arcs and labels of one, and behind them those of another that are new. -/
structure Appends (g other g' : Graph α) : Prop where
  nodes : g'.nodes = appendNew g.nodes other.nodes
  containsNode : ∀ n, g'.containsNode n = (g.containsNode n || other.containsNode n)
  arcs : g'.arcs = appendNew g.arcs other.arcs
  labels : ∀ a, g'.labels a = appendNew (g.labels a) (other.labels a)
  arcsFrom : ∀ n, g'.arcsFrom n = appendNew (g.arcsFrom n) (other.arcsFrom n)
  arcsTo : ∀ n, g'.arcsTo n = appendNew (g.arcsTo n) (other.arcsTo n)

omit [BEq α] in
/-- The same can be read off two graphs, order included. -/
structure Copies (g g' : Graph α) : Prop where
  nodes : g.nodes = g'.nodes
  containsNode : ∀ n, g.containsNode n = g'.containsNode n
  arcs : g.arcs = g'.arcs
  labels : ∀ a, g.labels a = g'.labels a
  arcsFrom : ∀ n, g.arcsFrom n = g'.arcsFrom n
  arcsTo : ∀ n, g.arcsTo n = g'.arcsTo n

/-- Adds some labels to an arc. -/
def addLabels (g : Graph α) (a : Arc) (ls : List α) : Graph α :=
  ls.foldl (fun g l => g.addLabel a l) g

theorem merge_eq (g other : Graph α) : g.merge other =
    other.arcs.foldl (fun g a => g.addLabels a (other.labels a)) (other.nodes.foldl addNode g) := rfl

omit [BEq α] in
theorem containsNode_eq (consistent : g.Consistent) (n : Node) :
    g.containsNode n = decide (n ∈ g.nodes) := by
  rw [Bool.eq_iff_iff, consistent.indexed, decide_eq_true_eq]

namespace Consistent

variable (consistent : g.Consistent)

include consistent

/-! What is added -/

omit [BEq α] in
theorem addNodes {ns : List Node} (nodup : ns.Nodup) : (ns.foldl Graph.addNode g).Consistent ∧
    (ns.foldl Graph.addNode g).nodes = appendNew g.nodes ns ∧
    (ns.foldl Graph.addNode g).arcs = g.arcs ∧
    ∀ a, (ns.foldl Graph.addNode g).labels a = g.labels a := by
  induction ns generalizing g with
  | nil => exact ⟨consistent, (appendNew_nil g.nodes).symm, rfl, fun _ => rfl⟩
  | cons n ns ih =>
    obtain ⟨absent, nodup⟩ := List.nodup_cons.mp nodup
    have apart : ∀ m ∈ ns, (n == m) = false := fun m listed =>
      beq_eq_false_iff_ne.mpr fun same => absent (same ▸ listed)
    obtain ⟨after, nodes, arcs, labels⟩ := ih (consistent.addNode n) nodup
    refine ⟨after, ?_, arcs, labels⟩
    rw [List.foldl_cons, nodes, consistent.nodes_addNode, appendNew_cons apart]
    simp [List.any_beq']

/-- Different labels between nodes of a graph are appended to those of their arc. -/
theorem addLabels {a : Arc} {ls : List α} (source : a.source ∈ g.nodes) (target : a.target ∈ g.nodes)
    (apart : ls.Pairwise fun l l' => (l == l') = false) :
    (g.addLabels a ls).Consistent ∧ (g.addLabels a ls).nodes = g.nodes ∧
    ((g.addLabels a ls).arcs = if ls = [] ∨ a ∈ g.arcs then g.arcs else g.arcs ++ [a]) ∧
    ∀ b, (g.addLabels a ls).labels b = if b = a then appendNew (g.labels a) ls else g.labels b := by
  induction ls generalizing g with
  | nil =>
    refine ⟨consistent, rfl, (if_pos (.inl rfl)).symm, fun b => ?_⟩
    rw [appendNew_nil]
    split
    · next here => rw [here, Graph.addLabels, List.foldl_nil]
    · rfl
  | cons l ls ih =>
    obtain ⟨first, apart⟩ := List.pairwise_cons.mp apart
    have nodes := consistent.nodes_addLabel_of_mem (l := l) source target
    have arcs := arcs_addLabel (a := a) (l := l) consistent
    have present : a ∈ (g.addLabel a l).arcs := by
      rw [arcs]
      split
      · assumption
      · exact List.mem_append_right _ (List.mem_singleton_self a)
    obtain ⟨after, nodes', arcs', labels'⟩ :=
      ih (consistent.addLabel a l) (nodes ▸ source) (nodes ▸ target) apart
    refine ⟨after, nodes'.trans nodes, ?_, fun b => ?_⟩
    · change ((g.addLabel a l).addLabels a ls).arcs = _
      rw [arcs', if_pos (.inr present), arcs]
      simp
    · change ((g.addLabel a l).addLabels a ls).labels b = _
      rw [labels', appendNew_cons first, labels_addLabel, labels_addLabel]
      by_cases here : b = a
      · subst here
        cases (g.labels b).any (· == l) <;> simp
      · simp [here]

/-- Labels of different arcs between nodes of a graph are appended arc by arc. -/
theorem addArcs {as : List Arc} (nodup : as.Nodup) {f : Arc → List α}
    (endpoints : ∀ a ∈ as, a.source ∈ g.nodes ∧ a.target ∈ g.nodes) (filled : ∀ a ∈ as, f a ≠ [])
    (apart : ∀ a, (f a).Pairwise fun l l' => (l == l') = false) :
    (as.foldl (fun g a => g.addLabels a (f a)) g).Consistent ∧
    (as.foldl (fun g a => g.addLabels a (f a)) g).nodes = g.nodes ∧
    (as.foldl (fun g a => g.addLabels a (f a)) g).arcs = appendNew g.arcs as ∧
    ∀ b, (as.foldl (fun g a => g.addLabels a (f a)) g).labels b =
      if b ∈ as then appendNew (g.labels b) (f b) else g.labels b := by
  induction as generalizing g with
  | nil => exact ⟨consistent, rfl, (appendNew_nil g.arcs).symm, fun b => by simp⟩
  | cons a as ih =>
    obtain ⟨absent, nodup⟩ := List.nodup_cons.mp nodup
    obtain ⟨⟨source, target⟩, endpoints⟩ := List.forall_mem_cons.mp endpoints
    obtain ⟨first, filled⟩ := List.forall_mem_cons.mp filled
    obtain ⟨after, nodes, arcs, labels⟩ := consistent.addLabels source target (apart a)
    obtain ⟨after', nodes', arcs', labels'⟩ := ih after nodup (nodes ▸ endpoints) filled
    refine ⟨after', nodes'.trans nodes, ?_, fun b => ?_⟩
    · have apart : ∀ b ∈ as, (a == b) = false := fun b listed =>
        beq_eq_false_iff_ne.mpr fun same => absent (same ▸ listed)
      rw [List.foldl_cons, arcs', arcs, appendNew_cons apart]
      simp [first, List.any_beq']
    · rw [List.foldl_cons, labels', labels]
      by_cases here : b = a
      · subst here
        simp [absent]
      · simp [here]

/-- A merged graph has what the one had, and behind it what the other has that is new. -/
theorem merge_appends (consistent' : other.Consistent) (distinct : other.Distinct) :
    g.Appends other (g.merge other) := by
  obtain ⟨base, nodes, arcs, labels⟩ := consistent.addNodes consistent'.nodup_nodes
  -- All nodes are there before the first label, so that no label brings an endpoint out of turn.
  have endpoints : ∀ a ∈ other.arcs, a.source ∈ (other.nodes.foldl Graph.addNode g).nodes ∧
      a.target ∈ (other.nodes.foldl Graph.addNode g).nodes := by
    intro a listed
    obtain ⟨source, target⟩ := consistent'.endpoints a listed
    rw [nodes]
    exact ⟨mem_appendNew.mpr (.inr source), mem_appendNew.mpr (.inr target)⟩
  obtain ⟨after, nodes', arcs', labels'⟩ := base.addArcs consistent'.nodup_arcs endpoints
    (fun a listed => consistent'.mem_arcs.mp listed) distinct
  rw [← merge_eq] at after nodes' arcs' labels'
  rw [nodes] at nodes'
  rw [arcs] at arcs'
  exact {
    nodes := nodes'
    containsNode := fun n => by
      rw [containsNode_eq after, containsNode_eq consistent, containsNode_eq consistent', nodes',
        ← Bool.decide_or]
      exact decide_eq_decide.mpr mem_appendNew
    arcs := arcs'
    labels := fun a => by
      rw [labels', labels]
      split
      · rfl
      · next absent => rw [not_not.mp (consistent'.mem_arcs.not.mp absent), appendNew_nil]
    arcsFrom := fun n => by
      rw [after.outgoing, arcs', filter_appendNew, ← consistent.outgoing, ← consistent'.outgoing]
    arcsTo := fun n => by
      rw [after.incoming, arcs', filter_appendNew, ← consistent.incoming, ← consistent'.incoming] }

/-! What is there already -/

omit [BEq α] in
theorem addNode_of_mem {n : Node} (known : n ∈ g.nodes) : g.addNode n = g := by
  have contains := (consistent.indexed n).mpr known
  unfold Graph.addNode
  rw [if_pos contains, insert_of_contains contains]

theorem addLabel_of_any {a : Arc} {l : α} (known : (g.labels a).any (· == l) = true) :
    g.addLabel a l = g := by
  obtain ⟨l', listed, -⟩ := List.any_eq_true.mp known
  have present := consistent.arcs_of_label listed
  obtain ⟨source, target⟩ := consistent.endpoints a present
  obtain ⟨labels, hit⟩ := consistent.mem_arcs_iff.mp present
  have same : g.labels a = labels := by rw [Graph.labels, hit, Option.getD_some]
  unfold Graph.addLabel
  simp only [consistent.addNode_of_mem source, consistent.addNode_of_mem target, hit]
  rw [← same, if_pos known]

/-- To merge what is there already changes nothing. -/
theorem merge_eq_self (nodes : ∀ n ∈ other.nodes, n ∈ g.nodes)
    (labels : ∀ a, ∀ l ∈ other.labels a, (g.labels a).any (· == l) = true) : g.merge other = g := by
  refine merge_induction (P := (· = g)) other rfl ?_ ?_
  · rintro _ n listed rfl
    exact consistent.addNode_of_mem (nodes n listed)
  · rintro _ a l listed rfl
    exact consistent.addLabel_of_any (labels a l listed)

end Consistent

/-- To merge a graph again changes nothing. -/
theorem Appends.merge_eq_self [ReflBEq α] {g' : Graph α} (appends : g.Appends other g')
    (consistent : g'.Consistent) : g'.merge other = g' := by
  refine consistent.merge_eq_self (fun n listed => ?_) fun a l listed => ?_
  · rw [appends.nodes]
    exact mem_appendNew.mpr (.inr listed)
  · rw [appends.labels]
    exact any_appendNew listed

/-- Behind nothing, all of a graph is new. -/
theorem Appends.copies {g' : Graph α} (appends : empty.Appends other g') : g'.Copies other where
  nodes := appends.nodes.trans (nil_appendNew other.nodes)
  containsNode n := by
    rw [appends.containsNode, containsNode_eq consistent_empty]
    exact Bool.false_or _
  arcs := appends.arcs.trans (nil_appendNew other.arcs)
  labels a := (appends.labels a).trans (nil_appendNew _)
  arcsFrom n := by
    rw [appends.arcsFrom, consistent_empty.outgoing]
    exact nil_appendNew _
  arcsTo n := by
    rw [appends.arcsTo, consistent_empty.incoming]
    exact nil_appendNew _

end Graph

theorem Builder.Obtained.distinct {b : Builder} (obtained : b.Obtained) : Graph.Distinct b := by
  obtain ⟨script, rfl⟩ := obtained.scripted
  exact script.distinct

/-- To add a query to a builder is to append its nodes, its arcs and the operations on each arc to those
that the builder has, without those that equal one of them. To add it again changes nothing, and a
builder to which only the query was added is a copy of it, like one that is made from it. -/
theorem Builder.Obtained.addQuery_appends {b : Builder} {q : Query} (obtained : b.Obtained)
    (copied : Builder.Obtained q.graph) : Graph.Appends b q.graph (b.addQuery q) ∧
    (b.addQuery q).addQuery q = b.addQuery q ∧
    Graph.Copies (Builder.addQuery Graph.empty q) q.graph ∧
    Graph.Copies (Builder.ofQuery q) q.graph := by
  have merged {b : Builder} (obtained : b.Obtained) : Graph.Appends b q.graph (b.addQuery q) :=
    obtained.consistent.merge_appends copied.consistent copied.distinct
  refine ⟨merged obtained, ?_, (merged .new).copies, ⟨rfl, fun _ => rfl, rfl, fun _ => rfl,
    fun _ => rfl, fun _ => rfl⟩⟩
  exact (merged obtained).merge_eq_self (obtained.addQuery copied).consistent

namespace Query

/-- The builder that holds the count of `tally` alone. -/
def counting : Builder :=
  (Builder.offer Graph.empty ⟨tallySource, tallySink⟩ (.count .any)).1

theorem obtained_counting : counting.Obtained :=
  Builder.Obtained.new.addArc ⟨tallySource, tallySink⟩ (.count .any)

end Query

/-- The circle of `tally` stands behind the count that was there before, which is not repeated. -/
theorem Builder.addQuery_counting :
    Graph.nodes (Query.counting.addQuery Query.tally) = [Query.tallySource, Query.tallySink] ∧
    Graph.arcs (Query.counting.addQuery Query.tally) =
      [⟨Query.tallySource, Query.tallySink⟩, ⟨Query.tallySource, Query.tallySource⟩] ∧
    Graph.labels (Query.counting.addQuery Query.tally) ⟨Query.tallySource, Query.tallySink⟩ =
      [.count .any] ∧
    (Query.counting.addQuery Query.tally).addQuery Query.tally =
      Query.counting.addQuery Query.tally := by
  obtain ⟨appends, again, -⟩ :=
    Obtained.addQuery_appends Query.obtained_counting Query.obtained_tally
  refine ⟨?_, ?_, ?_, again⟩
  · rw [appends.nodes]
    have nodes : Query.counting.nodes = [Query.tallySource, Query.tallySink] := by
      refine Graph.nodes_addLabel.trans ?_
      rw [(Graph.consistent_empty.addNode _).nodes_addNode, Graph.consistent_empty.nodes_addNode]
      decide
    rw [nodes, show Query.tally.graph.nodes = _ from Query.nodes_tally]
    decide
  · rw [appends.arcs]
    change appendNew [(⟨Query.tallySource, Query.tallySink⟩ : Arc)]
      [⟨Query.tallySource, Query.tallySource⟩, ⟨Query.tallySource, Query.tallySink⟩] = _
    decide
  · rw [appends.labels]
    rfl

end GraphQuery
