import GraphQuery.Proofs.FilterEquality
import GraphQuery.Proofs.Labels
/-!
# Graphs as lists

All that can be read off a graph is in two lists: its nodes, and its arcs with their labels, each in
the order in which they were added. On the lists alone, to add is to append, and to remove is to
filter. Whatever calls change a graph, it stays the graph that the same calls on the lists describe,
and its tables stay in step with them.
-/

namespace GraphQuery

variable {α : Type}

/-- Nodes, and arcs with their labels, in the order in which they were added. -/
structure Outline (α : Type) where
  nodes : List Node
  entries : List (Arc × List α)

/-- What a call removes. -/
inductive Removal (α : Type) where
  | arc (a : Arc)
  | label (a : Arc) (l : α)
  | node (n : Node)

namespace Outline

/-- No nodes and no arcs. -/
def empty : Outline α := ⟨[], []⟩

/-- The arcs, in the order in which they were added. -/
def arcs (o : Outline α) : List Arc :=
  o.entries.map Prod.fst

/-- The labels of an arc; none if there is no such arc. -/
def labels (o : Outline α) (a : Arc) : List α :=
  (o.entries.lookup a).getD []

/-- Appends a node, unless it is there. -/
def addNode (o : Outline α) (n : Node) : Outline α :=
  if n ∈ o.nodes then o else { o with nodes := o.nodes ++ [n] }

/-- Appends the endpoints of an arc, and then the arc with the label, or the label to those of the
arc. -/
def addLabel [BEq α] (o : Outline α) (a : Arc) (l : α) : Outline α :=
  let o := (o.addNode a.source).addNode a.target
  if a ∈ o.arcs then
    { o with entries := o.entries.map fun e =>
        if e.1 = a ∧ e.2.any (· == l) = false then (e.1, e.2 ++ [l]) else e }
  else
    { o with entries := o.entries ++ [(a, [l])] }

/-- Appends the nodes and the labels of another outline. -/
def merge [BEq α] (o other : Outline α) : Outline α :=
  other.entries.foldl (fun o e => e.2.foldl (fun o l => o.addLabel e.1 l) o)
    (other.nodes.foldl addNode o)

/-- Leaves out what is removed: an arc, the labels of an arc that equal a given one, with the arc if
it has no others, or a node with its arcs. -/
def remove [BEq α] (o : Outline α) : Removal α → Outline α
  | .arc a => { o with entries := o.entries.filter fun e => e.1 != a }
  | .label a l =>
    { o with entries := (o.entries.map fun e =>
        if e.1 = a then (e.1, e.2.filter fun x => !(x == l)) else e).filter fun e => !e.2.isEmpty }
  | .node n =>
    { nodes := o.nodes.filter (· != n)
      entries := o.entries.filter fun e => e.1.source != n && e.1.target != n }

end Outline

namespace Graph

variable {g : Graph α}

/-- The graph without what is removed, if it has that. -/
def remove? [BEq α] (g : Graph α) : Removal α → Option (Graph α)
  | .arc a => g.removeArc? a
  | .label a l => g.removeLabel? a l
  | .node n => g.removeNode? n

/-- The nodes of a graph, and its arcs with their labels. -/
def outline (g : Graph α) : Outline α :=
  ⟨g.nodes, g.arcs.map fun a => (a, g.labels a)⟩

theorem arcs_outline : g.outline.arcs = g.arcs := by
  rw [Outline.arcs, outline, List.map_map]
  exact List.map_id _

theorem Consistent.labels_outline (consistent : g.Consistent) (a : Arc) :
    g.outline.labels a = g.labels a := by
  have keyed : (g.outline.entries.map Prod.fst).Nodup := by
    change g.outline.arcs.Nodup
    rw [arcs_outline]
    exact consistent.nodup_arcs
  by_cases known : a ∈ g.arcs
  · have listed : (a, g.labels a) ∈ g.outline.entries := List.mem_map_of_mem known
    rw [Outline.labels, lookup_eq_some_of_mem keyed listed, Option.getD_some]
  · have absent := known
    rw [consistent.mem_arcs, not_not] at absent
    rw [Outline.labels, lookup_eq_none_iff.mpr, absent, Option.getD_none]
    change a ∉ g.outline.arcs
    rwa [arcs_outline]

/-! Calls on a graph and on its outline -/

theorem Consistent.outline_addNode (consistent : g.Consistent) (n : Node) :
    (g.addNode n).outline = g.outline.addNode n := by
  rw [outline, consistent.nodes_addNode, Outline.addNode]
  change _ = if n ∈ g.nodes then _ else _
  split <;> rfl

theorem Consistent.outline_addLabel [BEq α] (consistent : g.Consistent) (a : Arc) (l : α) :
    (g.addLabel a l).outline = g.outline.addLabel a l := by
  have base := (consistent.addNode a.source).addNode a.target
  have nodes : ((g.addNode a.source).addNode a.target).outline =
      (g.outline.addNode a.source).addNode a.target := by
    rw [(consistent.addNode a.source).outline_addNode, consistent.outline_addNode]
  rw [Outline.addLabel, ← nodes, arcs_outline, outline, nodes_addLabel, arcs_addLabel consistent,
    arcs_addNode, arcs_addNode, outline, arcs_addNode, arcs_addNode]
  dsimp only
  split
  · rw [List.map_map]
    refine congrArg _ (List.map_congr_left fun b listed => ?_)
    rw [labels_addLabel, Function.comp_apply]
    by_cases here : b = a
    · subst here
      rw [labels_addNode, labels_addNode]
      dsimp only
      split <;> rfl
    · rw [if_neg fun both => here both.1, if_neg fun both => here both.1]
      rfl
  · next absent =>
    have none : g.labels a = [] := not_not.mp (consistent.mem_arcs.not.mp absent)
    have fresh : (g.addLabel a l).labels a = [l] := by
      rw [labels_addLabel, none, if_pos ⟨rfl, List.any_nil⟩, List.nil_append]
    rw [List.map_append, List.map_singleton, fresh]
    refine congrArg (Outline.mk _ <| · ++ _) (List.map_congr_left fun b listed => ?_)
    rw [labels_addLabel, if_neg]
    · rfl
    · rintro ⟨rfl, -⟩
      exact absent listed

theorem Consistent.outline_addLabels [BEq α] (consistent : g.Consistent) (a : Arc) (ls : List α) :
    (ls.foldl (fun g l => g.addLabel a l) g).Consistent ∧
      (ls.foldl (fun g l => g.addLabel a l) g).outline =
        ls.foldl (fun o l => o.addLabel a l) g.outline := by
  induction ls generalizing g with
  | nil => exact ⟨consistent, rfl⟩
  | cons l ls ih =>
    rw [List.foldl_cons, List.foldl_cons, ← consistent.outline_addLabel]
    exact ih (consistent.addLabel a l)

theorem Consistent.outline_merge [BEq α] (consistent : g.Consistent) (other : Graph α) :
    (g.merge other).outline = g.outline.merge other.outline := by
  have nodes (ns : List Node) (g : Graph α) (consistent : g.Consistent) :
      (ns.foldl Graph.addNode g).Consistent ∧
        (ns.foldl Graph.addNode g).outline = ns.foldl Outline.addNode g.outline := by
    induction ns generalizing g with
    | nil => exact ⟨consistent, rfl⟩
    | cons n ns ih =>
      rw [List.foldl_cons, List.foldl_cons, ← consistent.outline_addNode]
      exact ih _ (consistent.addNode n)
  have arcs (as : List Arc) (g : Graph α) (consistent : g.Consistent) :
      (as.foldl (fun g a => (other.labels a).foldl (fun g l => g.addLabel a l) g) g).outline =
        as.foldl (fun o a => (other.labels a).foldl (fun o l => o.addLabel a l) o) g.outline := by
    induction as generalizing g with
    | nil => rfl
    | cons a as ih =>
      obtain ⟨after, labels⟩ := consistent.outline_addLabels a (other.labels a)
      rw [List.foldl_cons, List.foldl_cons, ← labels]
      exact ih _ after
  obtain ⟨after, same⟩ := nodes other.nodes g consistent
  have entries : other.outline.entries = other.arcs.map fun a => (a, other.labels a) := rfl
  rw [Outline.merge, entries, List.foldl_map]
  have folded := arcs other.arcs _ after
  rw [same] at folded
  exact folded

theorem KeepsArcs.outline {g' : Graph α} {kept : Arc → Bool} (keeps : KeepsArcs g g' kept)
    (consistent : g.Consistent) : g'.outline =
      ⟨g'.nodes, g.outline.entries.filter fun e => kept e.1⟩ := by
  rw [Graph.outline, keeps.arcs consistent, Graph.outline, List.filter_map]
  refine congrArg _ (List.map_congr_left fun a member => ?_)
  rw [keeps.labels, if_pos (List.mem_filter.mp member).2]

theorem Consistent.outline_removeLabel? [BEq α] (consistent : g.Consistent) (a : Arc) (l : α) :
    ((g.removeLabel? a l).getD g).outline = g.outline.remove (.label a l) := by
  have entries : (fun b => (b, ((g.removeLabel? a l).getD g).labels b)) =
      (fun e => if e.1 = a then (e.1, e.2.filter fun x => !(x == l)) else e) ∘
        fun b => (b, g.labels b) := by
    funext b
    rw [labels_removeLabel? consistent, Function.comp_apply]
    by_cases here : b = a <;> simp [here]
  rw [outline, nodes_removeLabel?, arcs_removeLabel? consistent, Outline.remove, outline]
  dsimp only
  rw [List.map_map, ← entries, List.filter_map]
  rfl

/-- What a call removes from a graph is left out of its outline. -/
theorem Consistent.outline_remove? [BEq α] (consistent : g.Consistent) (r : Removal α) :
    ((g.remove? r).getD g).outline = g.outline.remove r := by
  cases r with
  | arc a =>
    exact ((removeArc?_keeps consistent a).outline consistent).trans
      (congrArg (Outline.mk · _) (nodes_removeArc? a))
  | label a l => exact consistent.outline_removeLabel? a l
  | node n =>
    exact ((removeNode?_keeps consistent n).outline consistent).trans
      (congrArg (Outline.mk · _) (nodes_removeNode? consistent n))

theorem Consistent.remove? [BEq α] (consistent : g.Consistent) (r : Removal α) :
    ((g.remove? r).getD g).Consistent := by
  cases r with
  | arc a => exact (removeArc?_keeps consistent a).consistent
  | label a l => exact consistent.removeLabel? a l
  | node n => exact (removeNode?_keeps consistent n).consistent

/-- A call that removes something changes what can be read off the graph. -/
theorem Consistent.outline_ne_of_remove? [BEq α] (consistent : g.Consistent) {r : Removal α}
    {g' : Graph α} (removed : g.remove? r = some g') : g'.outline ≠ g.outline := by
  intro same
  have after := consistent.remove? r
  rw [removed, Option.getD_some] at after
  cases r with
  | arc a =>
    have known : a ∈ g.arcs := by
      by_contra absent
      have lookup := consistent.lookup_isSome.not.mpr absent
      cases (if_neg lookup).symm.trans removed
    have keeps := removeArc?_keeps consistent a
    have arcs : g'.arcs = g.arcs.filter (· != a) := by
      rw [← keeps.arcs consistent, show g.removeArc? a = some g' from removed, Option.getD_some]
    have member : a ∈ g'.arcs := by rwa [← arcs_outline, same, arcs_outline]
    rw [arcs] at member
    simp at member
  | label a l =>
    have labels := labels_removeLabel? consistent a l a
    rw [show g.removeLabel? a l = some g' from removed, Option.getD_some, if_pos rfl,
      ← after.labels_outline, same, consistent.labels_outline] at labels
    obtain ⟨-, unchanged⟩ | ⟨fewer, -⟩ := removeLabel?_cases g a l
    · cases unchanged.symm.trans removed
    · exact fewer labels.symm
  | node n =>
    have known : n ∈ g.nodes := by
      by_contra absent
      cases (if_neg ((consistent.indexed n).not.mpr absent)).symm.trans removed
    have nodes := nodes_removeNode? consistent n
    rw [show g.removeNode? n = some g' from removed, Option.getD_some] at nodes
    have member : n ∈ g'.nodes := by
      rw [show g'.nodes = g.nodes from congrArg Outline.nodes same]
      exact known
    rw [nodes] at member
    simp at member

/-! Labels of one arc -/

/-- No arc has two equal labels. -/
def Distinct [BEq α] (g : Graph α) : Prop :=
  ∀ a, (g.labels a).Pairwise fun l l' => (l == l') = false

namespace Distinct

variable [BEq α] (distinct : g.Distinct)

include distinct

theorem addNode (n : Node) : (g.addNode n).Distinct :=
  distinct

theorem addLabel (a : Arc) (l : α) : (g.addLabel a l).Distinct := by
  intro b
  rw [labels_addLabel]
  split
  · next fresh =>
    refine List.pairwise_append.mpr ⟨distinct a, List.pairwise_singleton _ l, ?_⟩
    intro x listed y single
    rw [List.mem_singleton.mp single]
    simpa using List.any_eq_false.mp fresh.2 x listed
  · exact distinct b

theorem merge (other : Graph α) : (g.merge other).Distinct :=
  merge_induction other distinct (fun _ n _ distinct => distinct.addNode n)
    fun _ a l _ distinct => distinct.addLabel a l

theorem keep {g' : Graph α} {kept : Arc → Bool} (keeps : KeepsArcs g g' kept) : g'.Distinct := by
  intro a
  rw [keeps.labels]
  split
  · exact distinct a
  · exact .nil

theorem remove? (consistent : g.Consistent) (r : Removal α) : ((g.remove? r).getD g).Distinct := by
  cases r with
  | arc a => exact distinct.keep (removeArc?_keeps consistent a)
  | node n => exact distinct.keep (removeNode?_keeps consistent n)
  | label a l =>
    intro b
    change List.Pairwise _ (((g.removeLabel? a l).getD g).labels b)
    rw [labels_removeLabel? consistent]
    split
    · exact (distinct a).sublist List.filter_sublist
    · exact distinct b

end Distinct

/-- All that can be read off a graph is as an outline says, and the outline is in order: no node, no
arc and no label of an arc stands in it twice, no arc is without labels, and the endpoints of the arcs
are among the nodes. -/
structure Reads [BEq α] (g : Graph α) (o : Outline α) : Prop where
  nodes : g.nodes = o.nodes
  nodup_nodes : o.nodes.Nodup
  containsNode : ∀ n, g.containsNode n = true ↔ n ∈ o.nodes
  arcs : g.arcs = o.arcs
  nodup_arcs : o.arcs.Nodup
  keys : ∀ a, (g.labelled.lookup a).isSome = true ↔ a ∈ o.arcs
  labels : ∀ a, g.labels a = o.labels a
  labelled : ∀ a ∈ o.arcs, o.labels a ≠ []
  distinct : ∀ a, (o.labels a).Pairwise fun l l' => (l == l') = false ∧ (l' == l) = false
  endpoints : ∀ a ∈ o.arcs, a.source ∈ o.nodes ∧ a.target ∈ o.nodes
  arcsFrom : ∀ n, g.arcsFrom n = o.arcs.filter fun a => a.source = n
  arcsTo : ∀ n, g.arcsTo n = o.arcs.filter fun a => a.target = n

theorem Consistent.reads [BEq α] (consistent : g.Consistent) (distinct : g.Distinct)
    (symm : ∀ l l' : α, (l == l') = true → (l' == l) = true) : g.Reads g.outline where
  nodes := rfl
  nodup_nodes := consistent.nodup_nodes
  containsNode := consistent.indexed
  arcs := arcs_outline.symm
  nodup_arcs := arcs_outline (g := g) ▸ consistent.nodup_arcs
  keys a := by rw [arcs_outline, consistent.lookup_isSome]
  labels a := (consistent.labels_outline a).symm
  labelled a listed := by
    rw [arcs_outline] at listed
    rw [consistent.labels_outline]
    exact consistent.mem_arcs.mp listed
  distinct a := by
    rw [consistent.labels_outline]
    refine (distinct a).imp fun {l l'} differ => ⟨differ, ?_⟩
    rw [← Bool.not_eq_true] at differ ⊢
    exact fun equal => differ (symm l' l equal)
  endpoints a listed := consistent.endpoints a (arcs_outline (g := g) ▸ listed)
  arcsFrom n := by rw [arcs_outline, consistent.outgoing]
  arcsTo n := by rw [arcs_outline, consistent.incoming]

end Graph

/-! Histories of calls -/

/-- What a caller has after an operation was offered for an arc: the builder, and the refusal of an
operation that does not fit. -/
def Builder.offer (b : Builder) (a : Arc) (op : Operation) : Builder × Option Error :=
  match b.addArc a op with
  | .ok b' => (b', none)
  | .error e => (b, some e)

/-- The calls that were made on a builder, and those that made the queries copied into it. -/
inductive Script where
  | new
  | fromQuery (built : Script) (id : QueryId)
  | addNode (s : Script) (n : Node)
  | addArc (s : Script) (a : Arc) (op : Operation)
  | addQuery (s built : Script) (id : QueryId)
  | remove (s : Script) (r : Removal Operation)

namespace Script

/-- The builder on which the calls were made. -/
def builder : Script → Builder
  | new => Graph.empty
  | fromQuery built id => (built.builder.build id).graph
  | addNode s n => Graph.addNode s.builder n
  | addArc s a op => (s.builder.offer a op).1
  | addQuery s built id => s.builder.addQuery (built.builder.build id)
  | remove s r => (Graph.remove? s.builder r).getD s.builder

/-- What the calls come to on lists. -/
def outline : Script → Outline Operation
  | new => .empty
  | fromQuery built _ => built.outline
  | addNode s n => s.outline.addNode n
  | addArc s a op =>
    if (Builder.misfit? a op).isNone then s.outline.addLabel a op else s.outline
  | addQuery s built _ => s.outline.merge built.outline
  | remove s r => s.outline.remove r

theorem offer_fst (b : Builder) (a : Arc) (op : Operation) : (b.offer a op).1 =
    if (Builder.misfit? a op).isNone then Graph.addLabel b a op else b := by
  unfold Builder.offer Builder.addArc
  cases Builder.misfit? a op with
  | none => rfl
  | some misfit => rfl

theorem consistent (s : Script) : Graph.Consistent s.builder := by
  induction s with
  | new => exact Graph.consistent_empty
  | fromQuery _ _ ih => exact ih
  | addNode s n ih => exact ih.addNode n
  | addArc s a op ih =>
    rw [builder, offer_fst]
    split
    · exact ih.addLabel a op
    · exact ih
  | addQuery s built id ih _ => exact ih.merge _
  | remove s r ih => exact ih.remove? r

theorem distinct (s : Script) : Graph.Distinct s.builder := by
  induction s with
  | new => exact fun _ => .nil
  | fromQuery _ _ ih => exact ih
  | addNode s n ih => exact ih.addNode n
  | addArc s a op ih =>
    rw [builder, offer_fst]
    split
    · exact ih.addLabel a op
    · exact ih
  | addQuery s built id ih _ => exact ih.merge _
  | remove s r ih => exact ih.remove? s.consistent r

/-- The builder has the outline that the calls come to. -/
theorem outline_builder (s : Script) : Graph.outline s.builder = s.outline := by
  induction s with
  | new => rfl
  | fromQuery _ _ ih => exact ih
  | addNode s n ih => rw [builder, outline, s.consistent.outline_addNode, ih]
  | addArc s a op ih =>
    rw [builder, outline, offer_fst]
    split
    · rw [s.consistent.outline_addLabel, ih]
    · exact ih
  | addQuery s built id ih ih' =>
    rw [outline, ← ih, ← ih']
    exact s.consistent.outline_merge built.builder
  | remove s r ih => rw [builder, outline, s.consistent.outline_remove?, ih]

/-- Whatever calls are made, the builder and what is built from it read as the same calls on lists,
and a removal is answered with yes exactly if it changes what is read. -/
theorem reads_outline (s : Script) (id : QueryId) : Graph.Reads s.builder s.outline ∧
    Graph.Reads (s.builder.build id).graph s.outline ∧
    ∀ r, (Graph.remove? s.builder r).isSome = true ↔
      Graph.outline (s.remove r).builder ≠ Graph.outline s.builder := by
  have reads := s.consistent.reads s.distinct fun _ _ => Operation.beq_symm
  rw [s.outline_builder] at reads
  refine ⟨reads, reads, fun r => ?_⟩
  rw [builder]
  cases removed : Graph.remove? s.builder r with
  | none => simp
  | some b' => simpa using s.consistent.outline_ne_of_remove? removed

end Script

end GraphQuery
