import GraphQuery.Builder
import Mathlib.Data.List.Basic
/-!
# Laws of labelled graphs

A graph is consistent if its indexes say which arcs leave and enter each node, the endpoints of its
arcs are nodes, and no arc is without labels. All ways to change a graph keep it consistent, and each
is described by what it does to the nodes and to the labels of each arc.
-/

namespace GraphQuery

namespace Graph

variable {α : Type}

/-- The tables agree with the lists of nodes and arcs. -/
structure Consistent (g : Graph α) : Prop where
  nodup_nodes : g.nodes.Nodup
  indexed : ∀ n, g.containsNode n = true ↔ n ∈ g.nodes
  nodup_arcs : g.arcs.Nodup
  keys : g.labelled.map Prod.fst = g.arcs
  endpoints : ∀ a ∈ g.arcs, a.source ∈ g.nodes ∧ a.target ∈ g.nodes
  outgoing : ∀ n, g.arcsFrom n = g.arcs.filter fun a => a.source = n
  incoming : ∀ n, g.arcsTo n = g.arcs.filter fun a => a.target = n
  labelled : ∀ entry ∈ g.labelled, entry.2 ≠ []

theorem consistent_empty : (empty : Graph α).Consistent where
  nodup_nodes := .nil
  indexed := by simp [empty, containsNode]
  nodup_arcs := .nil
  keys := rfl
  endpoints := by simp [empty]
  outgoing := by simp [empty, arcsFrom]
  incoming := by simp [empty, arcsTo]
  labelled := by simp [empty]

theorem lookup_eq_some_of_mem {l : List (Arc × List α)} (nodup : (l.map Prod.fst).Nodup) {a : Arc}
    {labels : List α} (member : (a, labels) ∈ l) : l.lookup a = some labels := by
  induction l with
  | nil => cases member
  | cons entry l ih =>
    obtain ⟨b, old⟩ := entry
    rw [List.map_cons, List.nodup_cons] at nodup
    rw [List.lookup_cons]
    obtain same | later := List.mem_cons.mp member
    · obtain ⟨rfl, rfl⟩ := Prod.mk.injEq .. ▸ same
      simp
    · have distinct : (a == b) = false := by
        rw [beq_eq_false_iff_ne]
        rintro rfl
        exact nodup.1 (List.mem_map.mpr ⟨_, later, rfl⟩)
      rw [distinct]
      exact ih nodup.2 later

theorem mem_of_lookup_eq_some {l : List (Arc × List α)} {a : Arc} {labels : List α}
    (hit : l.lookup a = some labels) : (a, labels) ∈ l := by
  obtain ⟨before, after, rfl, -⟩ := List.lookup_eq_some_iff.mp hit
  simp

theorem lookup_eq_none_iff {l : List (Arc × List α)} {a : Arc} :
    l.lookup a = none ↔ a ∉ l.map Prod.fst := by
  rw [List.lookup_eq_none_iff, List.mem_map]
  constructor
  · rintro absent ⟨entry, member, rfl⟩
    simpa using absent entry member
  · intro absent entry member
    rw [bne_iff_ne]
    rintro rfl
    exact absent ⟨entry, member, rfl⟩

namespace Consistent

variable {g : Graph α} (consistent : g.Consistent)

include consistent

theorem lookup_eq_none {a : Arc} : g.labelled.lookup a = none ↔ a ∉ g.arcs := by
  rw [lookup_eq_none_iff, consistent.keys]

theorem lookup_of_mem {a : Arc} {labels : List α} (listed : (a, labels) ∈ g.labelled) :
    g.labelled.lookup a = some labels := by
  refine lookup_eq_some_of_mem ?_ listed
  rw [consistent.keys]
  exact consistent.nodup_arcs

theorem lookup_isSome {a : Arc} : (g.labelled.lookup a).isSome = true ↔ a ∈ g.arcs := by
  rw [Option.isSome_iff_ne_none, Ne, consistent.lookup_eq_none, not_not]

/-- The arcs of a graph are those with labels. -/
theorem mem_arcs {a : Arc} : a ∈ g.arcs ↔ g.labels a ≠ [] := by
  unfold labels
  cases hit : g.labelled.lookup a with
  | none => simpa using consistent.lookup_eq_none.mp hit
  | some labels =>
    have member := mem_of_lookup_eq_some hit
    refine iff_of_true ?_ (consistent.labelled _ member)
    rw [← consistent.keys]
    exact List.mem_map_of_mem member

theorem mem_arcsFrom {a : Arc} {n : Node} : a ∈ g.arcsFrom n ↔ a ∈ g.arcs ∧ a.source = n := by
  simp [consistent.outgoing]

theorem mem_arcsTo {a : Arc} {n : Node} : a ∈ g.arcsTo n ↔ a ∈ g.arcs ∧ a.target = n := by
  simp [consistent.incoming]

theorem arcs_of_label {a : Arc} {l : α} (member : l ∈ g.labels a) : a ∈ g.arcs :=
  consistent.mem_arcs.mpr (List.ne_nil_of_mem member)

end Consistent

/-! Adding -/

section

variable {g : Graph α} {n : Node}

@[simp]
theorem labelled_addNode : (g.addNode n).labelled = g.labelled := rfl

@[simp]
theorem arcs_addNode : (g.addNode n).arcs = g.arcs := rfl

@[simp]
theorem labels_addNode (a : Arc) : (g.addNode n).labels a = g.labels a := rfl

theorem arcsFrom_addNode {n m : Node} : (g.addNode n).arcsFrom m = g.arcsFrom m := rfl

theorem Consistent.nodes_addNode (consistent : g.Consistent) (n : Node) :
    (g.addNode n).nodes = if n ∈ g.nodes then g.nodes else g.nodes ++ [n] := by
  simp only [Graph.addNode, consistent.indexed]

theorem Consistent.mem_nodes_addNode (consistent : g.Consistent) {m : Node} :
    m ∈ (g.addNode n).nodes ↔ m ∈ g.nodes ∨ m = n := by
  rw [consistent.nodes_addNode]
  split
  · rename_i known
    exact ⟨.inl, fun either => either.elim id fun same => same ▸ known⟩
  · simp

theorem Consistent.addNode (consistent : g.Consistent) (n : Node) : (g.addNode n).Consistent where
  nodup_nodes := by
    rw [consistent.nodes_addNode]
    split
    · exact consistent.nodup_nodes
    · rename_i absent
      refine List.nodup_append.mpr ⟨consistent.nodup_nodes, by simp, ?_⟩
      rintro m member _ single rfl
      rw [List.mem_singleton.mp single] at member
      exact absent member
  indexed m := by
    rw [consistent.mem_nodes_addNode, ← consistent.indexed]
    change (g.nodeIndex.insert n).contains m = true ↔ g.nodeIndex.contains m = true ∨ m = n
    rw [Std.HashSet.contains_insert, Bool.or_eq_true, beq_iff_eq, or_comm, @eq_comm _ n]
  nodup_arcs := consistent.nodup_arcs
  keys := consistent.keys
  endpoints a member := by
    obtain ⟨source, target⟩ := consistent.endpoints a member
    exact ⟨consistent.mem_nodes_addNode.mpr (.inl source),
      consistent.mem_nodes_addNode.mpr (.inl target)⟩
  outgoing := consistent.outgoing
  incoming := consistent.incoming
  labelled := consistent.labelled

theorem Consistent.mem_arcs_iff (consistent : g.Consistent) {a : Arc} :
    a ∈ g.arcs ↔ ∃ labels, g.labelled.lookup a = some labels := by
  rw [← consistent.lookup_isSome, Option.isSome_iff_exists]

/-- A new arc has its one label and is indexed at its endpoints. -/
theorem Consistent.appendArc (consistent : g.Consistent) {a : Arc} (l : α) (source : a.source ∈ g.nodes)
    (target : a.target ∈ g.nodes) (absent : a ∉ g.arcs) : (g.appendArc a l).Consistent := by
  have arcs : (g.appendArc a l).arcs = g.arcs ++ [a] := rfl
  have index (old new : List Arc) (end' : Arc → Node) (m : Std.HashMap Node (List Arc)) (n : Node)
      (same : ∀ n, m.getD n [] = g.arcs.filter fun b => end' b = n) :
      (m.insert (end' a) (m.getD (end' a) [] ++ [a])).getD n [] =
        (g.arcs ++ [a]).filter fun b => end' b = n := by
    rw [Std.HashMap.getD_insert, List.filter_append, same, same]
    by_cases here : end' a = n
    · simp [here]
    · simp [here]
  exact {
    nodup_nodes := consistent.nodup_nodes
    indexed := consistent.indexed
    nodup_arcs := by
      rw [arcs, List.nodup_append]
      refine ⟨consistent.nodup_arcs, by simp, ?_⟩
      rintro b member _ single rfl
      rw [List.mem_singleton.mp single] at member
      exact absent member
    keys := by rw [Graph.appendArc, List.map_append, consistent.keys, List.map_singleton]
    endpoints := fun b member => by
      rw [arcs, List.mem_append, List.mem_singleton] at member
      obtain member | rfl := member
      · exact consistent.endpoints b member
      · exact ⟨source, target⟩
    outgoing := fun n => by
      rw [arcs]
      exact index [] [] Arc.source g.outgoing n consistent.outgoing
    incoming := fun n => by
      rw [arcs]
      exact index [] [] Arc.target g.incoming n consistent.incoming
    labelled := fun entry member => by
      obtain member | member := List.mem_append.mp member
      · exact consistent.labelled entry member
      · simp [List.mem_singleton.mp member] }

theorem Consistent.setLabels (consistent : g.Consistent) (a : Arc) {labels : List α}
    (filled : labels ≠ []) : (g.setLabels a labels).Consistent where
  nodup_nodes := consistent.nodup_nodes
  indexed := consistent.indexed
  nodup_arcs := consistent.nodup_arcs
  keys := by
    rw [Graph.setLabels, ← consistent.keys, List.map_map]
    refine List.map_congr_left fun entry _ => ?_
    dsimp only [Function.comp_apply]
    split <;> rfl
  endpoints := consistent.endpoints
  outgoing := consistent.outgoing
  incoming := consistent.incoming
  labelled entry member := by
    obtain ⟨old, known, rfl⟩ := List.mem_map.mp member
    dsimp only
    split
    · exact filled
    · exact consistent.labelled old known

theorem lookup_setLabels (l : List (Arc × List α)) (a b : Arc) (labels : List α) :
    (l.map fun (c, old) => if c = a then (c, labels) else (c, old)).lookup b =
      if b = a then (l.lookup a).map fun _ => labels else l.lookup b := by
  induction l with
  | nil => simp
  | cons entry l ih =>
    obtain ⟨c, old⟩ := entry
    rw [List.map_cons]
    dsimp only
    by_cases same : c = a
    · rw [if_pos same, List.lookup_cons, ih, same]
      by_cases here : b = a
      · simp [here]
      · simp [here, List.lookup_cons, beq_false_of_ne here]
    · rw [if_neg same, List.lookup_cons, ih]
      by_cases here : b = a
      · subst here
        simp [List.lookup_cons, beq_false_of_ne (Ne.symm same)]
      · simp [here, List.lookup_cons]

theorem labels_setLabels {a : Arc} {old : List α} (hit : g.labelled.lookup a = some old)
    (labels : List α) (b : Arc) :
    (g.setLabels a labels).labels b = if b = a then labels else g.labels b := by
  simp only [Graph.labels, Graph.setLabels, lookup_setLabels, hit]
  split <;> rfl

theorem labels_appendArc {a : Arc} (absent : g.labelled.lookup a = none) (l : α) (b : Arc) :
    (g.appendArc a l).labels b = if b = a then [l] else g.labels b := by
  simp only [Graph.labels, appendArc, List.lookup_append]
  by_cases here : b = a
  · subst here
    simp [absent]
  · simp [here, List.lookup_cons, beq_false_of_ne here]

variable [BEq α]

theorem nodes_addLabel {a : Arc} {l : α} :
    (g.addLabel a l).nodes = ((g.addNode a.source).addNode a.target).nodes := by
  unfold addLabel
  dsimp only
  split
  · rfl
  · split <;> rfl

theorem arcs_addLabel {a : Arc} {l : α} (consistent : g.Consistent) :
    (g.addLabel a l).arcs = if a ∈ g.arcs then g.arcs else g.arcs ++ [a] := by
  unfold addLabel
  simp only [labelled_addNode]
  cases hit : g.labelled.lookup a with
  | none =>
    rw [if_neg (consistent.lookup_eq_none.mp hit)]
    rfl
  | some labels =>
    rw [if_pos (consistent.mem_arcs_iff.mpr ⟨labels, hit⟩)]
    dsimp only
    split <;> rfl

/-- No node is new if the endpoints are there. -/
theorem Consistent.nodes_addLabel_of_mem (consistent : g.Consistent) {a : Arc} {l : α}
    (source : a.source ∈ g.nodes) (target : a.target ∈ g.nodes) :
    (g.addLabel a l).nodes = g.nodes := by
  have same {g : Graph α} {n : Node} (consistent : g.Consistent) (known : n ∈ g.nodes) :
      (g.addNode n).nodes = g.nodes :=
    if_pos ((consistent.indexed n).mpr known)
  rw [nodes_addLabel, same (consistent.addNode a.source), same consistent source]
  exact same consistent source ▸ target

theorem Consistent.mem_nodes_addLabel (consistent : g.Consistent) {a : Arc} {l : α} {n : Node} :
    n ∈ (g.addLabel a l).nodes ↔ n ∈ g.nodes ∨ n = a.source ∨ n = a.target := by
  rw [nodes_addLabel, (consistent.addNode _).mem_nodes_addNode, consistent.mem_nodes_addNode, or_assoc]

/-- One arc leaves the source of the only arc. -/
theorem arcsFrom_addLabel_empty (a : Arc) (l : α) :
    (addLabel empty a l).arcsFrom a.source = [a] := by
  have absent : ((empty.addNode a.source).addNode a.target : Graph α).labelled.lookup a = none := by
    rw [labelled_addNode, labelled_addNode]
    rfl
  simp only [addLabel, absent]
  change Std.HashMap.getD (Std.HashMap.insert _ _ _) _ _ = _
  rw [Std.HashMap.getD_insert_self, arcsFrom_addNode, arcsFrom_addNode]
  change Std.HashMap.getD (∅ : Std.HashMap Node (List Arc)) a.source [] ++ [a] = _
  rw [Std.HashMap.getD_empty]
  rfl

/-- A label is added to its arc, unless one of the labels there equals it. -/
theorem labels_addLabel (a : Arc) (l : α) (b : Arc) : (g.addLabel a l).labels b =
    if b = a ∧ (g.labels a).any (· == l) = false then g.labels a ++ [l] else g.labels b := by
  unfold addLabel
  simp only [labelled_addNode]
  cases hit : g.labelled.lookup a with
  | none =>
    have absent : ((g.addNode a.source).addNode a.target).labelled.lookup a = none := hit
    have none : g.labels a = [] := by simp [Graph.labels, hit]
    simp [labels_appendArc absent, none]
  | some labels =>
    have known : ((g.addNode a.source).addNode a.target).labelled.lookup a = some labels := hit
    have same : g.labels a = labels := by simp [Graph.labels, hit]
    cases present : labels.any (· == l) with
    | true => simp [same, present]
    | false => simp [same, present, labels_setLabels known]

theorem Consistent.addLabel (consistent : g.Consistent) (a : Arc) (l : α) :
    (g.addLabel a l).Consistent := by
  have base := (consistent.addNode a.source).addNode a.target
  unfold Graph.addLabel
  simp only [labelled_addNode]
  cases hit : g.labelled.lookup a with
  | none =>
    refine base.appendArc l ?_ ?_ (consistent.lookup_eq_none.mp hit)
    · rw [(consistent.addNode a.source).mem_nodes_addNode, consistent.mem_nodes_addNode]
      exact .inl (.inr rfl)
    · rw [(consistent.addNode a.source).mem_nodes_addNode]
      exact .inr rfl
  | some labels =>
    dsimp only
    split
    · exact base
    · exact base.setLabels a (List.append_ne_nil_of_right_ne_nil labels (List.cons_ne_nil l []))

end

/-! Removing -/

section

variable {g : Graph α}

theorem lookup_filter (l : List (Arc × List α)) (kept : Arc → Bool) (b : Arc) :
    (l.filter fun entry => kept entry.1).lookup b = if kept b then l.lookup b else none := by
  induction l with
  | nil => simp
  | cons entry l ih =>
    obtain ⟨c, old⟩ := entry
    rw [List.filter_cons]
    by_cases here : b = c
    · subst here
      cases keep : kept b <;> simp [keep, ih]
    · cases keep : kept c <;> simp [ih, List.lookup_cons, beq_false_of_ne here]

theorem getD_unindex (index : Std.HashMap Node (List Arc)) (n k : Node) (a : Arc) :
    (unindex index n a).getD k [] =
      if n = k then (index.getD n []).filter (· != a) else index.getD k [] := by
  unfold unindex
  dsimp only
  split
  · rename_i none
    rw [Std.HashMap.getD_erase, List.isEmpty_iff.mp none]
    simp only [beq_iff_eq]
  · rw [Std.HashMap.getD_insert]
    simp only [beq_iff_eq]

/-- What is left of a graph if it keeps some of its arcs. -/
structure KeepsArcs (g g' : Graph α) (kept : Arc → Bool) : Prop where
  consistent : g'.Consistent
  labelled : g'.labelled = g.labelled.filter fun entry => kept entry.1

namespace KeepsArcs

variable {g' g'' : Graph α} {kept kept' : Arc → Bool}

theorem arcs (keeps : KeepsArcs g g' kept) (consistent : g.Consistent) :
    g'.arcs = g.arcs.filter kept := by
  rw [← keeps.consistent.keys, keeps.labelled, ← consistent.keys, List.filter_map]
  rfl

theorem labels (keeps : KeepsArcs g g' kept) (a : Arc) :
    g'.labels a = if kept a then g.labels a else [] := by
  rw [Graph.labels, keeps.labelled, lookup_filter, Graph.labels]
  split <;> rfl

/-- A graph that has none of the other arcs keeps all of its own. -/
theorem refl (consistent : g.Consistent) (all : ∀ a ∈ g.arcs, kept a = true) : KeepsArcs g g kept where
  consistent := consistent
  labelled := by
    refine (List.filter_eq_self.mpr fun entry listed => all entry.1 ?_).symm
    rw [← consistent.keys]
    exact List.mem_map_of_mem listed

theorem trans (first : KeepsArcs g g' kept) (second : KeepsArcs g' g'' kept') :
    KeepsArcs g g'' fun a => kept a && kept' a where
  consistent := second.consistent
  labelled := by
    rw [second.labelled, first.labelled, List.filter_filter]
    exact List.filter_congr fun entry _ => Bool.and_comm _ _

theorem congr (keeps : KeepsArcs g g' kept) (same : ∀ a ∈ g.arcs, kept a = kept' a)
    (consistent : g.Consistent) : KeepsArcs g g' kept' where
  consistent := keeps.consistent
  labelled := by
    rw [keeps.labelled]
    refine List.filter_congr fun entry listed => same entry.1 ?_
    rw [← consistent.keys]
    exact List.mem_map_of_mem listed

end KeepsArcs

theorem removeArc?_keeps (consistent : g.Consistent) (a : Arc) :
    KeepsArcs g ((g.removeArc? a).getD g) (· != a) := by
  unfold removeArc?
  by_cases known : a ∈ g.arcs
  · rw [if_pos (consistent.lookup_isSome.mpr known), Option.getD_some]
    have index (end' : Arc → Node) (m : Std.HashMap Node (List Arc)) (n : Node)
        (same : ∀ n, m.getD n [] = g.arcs.filter fun b => end' b = n) :
        (unindex m (end' a) a).getD n [] =
          (g.arcs.filter (· != a)).filter fun b => end' b = n := by
      rw [getD_unindex, same, same, List.filter_filter, List.filter_filter]
      split
      · rename_i here
        rw [here]
        exact List.filter_congr fun b _ => Bool.and_comm _ _
      · rename_i elsewhere
        refine List.filter_congr fun b _ => ?_
        by_cases there : end' b = n
        · have distinct : b ≠ a := fun contra => elsewhere (contra ▸ there)
          simp [there, distinct]
        · simp [there]
    exact {
      consistent := {
        nodup_nodes := consistent.nodup_nodes
        indexed := consistent.indexed
        nodup_arcs := consistent.nodup_arcs.filter _
        keys := by
          rw [← consistent.keys, List.filter_map]
          rfl
        endpoints := fun b member => consistent.endpoints b (List.mem_filter.mp member).1
        outgoing := fun n => index Arc.source g.outgoing n consistent.outgoing
        incoming := fun n => index Arc.target g.incoming n consistent.incoming
        labelled := fun entry member => consistent.labelled entry (List.mem_filter.mp member).1 }
      labelled := rfl }
  · rw [if_neg (consistent.lookup_isSome.not.mpr known), Option.getD_none]
    refine .refl consistent fun b member => bne_iff_ne.mpr ?_
    rintro rfl
    exact known member

theorem nodes_removeArc? (a : Arc) : ((g.removeArc? a).getD g).nodes = g.nodes := by
  unfold removeArc?
  split <;> rfl

/-- The graph without some arcs. -/
def removeArcs (g : Graph α) (as : List Arc) : Graph α :=
  as.foldl (fun g a => (g.removeArc? a).getD g) g

theorem removeArcs_keeps (consistent : g.Consistent) (as : List Arc) :
    KeepsArcs g (g.removeArcs as) (· ∉ as) := by
  induction as generalizing g with
  | nil => exact .refl consistent (by simp)
  | cons a as ih =>
    have first := removeArc?_keeps consistent a
    refine (first.trans (ih first.consistent)).congr (fun b _ => ?_) consistent
    by_cases same : b = a <;> simp [same]

theorem nodes_removeArcs (as : List Arc) : (g.removeArcs as).nodes = g.nodes := by
  induction as generalizing g with
  | nil => rfl
  | cons a as ih => exact ih.trans (nodes_removeArc? a)

/-- A node without arcs can leave a graph. -/
theorem Consistent.dropNode (consistent : g.Consistent) {n : Node}
    (apart : ∀ a ∈ g.arcs, a.source ≠ n ∧ a.target ≠ n) :
    Consistent { g with
      nodes := g.nodes.filter (· != n)
      nodeIndex := g.nodeIndex.erase n
      outgoing := g.outgoing.erase n
      incoming := g.incoming.erase n } := by
  have index (end' : Arc → Node) (m : Std.HashMap Node (List Arc)) (k : Node)
      (same : ∀ k, m.getD k [] = g.arcs.filter fun b => end' b = k)
      (apart : ∀ b ∈ g.arcs, end' b ≠ n) :
      (m.erase n).getD k [] = g.arcs.filter fun b => end' b = k := by
    rw [Std.HashMap.getD_erase, same]
    split
    · rename_i here
      refine (List.filter_eq_nil_iff.mpr fun b member => ?_).symm
      rw [← beq_iff_eq.mp here, decide_eq_true_eq]
      exact apart b member
    · rfl
  exact {
    nodup_nodes := consistent.nodup_nodes.filter _
    indexed := fun m => by
      rw [List.mem_filter, ← consistent.indexed, bne_iff_ne]
      change (g.nodeIndex.erase n).contains m = true ↔ g.nodeIndex.contains m = true ∧ m ≠ n
      rw [Std.HashSet.contains_erase, Bool.and_eq_true, and_comm, Bool.not_eq_true',
        beq_eq_false_iff_ne, ne_comm]
    nodup_arcs := consistent.nodup_arcs
    keys := consistent.keys
    endpoints := fun b member => by
      obtain ⟨source, target⟩ := consistent.endpoints b member
      obtain ⟨apart, apart'⟩ := apart b member
      exact ⟨List.mem_filter.mpr ⟨source, bne_iff_ne.mpr apart⟩,
        List.mem_filter.mpr ⟨target, bne_iff_ne.mpr apart'⟩⟩
    outgoing := fun k => index Arc.source _ k consistent.outgoing fun b member => (apart b member).1
    incoming := fun k => index Arc.target _ k consistent.incoming fun b member => (apart b member).2
    labelled := consistent.labelled }

theorem removeNode?_keeps (consistent : g.Consistent) (n : Node) :
    KeepsArcs g ((g.removeNode? n).getD g) fun a => a.source != n && a.target != n := by
  have incident {b : Arc} : b ∈ g.arcsFrom n ++ g.arcsTo n ↔
      b ∈ g.arcs ∧ (b.source = n ∨ b.target = n) := by
    rw [List.mem_append, consistent.mem_arcsFrom, consistent.mem_arcsTo, ← and_or_left]
  unfold removeNode?
  by_cases known : n ∈ g.nodes
  · rw [if_pos ((consistent.indexed n).mpr known), Option.getD_some]
    have keeps : KeepsArcs g (g.removeArcs (g.arcsFrom n ++ g.arcsTo n))
        fun a => a.source != n && a.target != n := by
      refine (removeArcs_keeps consistent _).congr (fun b member => ?_) consistent
      rw [Bool.eq_iff_iff, decide_eq_true_eq, incident, Bool.and_eq_true, bne_iff_ne, bne_iff_ne]
      simp [member]
    refine ⟨keeps.consistent.dropNode fun b member => ?_, keeps.labelled⟩
    rw [keeps.arcs consistent, List.mem_filter, Bool.and_eq_true, bne_iff_ne, bne_iff_ne] at member
    exact member.2
  · rw [if_neg ((consistent.indexed n).not.mpr known), Option.getD_none]
    refine .refl consistent fun b member => ?_
    obtain ⟨source, target⟩ := consistent.endpoints b member
    rw [Bool.and_eq_true, bne_iff_ne, bne_iff_ne]
    constructor
    · rintro rfl
      exact known source
    · rintro rfl
      exact known target

theorem nodes_removeNode? (consistent : g.Consistent) (n : Node) :
    ((g.removeNode? n).getD g).nodes = g.nodes.filter (· != n) := by
  unfold removeNode?
  by_cases known : n ∈ g.nodes
  · rw [if_pos ((consistent.indexed n).mpr known), Option.getD_some]
    exact congrArg _ (nodes_removeArcs (g.arcsFrom n ++ g.arcsTo n))
  · rw [if_neg ((consistent.indexed n).not.mpr known), Option.getD_none]
    refine (List.filter_eq_self.mpr fun m member => bne_iff_ne.mpr ?_).symm
    rintro rfl
    exact known member

/-- The graph without some nodes keeps the arcs between the others. -/
theorem removeNodes_keeps (consistent : g.Consistent) (ns : List Node) :
    KeepsArcs g (ns.foldl (fun g n => (g.removeNode? n).getD g) g)
      fun a => a.source ∉ ns ∧ a.target ∉ ns := by
  induction ns generalizing g with
  | nil => exact .refl consistent (by simp)
  | cons n ns ih =>
    have first := removeNode?_keeps consistent n
    refine (first.trans (ih first.consistent)).congr (fun a _ => ?_) consistent
    by_cases source : a.source = n <;> by_cases target : a.target = n <;> simp [source, target]

/-- The graph without some nodes. -/
theorem removeNodes_spec (consistent : g.Consistent) (ns : List Node) :
    (ns.foldl (fun g n => (g.removeNode? n).getD g) g).Consistent ∧
      (ns.foldl (fun g n => (g.removeNode? n).getD g) g).nodes = g.nodes.filter (· ∉ ns) ∧
      ∀ b, (ns.foldl (fun g n => (g.removeNode? n).getD g) g).labels b =
        if b.source ∈ ns ∨ b.target ∈ ns then [] else g.labels b := by
  have keeps := removeNodes_keeps consistent ns
  refine ⟨keeps.consistent, ?_, fun b => ?_⟩
  · clear keeps
    induction ns generalizing g with
    | nil => simp
    | cons n ns ih =>
      rw [List.foldl_cons, ih (removeNode?_keeps consistent n).consistent,
        nodes_removeNode? consistent, List.filter_filter]
      refine List.filter_congr fun m _ => ?_
      by_cases same : m = n <;> simp [same]
  · rw [keeps.labels]
    by_cases source : b.source ∈ ns <;> by_cases target : b.target ∈ ns <;> simp [source, target]

/-- A label that the arc does not have leaves the graph as it is; otherwise the arc loses the label,
and with the last one the graph loses the arc. -/
theorem removeLabel?_cases [BEq α] (g : Graph α) (a : Arc) (l : α) :
    let kept := (g.labels a).filter fun x => !(x == l)
    (kept = g.labels a ∧ g.removeLabel? a l = none) ∨
      kept ≠ g.labels a ∧ (kept = [] ∧ g.removeLabel? a l = g.removeArc? a ∨
        kept ≠ [] ∧ g.removeLabel? a l = some (g.setLabels a kept)) := by
  intro kept
  have length : kept.length = (g.labels a).length ↔ kept = g.labels a := by
    rw [List.length_filter_eq_length_iff, List.filter_eq_self]
  unfold Graph.removeLabel?
  by_cases all : kept = g.labels a
  · exact .inl ⟨all, if_pos (length.mpr all)⟩
  · refine .inr ⟨all, ?_⟩
    by_cases none : kept = []
    · refine .inl ⟨none, (if_neg (length.not.mpr all)).trans (if_pos ?_)⟩
      exact List.isEmpty_iff.mpr none
    · refine .inr ⟨none, (if_neg (length.not.mpr all)).trans (if_neg ?_)⟩
      exact List.isEmpty_iff.not.mpr none

/-- The labels of the arc that equal the given one are gone. -/
theorem labels_removeLabel? [BEq α] (consistent : g.Consistent) (a : Arc) (l : α) (b : Arc) :
    ((g.removeLabel? a l).getD g).labels b =
      if b = a then (g.labels a).filter fun x => !(x == l) else g.labels b := by
  obtain ⟨all, unchanged⟩ | ⟨fewer, ⟨none, removed⟩ | ⟨-, replaced⟩⟩ := removeLabel?_cases g a l
  · rw [unchanged, all]
    by_cases here : b = a <;> simp [here]
  · rw [removed, none, (removeArc?_keeps consistent a).labels]
    by_cases here : b = a <;> simp [here]
  · rw [replaced]
    have known : a ∈ g.arcs := by
      rw [consistent.mem_arcs]
      intro none
      rw [none] at fewer
      exact fewer rfl
    obtain ⟨old, known⟩ := consistent.mem_arcs_iff.mp known
    exact labels_setLabels known _ b

theorem nodes_removeLabel? [BEq α] (a : Arc) (l : α) :
    ((g.removeLabel? a l).getD g).nodes = g.nodes := by
  obtain ⟨-, unchanged⟩ | ⟨-, ⟨-, removed⟩ | ⟨-, replaced⟩⟩ := removeLabel?_cases g a l
  · rw [unchanged]
    rfl
  · rw [removed, nodes_removeArc?]
  · rw [replaced]
    rfl

theorem Consistent.removeLabel? [BEq α] (consistent : g.Consistent) (a : Arc) (l : α) :
    ((g.removeLabel? a l).getD g).Consistent := by
  obtain ⟨-, unchanged⟩ | ⟨-, ⟨-, removed⟩ | ⟨some', replaced⟩⟩ := removeLabel?_cases g a l
  · rwa [unchanged]
  · rw [removed]
    exact (removeArc?_keeps consistent a).consistent
  · rw [replaced]
    exact consistent.setLabels a some'

/-- The arcs that are left are those with labels left. -/
theorem arcs_removeLabel? [BEq α] (consistent : g.Consistent) (a : Arc) (l : α) :
    ((g.removeLabel? a l).getD g).arcs =
      g.arcs.filter fun b => !(((g.removeLabel? a l).getD g).labels b).isEmpty := by
  have after := consistent.removeLabel? a l
  have all (same : ((g.removeLabel? a l).getD g).arcs = g.arcs) :
      ((g.removeLabel? a l).getD g).arcs =
        g.arcs.filter fun b => !(((g.removeLabel? a l).getD g).labels b).isEmpty := by
    refine same.trans (List.filter_eq_self.mpr fun b listed => ?_).symm
    rw [Bool.not_eq_true', List.isEmpty_eq_false_iff]
    exact after.mem_arcs.mp (same ▸ listed)
  obtain ⟨-, unchanged⟩ | ⟨-, ⟨-, removed⟩ | ⟨-, replaced⟩⟩ := removeLabel?_cases g a l
  · exact all (by rw [unchanged]; rfl)
  · have keeps := removeArc?_keeps consistent a
    rw [removed, keeps.arcs consistent]
    refine List.filter_congr fun b listed => ?_
    rw [keeps.labels]
    have filled := List.isEmpty_eq_false_iff.mpr (consistent.mem_arcs.mp listed)
    cases b != a with
    | false => rfl
    | true => exact congrArg not filled.symm
  · exact all (by rw [replaced]; rfl)

/-- What adding keeps holds of a merged graph. -/
theorem merge_induction [BEq α] {P : Graph α → Prop} (other : Graph α) (base : P g)
    (node : ∀ g, ∀ n ∈ other.nodes, P g → P (g.addNode n))
    (label : ∀ g a, ∀ l ∈ other.labels a, P g → P (g.addLabel a l)) : P (g.merge other) := by
  have nodes (ns : List Node) (sub : ns ⊆ other.nodes) (g : Graph α) (holds : P g) :
      P (ns.foldl Graph.addNode g) := by
    induction ns generalizing g with
    | nil => exact holds
    | cons n ns ih =>
      obtain ⟨first, rest⟩ := List.cons_subset.mp sub
      exact ih rest _ (node g n first holds)
  have labels (a : Arc) (ls : List α) (sub : ls ⊆ other.labels a) (g : Graph α) (holds : P g) :
      P (ls.foldl (fun g l => g.addLabel a l) g) := by
    induction ls generalizing g with
    | nil => exact holds
    | cons l ls ih =>
      obtain ⟨first, rest⟩ := List.cons_subset.mp sub
      exact ih rest _ (label g a l first holds)
  have arcs (as : List Arc) (g : Graph α) (holds : P g) :
      P (as.foldl (fun g a => (other.labels a).foldl (fun g l => g.addLabel a l) g) g) := by
    induction as generalizing g with
    | nil => exact holds
    | cons a as ih => exact ih _ (labels a _ (List.Subset.refl _) g holds)
  exact arcs _ _ (nodes _ (List.Subset.refl _) g base)

theorem Consistent.merge [BEq α] (consistent : g.Consistent) (other : Graph α) :
    (g.merge other).Consistent :=
  merge_induction other consistent (fun _ n _ => (·.addNode n)) fun _ a l _ => (·.addLabel a l)

end

end Graph

/-- The graphs that can be built step by step. -/
inductive Builder.Made : Builder → Prop where
  | empty : Made Graph.empty
  | addNode {b : Builder} (made : Made b) (n : Node) : Made (Graph.addNode b n)
  | addArc {b b' : Builder} {a : Arc} {op : Operation} (made : Made b)
    (added : b.addArc a op = .ok b') : Made b'
  | addQuery {b : Builder} {q : Query} (made : Made b) (made' : Made q.graph) : Made (b.addQuery q)
  | removeNode {b b' : Builder} {n : Node} (made : Made b)
    (removed : Graph.removeNode? b n = some b') : Made b'
  | removeArc {b b' : Builder} {a : Arc} (made : Made b)
    (removed : Graph.removeArc? b a = some b') : Made b'
  | removeOperation {b b' : Builder} {a : Arc} {op : Operation} (made : Made b)
    (removed : Graph.removeLabel? b a op = some b') : Made b'

theorem Builder.addArc_eq_ok {b b' : Builder} {a : Arc} {op : Operation} :
    b.addArc a op = .ok b' ↔ misfit? a op = none ∧ b' = Graph.addLabel b a op := by
  unfold addArc
  cases misfit? a op with
  | some site => exact ⟨(fun contra => nomatch contra), fun contra => by cases contra.1⟩
  | none => exact ⟨fun added => ⟨rfl, (Except.ok.inj added).symm⟩, fun added => added.2 ▸ rfl⟩

/-- An operation is accepted on an arc that it fits. -/
theorem Builder.Made.addFitting {b : Builder} (made : b.Made) (a : Arc) (op : Operation)
    (fits : misfit? a op = none) : Builder.Made (Graph.addLabel b a op) :=
  made.addArc (addArc_eq_ok.mpr ⟨fits, rfl⟩)

/-- Whatever is built is consistent. -/
theorem Builder.Made.consistent {b : Builder} (made : b.Made) : Graph.Consistent b := by
  induction made with
  | empty => exact Graph.consistent_empty
  | addNode _ n ih => exact ih.addNode n
  | addArc _ added ih =>
    obtain ⟨-, rfl⟩ := addArc_eq_ok.mp added
    exact ih.addLabel _ _
  | addQuery _ _ ih _ => exact ih.merge _
  | @removeNode _ _ n _ removed ih =>
    have keeps := (Graph.removeNode?_keeps ih n).consistent
    rwa [removed] at keeps
  | @removeArc _ _ a _ removed ih =>
    have keeps := (Graph.removeArc?_keeps ih a).consistent
    rwa [removed] at keeps
  | @removeOperation _ _ a op _ removed ih =>
    have after := ih.removeLabel? a op
    rwa [removed] at after

end GraphQuery
