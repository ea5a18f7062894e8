import GraphQuery.Proofs.ItemTypeOrder
import GraphQuery.Proofs.Labels
import GraphQuery.Proofs.ChainSearch
import GraphQuery.Proofs.Pruning
import GraphQuery.Rewrite.Optimize
/-!
# The arc in place of a chain

A fused query has the nodes of the query but the links of the chain, and the arcs between them, with
one more from the entry of the chain to its exit. Only these two nodes see a difference: all other
links have the arcs they had. The two become no links either, unless the arc was there and one of its
filters equals the conjunction, which is left out then: an end of the chain may have one arc less.
-/

namespace GraphQuery

open Relation

namespace Query

variable {q q' : Query} {start stop m n : Node}

/-- A node has the same arc into it and out of it in two queries, with the same filters. -/
structure AlikeAt (q q' : Query) (n : Node) : Prop where
  soleIn : q'.soleIn? n = q.soleIn? n
  soleOut : q'.soleOut? n = q.soleOut? n
  filterIn : ∀ a, q.soleIn? n = some a → q'.soleFilter? a = q.soleFilter? a
  filterOut : ∀ a, q.soleOut? n = some a → q'.soleFilter? a = q.soleFilter? a

theorem AlikeAt.isLink_eq (alike : q.AlikeAt q' n) :
    q'.isLink start stop n = q.isLink start stop n := by
  unfold isLink
  rw [alike.soleIn, alike.soleOut]
  cases before : q.soleIn? n with
  | none => rfl
  | some a =>
    cases after : q.soleOut? n with
    | none => rfl
    | some b => simp only [alike.filterIn a before, alike.filterOut b after]

theorem Passes.of_alikeAt (consistent : q.graph.Consistent) (consistent' : q'.graph.Consistent)
    (passes : q.Passes start stop m n) (alike : q.AlikeAt q' m) (alike' : q.AlikeAt q' n) :
    q'.Passes start stop m n := by
  have after := alike.soleOut.trans (passes.soleOut? consistent)
  exact ⟨alike.isLink_eq.trans passes.1, alike'.isLink_eq.trans passes.2.1,
    (soleOut?_eq_some consistent' after).1⟩

theorem soleIn?_congr (consistent : q.graph.Consistent) (consistent' : q'.graph.Consistent)
    (same : ∀ a : Arc, a.target = n → (a ∈ q'.graph.arcs ↔ a ∈ q.graph.arcs)) :
    q'.soleIn? n = q.soleIn? n := by
  refine Option.ext fun a => ?_
  rw [soleIn?_eq_some_iff consistent, soleIn?_eq_some_iff consistent']
  grind

theorem soleOut?_congr (consistent : q.graph.Consistent) (consistent' : q'.graph.Consistent)
    (same : ∀ a : Arc, a.source = n → (a ∈ q'.graph.arcs ↔ a ∈ q.graph.arcs)) :
    q'.soleOut? n = q.soleOut? n := by
  refine Option.ext fun a => ?_
  rw [soleOut?_eq_some_iff consistent, soleOut?_eq_some_iff consistent']
  grind

end Query

namespace Chain

open Query

theorem Run.of_alikeAt {q q' : Query} {exit : Node} {a : Arc} {links : List Node} {fs : List Filter}
    (run : Run q exit a links fs) (alike : ∀ n ∈ links, q.AlikeAt q' n)
    (same : q'.soleFilter? a = q.soleFilter? a) : Run q' exit a links fs := by
  induction run with
  | last ends filter => exact .last ends (same.trans filter)
  | @link a b _ _ _ before after filter _ ih =>
    obtain ⟨here, later⟩ := List.forall_mem_cons.mp alike
    exact .link (here.soleIn.trans before) (here.soleOut.trans after) (same.trans filter)
      (ih later (here.filterOut b after))

variable {q : Query} {start stop : Node} {c d : Chain} {next : QueryId}

/-- A run of links stands wherever its links have the same arcs. -/
theorem Stands.of_alikeAt {q' : Query} (stands : Stands q start stop d)
    (alike : ∀ n ∈ d.interior, q.AlikeAt q' n) : Stands q' start stop d := by
  obtain ⟨a, source, run⟩ := stands.run
  refine ⟨⟨a, source, run.of_alikeAt alike ?_⟩,
    fun n inside => (alike n inside).isLink_eq.trans (stands.links n inside), stands.filled⟩
  have filled := stands.filled
  generalize d.interior = links at run alike filled
  generalize d.filters = fs at run
  cases run with
  | last => exact absurd rfl filled
  | link before => exact (alike _ List.mem_cons_self).filterIn a before

/-- The conjunction of the filters of a chain. -/
def conjoined (c : Chain) : Filter :=
  Filter.conjunction c.filters c.entry.outputType

/-- The arc that takes the place of a chain. -/
def shortcut (c : Chain) : Arc :=
  ⟨c.entry, c.exit⟩

/-- The graph with the fused arc in place of the chain. -/
def fused (c : Chain) (q : Query) : Builder :=
  Graph.addLabel (q.without c.interior) c.shortcut (Operation.filter c.conjoined)

/-- The exit takes the items that leave the entry. -/
def Fits (c : Chain) : Prop :=
  c.exit.inputType.accepts c.entry.outputType = true

/-- The arc in place of a chain has a filter already that equals the conjunction. -/
def Absorbed (c : Chain) (q : Query) : Prop :=
  (q.graph.labels c.shortcut).any (· == Operation.filter c.conjoined) = true

instance (c : Chain) (q : Query) : Decidable (c.Absorbed q) :=
  inferInstanceAs (Decidable (_ = true))

theorem misfit?_shortcut (c : Chain) :
    Builder.misfit? c.shortcut (.filter c.conjoined) = none ↔ c.Fits := by
  rw [Builder.misfit?_eq_none]
  exact and_iff_right (ItemType.accepts_refl c.entry.outputType)

/-- Fusing succeeds exactly if the exit takes what leaves the entry. -/
theorem fuse_eq_ok {b : Builder} : c.fuse q = .ok b ↔ c.Fits ∧ b = c.fused q := by
  rw [← misfit?_shortcut]
  exact Builder.addArc_eq_ok

/-- Fusing fails only if the conjunction does not fit between the ends of the chain. -/
theorem fuse_cases (c : Chain) (q : Query) : c.Fits ∧ c.fuse q = .ok (c.fused q) ∨
    ¬ c.Fits ∧ ∃ e, c.fuse q = .error e ∧ e.isTypeMismatch = true := by
  rw [← misfit?_shortcut]
  change _ ∧ Builder.addArc (q.without c.interior) c.shortcut (.filter c.conjoined) = _ ∨
    _ ∧ ∃ e, Builder.addArc (q.without c.interior) c.shortcut (.filter c.conjoined) = _ ∧ _
  unfold Builder.addArc
  split
  · next misfits => exact .inr ⟨by simp [misfits], _, rfl, rfl⟩
  · next fits => exact .inl ⟨fits, rfl⟩

section fused

variable (consistent : q.graph.Consistent)

include consistent

theorem consistent_fused (c : Chain) : (c.fused q).Consistent :=
  (Graph.removeNodes_spec consistent c.interior).1.addLabel c.shortcut _

variable (found : Found q start stop c)

include found

/-- The arc in place of a chain has the labels that it has in the query, and the conjunction unless
one of them equals it; the other arcs off the chain have what they have in the query. -/
theorem labels_fused (a : Arc) : Graph.labels (c.fused q) a =
    if a.source ∈ c.interior ∨ a.target ∈ c.interior then []
    else if a = c.shortcut ∧ (q.graph.labels c.shortcut).any (· == .filter c.conjoined) = false then
      q.graph.labels c.shortcut ++ [.filter c.conjoined]
    else q.graph.labels a := by
  have off : ¬ (c.shortcut.source ∈ c.interior ∨ c.shortcut.target ∈ c.interior) :=
    not_or.mpr found.not_mem
  have kept : Graph.labels (q.without c.interior) c.shortcut = q.graph.labels c.shortcut := by
    rw [labels_without consistent, if_neg off]
  unfold fused
  rw [Graph.labels_addLabel, kept, labels_without consistent]
  by_cases here : a = c.shortcut
  · subst here
    rw [if_neg off, if_neg off]
  · simp only [here, false_and, if_false]

/-- The labels of a fused query are those off the chain, and the conjunction if there is none
equal. -/
theorem mem_labels_fused {a : Arc} {op : Operation} : op ∈ Graph.labels (c.fused q) a ↔
    op ∈ q.graph.labels a ∧ a.source ∉ c.interior ∧ a.target ∉ c.interior ∨
      a = c.shortcut ∧ op = .filter c.conjoined ∧
        (q.graph.labels a).any (· == op) = false := by
  rw [labels_fused consistent found]
  split
  · next gone =>
    simp only [List.not_mem_nil, ← not_or, gone, not_true, and_false, false_or, false_iff]
    rintro ⟨rfl, -⟩
    exact not_or.mpr found.not_mem gone
  · next stays =>
    rw [← not_or, and_iff_left stays]
    split
    · next new =>
      obtain ⟨rfl, unlike⟩ := new
      rw [List.mem_append, List.mem_singleton]
      exact or_congr_right ⟨fun same => ⟨rfl, same, same ▸ unlike⟩, fun ⟨_, same, _⟩ => same⟩
    · next new =>
      refine (or_iff_left_of_imp ?_).symm
      rintro ⟨rfl, rfl, unlike⟩
      exact (new ⟨rfl, unlike⟩).elim

theorem mem_steps_fused {n : Node} {a : Arc} {op : Operation} :
    (a, op) ∈ ((c.fused q).build next).steps n ↔
      (a, op) ∈ q.steps n ∧ a.source ∉ c.interior ∧ a.target ∉ c.interior ∨
        a.source = n ∧ a = c.shortcut ∧ op = .filter c.conjoined ∧
          (q.graph.labels a).any (· == op) = false := by
  rw [mem_steps_iff (q := (c.fused q).build next) (consistent_fused consistent c),
    mem_steps_iff consistent]
  change _ ∧ op ∈ Graph.labels (c.fused q) a ↔ _
  rw [mem_labels_fused consistent found, and_or_left, and_assoc]

omit found in
/-- The arcs off the chain are left, and there is one in its place. -/
theorem mem_arcs_fused {a : Arc} : a ∈ (c.fused q).arcs ↔
    a ∈ q.graph.arcs ∧ a.source ∉ c.interior ∧ a.target ∉ c.interior ∨ a = c.shortcut := by
  have keeps : (q.without c.interior).arcs =
      q.graph.arcs.filter fun a => a.source ∉ c.interior ∧ a.target ∉ c.interior :=
    (Graph.removeNodes_keeps consistent c.interior).arcs consistent
  have dropped : (q.without c.interior).Consistent :=
    (Graph.removeNodes_spec consistent c.interior).1
  unfold fused
  rw [Graph.arcs_addLabel dropped]
  split
  · next known =>
    rw [keeps, List.mem_filter, decide_eq_true_eq] at known ⊢
    exact (or_iff_left_of_imp fun same => same ▸ known).symm
  · rw [List.mem_append, List.mem_singleton, keeps, List.mem_filter, decide_eq_true_eq]

/-- The ends of a chain are nodes of the query. -/
theorem Found.mem_nodes : c.entry ∈ q.nodes ∧ c.exit ∈ q.nodes := by
  obtain ⟨n, -, known⟩ := found.stands.exists_first consistent
  obtain ⟨a, -, run⟩ := found.run
  obtain ⟨b, known', -, ends, -⟩ := run.exists_last consistent found.filled
  exact ⟨(consistent.endpoints _ known).1, ends ▸ (consistent.endpoints _ known').2⟩

/-- A fused query has lost the links of the chain, and no other node. -/
theorem nodes_fused : (c.fused q).nodes = q.nodes.filter (· ∉ c.interior) := by
  obtain ⟨dropped, nodes, -⟩ := Graph.removeNodes_spec consistent c.interior
  obtain ⟨entry, exit⟩ := found.mem_nodes consistent
  obtain ⟨entry', exit'⟩ := found.not_mem
  have kept {n : Node} (known : n ∈ q.nodes) (outside : n ∉ c.interior) :
      n ∈ (q.without c.interior).nodes :=
    nodes ▸ List.mem_filter.mpr ⟨known, decide_eq_true outside⟩
  exact (dropped.nodes_addLabel_of_mem (kept entry entry') (kept exit exit')).trans nodes

section apart

variable {a : Arc} {n : Node} (outside : n ∉ c.interior)

include outside

/-- Away from the entry of a chain, arcs lead where they led. -/
theorem mem_arcs_fused_of_source (apart : n ≠ c.entry) (source : a.source = n) :
    a ∈ (c.fused q).arcs ↔ a ∈ q.graph.arcs := by
  rw [mem_arcs_fused consistent]
  constructor
  · rintro (⟨known, -⟩ | rfl)
    · exact known
    · exact absurd source.symm apart
  · intro known
    refine .inl ⟨known, source ▸ outside, fun inside => apart ?_⟩
    obtain ⟨first, entry, run⟩ := found.run
    obtain rfl := run.enters consistent known inside (source ▸ outside)
    exact source.symm.trans entry

/-- Away from the exit of a chain, arcs come from where they came. -/
theorem mem_arcs_fused_of_target (apart : n ≠ c.exit) (target : a.target = n) :
    a ∈ (c.fused q).arcs ↔ a ∈ q.graph.arcs := by
  rw [mem_arcs_fused consistent]
  constructor
  · rintro (⟨known, -⟩ | rfl)
    · exact known
    · exact absurd target.symm apart
  · intro known
    refine .inl ⟨known, fun inside => apart ?_, target ▸ outside⟩
    obtain ⟨first, -, run⟩ := found.run
    exact target ▸ run.leaves consistent known inside (target ▸ outside)

omit outside

/-- Arcs that are left, other than the one in place of the chain, have the filter they had. -/
theorem soleFilter?_fused (known : a ∈ (c.fused q).arcs) (other : a ≠ c.shortcut) :
    ((c.fused q).build next).soleFilter? a = q.soleFilter? a := by
  obtain ⟨-, off⟩ := ((mem_arcs_fused consistent).mp known).resolve_right other
  have labels : Graph.labels (c.fused q) a = q.graph.labels a := by
    rw [labels_fused consistent found, if_neg (not_or.mpr off), if_neg fun new => other new.1]
  unfold soleFilter?
  rw [show ((c.fused q).build next).graph.labels a = q.graph.labels a from labels]

end apart

section links

variable {n : Node}

/-- A node that is neither a link of the chain nor one of its ends has the arcs it had. -/
theorem alikeAt_fused (outside : n ∉ c.interior) (entry : n ≠ c.entry) (exit : n ≠ c.exit) :
    q.AlikeAt ((c.fused q).build next) n where
  soleIn := soleIn?_congr consistent (consistent_fused consistent c) fun _ =>
    mem_arcs_fused_of_target consistent found outside exit
  soleOut := soleOut?_congr consistent (consistent_fused consistent c) fun _ =>
    mem_arcs_fused_of_source consistent found outside entry
  filterIn a sole := by
    obtain ⟨known, target, -⟩ := (soleIn?_eq_some_iff consistent).mp sole
    refine soleFilter?_fused consistent found
      ((mem_arcs_fused_of_target consistent found outside exit target).mpr known) ?_
    rintro rfl
    exact exit target.symm
  filterOut a sole := by
    obtain ⟨known, source, -⟩ := (soleOut?_eq_some_iff consistent).mp sole
    refine soleFilter?_fused consistent found
      ((mem_arcs_fused_of_source consistent found outside entry source).mpr known) ?_
    rintro rfl
    exact entry source.symm

/-- A link of no chain that is fused has the arcs it had. -/
theorem alikeAt_of_isLink (link : q.isLink start stop n = true) (outside : n ∉ c.interior) :
    q.AlikeAt ((c.fused q).build next) n := by
  refine alikeAt_fused consistent found outside ?_ ?_
  · rintro rfl
    rw [found.entry] at link
    cases link
  · rintro rfl
    rw [found.exit] at link
    cases link

/-- Rings stay rings. -/
theorem onRing_fused (ring : q.OnRing start stop n) :
    ((c.fused q).build next).OnRing start stop n := by
  have alike {m : Node} (ring : q.OnRing start stop m) : q.AlikeAt ((c.fused q).build next) m :=
    alikeAt_of_isLink consistent found ring.isLink fun inside =>
      found.not_onRing consistent inside ring
  have along {m : Node} (here : q.OnRing start stop m)
      (passing : TransGen (q.Passes start stop) m n) :
      TransGen (((c.fused q).build next).Passes start stop) m n := by
    induction passing using TransGen.head_induction_on with
    | single passes =>
      exact .single (passes.of_alikeAt consistent (consistent_fused consistent c) (alike here)
        (alike (here.passes consistent passes)))
    | head passes _ ih =>
      have there := here.passes consistent passes
      exact (ih there).head
        (passes.of_alikeAt consistent (consistent_fused consistent c) (alike here) (alike there))
  exact along ring ring

/-- If the arc in place of a chain is the only one out of its entry and new there, one arc with a
filter left the entry before. -/
theorem exists_soleOut?_entry (new : c.shortcut ∉ q.graph.arcs)
    (sole : ((c.fused q).build next).soleOut? c.entry = some c.shortcut) :
    ∃ b f, q.soleOut? c.entry = some b ∧ b.isLoop = false ∧ q.soleFilter? b = some f := by
  have consistent' : ((c.fused q).build next).graph.Consistent := consistent_fused consistent c
  obtain ⟨a, source, run⟩ := found.run
  obtain ⟨n, inside, entering⟩ := found.stands.exists_first consistent
  obtain rfl := run.enters consistent entering inside found.not_mem.1
  obtain ⟨f, filter⟩ : ∃ f, q.soleFilter? ⟨c.entry, n⟩ = some f := by
    rcases run.cases with ⟨-, f, -, -, filter⟩ | ⟨-, -, f, -, -, -, -, filter, -⟩
    · exact ⟨f, filter⟩
    · exact ⟨f, filter⟩
  refine ⟨⟨c.entry, n⟩, f, (soleOut?_eq_some_iff consistent).mpr ⟨entering, rfl, ?_⟩, ?_, filter⟩
  · intro b known source
    by_cases into : b.target ∈ c.interior
    · exact run.enters consistent known into (source ▸ found.not_mem.1)
    · have left := (mem_arcs_fused consistent).mpr (.inl ⟨known, source ▸ found.not_mem.1, into⟩)
      obtain rfl := (soleOut?_eq_some consistent' sole).2.2 b left source
      exact absurd known new
  · exact beq_false_of_ne fun same : c.entry = n => found.not_mem.1 (same ▸ inside)

/-- If the arc in place of a chain is the only one into its exit and new there, one arc with a filter
entered the exit before. -/
theorem exists_soleIn?_exit (new : c.shortcut ∉ q.graph.arcs)
    (sole : ((c.fused q).build next).soleIn? c.exit = some c.shortcut) :
    ∃ b f, q.soleIn? c.exit = some b ∧ b.isLoop = false ∧ q.soleFilter? b = some f := by
  have consistent' : ((c.fused q).build next).graph.Consistent := consistent_fused consistent c
  obtain ⟨a, -, run⟩ := found.run
  obtain ⟨b, leaving, inside, target, ⟨f, filter⟩, only⟩ := run.exists_last consistent found.filled
  refine ⟨b, f, (soleIn?_eq_some_iff consistent).mpr ⟨leaving, target, ?_⟩, ?_, filter⟩
  · intro b' known target'
    by_cases from' : b'.source ∈ c.interior
    · exact only b' known from' (target' ▸ found.not_mem.2)
    · have left := (mem_arcs_fused consistent).mpr (.inl ⟨known, from', target' ▸ found.not_mem.2⟩)
      obtain rfl := (soleIn?_eq_some consistent' sole).2 b' left target'
      exact absurd known new
  · exact beq_false_of_ne fun same => found.not_mem.2 (target ▸ same ▸ inside)

variable (fresh : ¬ c.Absorbed q)

include fresh

/-- The arc in place of a chain has a filter that may be fused, and no other, only if it is new. -/
theorem not_mem_arcs_of_soleFilter? {f : Filter}
    (sole : ((c.fused q).build next).soleFilter? c.shortcut = some f) :
    c.shortcut ∉ q.graph.arcs := by
  have off : ¬ (c.shortcut.source ∈ c.interior ∨ c.shortcut.target ∈ c.interior) :=
    not_or.mpr found.not_mem
  obtain ⟨labels, -⟩ := soleFilter?_eq_some sole
  replace labels : Graph.labels (c.fused q) c.shortcut = [.filter f] := labels
  rw [labels_fused consistent found, if_neg off,
    if_pos ⟨rfl, Bool.not_eq_true _ ▸ fresh⟩] at labels
  rw [consistent.mem_arcs, not_not]
  simpa using congrArg List.length labels

/-- An end of a chain becomes no link unless the conjunction is absorbed. -/
theorem isLink_fused_ends : ((c.fused q).build next).isLink start stop c.entry = false ∧
    ((c.fused q).build next).isLink start stop c.exit = false := by
  have consistent' : ((c.fused q).build next).graph.Consistent := consistent_fused consistent c
  have known' : c.shortcut ∈ (c.fused q).arcs := (mem_arcs_fused consistent).mpr (.inr rfl)
  have apart (straight : c.shortcut.isLoop = false) : c.entry ≠ c.exit :=
    beq_eq_false_iff_ne.mp straight
  constructor
  · rw [← Bool.not_eq_true]
    intro link
    obtain ⟨first, last, a, b, f, g, before, after, straight, straight', filter, filter'⟩ :=
      isLink_iff.mp link
    obtain rfl := (soleOut?_eq_some consistent' after).2.2 c.shortcut known' rfl
    have new := not_mem_arcs_of_soleFilter? consistent found fresh filter'
    obtain ⟨b, g, after, straight'', filter''⟩ := exists_soleOut?_entry consistent found new after
    -- the arc into the entry is what it was
    have unchanged := soleIn?_congr consistent consistent' fun _ =>
      mem_arcs_fused_of_target consistent found found.not_mem.1 (apart straight')
    obtain ⟨known, target, -⟩ := (soleIn?_eq_some_iff consistent').mp before
    have same : ((c.fused q).build next).soleFilter? a = q.soleFilter? a :=
      soleFilter?_fused consistent found known fun same => apart straight' (target ▸ same ▸ rfl)
    have link' : q.isLink start stop c.entry = true := isLink_iff.mpr ⟨first, last, a, b, f, g,
      unchanged.symm.trans before, after, straight, straight'', same.symm.trans filter, filter''⟩
    rw [found.entry] at link'
    cases link'
  · rw [← Bool.not_eq_true]
    intro link
    obtain ⟨first, last, a, b, f, g, before, after, straight, straight', filter, filter'⟩ :=
      isLink_iff.mp link
    obtain rfl := (soleIn?_eq_some consistent' before).2 c.shortcut known' rfl
    have new := not_mem_arcs_of_soleFilter? consistent found fresh filter
    obtain ⟨a, f, before, straight'', filter''⟩ := exists_soleIn?_exit consistent found new before
    -- the arc out of the exit is what it was
    have unchanged := soleOut?_congr consistent consistent' fun _ =>
      mem_arcs_fused_of_source consistent found found.not_mem.2 (apart straight).symm
    obtain ⟨known, source, -⟩ := (soleOut?_eq_some_iff consistent').mp after
    have same : ((c.fused q).build next).soleFilter? b = q.soleFilter? b :=
      soleFilter?_fused consistent found known fun same => apart straight (source ▸ same ▸ rfl)
    have link' : q.isLink start stop c.exit = true := isLink_iff.mpr ⟨first, last, a, b, f, g,
      before, unchanged.symm.trans after, straight'', straight', filter'', same.symm.trans filter'⟩
    rw [found.exit] at link'
    cases link'

/-- Nodes that are no links become none unless the conjunction is absorbed. -/
theorem isLink_fused_of_not (outside : n ∉ c.interior) (plain : q.isLink start stop n = false) :
    ((c.fused q).build next).isLink start stop n = false := by
  obtain ⟨entry, exit⟩ : ((c.fused q).build next).isLink start stop c.entry = false ∧
      ((c.fused q).build next).isLink start stop c.exit = false :=
    isLink_fused_ends consistent found fresh
  by_cases first : n = c.entry
  · exact first ▸ entry
  · by_cases last : n = c.exit
    · exact last ▸ exit
    · exact (alikeAt_fused consistent found outside first last).isLink_eq.trans plain

end links

end fused

end Chain

end GraphQuery
