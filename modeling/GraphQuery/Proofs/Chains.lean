import GraphQuery.Proofs.GraphLaws
import GraphQuery.Proofs.Nesting
import GraphQuery.Rewrite.Chain
/-!
# What a chain is

A chain that is found is a run: an arc into each link and one out of it, each the only one there, and
on every arc a single filter that may be fused. All nodes of the run are links, and neither its entry
nor its exit is one, so going along the run from its entry leaves it at the exit only.
-/

namespace GraphQuery

namespace Query

variable {q : Query} {n : Node} {a b : Arc} {f : Filter}

/-- A list without repetitions has one element exactly if it has an element that all are. -/
theorem eq_singleton_iff {l : List Arc} (nodup : l.Nodup) :
    l = [a] ↔ a ∈ l ∧ ∀ b ∈ l, b = a := by
  constructor
  · rintro rfl
    simp
  · rintro ⟨member, only⟩
    refine List.perm_singleton.mp ((List.perm_ext_iff_of_nodup nodup (by simp)).mpr fun b => ?_)
    rw [List.mem_singleton]
    exact ⟨only b, fun same => same ▸ member⟩

theorem soleIn?_eq_some_iff (consistent : q.graph.Consistent) : q.soleIn? n = some a ↔
    a ∈ q.graph.arcs ∧ a.target = n ∧ ∀ b ∈ q.graph.arcs, b.target = n → b = a := by
  have nodup : (q.graph.arcsTo n).Nodup := consistent.incoming n ▸ consistent.nodup_arcs.filter _
  have listed : q.soleIn? n = some a ↔ q.graph.arcsTo n = [a] := by
    unfold soleIn?
    split <;> simp_all
  rw [listed, eq_singleton_iff nodup]
  simp only [consistent.mem_arcsTo, and_imp, and_assoc]

theorem soleOut?_eq_some_iff (consistent : q.graph.Consistent) : q.soleOut? n = some a ↔
    a ∈ q.graph.arcs ∧ a.source = n ∧ ∀ b ∈ q.graph.arcs, b.source = n → b = a := by
  have nodup : (q.graph.arcsFrom n).Nodup := consistent.outgoing n ▸ consistent.nodup_arcs.filter _
  have listed : q.soleOut? n = some a ↔ q.graph.arcsFrom n = [a] := by
    unfold soleOut?
    split <;> simp_all
  rw [listed, eq_singleton_iff nodup]
  simp only [consistent.mem_arcsFrom, and_imp, and_assoc]

theorem mem_arcs_of_soleIn? (consistent : q.graph.Consistent) (sole : q.soleIn? n = some a) :
    a ∈ q.graph.arcs :=
  ((soleIn?_eq_some_iff consistent).mp sole).1

theorem soleIn?_eq_some (consistent : q.graph.Consistent) (sole : q.soleIn? n = some a) :
    a.target = n ∧ ∀ b ∈ q.graph.arcs, b.target = n → b = a :=
  ((soleIn?_eq_some_iff consistent).mp sole).2

theorem soleOut?_eq_some (consistent : q.graph.Consistent) (sole : q.soleOut? n = some a) :
    a ∈ q.graph.arcs ∧ a.source = n ∧ ∀ b ∈ q.graph.arcs, b.source = n → b = a :=
  (soleOut?_eq_some_iff consistent).mp sole

theorem soleFilter?_eq_some (sole : q.soleFilter? a = some f) :
    q.graph.labels a = [.filter f] ∧ f.isMergeable = true := by
  unfold soleFilter? at sole
  split at sole
  · next op listed =>
    obtain ⟨filters, mergeable⟩ := Option.filter_eq_some_iff.mp sole
    cases op with
    | filter g =>
      obtain rfl := Option.some.inj filters
      exact ⟨listed, mergeable⟩
    | follow => cases filters
    | count => cases filters
  · cases sole

/-- A link is neither end of the selection, and one arc with a single filter leads into it and one
out of it. -/
theorem isLink_iff {start stop : Node} : q.isLink start stop n = true ↔ n ≠ start ∧ n ≠ stop ∧
    ∃ a b f g, q.soleIn? n = some a ∧ q.soleOut? n = some b ∧ a.isLoop = false ∧ b.isLoop = false ∧
      q.soleFilter? a = some f ∧ q.soleFilter? b = some g := by
  unfold isLink
  rcases q.soleIn? n with _ | a
  · simp
  · rcases q.soleOut? n with _ | b
    · simp
    · simp [Option.isSome_iff_exists, and_assoc]

theorem soleOut?_ne_none {start stop : Node} (link : q.isLink start stop n = true) :
    q.soleOut? n ≠ none := by
  obtain ⟨-, -, -, b, -, -, -, after, -⟩ := isLink_iff.mp link
  exact Option.ne_none_iff_exists'.mpr ⟨b, after⟩

/-- The arc into a link has a single filter that may be fused. -/
theorem exists_filter_in {start stop : Node} (link : q.isLink start stop n = true)
    (before : q.soleIn? n = some a) : ∃ f, q.soleFilter? a = some f := by
  obtain ⟨-, -, a', -, f, -, sole, -, -, -, filter, -⟩ := isLink_iff.mp link
  obtain rfl := Option.some.inj (before.symm.trans sole)
  exact ⟨f, filter⟩

/-- So has the arc out of it. -/
theorem exists_filter_out {start stop : Node} (link : q.isLink start stop n = true)
    (after : q.soleOut? n = some b) : ∃ g, q.soleFilter? b = some g := by
  obtain ⟨-, -, -, b', -, g, -, sole, -, -, -, filter⟩ := isLink_iff.mp link
  obtain rfl := Option.some.inj (after.symm.trans sole)
  exact ⟨g, filter⟩

end Query

namespace Chain

open Query

/-- Going along an arc and from link to link leads to the exit. -/
inductive Run (q : Query) (exit : Node) : Arc → List Node → List Filter → Prop where
  | last {a : Arc} {f : Filter} (ends : a.target = exit) (filter : q.soleFilter? a = some f) :
    Run q exit a [] [f]
  | link {a b : Arc} {links : List Node} {f : Filter} {fs : List Filter}
    (before : q.soleIn? a.target = some a) (after : q.soleOut? a.target = some b)
    (filter : q.soleFilter? a = some f) (rest : Run q exit b links fs) :
    Run q exit a (a.target :: links) (f :: fs)

namespace Run

variable {q : Query} {exit : Node} {a b : Arc} {links : List Node} {fs : List Filter}

/-- A run consists of its last arc only, or goes on behind a link. -/
theorem cases (run : Run q exit a links fs) :
    (links = [] ∧ ∃ f, fs = [f] ∧ a.target = exit ∧ q.soleFilter? a = some f) ∨
      ∃ b links' f fs', links = a.target :: links' ∧ fs = f :: fs' ∧
        q.soleOut? a.target = some b ∧ q.soleFilter? a = some f ∧ Run q exit b links' fs' := by
  cases run with
  | last ends filter => exact .inl ⟨rfl, _, rfl, ends, filter⟩
  | link _ after filter rest => exact .inr ⟨_, _, _, _, rfl, rfl, after, filter, rest⟩

/-- The filters of a run are operations of the query that may be fused. -/
theorem filters (run : Run q exit a links fs) :
    ∀ f ∈ fs, f.isMergeable = true ∧ .filter f ∈ q.operations := by
  induction run with
  | last _ filter =>
    intro g member
    obtain rfl := List.mem_singleton.mp member
    obtain ⟨label, mergeable⟩ := soleFilter?_eq_some filter
    exact ⟨mergeable, mem_operations_of_mem_labels (label ▸ List.mem_singleton_self _)⟩
  | link _ _ filter _ ih =>
    intro g member
    rcases List.mem_cons.mp member with rfl | member
    · obtain ⟨label, mergeable⟩ := soleFilter?_eq_some filter
      exact ⟨mergeable, mem_operations_of_mem_labels (label ▸ List.mem_singleton_self _)⟩
    · exact ih g member

/-- Links are entered along the run only. -/
theorem enters (consistent : q.graph.Consistent) (run : Run q exit a links fs)
    (known : b ∈ q.graph.arcs) (inside : b.target ∈ links) (outside : b.source ∉ links) : b = a := by
  induction run with
  | last => cases inside
  | @link a next links f fs before after _ rest ih =>
    rw [List.mem_cons, not_or] at outside
    rcases List.mem_cons.mp inside with here | later
    · exact (soleIn?_eq_some consistent before).2 b known here
    · obtain rfl := ih later outside.2
      exact absurd (soleOut?_eq_some consistent after).2.1 outside.1

/-- Links are left along the run only, by the last of its arcs. -/
theorem exists_last (consistent : q.graph.Consistent) (run : Run q exit a links fs)
    (filled : links ≠ []) : ∃ b ∈ q.graph.arcs, b.source ∈ links ∧ b.target = exit ∧
      (∃ f, q.soleFilter? b = some f) ∧
      ∀ b' ∈ q.graph.arcs, b'.source ∈ links → b'.target ∉ links → b' = b := by
  induction run with
  | last => exact absurd rfl filled
  | @link a b links f fs _ after _ rest ih =>
    obtain ⟨known, source, only⟩ := soleOut?_eq_some consistent after
    rcases rest.cases with ⟨rfl, f, -, ends, filter⟩ | ⟨_, links', _, _, rfl, -⟩
    · exact ⟨b, known, source ▸ List.mem_cons_self, ends, ⟨f, filter⟩,
        fun b' known' here _ => only b' known' (List.mem_singleton.mp here)⟩
    · obtain ⟨b', known', inside, ends, filter, only'⟩ := ih (List.cons_ne_nil _ _)
      refine ⟨b', known', List.mem_cons_of_mem _ inside, ends, filter, fun b'' known'' here away => ?_⟩
      rw [List.mem_cons, not_or] at away
      rcases List.mem_cons.mp here with here | later
      · obtain rfl := only b'' known'' here
        exact absurd List.mem_cons_self away.2
      · exact only' b'' known'' later away.2

theorem leaves (consistent : q.graph.Consistent) (run : Run q exit a links fs)
    (known : b ∈ q.graph.arcs) (inside : b.source ∈ links) (outside : b.target ∉ links) :
    b.target = exit := by
  obtain ⟨b', -, -, ends, -, only⟩ := run.exists_last consistent (List.ne_nil_of_mem inside)
  exact only b known inside outside ▸ ends

end Run

section found

variable {q : Query} {start stop : Node}

/-- A link is a node of the query. -/
theorem mem_nodes_of_isLink (consistent : q.graph.Consistent) {n : Node}
    (link : q.isLink start stop n = true) : n ∈ q.nodes := by
  obtain ⟨-, -, a, b, -, -, -, after, -⟩ := isLink_iff.mp link
  obtain ⟨known, source, -⟩ := soleOut?_eq_some consistent after
  exact source ▸ (consistent.endpoints b known).1

/-- A chain as it stands in a query. -/
structure Found (q : Query) (start stop : Node) (c : Chain) : Prop where
  run : ∃ a, a.source = c.entry ∧ Run q c.exit a c.interior c.filters
  links : ∀ n ∈ c.interior, q.isLink start stop n = true
  entry : q.isLink start stop c.entry = false
  exit : q.isLink start stop c.exit = false
  filled : c.interior ≠ []

/-- The ends of a chain are none of its links. -/
theorem Found.not_mem {c : Chain} (found : Found q start stop c) :
    c.entry ∉ c.interior ∧ c.exit ∉ c.interior := by
  have outside {n : Node} (apart : q.isLink start stop n = false) : n ∉ c.interior := by
    intro inside
    rw [found.links n inside] at apart
    cases apart
  exact ⟨outside found.entry, outside found.exit⟩

end found

end Chain

end GraphQuery
