import Mathlib
import GraphQuery.Proofs.ChainSearch
import GraphQuery.Proofs.Obtaining
/-!
# Longest chains

A chain that is found is a longest run of links, with the arcs around it and a filter for each of them.
To look for one always ends, and when none is found, no chain is left that touches none of the nodes to
be left alone.
-/

namespace GraphQuery

namespace Chain

open Query

/-- A longest run of links, with the arcs around it and the filters on them. -/
structure IsMaximal (q : Query) (start stop : Node) (c : Chain) : Prop where
  known : ∀ a ∈ c.arcs, a ∈ q.graph.arcs
  long : 2 ≤ c.arcs.length
  sources : c.arcs.map Arc.source = c.entry :: c.interior
  targets : c.arcs.map Arc.target = c.interior ++ [c.exit]
  nodup : c.interior.Nodup
  links : ∀ n ∈ c.interior, q.isLink start stop n = true ∧ n ≠ start ∧ n ≠ stop
  /-- No link before or behind the run is missing from it. -/
  closed : ∀ m n, q.Passes start stop m n → (m ∈ c.interior ↔ n ∈ c.interior)
  entry : q.isLink start stop c.entry = false
  exit : q.isLink start stop c.exit = false
  filters : c.arcs.map q.soleFilter? = c.filters.map some

section search

variable {q : Query} {start stop : Node}

theorem StartsAt.isMaximal (consistent : q.graph.Consistent) {n : Node} {c : Chain}
    (startsAt : StartsAt q start stop n c) : IsMaximal q start stop c := by
  obtain ⟨found, -⟩ := startsAt.found consistent
  obtain ⟨link, -, a, arcs, sole, goes, entry, all, filters⟩ := startsAt
  obtain ⟨sources, targets, nodup, -, filtered⟩ := goes.joins consistent link (by simp)
  obtain ⟨target, -⟩ := soleIn?_eq_some consistent sole
  have filtered' : ∀ b ∈ c.arcs, b ∈ q.graph.arcs ∧ (q.soleFilter? b).isSome := by
    obtain ⟨f, filter⟩ := exists_filter_in link sole
    rw [all]
    exact List.forall_mem_cons.mpr ⟨⟨mem_arcs_of_soleIn? consistent sole, by simp [filter]⟩, filtered⟩
  have sources' : c.arcs.map Arc.source = c.entry :: c.interior := by
    rw [all, List.map_cons, sources, entry]
  have long : 2 ≤ c.arcs.length := by
    have length := congrArg List.length sources'
    rw [List.length_map, List.length_cons] at length
    have filled := List.length_pos_of_ne_nil found.filled
    omega
  refine ⟨fun b member => (filtered' b member).1, long, sources', ?_, nodup, fun m inside => ?_,
    fun _ _ => found.mem_iff_of_passes consistent, found.entry, found.exit, ?_⟩
  · rw [all, List.map_cons, target, targets]
  · have link' := found.links m inside
    obtain ⟨begins, ends, -⟩ := isLink_iff.mp link'
    exact ⟨link', begins, ends⟩
  · -- no arc is passed over, as each has a filter
    rw [filters, ← all, List.map_filterMap_some_eq_filter_map_isSome, eq_comm,
      List.filter_eq_self, List.forall_mem_map]
    exact fun b member => (filtered' b member).2

/-- Looking for a chain always ends. What it finds is a longest run of links that touches none of the
nodes to be left alone; the nodes added to those are on rings; and if it finds nothing, then each link
is on a ring or in such a run that touches one of the nodes to be left alone. -/
theorem find_searches (obtained : Builder.Obtained q.graph) (start stop : Node) (stuck : List Node) :
    ∃ found stuck', find q start stop stuck = (found, stuck') ∧
      (∀ found' stuck'', Searches q (q.isLink start stop) q.nodes stuck found' stuck'' ↔
        found' = found ∧ stuck'' = stuck') ∧
      (∀ c, found = some c → IsMaximal q start stop c ∧ ∀ n ∈ c.interior, n ∉ stuck') ∧
      stuck ⊆ stuck' ∧ (∀ n ∈ stuck', n ∉ stuck → q.OnRing start stop n) ∧
      (found = none → ∀ n, q.isLink start stop n = true → q.OnRing start stop n ∨
        ∃ c, IsMaximal q start stop c ∧ n ∈ c.interior ∧ ∃ m ∈ c.interior, m ∈ stuck) := by
  have consistent := obtained.consistent
  have ends : Searches q (q.isLink start stop) q.nodes stuck
      (find q start stop stuck).1 (find q start stop stuck).2 :=
    searches_findFrom consistent q.nodes stuck
  obtain ⟨kept, rings⟩ := ends.left consistent
  refine ⟨_, _, rfl, fun found' stuck'' => ?_, fun c finds => ?_, kept, fun n left fresh => ?_,
    fun none n link => ?_⟩
  · rw [searches_iff consistent]
    exact Prod.ext_iff.trans (and_congr eq_comm eq_comm)
  · obtain ⟨⟨n, startsAt⟩, apart⟩ := (finds ▸ ends).startsAt consistent
    exact ⟨startsAt.isMaximal consistent, apart⟩
  · exact (rings n left).resolve_left fresh
  · have known := mem_nodes_of_isLink consistent link
    refine ((none ▸ ends).of_none consistent n known link).imp_right ?_
    rintro ⟨first, c, startsAt, inside, m, member, left⟩
    have ring : ¬ q.OnRing start stop m :=
      (startsAt.found consistent).1.not_onRing consistent member
    exact ⟨c, startsAt.isMaximal consistent, inside, m, member, (rings m left).resolve_right ring⟩

end search

/-! A ring, and a chain that leads back to where it starts -/

namespace Carousel

/-- A link of the ring. -/
def here : Node := .plain 0 "here" .any

/-- The other link of the ring. -/
def there : Node := .plain 1 "there" .any

/-- Where the selection starts and ends. -/
def hub : Node := .plain 2 "hub" .any

/-- A link from the hub to the hub. -/
def round : Node := .plain 3 "round" .any

/-- The arcs. -/
def ways : List Arc :=
  [⟨here, there⟩, ⟨there, here⟩, ⟨hub, round⟩, ⟨round, hub⟩]

/-- Filters go around a ring, and from the hub around to the hub. -/
def query : Query where
  id := 0
  graph := ways.foldl (fun b a => (Builder.offer b a (.filter (.anything .any))).1)
    ([here, there, hub, round].foldl Graph.addNode Graph.empty)

theorem obtained : Builder.Obtained query.graph := by
  have nodes (ns : List Node) : Builder.Obtained (ns.foldl Graph.addNode Graph.empty) :=
    List.foldlRecOn (motive := Builder.Obtained) ns _ .new fun _ obtained n _ => obtained.addNode n
  exact List.foldlRecOn (motive := Builder.Obtained) ways _ (nodes [here, there, hub, round])
    fun _ obtained a _ => obtained.addArc a (.filter (.anything .any))

/-- The chain from the hub to the hub. -/
def tour : Chain :=
  ⟨hub, hub, [⟨hub, round⟩, ⟨round, hub⟩], [round], [.anything .any, .anything .any]⟩

theorem find_query : find query hub hub [] = (some tour, [there, here]) := by
  cbv

theorem find_query_stuck : find query hub hub [round] = (none, [there, here, round]) := by
  cbv

/-- The ring is left alone and the chain behind it found, which ends where it starts. If its link is to
be left alone too, nothing is found. -/
theorem find_searches_carousel :
    Searches query (query.isLink hub hub) query.nodes [] (some tour) [there, here] ∧
      IsMaximal query hub hub tour ∧ query.OnRing hub hub there ∧
      Searches query (query.isLink hub hub) query.nodes [round] none [there, here, round] := by
  obtain ⟨found, stuck, finds, searches, maximal, -, rings, -⟩ := find_searches obtained hub hub []
  obtain ⟨rfl, rfl⟩ := Prod.mk.inj (find_query.symm.trans finds)
  obtain ⟨found, stuck, finds', searches', -⟩ := find_searches obtained hub hub [round]
  obtain ⟨rfl, rfl⟩ := Prod.mk.inj (find_query_stuck.symm.trans finds')
  exact ⟨(searches _ _).mpr ⟨rfl, rfl⟩, (maximal tour rfl).1, rings there (by simp) (by simp),
    (searches' _ _).mpr ⟨rfl, rfl⟩⟩

end Carousel

end Chain

end GraphQuery
