import Mathlib
import GraphQuery.Proofs.Obtaining
/-!
# What fusing leaves

A query is settled if fusing its chains changes nothing. That is so exactly if each of its links is on
a ring or in a chain whose conjunction does not fit between its ends.

Fusing once need not settle a query. The links of a chain that was left alone stay, and no other chain
is fused across them. But an end of such a chain becomes a link when a conjunction is absorbed and
leaves it with one arc less; then the chain is longer than it was, it may fit, and it is not tried
again. Unless that happens, a query is settled when its chains are fused once.
-/

namespace GraphQuery

open Relation Query

namespace Query

variable {q : Query} {start stop : Node}

/-- Fusing its chains gives the query itself. -/
def Settled (q : Query) (start stop : Node) : Prop :=
  ∀ s, ∃ s', (q.fuseChains start stop).Gives s q s'

/-- Every link is on a ring, or in a chain whose exit does not take what leaves its entry. -/
def Stalled (q : Query) (start stop : Node) : Prop :=
  ∀ n, q.isLink start stop n = true → q.OnRing start stop n ∨
    ∃ c, Chain.Found q start stop c ∧ n ∈ c.interior ∧ ¬ c.Fits

end Query

namespace Chain

variable {q : Query} {start stop : Node} {c d : Chain}

/-- Chains with a link in common both fit or both do not. -/
theorem Found.fits_iff (consistent : q.graph.Consistent) (found : Found q start stop c)
    (found' : Found q start stop d) {n : Node} (inside : n ∈ d.interior)
    (inside' : n ∈ c.interior) : d.Fits ↔ c.Fits := by
  obtain ⟨entry, exit⟩ := found.ends_eq consistent found' inside inside'
  rw [Fits, Fits, entry, exit]

/-- Where operations fit and nodes hand on no more than they take, all chains fit. -/
theorem Run.accepts {exit : Node} {a : Arc} {links : List Node} {fs : List Filter}
    (run : Run q exit a links fs) (consistent : q.graph.Consistent) (fitting : q.graph.Fitting)
    (narrow : ∀ n ∈ q.nodes, n.outputType.accepts n.inputType = true) :
    exit.inputType.accepts a.source.outputType = true := by
  have across {a : Arc} {f : Filter} (filter : q.soleFilter? a = some f) :
      a ∈ q.graph.arcs ∧ a.target.inputType.accepts a.source.outputType = true := by
    obtain ⟨labels, -⟩ := soleFilter?_eq_some filter
    have label : Operation.filter f ∈ q.graph.labels a := labels ▸ List.mem_singleton_self _
    have known := consistent.arcs_of_label label
    obtain ⟨takes, gives⟩ := fitting a known _ label
    exact ⟨known, ItemType.accepts_trans gives takes⟩
  induction run with
  | last ends filter => exact ends ▸ (across filter).2
  | @link a b _ _ _ _ after filter _ ih =>
    obtain ⟨known, here⟩ := across filter
    have there := ih
    rw [(soleOut?_eq_some consistent after).2.1] at there
    have within := narrow a.target (consistent.endpoints a known).2
    exact ItemType.accepts_trans there (ItemType.accepts_trans within here)

end Chain

namespace Fusion

variable {start stop : Node} {f f' : Fusion}

/-- The chains left alone still stand as they were found, and the nodes left alone are their links and
those of rings. -/
structure Kept (start stop : Node) (f : Fusion) : Prop where
  stands : ∀ d ∈ f.refused, Chain.Stands f.query start stop d ∧ ¬ d.Fits ∧ d.interior ⊆ f.stuck
  stuck : ∀ n ∈ f.stuck, f.query.OnRing start stop n ∨ ∃ d ∈ f.refused, n ∈ d.interior

theorem Round.kept (consistent : f.query.graph.Consistent) (round : Round start stop f f')
    (kept : f.Kept start stop) : f'.Kept start stop := by
  obtain ⟨c, stuck, found, apart, sub, rings, ⟨-, query, left, -, refused, -⟩ |
    ⟨misfits, query, left, -, refused, -⟩⟩ := round.cases consistent
  · -- chains left alone have no link in common with the one that is fused
    refine ⟨fun d member => ?_, fun n member => ?_⟩
    · obtain ⟨stands, misfits, inside⟩ := kept.stands d (refused ▸ member)
      refine ⟨query ▸ stands.of_alikeAt fun n link => ?_, misfits, left ▸ List.Subset.trans inside sub⟩
      exact Chain.alikeAt_of_isLink consistent found (stands.links n link)
        fun again => apart n again (sub (inside link))
    · rw [query, refused]
      rcases rings n (left ▸ member) with old | ring
      · exact (kept.stuck n old).imp_left (Chain.onRing_fused consistent found)
      · exact .inl (Chain.onRing_fused consistent found ring)
  · refine ⟨fun d member => ?_, fun n member => ?_⟩
    · rw [query, left]
      rcases List.mem_cons.mp (refused ▸ member) with rfl | old
      · exact ⟨found.stands, misfits, List.subset_append_left _ _⟩
      · obtain ⟨stands, misfits', inside⟩ := kept.stands d old
        exact ⟨stands, misfits', List.subset_append_of_subset_right _ (List.Subset.trans inside sub)⟩
    · rw [query, refused]
      rcases List.mem_append.mp (left ▸ member) with new | old
      · exact .inr ⟨c, List.mem_cons_self, new⟩
      · rcases rings n old with old | ring
        · exact (kept.stuck n old).imp_right fun ⟨d, member, inside⟩ =>
            ⟨d, List.mem_cons_of_mem _ member, inside⟩
        · exact .inl ring

/-- Unless a conjunction was absorbed, the ends of chains left alone are no links. -/
def Ended (start stop : Node) (f : Fusion) : Prop :=
  f.absorbed = [] → ∀ d ∈ f.refused,
    f.query.isLink start stop d.entry = false ∧ f.query.isLink start stop d.exit = false

theorem Round.ended (consistent : f.query.graph.Consistent) (round : Round start stop f f')
    (ended : f.Ended start stop) : f'.Ended start stop := by
  obtain ⟨c, -, found, -, -, -, ⟨-, query, -, -, refused, absorbed⟩ |
    ⟨-, query, -, -, refused, absorbed⟩⟩ := round.cases consistent
  · intro none d member
    rw [absorbed] at none
    split at none
    · cases none
    · next fresh =>
      obtain ⟨entry, exit⟩ := ended none d (refused ▸ member)
      have remains {n : Node} (plain : f.query.isLink start stop n = false) :
          f'.query.isLink start stop n = false := by
        rw [query]
        refine Chain.isLink_fused_of_not consistent found fresh (fun inside => ?_) plain
        rw [found.links n inside] at plain
        cases plain
      exact ⟨remains entry, remains exit⟩
  · intro none d member
    rw [query]
    rcases List.mem_cons.mp (refused ▸ member) with rfl | old
    · exact ⟨found.entry, found.exit⟩
    · exact ended (absorbed ▸ none) d old

theorem Runs.kept (consistent : f.query.graph.Consistent) (runs : Runs start stop f f')
    (kept : f.Kept start stop) (ended : f.Ended start stop) :
    f'.Kept start stop ∧ f'.Ended start stop := by
  induction runs with
  | refl => exact ⟨kept, ended⟩
  | tail runs round ih =>
    have consistent' := Runs.consistent consistent runs
    exact ⟨round.kept consistent' ih.1, round.ended consistent' ih.2⟩

/-- When fusing is done, every link is on a ring or in a chain that has all links of one left alone. -/
theorem Kept.links (kept : f.Kept start stop) (consistent : f.query.graph.Consistent)
    (done : f.Done start stop) {n : Node} (link : f.query.isLink start stop n = true) :
    f.query.OnRing start stop n ∨ ∃ c, Chain.Found f.query start stop c ∧ n ∈ c.interior ∧
      ∃ d ∈ f.refused, d.interior ⊆ c.interior := by
  have known := Chain.mem_nodes_of_isLink consistent link
  have searches : Chain.Searches f.query (f.query.isLink start stop) f.query.nodes f.stuck none _ :=
    (Chain.searches_iff consistent).mpr (Prod.ext done rfl)
  refine (searches.of_none consistent n known link).imp_right ?_
  rintro ⟨first, c, startsAt, inside, m, member, left⟩
  obtain ⟨found, -⟩ := startsAt.found consistent
  refine ⟨c, found, inside, ?_⟩
  have ring : ¬ f.query.OnRing start stop m := found.not_onRing consistent member
  have old := ((searches.left consistent).2 m left).resolve_right ring
  obtain ⟨d, refused, member'⟩ := (kept.stuck m old).resolve_left ring
  exact ⟨d, refused, found.subset consistent (kept.stands d refused).1 member' member⟩

/-- If the ends of the chains left alone are no links, no chain is left that fits. -/
theorem Kept.stalled (kept : f.Kept start stop) (consistent : f.query.graph.Consistent)
    (done : f.Done start stop) (ends : ∀ d ∈ f.refused,
      f.query.isLink start stop d.entry = false ∧ f.query.isLink start stop d.exit = false) :
    f.query.Stalled start stop := by
  intro n link
  refine (kept.links consistent done link).imp_right ?_
  rintro ⟨c, found, inside, d, refused, sub⟩
  obtain ⟨stands, misfits, -⟩ := kept.stands d refused
  obtain ⟨entry, exit⟩ := ends d refused
  obtain ⟨m, member⟩ := List.exists_mem_of_ne_nil _ stands.filled
  have found' : Chain.Found f.query start stop d :=
    ⟨stands.run, stands.links, entry, exit, stands.filled⟩
  exact ⟨c, found, inside,
    (found.fits_iff consistent found' member (sub member)).not.mp misfits⟩

/-- In a query without a chain that fits, rounds change nothing. -/
theorem Runs.query_eq (consistent : f.query.graph.Consistent)
    (stalled : f.query.Stalled start stop) (runs : Runs start stop f f') : f'.query = f.query := by
  induction runs with
  | refl => rfl
  | tail runs round ih =>
    have consistent' := Runs.consistent consistent runs
    obtain ⟨c, -, found, -, -, -, ⟨fits, -⟩ | ⟨-, query, -⟩⟩ := round.cases consistent'
    · rw [ih] at found
      obtain ⟨n, inside⟩ := List.exists_mem_of_ne_nil _ found.filled
      rcases stalled n (found.links n inside) with ring | ⟨d, found', inside', misfits⟩
      · exact absurd ring (found.not_onRing consistent inside)
      · exact absurd ((found.fits_iff consistent found' inside' inside).mpr fits) misfits
    · exact query.trans ih

/-- Rounds that remove no node absorb nothing. -/
theorem Runs.absorbed_eq (consistent : f.query.graph.Consistent) (runs : Runs start stop f f')
    (same : f'.query.nodes.length = f.query.nodes.length) : f'.absorbed = f.absorbed := by
  induction runs with
  | refl => rfl
  | @tail f₁ f₂ runs round ih =>
    have consistent' := Runs.consistent consistent runs
    have fewer := (Runs.sublist consistent runs).length_le
    obtain ⟨c, -, found, -, -, -, ⟨-, query, -⟩ | ⟨-, query, -, -, -, absorbed⟩⟩ :=
      round.cases consistent'
    · obtain ⟨n, inside⟩ := List.exists_mem_of_ne_nil _ found.filled
      have nodes : f₂.query.nodes = f₁.query.nodes.filter (· ∉ c.interior) :=
        query ▸ Chain.nodes_fused consistent' found
      have known := Chain.mem_nodes_of_isLink consistent' (found.links n inside)
      have lost : f₂.query.nodes.length < f₁.query.nodes.length := by
        rw [nodes]
        exact List.length_filter_lt_length_iff_exists.mpr ⟨n, known, by simpa using inside⟩
      omega
    · exact absorbed.trans (ih (query ▸ same))

theorem Runs.scripted (consistent : f.query.graph.Consistent) (runs : Runs start stop f f')
    (scripted : Builder.Scripted f.query.graph) : Builder.Scripted f'.query.graph := by
  induction runs with
  | refl => exact scripted
  | tail runs round ih =>
    obtain ⟨c, -, -, -, -, -, ⟨fits, query, -⟩ | ⟨-, query, -⟩⟩ :=
      round.cases (Runs.consistent consistent runs)
    · rw [query]
      exact scripted_fuse ih (Chain.fuse_eq_ok.mpr ⟨fits, rfl⟩)
    · exact query ▸ ih

/-- No chain is left alone if no node hands on more than it takes. -/
theorem Runs.refused_eq (consistent : f.query.graph.Consistent) (runs : Runs start stop f f')
    (scripted : Builder.Scripted f.query.graph)
    (narrow : ∀ n ∈ f.query.nodes, n.outputType.accepts n.inputType = true) :
    f'.refused = f.refused := by
  induction runs with
  | refl => rfl
  | tail runs round ih =>
    have consistent' := Runs.consistent consistent runs
    obtain ⟨c, -, found, -, -, -, ⟨-, -, -, -, refused, -⟩ | ⟨misfits, -⟩⟩ :=
      round.cases consistent'
    · exact refused.trans ih
    · obtain ⟨a, source, run⟩ := found.run
      have fits := run.accepts consistent' (Runs.scripted consistent runs scripted).fitting
        fun n known => narrow n ((Runs.sublist consistent runs).subset known)
      rw [source] at fits
      exact absurd fits misfits

end Fusion

namespace Query

variable {q : Query} {start stop : Node}

/-- Fusing chains changes nothing exactly if no chain is left that fits. -/
theorem settled_iff (consistent : q.graph.Consistent) :
    q.Settled start stop ↔ q.Stalled start stop := by
  constructor
  · intro settled
    obtain ⟨s', gives'⟩ := settled {}
    obtain ⟨f, runs, done, gives⟩ := Fusion.fuseChains_runs consistent start stop {}
    have same : f.query = q := gives.unique gives'
    obtain ⟨kept, ended⟩ := runs.kept consistent ⟨by simp, by simp⟩ fun _ => by simp
    have none : f.absorbed = [] := runs.absorbed_eq consistent (by rw [same])
    exact same ▸ kept.stalled (runs.consistent consistent) done (ended none)
  · intro stalled s
    obtain ⟨f, runs, -, gives⟩ := Fusion.fuseChains_runs consistent start stop s
    have same : f.query = q := runs.query_eq consistent stalled
    exact ⟨f.session, same ▸ gives⟩

/-- Fusing the chains of a query ends with each link on a ring or in a chain that has all links of one
left alone. The query that it gives is settled if no end of a chain left alone has become a link,
which takes that a conjunction was absorbed and that some node hands on more than it takes. -/
theorem fuseChains_settles (obtained : Builder.Obtained q.graph) (start stop : Node) (s : Session) :
    ∃ f, Fusion.Runs start stop ⟨q, s, [], [], []⟩ f ∧
      (q.fuseChains start stop).Gives s f.query f.session ∧
      (f.query.Settled start stop ↔ f.query.Stalled start stop) ∧
      (∀ d ∈ f.refused, Chain.Stands f.query start stop d ∧ ¬ d.Fits) ∧
      (∀ n, f.query.isLink start stop n = true → f.query.OnRing start stop n ∨
        ∃ c, Chain.Found f.query start stop c ∧ n ∈ c.interior ∧
          ∃ d ∈ f.refused, d.interior ⊆ c.interior) ∧
      ((∀ d ∈ f.refused, f.query.isLink start stop d.entry = false ∧
        f.query.isLink start stop d.exit = false) → f.query.Settled start stop) ∧
      (f.absorbed = [] → f.query.Settled start stop) ∧
      ((∀ n ∈ q.nodes, n.outputType.accepts n.inputType = true) →
        f.query.Settled start stop) := by
  have consistent := obtained.consistent
  obtain ⟨f, runs, done, gives⟩ := Fusion.fuseChains_runs consistent start stop s
  have consistent' := runs.consistent consistent
  obtain ⟨kept, ended⟩ := runs.kept consistent ⟨by simp, by simp⟩ fun _ => by simp
  have settles (ends : ∀ d ∈ f.refused, f.query.isLink start stop d.entry = false ∧
      f.query.isLink start stop d.exit = false) : f.query.Settled start stop :=
    (settled_iff consistent').mpr (kept.stalled consistent' done ends)
  refine ⟨f, runs, gives, settled_iff consistent', fun d refused => ?_,
    fun n link => kept.links consistent' done link, settles, fun none => settles (ended none),
    fun narrow => settles ?_⟩
  · obtain ⟨stands, misfits, -⟩ := kept.stands d refused
    exact ⟨stands, misfits⟩
  · have none : f.refused = [] := runs.refused_eq consistent obtained.scripted narrow
    simp [none]

/-! A query that is not settled when its chains are fused once -/

namespace Detour

/-- Where the ways fork. -/
def fork : Node := .plain 0 "fork" (.kind .int64)

/-- Where they meet. -/
def join : Node := .plain 1 "join" .any

/-- A link that takes anything and hands on numbers. -/
def gate : Node := ⟨2, "gate", .any, .kind .int64, false⟩

/-- Where the selection ends. -/
def goal : Node := .plain 3 "goal" (.kind .int64)

/-- A link on the way. -/
def left : Node := .plain 4 "left" (.kind .int64)

/-- A link on the other way. -/
def right : Node := .plain 5 "right" (.kind .int64)

/-- The arcs, each with the type of the items that its filter lets pass. -/
def ways : List (Arc × ItemType) :=
  [(⟨fork, left⟩, .kind .int64), (⟨left, join⟩, .kind .int64), (⟨fork, right⟩, .kind .int64),
    (⟨right, join⟩, .kind .int64), (⟨join, gate⟩, .any), (⟨gate, goal⟩, .kind .int64)]

/-- Two ways of equal filters lead to a chain that does not fit where they meet. -/
def query : Query where
  id := 0
  graph := ways.foldl (fun b way => (Builder.offer b way.1 (.filter (.anything way.2))).1)
    ([fork, join, gate, goal, left, right].foldl Graph.addNode Graph.empty)

theorem obtained : Builder.Obtained query.graph := by
  have nodes (ns : List Node) : Builder.Obtained (ns.foldl Graph.addNode Graph.empty) :=
    List.foldlRecOn (motive := Builder.Obtained) ns _ .new fun _ obtained n _ => obtained.addNode n
  exact List.foldlRecOn (motive := Builder.Obtained) ways _
    (nodes [fork, join, gate, goal, left, right])
    fun _ obtained way _ => obtained.addArc way.1 (.filter (.anything way.2))

/-- Fuses the chains of the query, and then those of the result. -/
def fuseTwice : SessionM (Query × Query) := do
  let q₁ ← query.fuseChains fork goal
  let q₂ ← q₁.fuseChains fork goal
  return (q₁, q₂)

theorem nodes_fuseTwice : (fuseTwice.run ⟨6, 1, #[]⟩).map
    (fun p => p.1.toOption.map fun (q₁, q₂) => (q₁.nodes, q₂.nodes)) =
      some (some ([fork, join, gate, goal], [fork, goal])) := by
  cbv

/-- What the first run makes of the query changes when its chains are fused. -/
theorem fuseChains_again : ∃ q₁ s₁ q₂ s₂, (query.fuseChains fork goal).Gives ⟨6, 1, #[]⟩ q₁ s₁ ∧
    (q₁.fuseChains fork goal).Gives s₁ q₂ s₂ ∧ q₁.nodes = [fork, join, gate, goal] ∧
    q₂.nodes = [fork, goal] ∧ ¬ q₁.Settled fork goal := by
  obtain ⟨⟨q₁, q₂⟩, s₂, ran, nodes⟩ := SessionM.exists_gives_of_seen nodes_fuseTwice
  obtain ⟨_, s₁, gives, rest⟩ := ran.of_bind
  obtain ⟨_, s₂, gives', done⟩ := rest.of_bind
  cases done.of_pure
  obtain ⟨nodes₁, nodes₂⟩ := Prod.mk.inj nodes
  refine ⟨q₁, s₁, q₂, s₂, gives, gives', nodes₁, nodes₂, fun settled => ?_⟩
  obtain ⟨s', unchanged⟩ := settled s₁
  have same := congrArg Query.nodes (gives'.unique unchanged)
  rw [nodes₁, nodes₂] at same
  cases same

/-- Both ways are fused. As the result is not settled, a conjunction was absorbed, and an end of the
chain that was left alone has become a link. -/
theorem fuseChains_settles_detour : ∃ f, Fusion.Runs fork goal ⟨query, ⟨6, 1, #[]⟩, [], [], []⟩ f ∧
    (query.fuseChains fork goal).Gives ⟨6, 1, #[]⟩ f.query f.session ∧
    f.query.nodes = [fork, join, gate, goal] ∧ f.absorbed ≠ [] ∧
    ∃ d ∈ f.refused, Chain.Stands f.query fork goal d ∧ ¬ d.Fits ∧
      (f.query.isLink fork goal d.entry = true ∨ f.query.isLink fork goal d.exit = true) := by
  obtain ⟨f, runs, gives, -, refused, -, ends, absorbs, -⟩ :=
    fuseChains_settles obtained fork goal ⟨6, 1, #[]⟩
  obtain ⟨q₁, s₁, -, -, gives', -, nodes, -, unsettled⟩ := fuseChains_again
  obtain rfl := gives.unique gives'
  obtain ⟨d, left, link⟩ : ∃ d ∈ f.refused,
      f.query.isLink fork goal d.entry = true ∨ f.query.isLink fork goal d.exit = true := by
    by_contra none
    refine unsettled (ends fun d left => ?_)
    simpa using fun link => none ⟨d, left, link⟩
  obtain ⟨stands, misfits⟩ := refused d left
  exact ⟨f, runs, gives, nodes, fun none => unsettled (absorbs none), d, left, stands, misfits, link⟩

/-- The chain through the gate is left alone, as what leaves the join does not suit the goal. Then both
ways are fused, and one of the two equal conjunctions is left out, so that the join is a link. But only
when the chains of the result are fused does the way lead from the fork to the goal. -/
theorem fuseChains_unsettled : Builder.Obtained query.graph ∧ ∃ q₁ s₁ q₂ s₂,
    (query.fuseChains fork goal).Gives ⟨6, 1, #[]⟩ q₁ s₁ ∧
      (q₁.fuseChains fork goal).Gives s₁ q₂ s₂ ∧ q₁.nodes = [fork, join, gate, goal] ∧
      q₂.nodes = [fork, goal] ∧ ¬ q₁.Settled fork goal :=
  ⟨obtained, fuseChains_again⟩

end Detour

end Query

end GraphQuery
