import GraphQuery.Proofs.Shortcuts
/-!
# Rounds of fusing

Fusing the chains of a query takes rounds: in each, a chain that touches no node left alone is found,
and it is fused, or left alone if its conjunction does not fit between its ends. Each round removes a
node or leaves one more alone, of those not left alone before, so the rounds come to an end, at which
no such chain is left.
-/

namespace GraphQuery

open Relation

/-- How far the chains of a query are fused. -/
structure Fusion where
  query : Query
  session : Session
  /-- The nodes left alone. -/
  stuck : List Node := []
  /-- The chains left alone so far. -/
  refused : List Chain := []
  /-- The chains fused so far of which the conjunction was absorbed. -/
  absorbed : List Chain := []

namespace Fusion

variable {start stop : Node} {f f' : Fusion}

/-- A round of fusing. -/
inductive Round (start stop : Node) : Fusion → Fusion → Prop
  | fuse {f : Fusion} {c : Chain} {stuck : List Node} {b : Builder}
    (finds : Chain.find f.query start stop f.stuck = (some c, stuck))
    (fuses : c.fuse f.query = .ok b) :
    Round start stop f {
      query := b.build f.session.nextQuery
      session := { f.session with
        nextQuery := f.session.nextQuery + 1
        events := f.session.events.push (.fused c.entry c.exit c.filters.length) }
      stuck
      refused := f.refused
      absorbed := if c.Absorbed f.query then c :: f.absorbed else f.absorbed }
  | refuse {f : Fusion} {c : Chain} {stuck : List Node} {e : Error}
    (finds : Chain.find f.query start stop f.stuck = (some c, stuck))
    (fails : c.fuse f.query = .error e) (mismatch : e.isTypeMismatch = true) :
    Round start stop f { f with stuck := c.interior ++ stuck, refused := c :: f.refused }

/-- Rounds, one after another. -/
abbrev Runs (start stop : Node) : Fusion → Fusion → Prop :=
  ReflTransGen (Round start stop)

/-- No chain is left that touches no node left alone. -/
def Done (start stop : Node) (f : Fusion) : Prop :=
  (Chain.find f.query start stop f.stuck).1 = none

/-- What a round does, in terms of the query only. -/
theorem Round.cases (consistent : f.query.graph.Consistent) (round : Round start stop f f') :
    ∃ c stuck, Chain.Found f.query start stop c ∧ (∀ n ∈ c.interior, n ∉ stuck) ∧
      f.stuck ⊆ stuck ∧ (∀ n ∈ stuck, n ∈ f.stuck ∨ f.query.OnRing start stop n) ∧
      (c.Fits ∧ f'.query = (c.fused f.query).build f.session.nextQuery ∧ f'.stuck = stuck ∧
          f'.session.nextQuery = f.session.nextQuery + 1 ∧ f'.refused = f.refused ∧
          f'.absorbed = (if c.Absorbed f.query then c :: f.absorbed else f.absorbed) ∨
        ¬ c.Fits ∧ f'.query = f.query ∧ f'.stuck = c.interior ++ stuck ∧
          f'.session = f.session ∧ f'.refused = c :: f.refused ∧ f'.absorbed = f.absorbed) := by
  have stands {c : Chain} {stuck : List Node}
      (finds : Chain.find f.query start stop f.stuck = (some c, stuck)) :
      Chain.Found f.query start stop c ∧ (∀ n ∈ c.interior, n ∉ stuck) ∧ f.stuck ⊆ stuck ∧
        ∀ n ∈ stuck, n ∈ f.stuck ∨ f.query.OnRing start stop n := by
    have searches := (Chain.searches_iff consistent).mpr finds
    obtain ⟨⟨first, startsAt⟩, apart⟩ := searches.startsAt consistent
    obtain ⟨sub, rings⟩ := searches.left consistent
    exact ⟨(startsAt.found consistent).1, apart, sub, rings⟩
  cases round with
  | @fuse c stuck b finds fuses =>
    obtain ⟨fits, rfl⟩ := Chain.fuse_eq_ok.mp fuses
    obtain ⟨found, apart, sub, rings⟩ := stands finds
    exact ⟨c, stuck, found, apart, sub, rings, .inl ⟨fits, rfl, rfl, rfl, rfl, rfl⟩⟩
  | @refuse c stuck e finds fails mismatch =>
    obtain ⟨found, apart, sub, rings⟩ := stands finds
    refine ⟨c, stuck, found, apart, sub, rings, .inr ⟨fun fits => ?_, rfl, rfl, rfl, rfl, rfl⟩⟩
    rw [Chain.fuse_eq_ok.mpr ⟨fits, rfl⟩] at fails
    cases fails

theorem Round.consistent (consistent : f.query.graph.Consistent) (round : Round start stop f f') :
    f'.query.graph.Consistent := by
  obtain ⟨c, -, -, -, -, -, ⟨-, query, -⟩ | ⟨-, query, -⟩⟩ := round.cases consistent
  · exact query ▸ Chain.consistent_fused consistent c
  · exact query ▸ consistent

theorem Runs.consistent (consistent : f.query.graph.Consistent) (runs : Runs start stop f f') :
    f'.query.graph.Consistent := by
  induction runs with
  | refl => exact consistent
  | tail _ round ih => exact round.consistent ih

/-- A round removes a node of those not left alone, or leaves the query as it is and one of them
alone. -/
theorem Round.progress (consistent : f.query.graph.Consistent) (round : Round start stop f f') :
    f'.query.nodes.Sublist f.query.nodes ∧ f.stuck ⊆ f'.stuck ∧
      ∃ n ∈ f.query.nodes, n ∉ f.stuck ∧
        (n ∉ f'.query.nodes ∨ f'.query = f.query ∧ n ∈ f'.stuck) := by
  obtain ⟨c, stuck, found, apart, sub, -, ⟨-, query, left, -⟩ | ⟨-, query, left, -⟩⟩ :=
    round.cases consistent
  all_goals
    obtain ⟨n, inside⟩ := List.exists_mem_of_ne_nil _ found.filled
    have known := Chain.mem_nodes_of_isLink consistent (found.links n inside)
    have free : n ∉ f.stuck := fun again => apart n inside (sub again)
  · have nodes : f'.query.nodes = f.query.nodes.filter (· ∉ c.interior) :=
      query ▸ Chain.nodes_fused consistent found
    refine ⟨nodes ▸ List.filter_sublist, left ▸ sub, n, known, free, .inl ?_⟩
    rw [nodes, List.mem_filter, decide_eq_true_eq]
    exact fun kept => kept.2 inside
  · refine ⟨query ▸ List.Sublist.refl _, left ▸ List.subset_append_of_subset_right _ sub, n, known,
      free, .inr ⟨query, left ▸ List.mem_append_left _ inside⟩⟩

/-- The nodes not left alone get fewer. -/
theorem Round.card_lt (consistent : f.query.graph.Consistent) (round : Round start stop f f') :
    (f'.query.nodes.toFinset \ f'.stuck.toFinset).card <
      (f.query.nodes.toFinset \ f.stuck.toFinset).card := by
  obtain ⟨nodes, stuck, n, known, free, gone⟩ := round.progress consistent
  refine Finset.card_lt_card (Finset.ssubset_iff_of_subset ?_ |>.mpr ⟨n, ?_, ?_⟩)
  · intro m member
    simp only [Finset.mem_sdiff, List.mem_toFinset] at member ⊢
    exact ⟨nodes.subset member.1, fun again => member.2 (stuck again)⟩
  · simp only [Finset.mem_sdiff, List.mem_toFinset]
    exact ⟨known, free⟩
  · simp only [Finset.mem_sdiff, List.mem_toFinset, not_and, not_not]
    exact fun kept => gone.elim (absurd kept) And.right

theorem Runs.sublist (consistent : f.query.graph.Consistent) (runs : Runs start stop f f') :
    f'.query.nodes.Sublist f.query.nodes := by
  induction runs with
  | refl => exact .refl _
  | tail runs round ih => exact (round.progress (Runs.consistent consistent runs)).1.trans ih

/-- If more rounds are allowed than there are nodes not left alone, fusing runs until it is done. -/
theorem fuseFrom_runs {fuel : Nat} (consistent : f.query.graph.Consistent)
    (enough : (f.query.nodes.toFinset \ f.stuck.toFinset).card < fuel) :
    ∃ f', Runs start stop f f' ∧ f'.Done start stop ∧
      (Query.fuseFrom start stop fuel f.stuck f.query).Gives f.session f'.query f'.session := by
  induction fuel generalizing f with
  | zero => exact absurd enough (Nat.not_lt_zero _)
  | succ fuel ih =>
    have further {f' : Fusion} (round : Round start stop f f') :=
      ih (round.consistent consistent)
        ((round.card_lt consistent).trans_le (Nat.le_of_lt_succ enough))
    unfold Query.fuseFrom
    split
    · next stuck finds =>
      exact ⟨f, .refl, congrArg Prod.fst finds, SessionM.gives_pure _ _⟩
    · next c stuck finds =>
      rcases c.fuse_cases f.query with ⟨-, fuses⟩ | ⟨-, e, fails, mismatch⟩
      · obtain ⟨f', runs, done, gives⟩ := further (.fuse finds fuses)
        refine ⟨f', runs.head (.fuse finds fuses), done, ?_⟩
        rw [fuses]
        exact (SessionM.gives_freshQuery f.session).bind ((SessionM.gives_report _ _).bind gives)
      · obtain ⟨f', runs, done, gives⟩ := further (.refuse finds fails mismatch)
        refine ⟨f', runs.head (.refuse finds fails mismatch), done, ?_⟩
        rw [fails]
        dsimp only
        rw [if_pos mismatch]
        exact gives

/-- The chains of a query are fused in rounds until none is left to fuse. -/
theorem fuseChains_runs {q : Query} (consistent : q.graph.Consistent) (start stop : Node)
    (s : Session) : ∃ f, Runs start stop ⟨q, s, [], [], []⟩ f ∧ f.Done start stop ∧
      (q.fuseChains start stop).Gives s f.query f.session := by
  refine fuseFrom_runs (f := ⟨q, s, [], [], []⟩) consistent ?_
  calc (q.nodes.toFinset \ ([] : List Node).toFinset).card
    _ ≤ q.nodes.toFinset.card := Finset.card_le_card Finset.sdiff_subset
    _ ≤ q.nodes.length := List.toFinset_card_le q.nodes
    _ < 2 * q.nodes.length + 1 := by omega

end Fusion

end GraphQuery
