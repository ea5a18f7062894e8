import GraphQuery.Proofs.Mappings
import GraphQuery.Proofs.Rewriting
import GraphQuery.Proofs.Sessions
import GraphQuery.Rewrite.Reachability
import GraphQuery.Proofs.Halting
import Mathlib.Order.Interval.Finset.Nat
/-!
# Reachable positions

The selection that finds the positions reachable from a node ends with exactly these. Its frames form
a single chain along which the sets of positions grow, so there are no more of them than nodes, and
the frames that the selection may nest suffice.
-/

namespace GraphQuery

namespace Query

variable {q : Query} {d : Direction} {id : QueryId} {m n o : Node}

/-- One arc leads from a node to another. -/
def Near (q : Query) (d : Direction) (m n : Node) : Prop :=
  n ∈ q.neighbours d m

theorem near_forward (consistent : q.graph.Consistent) :
    q.Near .forward m n ↔ ⟨m, n⟩ ∈ q.graph.arcs := by
  simp only [Near, neighbours, List.mem_map, consistent.mem_arcsFrom]
  constructor
  · rintro ⟨⟨source, target⟩, ⟨known, rfl⟩, rfl⟩
    exact known
  · exact fun known => ⟨⟨m, n⟩, ⟨known, rfl⟩, rfl⟩

theorem near_backward (consistent : q.graph.Consistent) :
    q.Near .backward m n ↔ ⟨n, m⟩ ∈ q.graph.arcs := by
  simp only [Near, neighbours, List.mem_map, consistent.mem_arcsTo]
  constructor
  · rintro ⟨⟨source, target⟩, ⟨known, rfl⟩, rfl⟩
    exact known
  · exact fun known => ⟨⟨n, m⟩, ⟨known, rfl⟩, rfl⟩

/-- What is near a node belongs to the query. -/
theorem Near.mem_nodes (consistent : q.graph.Consistent) (near : q.Near d m n) : n ∈ q.nodes := by
  cases d with
  | forward => exact (consistent.endpoints _ ((near_forward consistent).mp near)).2
  | backward => exact (consistent.endpoints _ ((near_backward consistent).mp near)).1

/-- The content of a node as part of a query. -/
def place (q : Query) (n : Node) : Content :=
  .atom (.position q.id n)

theorem content_position (q : Query) (n : Node) : (q.position n).content = q.place n := rfl

theorem place_injective (q : Query) : Function.Injective q.place := by
  intro m n same
  injection same with same
  injection same

theorem eq_position {x : Item} (content : x.content = q.place n) : x = q.position n :=
  Item.eq_atom_of_content content

/-- The mapping that takes each position to those one step away. -/
def stepMapping (q : Query) (d : Direction) : Mapping :=
  .typed 0 (match d with | .forward => "successors" | .backward => "predecessors") (q.nearby d)

/-- The query with a single node, at which positions circle. -/
def circling (q : Query) (d : Direction) (id : QueryId) (n : Node) : Query :=
  Builder.build (Graph.addLabel Graph.empty ⟨n, n⟩ (Operation.follow (.map (q.stepMapping d)))) id

theorem stepping_eq_ok (q : Query) (d : Direction) (id : QueryId) (number : NodeId) :
    q.stepping d id (.plain number "position" (Datum.itemType Position)) =
      .ok (q.circling d id (.plain number "position" (Datum.itemType Position))) := by
  cases d <;> rfl

theorem mem_contents_map_position {t : ItemSet} {c : Content}
    (mapped : (q.stepMapping d).map (q.position m) = .ok t) :
    c ∈ t.contents ↔ c = q.place m ∨ ∃ n, q.Near d m n ∧ c = q.place n := by
  have known : (q.stepMapping d).map (q.position m) =
      .ok (.ofList ((q.nearby d ⟨q.id, m⟩).map Datum.toItem) (Datum.itemType Position)) := rfl
  rw [known] at mapped
  obtain rfl := Except.ok.inj mapped
  simp only [ItemSet.mem_contents_ofList, nearby, List.mem_map, List.mem_append, List.mem_singleton]
  constructor
  · rintro ⟨_, ⟨p, ⟨n, near, rfl⟩ | rfl, rfl⟩, rfl⟩
    · exact .inr ⟨n, near, rfl⟩
    · exact .inl rfl
  · rintro (rfl | ⟨n, near, rfl⟩)
    · exact ⟨_, ⟨_, .inr rfl, rfl⟩, rfl⟩
    · exact ⟨_, ⟨_, .inl ⟨n, near, rfl⟩, rfl⟩, rfl⟩

theorem exists_map_position (q : Query) (d : Direction) (m : Node) :
    ∃ t, (q.stepMapping d).map (q.position m) = .ok t :=
  ⟨.ofList ((q.nearby d ⟨q.id, m⟩).map Datum.toItem) (Datum.itemType Position), rfl⟩

theorem isPure_step (q : Query) (d : Direction) :
    (Operation.follow (.map (q.stepMapping d))).IsPure := by
  refine Mapping.isPure_map fun x y same => ?_
  obtain rfl | ⟨t, u, rfl, rfl⟩ := Item.eq_or_tuple_of_content (Item.beq_iff.mp same)
  · exact .refl _
  · exact .error _ _

/-! The query at whose only node positions circle -/

section circling

theorem mem_operations_circling {op : Operation} :
    op ∈ (q.circling d id n).operations ↔ op = .follow (.map (q.stepMapping d)) :=
  mem_operations_single

theorem mem_steps_circling {a : Arc} {op : Operation} : (a, op) ∈ (q.circling d id n).steps m ↔
    m = n ∧ a = ⟨n, n⟩ ∧ op = .follow (.map (q.stepMapping d)) :=
  mem_steps_single

theorem flat_circling (q : Query) (d : Direction) (id : QueryId) (n : Node) :
    (q.circling d id n).Flat := by
  intro op listed
  rw [mem_operations_circling.mp listed]
  rfl

theorem isPure_circling (q : Query) (d : Direction) (id : QueryId) (n : Node) :
    (q.circling d id n).IsPure := by
  intro r within op listed
  rw [(q.flat_circling d id n).eq_of_within within] at listed
  exact mem_operations_circling.mp listed ▸ isPure_step q d

end circling

/-- A spot of the circling query at which all items are positions that can be reached from one, which
is there too. -/
structure Frontier (q : Query) (d : Direction) (n o : Node) (k : Spot) : Prop where
  start : k.start = n
  stop : k.stop = n
  itemType : k.items.itemType = Datum.itemType Position
  origin : q.place o ∈ k.items.contents
  reached : ∀ c ∈ k.items.contents, ∃ m, Relation.ReflTransGen (q.Near d) o m ∧ c = q.place m

namespace Frontier

variable {k k' : Spot} (frontier : q.Frontier d n o k)

include frontier

/-- At a frontier, the positions are kept and those one step away are added. -/
theorem takes {a : Arc} {op : Operation} {r : Option (Except Error ItemSet)}
    (takes : (q.circling d id n).Takes k a op r) :
    ∃ t : ItemSet, r = some (.ok t) ∧ t.itemType = Datum.itemType Position ∧
      ∀ c, c ∈ t.contents ↔ c ∈ k.items.contents ∨
        ∃ m m', q.place m ∈ k.items.contents ∧ q.Near d m m' ∧ c = q.place m' := by
  obtain ⟨listed, s, same, -, results⟩ := takes
  obtain ⟨-, -, rfl⟩ := mem_steps_circling.mp listed
  obtain rfl := (Operation.results_of_done (Mapping.inquiry_eq_done _ s)).mp results
  have position {x : Item} (member : x ∈ s.items) :
      ∃ m, x = q.position m ∧ q.place m ∈ k.items.contents := by
    have content : x.content ∈ k.items.contents := by
      rw [← same]
      exact ItemSet.mem_essence.mpr (List.mem_map_of_mem member)
    obtain ⟨m, -, place⟩ := frontier.reached _ content
    exact ⟨m, eq_position place, place ▸ content⟩
  have listed {m : Node} (content : q.place m ∈ k.items.contents) : q.position m ∈ s.items := by
    rw [← same] at content
    obtain ⟨x, member, place⟩ := List.mem_map.mp (ItemSet.mem_essence.mp content)
    exact eq_position place ▸ member
  rcases (q.stepMapping d).outcome_cases s with ⟨t, passed, -, typed, found⟩ | ⟨e, -, x, member, failed⟩
  · refine ⟨t, congrArg some passed, typed, fun c => (found c).trans ⟨?_, ?_⟩⟩
    · rintro ⟨x, member, u, mapped, content⟩
      obtain ⟨m, rfl, place⟩ := position member
      rcases (mem_contents_map_position mapped).mp content with rfl | ⟨m', near, rfl⟩
      · exact .inl place
      · exact .inr ⟨m, m', place, near, rfl⟩
    · rintro (content | ⟨m, m', place, near, rfl⟩)
      · obtain ⟨m, -, rfl⟩ := frontier.reached c content
        obtain ⟨u, mapped⟩ := q.exists_map_position d m
        exact ⟨_, listed content, u, mapped, (mem_contents_map_position mapped).mpr (.inl rfl)⟩
      · obtain ⟨u, mapped⟩ := q.exists_map_position d m
        exact ⟨_, listed place, u, mapped,
          (mem_contents_map_position mapped).mpr (.inr ⟨m', near, rfl⟩)⟩
  · obtain ⟨m, rfl, -⟩ := position member
    obtain ⟨u, mapped⟩ := q.exists_map_position d m
    rw [failed] at mapped
    cases mapped

theorem leads (leads : (q.circling d id n).Leads k k') : q.Frontier d n o k' ∧
    k.items.contents ⊆ k'.items.contents ∧
      ∀ m m', q.place m ∈ k.items.contents → q.Near d m m' → q.place m' ∈ k'.items.contents := by
  obtain ⟨a, op, reached, takes, -, rfl⟩ := leads
  obtain ⟨-, rfl, -⟩ := mem_steps_circling.mp takes.1
  obtain ⟨t, same, typed, found⟩ := frontier.takes takes
  obtain rfl := Except.ok.inj (Option.some.inj same)
  have kept {c : Content} (content : c ∈ k.items.contents) : c ∈ reached.essence.contents :=
    ItemSet.mem_essence.mpr ((found c).mpr (.inl content))
  refine ⟨⟨rfl, frontier.stop, typed, kept frontier.origin, fun c content => ?_⟩, fun c => kept,
    fun m m' place near => ItemSet.mem_essence.mpr ((found _).mpr (.inr ⟨m, m', place, near, rfl⟩))⟩
  rcases (found c).mp (ItemSet.mem_essence.mp content) with old | ⟨m, m', place, near, rfl⟩
  · exact frontier.reached c old
  · obtain ⟨m₀, reaches, same⟩ := frontier.reached _ place
    obtain rfl := q.place_injective same
    exact ⟨m', reaches.tail near, rfl⟩

theorem reaches (reaches : (q.circling d id n).Reaches k k') :
    q.Frontier d n o k' ∧ k.items.contents ⊆ k'.items.contents := by
  induction reaches with
  | refl => exact ⟨frontier, Finset.Subset.refl _⟩
  | tail _ leads ih =>
    obtain ⟨there, grown, -⟩ := ih.1.leads leads
    exact ⟨there, ih.2.trans grown⟩

theorem exists_leads (filled : k.Filled) : ∃ k', (q.circling d id n).Leads k k' := by
  obtain ⟨s, same, nonempty⟩ := filled
  obtain ⟨r, results⟩ := Operation.Results.exists (.follow (.map (q.stepMapping d))) s
  have takes : (q.circling d id n).Takes k ⟨n, n⟩ _ r :=
    ⟨mem_steps_circling.mpr ⟨frontier.start, rfl, rfl⟩, s, same, nonempty, results⟩
  obtain ⟨t, rfl, -, found⟩ := frontier.takes takes
  have kept : q.place o ∈ t.essence.contents :=
    ItemSet.mem_essence.mpr ((found _).mpr (.inl frontier.origin))
  exact ⟨_, _, _, t, takes, ItemSet.isEmpty_eq_false_iff.mpr ⟨_, kept⟩, rfl⟩

/-- The positions that arrive are those that can be reached. -/
theorem gathers_iff (filled : k.Filled) {c : Content} : (q.circling d id n).Gathers k c ↔
    ∃ m, Relation.ReflTransGen (q.Near d) o m ∧ c = q.place m := by
  constructor
  · rintro ⟨k', reaches, -, content⟩
    exact (frontier.reaches reaches).1.reached c content
  · rintro ⟨m, reaches, rfl⟩
    suffices ∃ k', (q.circling d id n).Reaches k k' ∧ k'.Filled ∧ q.place m ∈ k'.items.contents by
      obtain ⟨k', reaches, -, content⟩ := this
      have there := (frontier.reaches reaches).1
      exact ⟨k', reaches, there.start.trans there.stop.symm, content⟩
    induction reaches with
    | refl => exact ⟨k, .refl _ k, filled, frontier.origin⟩
    | @tail m m' _ near ih =>
      obtain ⟨k', reaches, filled', place⟩ := ih
      have there := (frontier.reaches reaches).1
      obtain ⟨next, leads⟩ : ∃ next, (q.circling d id n).Leads k' next := there.exists_leads filled'
      exact ⟨next, reaches.tail leads, leads.filled.2, (there.leads leads).2.2 m m' place near⟩

omit frontier in
/-- Only one step leads from a spot. -/
theorem rightUnique_leads : Relator.RightUnique (q.circling d id n).Leads := by
  rintro k k₁ k₂ ⟨a, op, t, takes, -, rfl⟩ ⟨a', op', t', takes', -, rfl⟩
  obtain ⟨-, rfl, rfl⟩ := mem_steps_circling.mp takes.1
  obtain ⟨-, rfl, rfl⟩ := mem_steps_circling.mp takes'.1
  obtain ⟨u, same, equal⟩ := takes.only (isPure_circling q d id n).isStable takes'
  obtain rfl := Except.ok.inj (Option.some.inj same)
  rw [equal]

/-- Spots met on the way are the same if they hold equally many positions. -/
theorem eq_of_card_eq {k₁ k₂ : Spot} (reaches₁ : (q.circling d id n).Reaches k k₁)
    (reaches₂ : (q.circling d id n).Reaches k k₂)
    (card : k₁.items.contents.card = k₂.items.contents.card) : k₁ = k₂ := by
  have ordered {k₁ k₂ : Spot} (reaches₁ : (q.circling d id n).Reaches k k₁)
      (card : k₁.items.contents.card = k₂.items.contents.card)
      (between : (q.circling d id n).Reaches k₁ k₂) : k₁ = k₂ := by
    have there := (frontier.reaches reaches₁).1
    obtain ⟨there', grown⟩ := there.reaches between
    have contents := Finset.eq_of_subset_of_card_le grown card.ge
    have items : k₁.items = k₂.items :=
      congrArg₂ ItemSet.Essence.mk (there.itemType.trans there'.itemType.symm) contents
    have query : k₂.query = k₁.query := Reaches.query between
    exact congr (congr (congr (congrArg Spot.mk query.symm) (there.start.trans there'.start.symm))
      (there.stop.trans there'.stop.symm)) items
  rcases Relation.ReflTransGen.total_of_right_unique rightUnique_leads reaches₁ reaches₂ with
    between | between
  · exact ordered reaches₁ card between
  · exact (ordered reaches₂ card.symm between).symm

/-- There are no more spots on the way than nodes and the first position. -/
theorem ncard_reaches_le (consistent : q.graph.Consistent) :
    {k' | (q.circling d id n).Reaches k k'}.Finite ∧
      {k' | (q.circling d id n).Reaches k k'}.ncard ≤ q.nodes.length + 1 := by
  classical
  have bounded {k' : Spot} (reaches : (q.circling d id n).Reaches k k') :
      k'.items.contents.card ∈ Finset.Icc 1 (q.nodes.length + 1) := by
    have there := (frontier.reaches reaches).1
    rw [Finset.mem_Icc]
    refine ⟨Finset.card_pos.mpr ⟨_, there.origin⟩, ?_⟩
    have inside : k'.items.contents ⊆ ((o :: q.nodes).map q.place).toFinset := by
      intro c content
      obtain ⟨m, reaches, rfl⟩ := there.reached c content
      refine List.mem_toFinset.mpr (List.mem_map_of_mem ?_)
      rcases reaches.cases_tail with rfl | ⟨m', -, near⟩
      · exact List.mem_cons_self
      · exact List.mem_cons_of_mem o (near.mem_nodes consistent)
    calc k'.items.contents.card
      _ ≤ ((o :: q.nodes).map q.place).toFinset.card := Finset.card_le_card inside
      _ ≤ ((o :: q.nodes).map q.place).length := List.toFinset_card_le _
      _ = q.nodes.length + 1 := by simp
  have injective : Set.InjOn (fun k' : Spot => k'.items.contents.card)
      {k' | (q.circling d id n).Reaches k k'} :=
    fun k₁ reaches₁ k₂ reaches₂ card => frontier.eq_of_card_eq reaches₁ reaches₂ card
  have maps : Set.MapsTo (fun k' : Spot => k'.items.contents.card)
      {k' | (q.circling d id n).Reaches k k'} (Finset.Icc 1 (q.nodes.length + 1)) :=
    fun k' reaches => Finset.mem_coe.mpr (bounded reaches)
  refine ⟨Set.Finite.of_injOn maps injective (Finset.finite_toSet _), ?_⟩
  have le := Set.ncard_le_ncard_of_injOn _ maps injective (Finset.finite_toSet _)
  rwa [Set.ncard_coe_finset, Nat.card_Icc, Nat.add_sub_cancel] at le

/-- Nothing goes wrong on the way. -/
theorem takes_ok {k' : Spot} {a : Arc} {op : Operation} {r : Option (Except Error ItemSet)}
    (reaches : (q.circling d id n).Reaches k k') (takes : (q.circling d id n).Takes k' a op r) :
    ∃ t, r = some (.ok t) := by
  obtain ⟨t, same, -⟩ := (frontier.reaches reaches).1.takes takes
  exact ⟨t, same⟩

end Frontier

open Evaluator EvalM in
/-- The selection among positions ends with the positions that can be reached. -/
theorem select_circling (consistent : q.graph.Consistent) (d : Direction) (id : QueryId)
    (n o : Node) : ∃ found ev,
      (Evaluator.select (q.nodes.length + 2) (q.circling d id n) n n
        (.singleton (q.position o) (Datum.itemType Position))).Ends (.fresh true) (.ok found) ev ∧
      ∀ c, c ∈ found.contents ↔ ∃ m, Relation.ReflTransGen (q.Near d) o m ∧ c = q.place m := by
  have lib := Library.of_queries (q.flat_circling d id n).numbered fun r same =>
    Set.mem_singleton_iff.mp same ▸ isPure_circling q d id n
  have member : q.circling d id n ∈ {r | ∃ p ∈ ({q.circling d id n} : Set Query), p.Within r} :=
    ⟨_, rfl, .refl⟩
  have known := understood lib member
  let f : Frame := ⟨id, n, n, .singleton (q.position o) (Datum.itemType Position)⟩
  have frontier : q.Frontier d n o f.spot := by
    refine ⟨rfl, rfl, rfl, ItemSet.mem_essence.mpr List.mem_cons_self, fun c content => ?_⟩
    exact ⟨o, .refl, List.mem_singleton.mp (ItemSet.mem_essence.mp content)⟩
  have filled : f.spot.Filled := ⟨f.items, rfl, rfl⟩
  obtain ⟨finite, few⟩ : {k | (q.circling d id n).Reaches f.spot k}.Finite ∧
      {k | (q.circling d id n).Reaches f.spot k}.ncard ≤ q.nodes.length + 1 :=
    frontier.ncard_reaches_le consistent
  have announced := sameBut_announce (q.circling d id n) n n f.items (.fresh true)
  have coherent := (coherent_fresh {r | ∃ p ∈ ({q.circling d id n} : Set Query), p.Within r}
    true).of_sameBut announced
  have clear := (clear_fresh (q.circling d id n) true).extends announced.extends
  -- the operation nests no frames, so there are at most as many as spots
  have ending : Ending {r | ∃ p ∈ ({q.circling d id n} : Set Query), p.Within r}
      (q.circling d id n) False (some 0) 0 := by
    intro op listed ev items _ _ _
    refine ⟨0, fun _ _ => Nat.zero_le _, Halts.resolves ?_ not_false⟩
    rw [mem_operations_circling.mp listed, Operation.apply_eq_run, Mapping.inquiry_eq_done]
    exact (ends_ofOutcome.mpr ⟨rfl, rfl⟩).halts
  obtain ⟨m, fits, r, ev', ends, -⟩ := visit_resolves lib.collection member known.applies False (some 0)
    finite (fun k reaches k' leads => reaches.tail leads)
    (fun k reaches a op r takes => by
      obtain ⟨t, rfl⟩ := frontier.takes_ok reaches takes
      exact ⟨_, rfl, False.elim⟩)
    ending (f := f) (m := q.nodes.length + 2) (clear.able coherent) rfl rfl (.refl _ f.spot)
    ((Set.ncard_le_ncard Set.sdiff_subset finite).trans_lt (Nat.lt_succ_of_le few))
  have enough : m ≤ q.nodes.length + 2 := Nat.zero_add (q.nodes.length + 2) ▸ fits 0 rfl
  have ends := visit_refines enough _ _ _ _ ends
  obtain ⟨-, -, ⟨reach, rfl, selects⟩ | ⟨e, -, dooms⟩⟩ :=
    visit_clear lib.collection member known (f := f) rfl rfl coherent.toTruthful clear ends
  · refine ⟨reach.items, _, (selectBy_ends _).mpr ⟨_, _, ends, rfl, rfl⟩, fun c => ?_⟩
    exact (selects.contents c).trans (frontier.gathers_iff filled)
  · obtain ⟨k, reaches, a, op, e', takes⟩ := dooms ⟨lib, coherent.unlimited⟩
    obtain ⟨t, contra⟩ := frontier.takes_ok reaches takes
    cases contra

/-- In any session, the positions that can be reached are found. -/
theorem reachable_gives (consistent : q.graph.Consistent) (d : Direction) (o : Node) (s : Session) :
    ∃ found s', (q.reachable d o).Gives s found s' ∧ s.nextQuery ≤ s'.nextQuery ∧
      ∀ c, c ∈ found.contents ↔ ∃ m, Relation.ReflTransGen (q.Near d) o m ∧ c = q.place m := by
  obtain ⟨found, ev, ends, content⟩ := select_circling consistent d s.nextQuery
    (.plain s.nextNode "position" (Datum.itemType Position)) o
  have gives : (q.reachable d o).Gives s found
      ⟨s.nextNode + 1, s.nextQuery + 1, s.events ++ ev.events⟩ := by
    refine (SessionM.gives_freshNode s).bind ((SessionM.gives_freshQuery _).bind ?_)
    rw [stepping_eq_ok]
    exact (SessionM.gives_ofOutcome _ _).bind (SessionM.gives_select ends _)
  exact ⟨found, _, gives, Nat.le_succ s.nextQuery, content⟩

end Query

end GraphQuery
