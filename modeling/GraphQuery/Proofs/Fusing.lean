import GraphQuery.Proofs.Rounds
/-!
# Fusing a chain preserves what is selected

The arc that takes the place of a chain does at once what the chain does link by link. Going back from
what arrives at the end, whatever passed through links of the chain came from its entry, where the
fused arc leads to the same items; and if the arc has an equal filter already, that one does.
-/

namespace GraphQuery

namespace Chain

open Query

variable {q : Query} {start stop : Node} {c : Chain} {next : QueryId}

section run

variable {exit : Node} {a : Arc} {links : List Node} {fs : List Filter} {k : Spot} {t : ItemType}

/-- From a safe spot, a run leads to what all of its filters accept, and they decide on everything. -/
theorem Run.traverse (optimizable : q.Optimizable next) (run : Run q exit a links fs)
    (safe : q.Safe k) (here : k.start = a.source) (filled : k.Filled) :
    (∀ c ∈ k.items.contents, (Filter.every fs t).Decides c) ∧
      ((k.items.filter (Filter.every fs t).Accepts).contents.Nonempty →
        q.Reaches k { k with start := exit, items := k.items.filter (Filter.every fs t).Accepts }) := by
  have step {a : Arc} {f : Filter} {k : Spot} (filter : q.soleFilter? a = some f)
      (here : k.start = a.source) :
      f.isMergeable = true ∧ f.Agrees ∧ (a, Operation.filter f) ∈ q.steps k.start := by
    obtain ⟨label, mergeable⟩ := soleFilter?_eq_some filter
    have member : Operation.filter f ∈ q.graph.labels a := label ▸ List.mem_singleton_self _
    exact ⟨mergeable, optimizable.agrees (mem_operations_of_mem_labels member) mergeable,
      (mem_steps_iff optimizable.consistent).mpr ⟨here.symm, member⟩⟩
  induction run generalizing k with
  | @last a f ends filter =>
    obtain ⟨mergeable, agrees, listed⟩ := step filter here
    have decides := safe.decides mergeable listed filled
    have accepts : (Filter.every [f] t).Accepts = f.Accepts :=
      funext fun c => propext (Filter.accepts_every_singleton f t c)
    refine ⟨fun c member => Filter.decides_every_cons agrees (decides c member) ?_, fun further => ?_⟩
    · rintro ⟨x, same, -⟩
      exact ⟨x, true, same, rfl⟩
    · rw [accepts] at further ⊢
      exact .single (ends ▸ leads_filter mergeable agrees listed filled decides further)
  | @link a b links f fs before after filter rest ih =>
    obtain ⟨mergeable, agrees, listed⟩ := step filter here
    have decides := safe.decides mergeable listed filled
    have source := (soleOut?_eq_some optimizable.consistent after).2.1
    have onward (further : (k.items.filter f.Accepts).contents.Nonempty) :=
      leads_filter mergeable agrees listed filled decides further
    have rest (further : (k.items.filter f.Accepts).contents.Nonempty) :=
      ih (safe.of_reaches (.single (onward further))) source.symm (onward further).filled.2
    refine ⟨fun c member => Filter.decides_every_cons agrees (decides c member) fun accepted => ?_,
      fun further => ?_⟩
    · have member : c ∈ (k.items.filter f.Accepts).contents :=
        ItemSet.Essence.mem_filter.mpr ⟨member, accepted⟩
      exact (rest ⟨c, member⟩).1 c member
    · have accepts : (k.items.filter f.Accepts).filter (Filter.every fs t).Accepts =
          k.items.filter (Filter.every (f :: fs) t).Accepts := by
        rw [ItemSet.Essence.filter_filter]
        exact ItemSet.Essence.filter_congr fun c _ => (Filter.accepts_every_cons agrees).symm
      rw [← accepts] at further ⊢
      have first : (k.items.filter f.Accepts).contents.Nonempty := by
        obtain ⟨c, member⟩ := further
        exact ⟨c, (ItemSet.Essence.mem_filter.mp member).1⟩
      exact ((rest first).2 further).head (onward first)

end run

section fused

variable (optimizable : q.Optimizable next) (found : Found q start stop c)

include optimizable

include found

theorem conjoined_quiet : c.conjoined.isMergeable = true ∧ c.conjoined.Agrees ∧
    ∀ p ∈ c.conjoined.predicates, p ∈ q.predicates := by
  obtain ⟨a, -, run⟩ := found.run
  have quiet := run.filters
  refine ⟨Filter.isMergeable_conjunction (fun f member => (quiet f member).1) _,
    Filter.agrees_conjunction (fun f member => ?_) _, fun p tries => ?_⟩
  · exact optimizable.agrees (quiet f member).2 (quiet f member).1
  · obtain ⟨f, member, tries⟩ := Filter.mem_predicates_conjunction.mp tries
    exact ⟨f, (quiet f member).2, tries⟩

theorem optimizable_fused : ((c.fused q).build next).Optimizable (next + 1) := by
  obtain ⟨mergeable, agrees, predicates⟩ := conjoined_quiet optimizable found
  refine optimizable.rewrite (consistent_fused optimizable.consistent c) fun a op label => ?_
  rcases (mem_labels_fused optimizable.consistent found).mp label with ⟨old, -⟩ | ⟨-, rfl, -⟩
  · exact .inl (mem_operations_of_mem_labels old)
  · exact .inr ⟨_, rfl, mergeable, agrees, predicates⟩

variable {k : Spot} (safe : q.Safe k) (here : k.start = c.entry) (filled : k.Filled)

include safe here filled

/-- At the entry of a chain, its conjunction decides on everything, and what it accepts reaches the
exit. -/
theorem Found.traverse : (∀ x ∈ k.items.contents, c.conjoined.Decides x) ∧
    ((k.items.filter c.conjoined.Accepts).contents.Nonempty →
      q.Reaches k { k with start := c.exit, items := k.items.filter c.conjoined.Accepts }) := by
  obtain ⟨a, source, run⟩ := found.run
  have traverse := run.traverse (t := .any) optimizable safe (here.trans source.symm) filled
  have accepts : (Filter.every c.filters .any).Accepts = c.conjoined.Accepts :=
    funext fun x => propext (Filter.accepts_conjunction _ _ _ x).symm
  rw [accepts] at traverse
  exact ⟨fun x member => (Filter.decides_conjunction _ _ _ x).mpr (traverse.1 x member), traverse.2⟩

/-- In the fused query, what the conjunction accepts goes from the entry of the chain to its exit at
once: by the conjunction, or by a filter that equals it. -/
theorem Found.leads (further : (k.items.filter c.conjoined.Accepts).contents.Nonempty) :
    ((c.fused q).build next).Leads k
      { k with start := c.exit, items := k.items.filter c.conjoined.Accepts } := by
  obtain ⟨mergeable, agrees, predicates⟩ := conjoined_quiet optimizable found
  obtain ⟨decides, -⟩ := found.traverse optimizable safe here filled
  cases known : (q.graph.labels c.shortcut).any (· == Operation.filter c.conjoined) with
  | false =>
    have listed : (c.shortcut, Operation.filter c.conjoined) ∈
        ((c.fused q).build next).steps k.start :=
      (mem_steps_fused optimizable.consistent found).mpr (.inr ⟨here.symm, rfl, rfl, known⟩)
    exact leads_filter mergeable agrees listed filled decides further
  | true =>
    obtain ⟨op, label, equal⟩ := List.any_eq_true.mp known
    obtain ⟨g, rfl, equal⟩ : ∃ g, op = .filter g ∧ g.same c.conjoined = true := by
      cases op with
      | filter g => exact ⟨g, rfl, equal⟩
      | follow => cases equal
      | count => cases equal
    have equal := Filter.same_symm equal
    have listed' := mem_operations_of_mem_labels label
    have mergeable' := Filter.isMergeable_of_same equal mergeable
    have agrees' := optimizable.agrees listed' mergeable'
    have listed : (c.shortcut, Operation.filter g) ∈ q.steps k.start :=
      (mem_steps_iff optimizable.consistent).mpr ⟨here.symm, label⟩
    have decides' := safe.decides mergeable' listed filled
    have accepts : k.items.filter c.conjoined.Accepts = k.items.filter g.Accepts :=
      ItemSet.Essence.filter_congr fun x member =>
        Filter.accepts_iff_of_same optimizable.identified mergeable equal predicates
          (fun p tries => ⟨g, listed', tries⟩) agrees agrees' (decides x member) (decides' x member)
    have listed'' : (c.shortcut, Operation.filter g) ∈ ((c.fused q).build next).steps k.start :=
      (mem_steps_fused optimizable.consistent found).mpr (.inl ⟨listed, found.not_mem⟩)
    rw [accepts] at further ⊢
    exact leads_filter mergeable' agrees' listed'' filled decides' further

omit safe here filled

/-- What is reached off a chain is reached in the fused query too: from a spot off the chain, and from
a link as soon as the exit is reached. -/
theorem Found.reaches {k k' : Spot} (reaches : q.Reaches k k') (apart : k'.start ∉ c.interior)
    (safe : q.Safe k) :
    (k.start ∉ c.interior → ((c.fused q).build next).Reaches k k') ∧
      ∀ a links fs, Run q c.exit a links fs → links ⊆ c.interior → q.soleOut? k.start = some a →
        k.start ∈ c.interior → (k.items.filter (Filter.every fs .any).Accepts).contents.Nonempty ∧
          ((c.fused q).build next).Reaches
            { k with start := c.exit, items := k.items.filter (Filter.every fs .any).Accepts } k' := by
  -- Off the chain the fused query takes the same step, where a step enters the chain it takes the
  -- shortcut, and it stays at the exit while the steps within the chain are taken.
  induction reaches using Relation.ReflTransGen.head_induction_on with
  | refl => exact ⟨fun _ => .refl _ k', fun _ _ _ _ _ _ inside => (apart inside).elim⟩
  | @head k₁ k₂ leads rest ih =>
    have filled := leads.filled.1
    obtain ⟨off, along⟩ := ih (safe.of_reaches (.single leads))
    obtain ⟨a, op, reached, takes, further, rfl⟩ := leads
    obtain ⟨source, label⟩ := (mem_steps_iff optimizable.consistent).mp takes.1
    have known := optimizable.consistent.arcs_of_label label
    have filtered {f : Filter} (sole : q.soleFilter? a = some f) :
        f.Agrees ∧ reached.essence = k₁.items.filter f.Accepts := by
      obtain ⟨labels, mergeable⟩ := soleFilter?_eq_some sole
      rw [labels, List.mem_singleton] at label
      subst label
      have agrees := optimizable.agrees (mem_operations_of_mem_steps takes.1) mergeable
      obtain ⟨t, same, kept⟩ := takes.filter_eq_ok mergeable agrees (takes.decides mergeable)
      obtain rfl := Except.ok.inj (Option.some.inj same)
      exact ⟨agrees, kept⟩
    -- the filter of the step and those behind it accept what all of them accept
    have behind {f : Filter} (fs : List Filter) (sole : q.soleFilter? a = some f) :
        reached.essence.filter (Filter.every fs .any).Accepts =
          k₁.items.filter (Filter.every (f :: fs) .any).Accepts := by
      obtain ⟨agrees, kept⟩ := filtered sole
      rw [kept, ItemSet.Essence.filter_filter]
      exact ItemSet.Essence.filter_congr fun x _ => (Filter.accepts_every_cons agrees).symm
    constructor
    · intro here
      by_cases inside : a.target ∈ c.interior
      · obtain ⟨a', source', run⟩ := found.run
        obtain rfl := run.enters optimizable.consistent known inside (source ▸ here)
        have entry : k₁.start = c.entry := source.symm.trans source'
        rcases run.cases with ⟨none, -⟩ | ⟨b, links, f, fs, interior, filters, after, sole, run'⟩
        · rw [none] at inside
          cases inside
        · have sub : links ⊆ c.interior := interior ▸ List.subset_cons_self _ links
          obtain ⟨nonempty, onward⟩ := along b links fs run' sub after inside
          have accepts : reached.essence.filter (Filter.every fs .any).Accepts =
              k₁.items.filter c.conjoined.Accepts := by
            rw [behind fs sole, ← filters]
            exact ItemSet.Essence.filter_congr fun x _ =>
              (Filter.accepts_conjunction _ _ _ x).symm
          dsimp only at nonempty onward
          rw [accepts] at nonempty onward
          exact onward.head (found.leads optimizable safe entry filled nonempty)
      · have listed : (a, op) ∈ ((c.fused q).build next).steps k₁.start :=
          (mem_steps_fused optimizable.consistent found).mpr (.inl ⟨takes.1, source ▸ here, inside⟩)
        exact (off inside).head ⟨a, op, reached, takes.of_mem_steps listed, further, rfl⟩
    · intro a' links fs run sub sole inside
      obtain rfl := (soleOut?_eq_some optimizable.consistent sole).2.2 a known source
      rcases run.cases with ⟨-, f, rfl, ends, only⟩ | ⟨b, links, f, fs, rfl, rfl, after, only, run'⟩
      · obtain ⟨agrees, kept⟩ := filtered only
        have accepts : k₁.items.filter (Filter.every [f] .any).Accepts = reached.essence :=
          kept ▸ ItemSet.Essence.filter_congr fun x _ => Filter.accepts_every_singleton f .any x
        rw [accepts, ← ends]
        exact ⟨ItemSet.isEmpty_eq_false_iff.mp further, off (ends ▸ found.not_mem.2)⟩
      · obtain ⟨target, sub⟩ := List.cons_subset.mp sub
        rw [← behind fs only]
        exact along b links fs run' sub after target

/-- With a chain fused, the same is selected between the two nodes. -/
theorem fused_preserves : Preserves q ((c.fused q).build next) start stop := by
  obtain ⟨mergeable, agrees, -⟩ := conjoined_quiet optimizable found
  have outside {n : Node} (apart : ∀ m ∈ c.interior, m ≠ n) : n ∉ c.interior :=
    fun inside => apart n inside rfl
  have first : start ∉ c.interior :=
    outside fun m inside => (isLink_iff.mp (found.links m inside)).1
  have last : stop ∉ c.interior :=
    outside fun m inside => (isLink_iff.mp (found.links m inside)).2.1
  have simulates : Simulates q ((c.fused q).build next) (· ∉ c.interior) stop := by
    constructor
    · rintro k k' - safe ⟨a, op, reached, takes, further, rfl⟩
      rcases (mem_steps_fused optimizable.consistent found).mp takes.1 with
        ⟨listed, -, target⟩ | ⟨source, rfl, rfl, -⟩
      · exact ⟨.single ⟨a, op, reached, takes.of_mem_steps listed, further, rfl⟩, target⟩
      · obtain ⟨decides, reaches⟩ := found.traverse optimizable safe source.symm takes.filled
        obtain ⟨t, same, kept⟩ := takes.filter_eq_ok mergeable agrees decides
        obtain rfl := Except.ok.inj (Option.some.inj same)
        have nonempty := ItemSet.isEmpty_eq_false_iff.mp further
        rw [kept] at nonempty ⊢
        exact ⟨reaches nonempty, found.not_mem.2⟩
    · intro k a op o _ safe takes
      rcases (mem_steps_fused optimizable.consistent found).mp takes.1 with
        ⟨listed, -⟩ | ⟨source, rfl, rfl, -⟩
      · exact safe.takes_ok (takes.of_mem_steps listed)
      · obtain ⟨decides, -⟩ := found.traverse optimizable safe source.symm takes.filled
        obtain ⟨t, same, -⟩ := takes.filter_eq_ok mergeable agrees decides
        exact ⟨t, same⟩
    · intro k k' here safe reaches arrived
      exact (found.reaches optimizable reaches (arrived ▸ last) safe).1 here
  exact simulates.preserves first

end fused

end Chain

namespace Fusion

open Query

variable {start stop : Node} {f f' : Fusion}

/-- A round preserves what is selected, in a query that may be rewritten again. -/
theorem Round.preserves (optimizable : f.query.Optimizable f.session.nextQuery)
    (round : Round start stop f f') : f'.query.Optimizable f'.session.nextQuery ∧
      Preserves f.query f'.query start stop := by
  obtain ⟨c, -, found, -, -, -, ⟨-, query, -, next, -⟩ | ⟨-, query, -, session, -⟩⟩ :=
    round.cases optimizable.consistent
  · rw [query, next]
    exact ⟨Chain.optimizable_fused optimizable found, Chain.fused_preserves optimizable found⟩
  · rw [query, session]
    exact ⟨optimizable, .refl f.query start stop⟩

theorem Runs.preserves (optimizable : f.query.Optimizable f.session.nextQuery)
    (runs : Runs start stop f f') : f'.query.Optimizable f'.session.nextQuery ∧
      Preserves f.query f'.query start stop := by
  induction runs with
  | refl => exact ⟨optimizable, .refl f.query start stop⟩
  | tail _ round ih =>
    obtain ⟨optimizable', preserves⟩ := ih
    obtain ⟨optimizable'', preserves'⟩ := round.preserves optimizable'
    exact ⟨optimizable'', preserves.trans preserves'⟩

end Fusion

/-- Fusing all chains succeeds in every session whose numbers are new, and gives a query that may be
rewritten again and selects the same. -/
theorem Query.Optimizable.fuseChains_gives {q : Query} {s : Session}
    (optimizable : q.Optimizable s.nextQuery) (start stop : Node) :
    ∃ q' s', (q.fuseChains start stop).Gives s q' s' ∧ q'.Optimizable s'.nextQuery ∧
      Preserves q q' start stop := by
  obtain ⟨f, runs, -, gives⟩ := Fusion.fuseChains_runs optimizable.consistent start stop s
  exact ⟨f.query, f.session, gives, runs.preserves optimizable⟩

end GraphQuery
