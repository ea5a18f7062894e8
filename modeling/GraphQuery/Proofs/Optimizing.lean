import Mathlib
import GraphQuery.Proofs.Fusing
import GraphQuery.Proofs.History
/-!
# Optimizing preserves what is selected

The passes preserve what is selected between two nodes, one after the other and so in any order. If a
selection in a query succeeds, the query can be optimized, and the same selection in the optimized
query finds an equal set.
-/

namespace GraphQuery

namespace Query

variable {q q' : Query} {start stop : Node}

/-- Passes succeed one after the other if each succeeds wherever an invariant of the query and of the
next number for a query holds, and keeps it. The reports between them do not matter. -/
theorem optimize_keeps {I : Query → QueryId → Prop} {passes : List Pass}
    (each : ∀ pass ∈ passes, ∀ q s, I q s.nextQuery →
      ∃ r s', (pass.run q start stop).Gives s r s' ∧ I r s'.nextQuery)
    {s : Session} (holds : I q s.nextQuery) :
    ∃ q' s', (q.optimize passes start stop).Gives s q' s' ∧ I q' s'.nextQuery := by
  induction passes generalizing q s with
  | nil => exact ⟨q, s, SessionM.gives_pure q s, holds⟩
  | cons pass passes ih =>
    obtain ⟨here, later⟩ := List.forall_mem_cons.mp each
    obtain ⟨r, s₁, gives, holds₁⟩ := here q s holds
    let reported : Session := { s₁ with
      events := s₁.events.push (.pass pass.name q.nodes.length r.nodes.length q.graph.arcs.length
        r.graph.arcs.length) }
    have holds₂ : I r reported.nextQuery := holds₁
    obtain ⟨q', s', gives', holds'⟩ := ih later holds₂
    refine ⟨q', s', ?_, holds'⟩
    unfold Query.optimize
    rw [List.foldlM_cons]
    refine SessionM.Gives.bind (gives.bind ?_) gives'
    exact (SessionM.gives_report _ s₁).bind (SessionM.gives_pure r _)

/-- Optimizing by standard passes, in any order and number, succeeds in every session whose numbers
are new, and gives a query that selects the same. -/
theorem Optimizable.optimize_gives {s : Session} (optimizable : q.Optimizable s.nextQuery)
    {passes : List Pass} (standard : ∀ pass ∈ passes, pass = .prune ∨ pass = .fuse)
    (start stop : Node) : ∃ q' s', (q.optimize passes start stop).Gives s q' s' ∧
      q'.Optimizable s'.nextQuery ∧ Preserves q q' start stop := by
  refine optimize_keeps (I := fun q' next => q'.Optimizable next ∧ Preserves q q' start stop)
    (fun pass listed r s₁ ⟨optimizable, preserves⟩ => ?_) ⟨optimizable, .refl q start stop⟩
  obtain ⟨r', s', gives, optimizable', preserves'⟩ : ∃ r' s', (pass.run r start stop).Gives s₁ r' s' ∧
      r'.Optimizable s'.nextQuery ∧ Preserves r r' start stop := by
    rcases standard pass listed with rfl | rfl
    · exact optimizable.prune_gives start stop
    · exact optimizable.fuseChains_gives start stop
  exact ⟨r', s', gives, optimizable', preserves.trans preserves'⟩

end Query

namespace Evaluator

open EvalM Query

variable {q q' : Query} {start stop : Node} {items found : ItemSet} {ev ev' : Evaluator}

/-- If a query preserves what another selects, its selections succeed where those of the other do,
with equal sets. -/
theorem select_of_preserves {known known' : Set Query} (lib : Library known) (member : q ∈ known)
    (lib' : Library known') (member' : q' ∈ known') (preserves : Preserves q q' start stop)
    (coherent : Coherent known ev) (clear : Clear q ev) {fuel : Nat}
    (ends : (select fuel q start stop items).Ends ev (.ok found) ev') (memoize : Bool) :
    ∃ fuel' found' ev'', (select fuel' q' start stop items).Ends (.fresh memoize) (.ok found') ev'' ∧
      found'.essence = found.essence := by
  obtain ⟨r, ev₀, walked, same, -⟩ := (selectBy_ends _).mp ends
  cases empty : items.isEmpty with
  | true =>
    have nothing (fuel : Nat) (q : Query) (ev : Evaluator) : (visit (fuel + 1) q start stop items).Ends
        ev (.ok ⟨.empty stop.inputType, none⟩) ev := (visitBy_ends _).mpr (.empty empty)
    cases fuel with
    | zero => exact (not_ends_exhausted walked).elim
    | succ fuel =>
      obtain ⟨rfl, rfl⟩ := walked.unique (nothing fuel q _)
      obtain rfl := Except.ok.inj same
      exact ⟨1, _, _, (selectBy_ends _).mpr ⟨_, _, nothing 0 q' _, rfl, rfl⟩, rfl⟩
  | false =>
    have announced := sameBut_announce q start stop items ev
    obtain ⟨-, -, ⟨reach, rfl, selects⟩ | ⟨e, rfl, -⟩⟩ := visit_clear lib.collection member
      (understood lib member) (f := ⟨q.id, start, stop, items⟩) rfl empty
      (coherent.of_sameBut announced).toTruthful (clear.extends announced.extends) walked
    · obtain rfl := Except.ok.inj same
      let f : Frame := ⟨q'.id, start, stop, items⟩
      obtain ⟨safe, gathers⟩ : q'.Safe f.spot ∧ ∀ c, q'.Gathers f.spot c ↔ q.Gathers f.spot c :=
        preserves f.spot rfl rfl selects.safe.inQuery
      have announced' := sameBut_announce q' start stop items (.fresh memoize)
      have coherent' := (coherent_fresh known' memoize).of_sameBut announced'
      have clear' := (clear_fresh q' memoize).extends announced'.extends
      obtain ⟨n, r', ev'', walked', passes⟩ := visit_resolves_of_finite lib'.collection member'
        (understood lib' member') (f := f) (.inl trivial) (clear'.able coherent') rfl empty safe.finite
        fun k reaches => safe.resolved reaches True
      obtain ⟨-, -, ⟨reach', rfl, selects'⟩ | ⟨e, rfl, -⟩⟩ := visit_clear lib'.collection member'
        (understood lib' member') (f := f) rfl empty coherent'.toTruthful clear' walked'
      · refine ⟨n, reach'.items, _, (selectBy_ends _).mpr ⟨_, _, walked', rfl, rfl⟩, ?_⟩
        refine congrArg₂ ItemSet.Essence.mk (selects'.itemType.trans selects.itemType.symm) ?_
        apply Finset.ext
        intro c
        rw [List.mem_toFinset, List.mem_toFinset, selects'.contents, selects.contents, gathers]
        exact gathers_inQuery (k := Frame.spot ⟨q.id, start, stop, items⟩)
      · cases passes trivial
    · cases same

/-- Whenever a selection in a query succeeds, whatever the evaluator has done before, optimizing the
query for it by standard passes, in any order and number, succeeds too, and the selection in the
optimized query on an evaluator that has done nothing before finds an equal set. Queries and
predicates are told apart by their numbers, and the session hands out numbers that are new. -/
theorem select_optimized {queries : Set Query} {memoize : Bool} {s : Session} {passes : List Pass}
    {fuel : Nat} (numbered : Numbered queries) (pure : ∀ q ∈ queries, q.IsPure)
    (after : After (fun q _ _ => q ∈ queries) memoize ev) (member : q ∈ queries)
    (made : Builder.Made q.graph) (identified : Filter.Identified q.predicates)
    (new : ∀ r, q.Within r → r.id < s.nextQuery)
    (standard : ∀ pass ∈ passes, pass = .prune ∨ pass = .fuse)
    (ends : (select fuel q start stop items).Ends ev (.ok found) ev') :
    ∃ q' s', (q.optimize passes start stop).Gives s q' s' ∧
      ∀ memoize', ∃ fuel' found' ev'',
        (select fuel' q' start stop items).Ends (.fresh memoize') (.ok found') ev'' ∧
          (found' == found) = true := by
  have lib := Library.of_queries numbered pure
  obtain ⟨coherent, closed⟩ := after.coherent lib fun q member => ⟨q, member, .refl⟩
  have optimizable : q.Optimizable s.nextQuery := by
    refine ⟨made.consistent, pure q member, fun p first r second => ?_, new, identified⟩
    rw [Set.mem_singleton_iff.mp first, Set.mem_singleton_iff.mp second]
    exact numbered q member q member
  obtain ⟨q', s', gives, optimizable', preserves⟩ := optimizable.optimize_gives standard start stop
  have lib' := Library.of_queries optimizable'.numbered fun r same =>
    Set.mem_singleton_iff.mp same ▸ optimizable'.isPure
  refine ⟨q', s', gives, fun memoize' => ?_⟩
  obtain ⟨fuel', found', ev'', ends', equal⟩ := select_of_preserves lib ⟨q, member, .refl⟩ lib'
    ⟨q', rfl, .refl⟩ preserves coherent (clear_of_closed closed q) ends memoize'
  exact ⟨fuel', found', ev'', ends', ItemSet.essence_eq_iff.mp equal⟩

end Evaluator

/-! A query with a chain of filters and a way to nowhere -/

namespace Query.Sieve

/-- Where all numbers are. -/
def numbers : Node := .plain 0 "numbers" (.kind .size)

/-- Where the even ones come through. -/
def even : Node := .plain 1 "even" (.kind .size)

/-- Where those come through that are also small. -/
def small : Node := .plain 2 "small" (.kind .size)

/-- A node from which no arc leads on. -/
def lost : Node := .plain 3 "lost" (.kind .size)

def isEven : Predicate :=
  .typed 0 "even" fun n : Nat => n % 2 == 0

def isSmall : Predicate :=
  .typed 1 "small" fun n : Nat => decide (n < 10)

/-- Only small even numbers come through, and any number is lost. -/
def query : Query where
  id := 0
  graph := Graph.addLabel (Graph.addLabel (Graph.addLabel Graph.empty ⟨numbers, even⟩
    (Operation.filter (.test isEven))) ⟨even, small⟩ (.filter (.test isSmall))) ⟨numbers, lost⟩
      (.filter (.anything (.kind .size)))

def someNumbers : ItemSet :=
  .ofList [.atom (.size 3), .atom (.size 4), .atom (.size 12)] (.kind .size)

theorem mem_operations_query {op : Operation} : op ∈ query.operations ↔
    op = .filter (.test isEven) ∨ op = .filter (.test isSmall) ∨ op = .filter (.anything (.kind .size)) := by
  change op ∈ [_, _, _] ↔ _
  simp only [List.mem_cons, List.not_mem_nil, or_false]

theorem made : Builder.Made query.graph :=
  ((Builder.Made.empty.addFitting ⟨numbers, even⟩ (.filter (.test isEven)) rfl).addFitting
    ⟨even, small⟩ (.filter (.test isSmall)) rfl).addFitting ⟨numbers, lost⟩ (.filter (.anything _)) rfl

theorem flat : query.Flat := by
  intro op listed
  obtain rfl | rfl | rfl := mem_operations_query.mp listed <;> rfl

theorem agrees_typed (id : Nat) (name : String) (test : Nat → Bool) :
    (Filter.test (.typed id name test)).Agrees := by
  intro x y same
  obtain rfl | ⟨t, u, rfl, rfl⟩ := Item.eq_or_tuple_of_content (Item.beq_iff.mp same) <;> rfl

theorem isPure : query.IsPure := by
  intro r within op listed
  rw [flat.eq_of_within within] at listed
  obtain rfl | rfl | rfl := mem_operations_query.mp listed
  · exact (Filter.isPure_iff rfl).mpr (agrees_typed 0 "even" _)
  · exact (Filter.isPure_iff rfl).mpr (agrees_typed 1 "small" _)
  · exact (Filter.isPure_iff rfl).mpr (Filter.agrees_anything _)

theorem identified : Filter.Identified query.predicates := by
  have tried {p : Predicate} (member : p ∈ query.predicates) : p = isEven ∨ p = isSmall := by
    obtain ⟨f, listed, tries⟩ := member
    obtain same | same | same := mem_operations_query.mp listed <;> cases same
    · exact .inl (List.mem_singleton.mp tries)
    · exact .inr (List.mem_singleton.mp tries)
    · cases tries
  intro p first r second same
  obtain rfl | rfl := tried first <;> obtain rfl | rfl := tried second <;> first | rfl | cases same

theorem items_select : ((Evaluator.select 4 query numbers small someNumbers).run (.fresh true)).map
    (fun p => p.1.toOption.map fun found => found.items) = some (some [.atom (.size 4)]) := by
  cbv

theorem nodes_fused : ((query.optimize [.fuse] numbers small).run ⟨4, 1, #[]⟩).map
    (fun p => p.1.toOption.map Query.nodes) = some (some [numbers, small, lost]) := by
  cbv

/-- Of the numbers three, four and twelve, four comes through the query, once the way to nowhere is cut
off and the chain is fused, and once the chain alone is. -/
theorem select_optimized_sieve : (∃ q' s',
      (query.optimize Pass.standard numbers small).Gives ⟨4, 1, #[]⟩ q' s' ∧
      ∃ fuel found ev, (Evaluator.select fuel q' numbers small someNumbers).Ends (.fresh true)
        (.ok found) ev ∧ ∀ x, x ∈ found ↔ (x == .atom (.size 4)) = true) ∧
    ∃ q' s', (query.optimize [.fuse] numbers small).Gives ⟨4, 1, #[]⟩ q' s' ∧
      q'.nodes = [numbers, small, lost] ∧
      ∃ fuel found ev, (Evaluator.select fuel q' numbers small someNumbers).Ends (.fresh true)
        (.ok found) ev ∧ ∀ x, x ∈ found ↔ (x == .atom (.size 4)) = true := by
  obtain ⟨found, ev, ended, four⟩ := EvalM.exists_ends_of_seen (fun found _ => ItemSet.items found) items_select
  have new : ∀ r, query.Within r → r.id < (⟨4, 1, #[]⟩ : Session).nextQuery := by
    intro r within
    rw [flat.eq_of_within within]
    decide
  have optimized (passes : List Pass) (standard : ∀ pass ∈ passes, pass = .prune ∨ pass = .fuse) :
      ∃ q' s', (query.optimize passes numbers small).Gives ⟨4, 1, #[]⟩ q' s' ∧
        ∃ fuel found ev, (Evaluator.select fuel q' numbers small someNumbers).Ends (.fresh true)
          (.ok found) ev ∧ ∀ x, x ∈ found ↔ (x == .atom (.size 4)) = true := by
    obtain ⟨q', s', gives, selects⟩ := Evaluator.select_optimized flat.numbered
      (fun q same => same ▸ isPure) .nothing rfl made identified new standard ended
    obtain ⟨fuel, found', ev', ends, equal⟩ := selects true
    refine ⟨q', s', gives, fuel, found', ev', ends, fun x => ?_⟩
    rw [ItemSet.mem_congr (ItemSet.essence_eq_iff.mpr equal), ItemSet.mem_iff, four]
    simp
  obtain ⟨q', s', gives, selects⟩ := optimized [.fuse] (by simp)
  obtain ⟨_, _, gives', nodes⟩ := SessionM.exists_gives_of_seen nodes_fused
  obtain rfl := gives.unique gives'
  exact ⟨optimized Pass.standard (by simp [Pass.standard]), q', s', gives, nodes, selects⟩

end Query.Sieve

end GraphQuery
