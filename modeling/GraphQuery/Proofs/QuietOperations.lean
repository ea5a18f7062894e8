import GraphQuery.Proofs.GraphLaws
import GraphQuery.Proofs.Outcomes
import GraphQuery.Proofs.Purity
import Mathlib.Data.Finset.Card
import Mathlib.Data.List.Forall2
/-!
# Operations that make no selection

An operation that makes no selection comes to one outcome on each set of items, at once. Counting is
one of them, and so is every filter that may be fused: it has a verdict on each item, and it is pure
exactly if its verdicts on equal items agree.
-/

namespace GraphQuery

namespace Operation

variable {op : Operation} {items : ItemSet} {r r' : Except Error ItemSet}

/-- An operation without selections asks for none. -/
theorem exists_done (quiet : op.selections = []) (items : ItemSet) : ∃ r, op.inquiry items = .done r := by
  have asks := op.inquiry_asksOnly items
  cases inquiry : op.inquiry items with
  | done r => exact ⟨r, rfl⟩
  | ask s x next =>
    rw [inquiry] at asks
    obtain ⟨selects, -⟩ := asks
    rw [quiet] at selects
    cases selects

theorem results_of_done (done : op.inquiry items = .done r) {o : Option (Except Error ItemSet)} :
    op.Results items o ↔ o = some r := by
  unfold Results
  rw [done]
  constructor
  · intro results
    cases results
    rfl
  · rintro rfl
    exact .done r

theorem gives_of_done (done : op.inquiry items = .done r) : op.Gives items r' ↔ r' = r := by
  unfold Gives
  simp only [op.apply_eq_run, done, Inquiry.run, EvalM.ends_ofOutcome]
  constructor
  · rintro ⟨-, -, same, -⟩
    exact same
  · exact fun same => ⟨0, _, same, rfl⟩

theorem not_asks_of_done (done : op.inquiry items = .done r) (s : Selection) (x : Item) :
    ¬ op.Asks items s x := by
  unfold Asks
  rw [done]
  intro asks
  cases asks

/-- An operation that makes no selection is pure if its outcomes on equal sets are alike. -/
theorem isPure_of_done {outcome : ItemSet → Except Error ItemSet}
    (done : ∀ s, op.inquiry s = .done (outcome s))
    (alike : ∀ a b : ItemSet, a.essence = b.essence → Alike (outcome a) (outcome b)) : op.IsPure := by
  intro a b same o o' results results'
  rw [(results_of_done (done a)).mp results, (results_of_done (done b)).mp results']
  exact .some (alike a b (ItemSet.essence_eq_iff.mpr same))

end Operation

theorem ItemSet.size_congr {a b : ItemSet} (same : a.essence = b.essence) : a.size = b.size := by
  rw [← card_essence, ← card_essence, same]

theorem Operation.isPure_count (t : ItemType) : (Operation.count t).IsPure :=
  isPure_of_done (fun _ => rfl) fun a b same => by
    rw [ItemSet.size_congr same]
    exact .refl _

/-! Filters that may be fused -/

namespace ItemSet

theorem mem_passed {v : Item → Except Error Bool} {xs : List Item} {vs : List Bool}
    (verdicts : List.Forall₂ (fun x b => v x = .ok b) xs vs) {x : Item} :
    x ∈ passed xs vs ↔ x ∈ xs ∧ v x = .ok true := by
  induction verdicts with
  | nil => simp [passed]
  | @cons y b xs vs verdict _ ih =>
    rw [passed, List.mem_cons]
    cases b with
    | true =>
      rw [if_pos rfl, List.mem_cons, ih]
      constructor
      · rintro (rfl | ⟨member, accepted⟩)
        · exact ⟨.inl rfl, verdict⟩
        · exact ⟨.inr member, accepted⟩
      · rintro ⟨rfl | member, accepted⟩
        · exact .inl rfl
        · exact .inr ⟨member, accepted⟩
    | false =>
      rw [if_neg Bool.false_ne_true, ih]
      constructor
      · rintro ⟨member, accepted⟩
        exact ⟨.inr member, accepted⟩
      · rintro ⟨rfl | member, accepted⟩
        · rw [verdict] at accepted
          cases accepted
        · exact ⟨member, accepted⟩

/-- Filtering fails if a verdict on an item does, and otherwise keeps the items accepted. -/
theorem filterM_cases (s : ItemSet) (v : Item → Except Error Bool) :
    (∃ t : ItemSet, s.filterM v = .ok t ∧ (∀ x ∈ s.items, ∃ b, v x = .ok b) ∧
      t.itemType = s.itemType ∧ ∀ x, x ∈ t.items ↔ x ∈ s.items ∧ v x = .ok true) ∨
    ∃ e, s.filterM v = .error e ∧ ∃ x ∈ s.items, v x = .error e := by
  rw [filterM_eq]
  cases verdicts : s.items.mapM v with
  | error e => exact .inr ⟨e, rfl, mapM_error verdicts⟩
  | ok vs =>
    have all := mapM_ok verdicts
    refine .inl ⟨_, rfl, fun x => mapM_ok_of_mem all, s.itemType_sift vs, fun x => ?_⟩
    rw [items_sift]
    exact mem_passed all

end ItemSet

namespace Filter

/-- The verdict of a filter on an item, if it makes no selection. -/
def verdict (f : Filter) (x : Item) : Except Error Bool :=
  f.accept (fun _ _ => pure (.empty .any)) x

/-- A filter that makes no selection does no more than give its verdict. -/
theorem accept_eq_verdict {f : Filter} (mergeable : f.isMergeable = true) (x : Item) :
    f.accept Inquiry.select x = .done (f.verdict x) := by
  unfold verdict
  induction f generalizing x with
  | test p =>
    rw [accept, accept]
    cases p.test x <;> rfl
  | anything | equals => rfl
  | every members _ ih =>
    rw [isMergeable] at mergeable
    rw [accept, accept]
    induction members with
    | nil => rfl
    | cons f fs rest =>
      rw [allMergeable, Bool.and_eq_true] at mergeable
      rw [acceptEvery, acceptEvery, ih f List.mem_cons_self mergeable.1]
      cases f.accept (m := Except Error) (fun _ _ => pure (.empty .any)) x with
      | error e => rfl
      | ok accepted =>
        cases accepted with
        | false => rfl
        | true => exact rest (fun g member => ih g (List.mem_cons_of_mem f member)) mergeable.2
  | counting => cases mergeable
  | onSlot types i inner ih =>
    rw [accept, accept]
    cases x.fitting? types with
    | none => rfl
    | some t => exact ih mergeable _

theorem mapM_done {α β : Type} (v : α → Except Error β) (as : List α) :
    as.mapM (fun a => (Inquiry.done (v a) : Inquiry β)) = .done (as.mapM v) := by
  induction as with
  | nil => rfl
  | cons a as ih =>
    rw [List.mapM_cons, List.mapM_cons, ih]
    cases v a with
    | error e => rfl
    | ok b => cases as.mapM v <;> rfl

theorem inquiry_eq_done {f : Filter} (mergeable : f.isMergeable = true) (s : ItemSet) :
    (Operation.filter f).inquiry s = .done (s.filterM f.verdict) := by
  change f.apply Inquiry.select s = _
  rw [apply_eq, funext (accept_eq_verdict mergeable), mapM_done, ItemSet.filterM_eq]
  cases s.items.mapM f.verdict <;> rfl

/-- Verdicts on equal items agree: both accept, both reject or both fail. -/
def Agrees (f : Filter) : Prop :=
  ∀ x y : Item, (x == y) = true → (f.verdict x).toOption = (f.verdict y).toOption

theorem Agrees.eq_ok {f : Filter} (agrees : f.Agrees) {x y : Item} (same : (x == y) = true) {b : Bool}
    (passed : f.verdict x = .ok b) : f.verdict y = .ok b := by
  have option := agrees x y same
  rw [passed] at option
  cases verdict : f.verdict y with
  | error e => simp [verdict, Except.toOption] at option
  | ok c =>
    rw [verdict] at option
    obtain rfl := Option.some.inj option
    rfl

/-- If verdicts on equal items agree, then filtering equal sets comes to like outcomes. -/
theorem Agrees.alike {f : Filter} (agrees : f.Agrees) {a b : ItemSet} (same : a.essence = b.essence) :
    Alike (a.filterM f.verdict) (b.filterM f.verdict) := by
  obtain ⟨s, left, passed, typed, kept⟩ | ⟨e, left, x, member, failed⟩ := a.filterM_cases f.verdict
  · obtain ⟨t, right, passed', typed', kept'⟩ | ⟨e, right, y, member, failed⟩ :=
      b.filterM_cases f.verdict
    · rw [left, right]
      refine .ok (ItemSet.essence_eq_iff.mp (congrArg₂ ItemSet.Essence.mk ?_ ?_))
      · rw [typed, typed']
        exact congrArg ItemSet.Essence.itemType same
      · have half {a b s t : ItemSet} (same : a.essence = b.essence)
            (kept : ∀ x, x ∈ s.items ↔ x ∈ a.items ∧ f.verdict x = .ok true)
            (kept' : ∀ x, x ∈ t.items ↔ x ∈ b.items ∧ f.verdict x = .ok true) {c : Content}
            (content : c ∈ s.contents) : c ∈ t.contents := by
          obtain ⟨x, member, rfl⟩ := List.mem_map.mp content
          obtain ⟨inside, accepted⟩ := (kept x).mp member
          obtain ⟨y, inside', equal⟩ := ItemSet.exists_beq_of_mem same inside
          rw [Item.beq_iff.mp equal]
          exact List.mem_map_of_mem ((kept' y).mpr ⟨inside', agrees.eq_ok equal accepted⟩)
        ext c
        rw [List.mem_toFinset, List.mem_toFinset]
        exact ⟨half same kept kept', half same.symm kept' kept⟩
    · obtain ⟨x, member', equal⟩ := ItemSet.exists_beq_of_mem same.symm member
      obtain ⟨verdict, accepted⟩ := passed x member'
      rw [agrees.eq_ok (BEq.symm equal) accepted] at failed
      cases failed
  · obtain ⟨t, right, passed', -⟩ | ⟨e', right, -⟩ := b.filterM_cases f.verdict
    · obtain ⟨y, member', equal⟩ := ItemSet.exists_beq_of_mem same member
      obtain ⟨verdict, accepted⟩ := passed' y member'
      rw [agrees.eq_ok (BEq.symm equal) accepted] at failed
      cases failed
    · rw [left, right]
      exact .error _ _

theorem filterM_singleton_error {v : Item → Except Error Bool} {x : Item} {t : ItemType} {e : Error}
    (failed : v x = .error e) : (ItemSet.singleton x t).filterM v = .error e := by
  simp [ItemSet.filterM_eq, failed, bind, Except.bind]

theorem filterM_singleton_ok {v : Item → Except Error Bool} {x : Item} {t : ItemType} {b : Bool}
    (passed : v x = .ok b) :
    ∃ s : ItemSet, (ItemSet.singleton x t).filterM v = .ok s ∧ s.isEmpty = !b := by
  have verdicts : (ItemSet.singleton x t).items.mapM v = .ok [b] := by
    simp [passed, bind, Except.bind, pure, Except.pure]
  refine ⟨_, by rw [ItemSet.filterM_eq, verdicts]; rfl, ?_⟩
  cases b <;> rfl

/-- A filter that makes no selection is pure exactly if its verdicts on equal items agree. -/
theorem isPure_iff {f : Filter} (mergeable : f.isMergeable = true) :
    (Operation.filter f).IsPure ↔ f.Agrees := by
  constructor
  · intro pure x y same
    have results (x : Item) : (Operation.filter f).Results (.singleton x .any)
        (some (ItemSet.filterM (.singleton x .any) f.verdict)) :=
      (Operation.results_of_done (inquiry_eq_done mergeable _)).mpr rfl
    have alike := pure.alike (ItemSet.essence_singleton same .any) (results x) (results y)
    cases left : f.verdict x with
    | error d =>
      cases right : f.verdict y with
      | error e => rfl
      | ok c =>
        rw [filterM_singleton_error left] at alike
        obtain ⟨t, passed, -⟩ := filterM_singleton_ok right
        rw [passed] at alike
        cases alike
    | ok b =>
      obtain ⟨s, passed, empty⟩ := filterM_singleton_ok left
      rw [passed] at alike
      cases right : f.verdict y with
      | error e =>
        rw [filterM_singleton_error right] at alike
        cases alike
      | ok c =>
        obtain ⟨t, passed', empty'⟩ := filterM_singleton_ok right
        rw [passed'] at alike
        cases alike with
        | ok equal =>
          have agree := ItemSet.isEmpty_congr (ItemSet.essence_eq_iff.mpr equal)
          rw [empty, empty', Bool.not_inj_iff] at agree
          rw [agree]
  · exact fun agrees => Operation.isPure_of_done (inquiry_eq_done mergeable) fun _ _ => agrees.alike

theorem agrees_anything (t : ItemType) : (anything t).Agrees :=
  fun _ _ _ => rfl

theorem essence_anything {t : ItemType} {s u : ItemSet}
    (passed : s.filterM (anything t).verdict = .ok u) : u.essence = s.essence := by
  obtain ⟨u', passed', -, typed, kept⟩ | ⟨e, failed, -⟩ := s.filterM_cases (anything t).verdict
  · rw [passed] at passed'
    cases passed'
    refine congrArg₂ ItemSet.Essence.mk typed ?_
    ext c
    simp only [List.mem_toFinset, ItemSet.contents, List.mem_map, kept]
    exact exists_congr fun x => and_congr_left fun _ => and_iff_left rfl
  · rw [passed] at failed
    cases failed

end Filter

/-! A query that counts -/

namespace Query

/-- The only operation of a query leaves the source of its arc. -/
theorem steps_single (id : QueryId) (a : Arc) (op : Operation) :
    (⟨id, Graph.addLabel Graph.empty a op⟩ : Query).steps a.source = [(a, op)] := by
  rw [steps, Graph.arcsFrom_addLabel_empty, List.flatMap_singleton, Graph.labels_addLabel,
    if_pos ⟨rfl, rfl⟩]
  rfl

/-- The node at which the items of `tally` circle. -/
def tallySource : Node :=
  .plain 0 "items" .any

/-- The node at which their number arrives. -/
def tallySink : Node :=
  .result 1 "number" (.kind .size)

/-- Items circle at one node, and their number arrives at another. -/
def tally : Query where
  id := 0
  graph := Graph.addLabel (Graph.addLabel Graph.empty ⟨tallySource, tallySource⟩
    (Operation.filter (.anything .any))) ⟨tallySource, tallySink⟩ (Operation.count .any)

theorem made_tally : Builder.Made tally.graph :=
  (Builder.Made.empty.addFitting ⟨tallySource, tallySource⟩ (.filter (.anything .any)) rfl).addFitting
    ⟨tallySource, tallySink⟩ (.count .any) rfl

theorem consistent_tally : tally.graph.Consistent :=
  made_tally.consistent

theorem nodes_tally : tally.nodes = [tallySource, tallySink] := by
  have circling := Graph.consistent_empty.addLabel ⟨tallySource, tallySource⟩
    (Operation.filter (.anything .any))
  have first : (Graph.addLabel Graph.empty ⟨tallySource, tallySource⟩
      (Operation.filter (.anything .any))).nodes = [tallySource] := by
    rw [Graph.nodes_addLabel, (Graph.consistent_empty.addNode _).nodes_addNode,
      Graph.consistent_empty.nodes_addNode]
    rfl
  refine Graph.nodes_addLabel.trans ?_
  rw [(circling.addNode _).nodes_addNode, circling.nodes_addNode, first]
  decide

theorem mem_nodes_tally {n : Node} : n ∈ tally.nodes ↔ n = tallySource ∨ n = tallySink := by
  rw [nodes_tally, List.mem_pair]

theorem tally_step {n : Node} {a : Arc} {op : Operation} (arc : a ∈ tally.graph.arcsFrom n)
    (label : op ∈ tally.graph.labels a) : n = tallySource ∧
      (a.target = tallySource ∧ op = .filter (.anything .any) ∨
        a.target = tallySink ∧ op = .count .any) := by
  obtain ⟨known, rfl⟩ := consistent_tally.mem_arcsFrom.mp arc
  change a ∈ [(⟨tallySource, tallySource⟩ : Arc), ⟨tallySource, tallySink⟩] at known
  simp only [List.mem_cons, List.not_mem_nil, or_false] at known
  obtain rfl | rfl := known
  · exact ⟨rfl, .inl ⟨rfl, List.mem_singleton.mp label⟩⟩
  · exact ⟨rfl, .inr ⟨rfl, List.mem_singleton.mp label⟩⟩

theorem mem_operations_tally {op : Operation} :
    op ∈ tally.operations ↔ op = .filter (.anything .any) ∨ op = .count .any := by
  change op ∈ [_, _] ↔ _
  simp

theorem flat_tally : tally.Flat := by
  intro op listed
  obtain rfl | rfl := mem_operations_tally.mp listed <;> rfl

theorem numbered_tally : Numbered {tally} :=
  flat_tally.numbered

theorem isPure_tally : tally.IsPure := by
  intro q within op listed
  rw [flat_tally.eq_of_within within] at listed
  obtain rfl | rfl := mem_operations_tally.mp listed
  · exact (Filter.isPure_iff rfl).mpr (Filter.agrees_anything .any)
  · exact Operation.isPure_count .any

end Query

end GraphQuery
