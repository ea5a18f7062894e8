import GraphQuery.Proofs.Concurrence
import GraphQuery.Proofs.Staging
/-!
# Sets and their items

What an operation makes of a set is the union of what it makes of the items: it fails on the set where it
fails on an item, and otherwise the set holds what the items lead to. All of this is up to equality, as
the items are looked at one after the other by one evaluator, and what it has found for one of them it
finds for equal ones. Single items, filters that everything passes and filters that are applied as follows
go ways of their own, and are no exception.

A follow that puts what a selection finds into tuples can tell the difference. The selection may find a
tuple that is cached for an equal one, with other types declared for its slots, and then the follow fails
in one case and not in the other.
-/

namespace GraphQuery

namespace Evaluator

open EvalM

variable {queries : Set Query} {config config' : Config} {ev ev' : Evaluator}

/-- An inquiry whose outcomes concur comes to what it may come to, on every evaluator it may be carried
out on. -/
theorem Handed.exists_concur {asked : Selection → Prop} (numbered : Query.Numbered queries)
    (pure : ∀ q ∈ queries, q.IsPure) (handed : Handed queries config asked ev)
    (unlimited : config.maxDepth? = none) {α : Type} {R : α → α → Prop} {p : Inquiry α}
    (asks : p.AsksOnly asked) (concurs : p.Concurs R p) {r : Except Error α}
    (results : p.Results (some r)) :
    ∃ r', ev.ComesTo (p.run ·) r' ∧ Inquiry.Concur R (some r) (some r') := by
  have resolved : p.Resolved False := Inquiry.resolved_of_not_endless fun endless =>
    nomatch concurs results endless
  obtain ⟨r', comes, -⟩ := handed.exists_comesTo numbered pure unlimited asks resolved
  exact ⟨r', comes, concurs results (handed.results numbered pure unlimited asks comes)⟩

section

variable {f : Follow} {items : ItemSet} (blind : ∀ t ∈ f.packs, t.Blind)

include blind

/-- A follow passes on a set if it passes on the items. -/
theorem resolved_apply (passes : ∀ x ∈ items.items, ∃ found : ItemSet,
      (f.follow Inquiry.select x).Results (some (.ok found))) :
    (f.apply Inquiry.select items).Resolved True := by
  intro o results
  obtain ⟨s, -, rfl, -⟩ | ⟨x, member, o', failed, passed⟩ := Follow.results_apply results
  · exact ⟨_, rfl, fun _ => rfl⟩
  · obtain ⟨found, passes⟩ := passes x member
    cases Follow.follow_concurs blind passes failed
    cases passed

/-- A follow comes to an end on a set if it does on the items. -/
theorem not_endless_apply (ends : ∀ x ∈ items.items, ∃ r,
      (f.follow Inquiry.select x).Results (some r)) :
    ¬ (f.apply Inquiry.select items).Results none := by
  intro results
  obtain ⟨s, -, ⟨⟩, -⟩ | ⟨x, member, o', endless, passed⟩ := Follow.results_apply results
  obtain ⟨r, ended⟩ := ends x member
  cases passed
  cases Follow.follow_concurs blind ended endless

/-- What a follow makes of a set holds what the items lead to. -/
theorem mem_of_results_apply {s : ItemSet} (results : (f.apply Inquiry.select items).Results (some (.ok s))) :
    s.itemType = f.handsOn items.itemType ∧ (∀ y ∈ items.items, ∃ found : ItemSet,
      (f.follow Inquiry.select y).Results (some (.ok found))) ∧
    ∀ x, x ∈ s ↔ ∃ y ∈ items.items, ∃ found : ItemSet,
      (f.follow Inquiry.select y).Results (some (.ok found)) ∧ x ∈ found := by
  obtain ⟨_, founds, ⟨⟩, typed, all, contents⟩ | ⟨_, _, _, _, contra⟩ := Follow.results_apply results
  · refine ⟨typed, fun y member => ?_, fun x => ?_⟩
    · obtain ⟨found, -, passed⟩ := exists_of_mem_forall₂ all member
      exact ⟨found, passed⟩
    rw [ItemSet.mem_iff_content_mem, contents]
    constructor
    · rintro ⟨found, listed, content⟩
      obtain ⟨y, member, passed⟩ := exists_of_mem_forall₂ all.flip listed
      exact ⟨y, member, found, passed, ItemSet.mem_iff_content_mem.mpr content⟩
    · rintro ⟨y, member, found, passed, inside⟩
      obtain ⟨found', listed, passed'⟩ := exists_of_mem_forall₂ all member
      have content := ItemSet.mem_iff_content_mem.mp inside
      refine ⟨found', listed, ?_⟩
      cases Follow.follow_concurs blind passed passed' with
      | ok same => rwa [← ItemSet.mem_essence, ← same, ItemSet.mem_essence]
  · exact (Inquiry.not_passedOn_ok contra).elim

end

/-! What two evaluators come to, one on the set and the other on the items -/

section

variable (numbered : Query.Numbered queries) (pure : ∀ q ∈ queries, q.IsPure)
  {asked : Selection → Prop} (handed : Handed queries config asked ev)
  (handed' : Handed queries config' asked ev') (unlimited : config.maxDepth? = none)
  (unlimited' : config'.maxDepth? = none) {f : Follow} (blind : ∀ t ∈ f.packs, t.Blind)
  {items : ItemSet} (asks : (f.apply Inquiry.select items).AsksOnly asked)
  (asks' : ∀ x, (f.follow Inquiry.select x).AsksOnly asked)

include numbered pure unlimited' blind asks' handed'

/-- What a follow may lead to, it leads to, up to equality. -/
theorem follow_comesTo {x : Item} {found : ItemSet}
    (results : (f.follow Inquiry.select x).Results (some (.ok found))) : ∃ found',
      ev'.ComesTo ((f.follow Inquiry.select x).run ·) (.ok found') ∧
        found.essence.contents = found'.essence.contents := by
  obtain ⟨r, comes, concur⟩ :=
    handed'.exists_concur numbered pure unlimited' (asks' x) (f.follow_concurs blind) results
  cases concur with | ok same
  exact ⟨_, comes, same⟩

include unlimited asks handed

/-- Where a follow fails on a set, it fails on one of the items. -/
theorem exists_fails_of_apply {e : Error}
    (comes : ev.ComesTo ((f.apply Inquiry.select items).run ·) (.error e)) :
    ∃ x ∈ items.items, ∃ e, ev'.ComesTo ((f.follow Inquiry.select x).run ·) (.error e) := by
  obtain ⟨_, _, ⟨⟩, -⟩ | ⟨x, member, o', failed, passed⟩ :=
    Follow.results_apply (handed.results numbered pure unlimited asks comes)
  cases passed
  obtain ⟨r, comes', concur⟩ :=
    handed'.exists_concur numbered pure unlimited' (asks' x) (f.follow_concurs blind) failed
  cases concur
  exact ⟨x, member, _, comes'⟩

/-- A follow passes on a set if and only if it passes on the items. -/
theorem apply_passes_iff : (∃ s, ev.ComesTo ((f.apply Inquiry.select items).run ·) (.ok s)) ↔
    ∀ x ∈ items.items, ∃ found, ev'.ComesTo ((f.follow Inquiry.select x).run ·) (.ok found) := by
  constructor
  · rintro ⟨s, comes⟩ x member
    obtain ⟨-, all, -⟩ :=
      mem_of_results_apply blind (handed.results numbered pure unlimited asks comes)
    obtain ⟨found, results⟩ := all x member
    obtain ⟨found', comes', -⟩ := follow_comesTo numbered pure handed' unlimited' blind asks' results
    exact ⟨found', comes'⟩
  · intro all
    have resolved := resolved_apply blind fun x member =>
      (all x member).imp fun found comes => handed'.results numbered pure unlimited' (asks' x) comes
    obtain ⟨r, comes, passes⟩ := handed.exists_comesTo numbered pure unlimited asks resolved
    cases r with
    | error => cases passes trivial
    | ok s => exact ⟨s, comes⟩

/-- A follow that comes to an end on the items fails on their set where it fails on one of them. -/
theorem apply_fails_of_item
    (ends : ∀ x ∈ items.items, ∃ r, ev'.ComesTo ((f.follow Inquiry.select x).run ·) r) {x : Item}
    (member : x ∈ items.items) {e : Error}
    (failed : ev'.ComesTo ((f.follow Inquiry.select x).run ·) (.error e)) :
    ∃ e, ev.ComesTo ((f.apply Inquiry.select items).run ·) (.error e) := by
  have ended := not_endless_apply blind fun x member =>
    (ends x member).imp fun r comes => handed'.results numbered pure unlimited' (asks' x) comes
  obtain ⟨r, comes, -⟩ := handed.exists_comesTo numbered pure unlimited asks
    (Inquiry.resolved_of_not_endless ended)
  cases r with
  | error e => exact ⟨e, comes⟩
  | ok s =>
    obtain ⟨found, comes'⟩ := (apply_passes_iff numbered pure handed handed' unlimited unlimited' blind
      asks asks').mp ⟨s, comes⟩ x member
    cases comes'.unique failed

/-- A follow that passes on a set comes to the items that it leads to from those of the set. -/
theorem mem_iff_of_apply {s : ItemSet}
    (comes : ev.ComesTo ((f.apply Inquiry.select items).run ·) (.ok s)) :
    s.itemType = f.handsOn items.itemType ∧ ∀ x, x ∈ s ↔ ∃ y ∈ items.items, ∃ found,
      ev'.ComesTo ((f.follow Inquiry.select y).run ·) (.ok found) ∧ x ∈ found := by
  obtain ⟨typed, -, union⟩ :=
    mem_of_results_apply blind (handed.results numbered pure unlimited asks comes)
  refine ⟨typed, fun x => (union x).trans (exists_congr fun y => and_congr_right fun _ => ?_)⟩
  constructor
  · rintro ⟨found, results, inside⟩
    obtain ⟨found', comes', same⟩ :=
      follow_comesTo numbered pure handed' unlimited' blind asks' results
    refine ⟨found', comes', ?_⟩
    rw [ItemSet.mem_iff_content_mem] at inside ⊢
    rwa [← ItemSet.mem_essence, ← same, ItemSet.mem_essence]
  · rintro ⟨found, comes', inside⟩
    exact ⟨found, handed'.results numbered pure unlimited' (asks' y) comes', inside⟩

end

/-- What an operation makes of a set is the union of what it makes of the items, whatever evaluators do
the one and the other. It comes to a set if and only if it does for every item. That it fails is due to an
item on which it fails; and if it comes to an end on every item, then it fails if and only if it fails on an
item. A filter leaves the declared type as it is, and a follow declares its own. The types that what
selections find is checked against, when it is put into tuples, are taken to be blind. -/
theorem apply_unites (numbered : Query.Numbered queries) (pure : ∀ q ∈ queries, q.IsPure)
    {op : Operation} {f : Follow} (itemwise : op.follow? = some f)
    (blind : ∀ t ∈ f.packs, t.Blind)
    (handed : Handed queries config (· ∈ op.selections) ev)
    (handed' : Handed queries config' (· ∈ op.selections) ev') (unlimited : config.maxDepth? = none)
    (unlimited' : config'.maxDepth? = none) (items : ItemSet) :
    ((∃ s, ev.ComesTo (op.apply · items) (.ok s)) ↔
      ∀ x ∈ items.items, ∃ found, ev'.ComesTo (f.follow · x) (.ok found)) ∧
    ((∃ e, ev.ComesTo (op.apply · items) (.error e)) →
      ∃ x ∈ items.items, ∃ e, ev'.ComesTo (f.follow · x) (.error e)) ∧
    ((∀ x ∈ items.items, ∃ r, ev'.ComesTo (f.follow · x) r) →
      ((∃ e, ev.ComesTo (op.apply · items) (.error e)) ↔
        ∃ x ∈ items.items, ∃ e, ev'.ComesTo (f.follow · x) (.error e))) ∧
    ∀ s, ev.ComesTo (op.apply · items) (.ok s) → s.itemType = f.handsOn items.itemType ∧
      ∀ x, x ∈ s ↔ ∃ y ∈ items.items, ∃ found, ev'.ComesTo (f.follow · y) (.ok found) ∧ x ∈ found := by
  simp only [op.apply_eq_run, f.follow_eq_run]
  have asks := op.inquiry_asksOnly items
  have asks' (x : Item) : (f.follow Inquiry.select x).AsksOnly (· ∈ op.selections) :=
    (f.follow_asksOnly x).mono fun s selects => Operation.selections_eq itemwise ▸ selects
  rw [Operation.inquiry_eq_apply itemwise] at asks ⊢
  have fails : (∃ e, ev.ComesTo ((f.apply Inquiry.select items).run ·) (.error e)) →
      ∃ x ∈ items.items, ∃ e, ev'.ComesTo ((f.follow Inquiry.select x).run ·) (.error e) :=
    fun ⟨_, comes⟩ =>
      exists_fails_of_apply numbered pure handed handed' unlimited unlimited' blind asks asks' comes
  refine ⟨apply_passes_iff numbered pure handed handed' unlimited unlimited' blind asks asks', fails,
    fun ends => ⟨fails, ?_⟩, fun s comes =>
      mem_iff_of_apply numbered pure handed handed' unlimited unlimited' blind asks asks' comes⟩
  rintro ⟨x, member, e, failed⟩
  exact apply_fails_of_item numbered pure handed handed' unlimited unlimited' blind asks asks' ends member
    failed

/-- A run that has been carried out with success. -/
theorem exists_comesTo_ok {α : Type} {work : (Selection → Item → EvalM ItemSet) → EvalM α} {fuel : Nat}
    (ran : ((work (nested fuel)).run ev).map (fun p => p.1.toOption.isSome) = some true) :
    ∃ a, ev.ComesTo work (.ok a) := by
  obtain ⟨⟨r, ev'⟩, ended, passed⟩ := Option.map_eq_some_iff.mp ran
  cases r with
  | ok a => exact ⟨a, fuel, ev', ended⟩
  | error => cases passed

/-- A run that has been carried out and failed. -/
theorem exists_comesTo_error {α : Type} {work : (Selection → Item → EvalM ItemSet) → EvalM α} {fuel : Nat}
    (ran : ((work (nested fuel)).run ev).map (fun p => p.1.toOption.isSome) = some false) :
    ∃ e, ev.ComesTo work (.error e) := by
  obtain ⟨⟨r, ev'⟩, ended, failed⟩ := Option.map_eq_some_iff.mp ran
  cases r with
  | ok => cases failed
  | error e => exact ⟨e, fuel, ev', ended⟩

theorem apply_pair_counted : (((Operation.follow (.pair (.select Query.counted))).apply (nested 3)
    (.singleton (.atom .unit) .any)).run (.started {})).map (fun p => p.1.toOption.isSome) = some true := by
  cbv

/-- An item is paired with a number by an evaluator that remembers, and by one that does not. -/
theorem apply_unites_tally : ∃ s found,
    (Evaluator.started {}).ComesTo
      ((Operation.follow (.pair (.select Query.counted))).apply · (.singleton (.atom .unit) .any)) (.ok s) ∧
    (Evaluator.started ⟨false, none⟩).ComesTo
      ((Follow.pair (.select Query.counted)).follow · (.atom .unit)) (.ok found) ∧
    s.itemType = .tuple [.any, .kind .size] ∧ ∀ x ∈ found, x ∈ s := by
  have handed (config : Config) : Handed {Query.tally} config
      (· ∈ (Operation.follow (.pair (.select Query.counted))).selections) (.started config) := by
    refine .between .nothing fun s asks => ?_
    obtain rfl : s = Query.counted := List.mem_singleton.mp asks
    rfl
  have blind : ∀ t ∈ (Follow.pair (.select Query.counted)).packs, t.Blind :=
    List.forall_mem_singleton.mpr fun x y equal => by
      rw [Query.counted, Selection.outputType]
      exact congrArg (· == Kind.size) (Item.kind_congr equal)
  have itemwise : (Operation.follow (.pair (.select Query.counted))).follow? =
    some (.pair (.select Query.counted)) := rfl
  obtain ⟨passes, -, -, union⟩ := apply_unites Query.numbered_tally
    (fun q same => same ▸ Query.isPure_tally) itemwise blind (handed {}) (handed ⟨false, none⟩) rfl rfl
    (.singleton (.atom .unit) .any)
  obtain ⟨s, applied⟩ : ∃ s, (Evaluator.started {}).ComesTo ((Operation.follow (.pair
      (.select Query.counted))).apply · (.singleton (.atom .unit) .any)) (.ok s) :=
    exists_comesTo_ok apply_pair_counted
  obtain ⟨found, followed⟩ := passes.mp ⟨s, applied⟩ (.atom .unit) (List.mem_singleton.mpr rfl)
  obtain ⟨typed, members⟩ := union s applied
  exact ⟨s, found, applied, followed, typed, fun x inside =>
    (members x).mpr ⟨_, List.mem_singleton.mpr rfl, found, followed, inside⟩⟩

end Evaluator

/-! A selection that finds other tuples -/

namespace Query

/-- The node at which any items set out in `passage`. -/
def passageStart : Node :=
  ⟨0, "items", .any, .tuple [.kind .bool], false⟩

/-- The node at which they arrive, declared as tuples of a truth value. -/
def passageEnd : Node :=
  .result 1 "arrived" (.tuple [.kind .bool])

/-- All items pass from one node to another. -/
def passage : Query where
  id := 0
  graph := Graph.addLabel Graph.empty ⟨passageStart, passageEnd⟩
    (Operation.filter (.anything (.tuple [.kind .bool])))

/-- The items that arrive in `passage`. -/
def arrived : Selection where
  query := passage
  start := passageStart
  stop? := some passageEnd

theorem isPure_passage : passage.IsPure := by
  have only {op : Operation} (listed : op ∈ passage.operations) :
      op = .filter (.anything (.tuple [.kind .bool])) := List.mem_singleton.mp listed
  have flat : passage.Flat := by
    intro op listed
    rw [only listed]
    rfl
  intro r within op listed
  rw [flat.eq_of_within within] at listed
  rw [only listed]
  exact (Filter.isPure_iff rfl).mpr (Filter.agrees_anything _)

end Query

/-- The pair of two truth values, the second in a tuple of its own, declared as one of truth values or
open to any value. -/
def Item.boxed (b : Bool) (declared : ItemType) : Item :=
  .tuple (.ofValues [.atom (.bool b), .tuple ⟨[⟨.atom (.bool true), declared⟩], false⟩])

/-- The follow that sends the second slots of pairs through `passage`. -/
def Follow.sending : Follow :=
  .onSlot [.any, .any] 1 (.select Query.arrived)

/-- Two pairs with equal second slots, of which the one is declared and the other is not. -/
def Item.box : Bool → Item
  | true => .boxed true (.kind .bool)
  | false => .boxed false .any

namespace Evaluator

theorem runs_boxes : ((Follow.sending.apply (nested 3) (.ofList [.box false, .box true] .any)).run
      (.started {})).map (fun p => p.1.toOption.isSome) = some true ∧
    ((Follow.sending.apply (nested 3) (.ofList [.box true, .box false] .any)).run
      (.started {})).map (fun p => p.1.toOption.isSome) = some false ∧
    ((Follow.sending.follow (nested 3) (.box false)).run (.started {})).map
      (fun p => p.1.toOption.isSome) = some false := by
  refine ⟨?_, ?_, ?_⟩ <;> cbv

/-- Two pairs are sent through a query that lets everything pass. The follow fails on the one that is not
declared. It fails on the set of both, if it begins with that one; but it passes if it begins with the other,
as then the slot of that is found for both. -/
theorem apply_boxes : Query.passage.IsPure ∧
    Item.box false ∈ ItemSet.ofList [.box false, .box true] .any ∧
    (ItemSet.ofList [.box false, .box true] .any == .ofList [.box true, .box false] .any) = true ∧
    (∃ e, (Evaluator.started {}).ComesTo (Follow.sending.follow · (.box false)) (.error e)) ∧
    (∃ s, (Evaluator.started {}).ComesTo
      (Follow.sending.apply · (.ofList [.box false, .box true] .any)) (.ok s)) ∧
    ∃ e, (Evaluator.started {}).ComesTo
      (Follow.sending.apply · (.ofList [.box true, .box false] .any)) (.error e) := by
  obtain ⟨first, second, alone⟩ := runs_boxes
  exact ⟨Query.isPure_passage, by decide, by decide, exists_comesTo_error alone, exists_comesTo_ok first,
    exists_comesTo_error second⟩

end Evaluator

end GraphQuery
