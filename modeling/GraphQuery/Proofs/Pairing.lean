import GraphQuery.Proofs.QuietOperations
import GraphQuery.Proofs.WellTyped
/-!
# Pairs and replaced slots

A follow may be carried along by tuples: paired with the item it sets out from, or in the place of the
slot that it sets out from. Both put what the follow leads to into tuples of the declared types, one for
one, and both touch nothing else. So a slot of the pairs gives back what was paired, and a replaced slot
leaves the other slots as they were, whether the tuple is a view or not.
-/

namespace GraphQuery

/-! One tuple for each item -/

namespace ItemSet

theorem collect_replicate (x : Item) (n : Nat) (t : ItemType) :
    collect (List.replicate n x) t = if n = 0 then empty t else singleton x t := by
  cases n with
  | zero => rfl
  | succ n =>
    have first : firsts (List.replicate (n + 1) x) = [x] := by
      rw [List.replicate_succ, firsts_eq_firstsOf, firstsOf]
      refine congrArg (x :: ·) (List.filter_eq_nil_iff.mpr fun y member => ?_)
      rw [← firsts_eq_firstsOf] at member
      rw [List.eq_of_mem_replicate ((firsts_sublist _).subset member)]
      simp
    exact eq_of_items ((items_collect ..).trans first) rfl

section

variable {s : ItemSet} {g : Item → Item} (tellsApart : ∀ x y, (g x == g y) = true → (x == y) = true)

include tellsApart

/-- None of the items is lost that different items are turned into. -/
theorem items_collect_map (t : ItemType) : (collect (s.items.map g) t).items = s.items.map g := by
  refine items_collect_of_distinct (List.pairwise_map.mpr (s.distinct.imp fun {x y} differ => ?_)) t
  exact Bool.eq_false_iff.mpr fun equal => Bool.false_ne_true (differ.symm.trans (tellsApart x y equal))

theorem size_collect_map (t : ItemType) : (collect (s.items.map g) t).size = s.size := by
  rw [← length_items, items_collect_map tellsApart, List.length_map, length_items]

theorem mem_items_collect_map {t : ItemType} {y : Item} :
    y ∈ (collect (s.items.map g) t).items ↔ ∃ x ∈ s.items, g x = y := by
  rw [items_collect_map tellsApart, List.mem_map]

end

end ItemSet

namespace Follow

open EvalM

variable {select : Selection → Item → EvalM ItemSet} {f : Follow} {x : Item} {found : ItemSet}
  {ev ev' : Evaluator}

/-! Pairs -/

/-- The pair of an item and one that a follow leads to from it. -/
def paired (f : Follow) (x y : Item) : Tuple :=
  ⟨[⟨x, f.inputType⟩, ⟨y, f.outputType⟩], false⟩

theorem fitting?_paired (f : Follow) (x y : Item) :
    (Item.tuple (f.paired x y)).fitting? [f.inputType, f.outputType] = some ⟨f.paired x y, rfl⟩ := by
  refine dif_pos (ItemType.acceptsSlots_iff.mpr ?_)
  exact .cons (ItemType.accepts_refl _) (.cons (ItemType.accepts_refl _) .nil)

theorem paired_tellsApart (f : Follow) (x y z : Item)
    (equal : (Item.tuple (f.paired x y) == .tuple (f.paired x z)) = true) : (y == z) = true := by
  obtain _ | ⟨-, rest⟩ := Item.tuple_beq_iff.mp equal
  obtain _ | ⟨here, -⟩ := rest
  exact here

theorem pair_ends (ends : (f.follow select x).Ends ev (.ok found) ev')
    (isA : f.inputType.admits x = true) (isOf : ∀ y ∈ found.items, f.outputType.admits y = true) :
    ((Follow.pair f).follow select x).Ends ev
      (.ok (.collect (found.items.map fun y => .tuple (f.paired x y)) (Follow.pair f).outputType)) ev' := by
  have made : (found.items.mapM fun y => Tuple.ofTyped [x, y] [f.inputType, f.outputType]) =
      .ok (found.items.map (f.paired x)) :=
    Tuple.mapM_ofTyped_eq_ok.mpr ⟨fun y member => .cons isA (.cons (isOf y member) .nil), rfl⟩
  rw [follow]
  refine ends_bind.mpr (.inr ⟨found, ev', ends, ?_⟩)
  rw [made]
  refine ends_bind.mpr (.inr ⟨_, ev', ends_ofOutcome.mpr ⟨rfl, rfl⟩, ends_pure.mpr ⟨?_, rfl⟩⟩)
  rw [List.map_map]
  rfl

/-- An item is a tuple that fits some types, with a value in one of its slots. -/
def HasSlot (types : List ItemType) (i : Fin types.length) (x y : Item) : Prop :=
  ∃ t, x.fitting? types = some t ∧ Tuple.valueAt t i = y

/-- Following a slot gathers its values. -/
theorem apply_slot_ends {types : List ItemType} {i : Fin types.length} {s : ItemSet} {ys : List Item}
    (holds : List.Forall₂ (HasSlot types i) s.items ys) :
    ((Follow.slot types i).apply select s).Ends ev (.ok (.collect ys (types.get i))) ev := by
  have each {xs ys : List Item} (holds : List.Forall₂ (HasSlot types i) xs ys) :
      (xs.mapM ((Follow.slot types i).follow select)).Ends ev
        (.ok (ys.map fun y => .singleton y (types.get i))) ev := by
    induction holds with
    | nil => exact ends_pure.mpr ⟨rfl, rfl⟩
    | cons first _ ih =>
      obtain ⟨t, fits, rfl⟩ := first
      rw [List.mapM_cons, follow, fits]
      refine ends_bind.mpr (.inr ⟨_, ev, ends_pure.mpr ⟨rfl, rfl⟩, ?_⟩)
      exact ends_bind.mpr (.inr ⟨_, ev, ih, ends_pure.mpr ⟨rfl, rfl⟩⟩)
  rw [apply_eq]
  refine ends_bind.mpr (.inr ⟨_, ev, each holds, ends_pure.mpr ⟨?_, rfl⟩⟩)
  have gathered : (ys.map fun y => ItemSet.singleton y (types.get i)).flatMap ItemSet.items = ys := by
    rw [List.flatMap_map]
    exact List.flatMap_singleton' ys
  rw [gathered]
  rfl

/-- What is paired is found in the second slot of the pairs, and what it is paired with in the first. -/
theorem apply_slot_paired (f : Follow) (x : Item) (found : ItemSet) {pairs : ItemSet}
    (items : pairs.items = found.items.map fun y => .tuple (f.paired x y)) :
    ((Follow.slot [f.inputType, f.outputType] 1).apply select pairs).Ends ev
        (.ok (found.withType f.outputType)) ev ∧
      ((Follow.slot [f.inputType, f.outputType] 0).apply select pairs).Ends ev
        (.ok (if found.size = 0 then .empty f.inputType else .singleton x f.inputType)) ev := by
  have slots (y : Item) : HasSlot [f.inputType, f.outputType] 1 (.tuple (f.paired x y)) y ∧
      HasSlot [f.inputType, f.outputType] 0 (.tuple (f.paired x y)) x :=
    ⟨⟨_, fitting?_paired f x y, rfl⟩, _, fitting?_paired f x y, rfl⟩
  constructor
  · rw [← ItemSet.collect_items]
    refine apply_slot_ends (i := 1) ?_
    rw [items, List.forall₂_map_left_iff]
    exact List.forall₂_same.mpr fun y _ => (slots y).1
  · have constant : List.replicate found.size x = found.items.map fun _ => x := by
      rw [List.map_const', ItemSet.length_items]
    rw [← ItemSet.collect_replicate, constant]
    refine apply_slot_ends (i := 0) ?_
    rw [items, List.forall₂_map_left_iff, List.forall₂_map_right_iff]
    exact List.forall₂_same.mpr fun y _ => (slots y).2

/-! Replaced slots -/

/-- The tuple with a slot replaced by an item that a follow leads to, under some slot types. -/
def replaced (f : Follow) (types : List ItemType) (t : Tuple) (i : Nat) (y : Item) : Tuple :=
  ⟨(t.values.set i y).zipWith Slot.mk (types.set i f.outputType), false⟩

section

variable {types : List ItemType} {t : Tuple} {i : Nat} (arity : t.arity = types.length)

include arity

theorem types_replaced (y : Item) : (f.replaced types t i y).types = types.set i f.outputType :=
  Tuple.types_under (by simpa using arity)

theorem values_replaced (y : Item) : (f.replaced types t i y).values = t.values.set i y :=
  Tuple.values_under (by simpa using arity)

theorem arity_replaced (y : Item) : (f.replaced types t i y).arity = t.arity := by
  rw [← Tuple.length_values, values_replaced arity, List.length_set, Tuple.length_values]

theorem get?_replaced (inside : i < t.arity) (y : Item) (j : Nat) :
    (f.replaced types t i y).get? j = if j = i then some y else t.get? j := by
  have slots (t : Tuple) : t.get? j = t.values[j]? := by
    rw [Tuple.get?, Tuple.values, List.getElem?_map]
  rw [slots, slots, values_replaced arity, List.getElem?_set]
  split <;> split <;> simp_all

theorem replaced_tellsApart (inside : i < t.arity) (y z : Item)
    (equal : (Item.tuple (f.replaced types t i y) == .tuple (f.replaced types t i z)) = true) :
    (y == z) = true := by
  have same := Item.tuple_beq_iff.mp equal
  rw [values_replaced arity, values_replaced arity, forall₂_beq_iff] at same
  have there := congrArg (·[i]?) same
  simpa [inside, Item.beq_iff] using there

end

theorem onSlot_ends {types : List ItemType} {i : Fin types.length} {t : Tuple}
    (isA : (Item.tuple t).IsA (.tuple types)) {y : Item} (slot : t.get? i = some y)
    (ends : (f.follow select y).Ends ev (.ok found) ev')
    (isOf : ∀ y ∈ found.items, f.outputType.admits y = true) :
    ((Follow.onSlot types i f).follow select (.tuple t)).Ends ev
      (.ok (.collect (found.items.map fun y => .tuple (f.replaced types t i y))
        (Follow.onSlot types i f).outputType)) ev' := by
  obtain ⟨u, fits, same, values⟩ := isA.fitting
  obtain rfl : t = u.val := Item.tuple.inj same
  have inside : i.val < u.val.slots.length := i.isLt.trans_eq u.property.symm
  rw [Tuple.get?, List.getElem?_eq_getElem inside, Option.map_some] at slot
  have value : Tuple.valueAt u i = y := Option.some.inj slot
  have made : (found.items.mapM fun y => Tuple.ofTyped (u.val.values.set i y) (types.set i f.outputType)) =
      .ok (found.items.map (f.replaced types u.val i)) :=
    Tuple.mapM_ofTyped_eq_ok.mpr
      ⟨fun y member => forall₂_set (values.imp fun _ _ isA => isA.2) (isOf y member) i, rfl⟩
  rw [follow, fits]
  refine ends_bind.mpr (.inr ⟨found, ev', by rwa [value], ?_⟩)
  rw [made]
  refine ends_bind.mpr (.inr ⟨_, ev', ends_ofOutcome.mpr ⟨rfl, rfl⟩, ends_pure.mpr ⟨?_, rfl⟩⟩)
  rw [List.map_map]
  rfl

/-- Where a follow leads from an instance of its input type to instances of its output type, tuples carry
it along: from the same state, with the same state left behind. Pairing gives one pair for each item, of the
two declared types, so that the second slot of the pairs gives back the items and the first slot what they
were paired with. Replacing a slot of a tuple, a view or not, gives one tuple for each item, which has it in
that slot under the declared type, and the other slots as before. -/
theorem pair_and_replace (ends : (f.follow select x).Ends ev (.ok found) ev')
    (isOf : ∀ y ∈ found.items, f.outputType.admits y = true) :
    (f.inputType.admits x = true → ∃ pairs,
      ((Follow.pair f).follow select x).Ends ev (.ok pairs) ev' ∧
      pairs.itemType = .tuple [f.inputType, f.outputType] ∧ pairs.size = found.size ∧
      (∀ p, p ∈ pairs.items ↔ ∃ y ∈ found.items,
        p = .tuple ⟨[⟨x, f.inputType⟩, ⟨y, f.outputType⟩], false⟩) ∧
      ∀ ev₁, ((Follow.slot [f.inputType, f.outputType] 1).apply select pairs).Ends ev₁
          (.ok (found.withType f.outputType)) ev₁ ∧
        ((Follow.slot [f.inputType, f.outputType] 0).apply select pairs).Ends ev₁
          (.ok (if found.size = 0 then .empty f.inputType else .singleton x f.inputType)) ev₁) ∧
    ∀ types index g t, Follow.onSlotOf types index f = .ok g → (Item.tuple t).IsA (.tuple types) →
      t.get? index = some x → ∃ rebuilt,
        (g.follow select (.tuple t)).Ends ev (.ok rebuilt) ev' ∧
        rebuilt.itemType = .tuple (types.set index f.outputType) ∧ rebuilt.size = found.size ∧
        (∀ u ∈ rebuilt.items, ∃ v, u = .tuple v ∧ v.arity = t.arity ∧
          v.types = types.set index f.outputType ∧
          ∃ y ∈ found.items, ∀ j, v.get? j = if j = index then some y else t.get? j) ∧
        ∀ y ∈ found.items, ∃ v, Item.tuple v ∈ rebuilt.items ∧ v.get? index = some y := by
  constructor
  · intro isA
    have tellsApart := f.paired_tellsApart x
    refine ⟨_, pair_ends ends isA isOf, rfl, ItemSet.size_collect_map tellsApart _, fun p => ?_, fun ev₁ => ?_⟩
    · rw [ItemSet.mem_items_collect_map tellsApart]
      exact exists_congr fun y => and_congr_right fun _ => eq_comm
    · exact apply_slot_paired f x found (ItemSet.items_collect_map tellsApart _)
  · intro types index g t made isA slot
    obtain ⟨i, rfl, rfl, -⟩ := onSlotOf_eq_ok made
    obtain ⟨u, -, same, -⟩ := isA.fitting
    obtain rfl : t = u.val := Item.tuple.inj same
    have arity := u.property
    have inside : i.val < u.val.arity := i.isLt.trans_eq arity.symm
    have tellsApart := replaced_tellsApart (f := f) arity inside
    have slots := get?_replaced (f := f) arity inside
    refine ⟨_, onSlot_ends isA slot ends isOf, rfl, ItemSet.size_collect_map tellsApart _, ?_, ?_⟩
    · intro v member
      obtain ⟨y, reached, rfl⟩ := (ItemSet.mem_items_collect_map tellsApart).mp member
      exact ⟨_, rfl, arity_replaced arity y, types_replaced arity y, y, reached, slots y⟩
    · intro y reached
      refine ⟨_, (ItemSet.mem_items_collect_map tellsApart).mpr ⟨y, reached, rfl⟩, ?_⟩
      rw [slots, if_pos rfl]

end Follow

/-- The mapping that leads from an item to itself and to the unit. -/
def Mapping.withUnit : Mapping :=
  ⟨0, "with unit", .any, .any, fun x => .ok (.ofList [x, .atom .unit] .any)⟩

/-- The pair of a number and a truth value, as a view of the pair the other way round. -/
def Tuple.swapped : Tuple :=
  (Tuple.ofValues [.atom (.bool true), .atom (.int64 1)]).view [⟨1, by decide⟩, ⟨0, by decide⟩]

open Evaluator in
/-- A number leads to two items, and so to two pairs, and from a view that holds it to two tuples. -/
theorem Follow.pair_and_replace_withUnit : ∃ found pairs rebuilt g,
    ((Follow.map .withUnit).follow (nested 0) (.atom (.int64 1))).Ends (.fresh true) (.ok found)
      (.fresh true) ∧
    ((Follow.pair (.map .withUnit)).follow (nested 0) (.atom (.int64 1))).Ends (.fresh true) (.ok pairs)
      (.fresh true) ∧ pairs.size = 2 ∧
    Follow.onSlotOf [.kind .int64, .any] 0 (.map .withUnit) = .ok g ∧
    (g.follow (nested 0) (.tuple .swapped)).Ends (.fresh true) (.ok rebuilt) (.fresh true) ∧
    rebuilt.size = 2 := by
  have ends : ((Follow.map .withUnit).follow (nested 0) (.atom (.int64 1))).Ends (.fresh true)
      (.ok (.ofList [.atom (.int64 1), .atom .unit] .any)) (.fresh true) :=
    EvalM.ends_ofOutcome.mpr ⟨rfl, rfl⟩
  have isA : (Item.tuple .swapped).IsA (.tuple [.kind .int64, .any]) := by
    refine ⟨Tuple.made_view (.ofValues fun x member => ?_) _, rfl⟩
    obtain rfl | rfl := List.mem_pair.mp member <;> exact .atom _
  obtain ⟨pairing, replacing⟩ := pair_and_replace ends fun y _ => rfl
  obtain ⟨pairs, paired, -, count, -⟩ := pairing rfl
  obtain ⟨rebuilt, replaced, -, count', -⟩ := replacing _ 0 _ _ rfl isA rfl
  exact ⟨_, pairs, rebuilt, _, ends, paired, count, rfl, replaced, count'⟩

end GraphQuery
