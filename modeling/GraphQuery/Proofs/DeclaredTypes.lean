import GraphQuery.Proofs.Congruence
/-!
# Declared types of results

A set is well typed if its declared type admits every item. Unions and differences of well-typed sets
are well typed. An intersection is declared the narrower one of two types and holds the copies of the
smaller set, and nothing says that these come together: equality does not see the slot types of tuples,
so where the smaller set is declared the wider type, its copy of a tuple may be open where the other
set's copy is not. This is the only way in which an intersection is not well typed.
-/

namespace GraphQuery

namespace ItemSet

/-- Every item is a value of the declared type. -/
def WellTyped (s : ItemSet) : Prop :=
  ∀ x ∈ s.items, s.itemType.admits x = true

/-- The set whose copies an intersection holds. -/
def smaller (a b : ItemSet) : ItemSet :=
  if a.size ≤ b.size then a else b

/-- The set in which an intersection looks for the items of the other. -/
def larger (a b : ItemSet) : ItemSet :=
  if a.size ≤ b.size then b else a

variable {a b : ItemSet}

theorem mem_items_intersection {x : Item} :
    x ∈ (a.intersection b).items ↔ x ∈ (smaller a b).items ∧ x ∈ larger a b := by
  rw [items_intersection, smaller, larger]
  split <;> rw [restrict_eq_filter, List.mem_filter, beq_iff_eq, mem_iff]

/-- An intersection with items is declared the narrower one of both types. -/
theorem itemType_intersection_of_mem {x : Item} (member : x ∈ (a.intersection b).items) :
    (a.intersection b).itemType = (smaller a b).itemType.meet (larger a b).itemType := by
  have content : x.content ∈ a.contents ∧ x.content ∈ b.contents :=
    mem_contents_intersection.mp (List.mem_map_of_mem member)
  have filled : a.isEmpty = false :=
    isEmpty_eq_false_iff.mpr ⟨_, mem_essence.mpr content.1⟩
  have filled' : b.isEmpty = false :=
    isEmpty_eq_false_iff.mpr ⟨_, mem_essence.mpr content.2⟩
  rw [itemType_intersection, filled, filled', if_pos rfl, smaller, larger]
  split
  · rfl
  · exact ItemType.meet_comm _ _

/-- The type of a union accepts that of an operand with items. -/
theorem itemType_union_accepts {x : Item} (member : x ∈ a.items) (b : ItemSet) :
    (a.union b).itemType.accepts a.itemType = true := by
  have filled : a.isEmpty = false := by
    rw [isEmpty_eq, List.isEmpty_eq_false_iff_exists_mem]
    exact ⟨x, member⟩
  rw [itemType_union, filled]
  cases b.isEmpty with
  | true => exact ItemType.accepts_refl _
  | false => exact (ItemType.common_accepts ..).1

theorem itemType_union_comm (a b : ItemSet) : (a.union b).itemType = (b.union a).itemType := by
  rw [← essence_itemType, ← essence_itemType, essence_union, essence_union, sup_comm]

namespace WellTyped

/-- An item of a well-typed set, or one equal to it, is a value of a declared type that does not tell
equal items apart. -/
theorem admits_of_blind {s : ItemSet} (typed : s.WellTyped) (blind : s.itemType.Blind) {x : Item}
    (member : x ∈ s) : s.itemType.admits x = true := by
  obtain ⟨y, listed, equal⟩ := mem_iff_exists.mp member
  rw [blind x y equal]
  exact typed y listed

theorem admits_atom {s : ItemSet} (typed : s.WellTyped) {a : Atom} (member : .atom a ∈ s) :
    s.itemType.admits (.atom a) = true := by
  obtain ⟨y, listed, equal⟩ := mem_iff_exists.mp member
  cases y with
  | atom b =>
    obtain rfl : a = b := by simpa [Item.beq_iff] using equal
    exact typed _ listed
  | tuple t => simp [Item.beq_iff] at equal

theorem union (left : a.WellTyped) (right : b.WellTyped) : (a.union b).WellTyped := by
  intro x member
  obtain member | member := mem_items_of_union member
  · exact ItemType.admits_of_accepts (itemType_union_accepts member b) (left x member)
  · rw [itemType_union_comm]
    exact ItemType.admits_of_accepts (itemType_union_accepts member a) (right x member)

theorem subtraction (typed : a.WellTyped) (b : ItemSet) : (a.subtraction b).WellTyped := by
  intro x member
  rw [items_subtraction] at member
  rw [itemType_subtraction]
  exact typed x ((restrict_sublist ..).subset member)

/-- The declared type of an intersection admits an item unless it is that of the larger set and does
not admit the copy of the smaller one. -/
theorem admits_intersection_iff (typed : (smaller a b).WellTyped) {x : Item}
    (member : x ∈ (a.intersection b).items) : (a.intersection b).itemType.admits x = true ↔
      ((smaller a b).itemType.accepts (larger a b).itemType = true →
        (larger a b).itemType.admits x = true) := by
  rw [itemType_intersection_of_mem member]
  by_cases above : (smaller a b).itemType.accepts (larger a b).itemType = true
  · rw [ItemType.meet_of_accepts above, forall_prop_of_true above]
  · refine iff_of_true ?_ fun contra => absurd contra above
    exact ItemType.admits_of_accepts (ItemType.meet_accepts above)
      (typed x (mem_items_intersection.mp member).1)

/-- An intersection is well typed unless it takes over the type of the larger set together with copies
of the smaller one that this type does not admit. -/
theorem intersection_iff (typed : (smaller a b).WellTyped) : (a.intersection b).WellTyped ↔
    ((smaller a b).itemType.accepts (larger a b).itemType = true →
      ∀ x ∈ (smaller a b).items, x ∈ larger a b → (larger a b).itemType.admits x = true) := by
  constructor
  · intro result above x kept found
    have member := mem_items_intersection.mpr ⟨kept, found⟩
    exact (typed.admits_intersection_iff member).mp (result x member) above
  · intro admits x member
    have ⟨kept, found⟩ := mem_items_intersection.mp member
    exact (typed.admits_intersection_iff member).mpr fun above => admits above x kept found

theorem smaller (left : a.WellTyped) (right : b.WellTyped) : (ItemSet.smaller a b).WellTyped := by
  unfold ItemSet.smaller
  split
  exacts [left, right]

theorem larger (left : a.WellTyped) (right : b.WellTyped) : (ItemSet.larger a b).WellTyped := by
  unfold ItemSet.larger
  split
  exacts [right, left]

end WellTyped

/-- Two ways to declare the tuple of the number one, under `any` and with its slot a number. Their
intersection is declared as the second set and holds the tuple of the first. -/
theorem intersection_mistyped :
    let a := singleton .undeclared .any
    let b := singleton .declared (.tuple [.kind .int64])
    a.WellTyped ∧ b.WellTyped ∧ (a.intersection b).items = [.undeclared] ∧
      (a.intersection b).itemType = .tuple [.kind .int64] ∧ ¬(a.intersection b).WellTyped := by
  intro a b
  have items : (a.intersection b).items = [.undeclared] := by rfl
  have itemType : (a.intersection b).itemType = .tuple [.kind .int64] := by rfl
  refine ⟨?_, ?_, items, itemType, fun typed => ?_⟩
  · exact List.forall_mem_singleton.mpr rfl
  · exact List.forall_mem_singleton.mpr rfl
  · have admits := typed .undeclared (items ▸ List.mem_singleton_self _)
    rw [itemType] at admits
    cases admits

/-- Unions and differences of well-typed sets are well typed. So is an intersection, but for copies of
the smaller set that are not values of a narrower type that the larger set is declared, and such copies
can only be tuples. There are none if that type does not tell equal items apart. -/
theorem algebra_well_typed (left : a.WellTyped) (right : b.WellTyped) :
    (a.union b).WellTyped ∧ (a.subtraction b).WellTyped ∧
    ((a.intersection b).WellTyped ↔
      ((smaller a b).itemType.accepts (larger a b).itemType = true →
        ∀ x ∈ (smaller a b).items, x ∈ larger a b → (larger a b).itemType.admits x = true)) ∧
    ((larger a b).itemType.Blind → (a.intersection b).WellTyped) ∧
    ∀ c : Atom, .atom c ∈ (a.intersection b).items →
      (a.intersection b).itemType.admits (.atom c) = true := by
  have kept : (smaller a b).WellTyped := left.smaller right
  have other : (larger a b).WellTyped := left.larger right
  refine ⟨left.union right, left.subtraction b, kept.intersection_iff, fun blind => ?_,
    fun c member => ?_⟩
  · exact kept.intersection_iff.mpr fun _ _ _ found => other.admits_of_blind blind found
  · exact (kept.admits_intersection_iff member).mpr fun _ =>
      other.admits_atom (mem_items_intersection.mp member).2

/-- The same tuples as above, with the second set the smaller one. -/
theorem algebra_well_typed_declared :
    let a := ofList [.undeclared, .atom .unit] .any
    let b := singleton .declared (.tuple [.kind .int64])
    a.WellTyped ∧ b.WellTyped ∧ (a.union b).WellTyped ∧ (a.intersection b).WellTyped := by
  intro a b
  have left : a.WellTyped := fun _ _ => rfl
  have right : b.WellTyped := List.forall_mem_singleton.mpr rfl
  obtain ⟨union, -, intersection, -⟩ := algebra_well_typed left right
  exact ⟨left, right, union, intersection.mpr fun above => nomatch above⟩

end ItemSet

end GraphQuery
