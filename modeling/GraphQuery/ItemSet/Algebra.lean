import GraphQuery.ItemSet.Basic
/-!
# Union, intersection and difference

The algebra of item sets. Where both operands hold an item, the copy of the operand named in each
definition is kept. An empty operand leaves the other as it is, its declared type included; two
operands with items agree on the common type of theirs, or on the narrower one for an intersection.

Operands without items or with a single one have ways of their own, and so has the union of a set with
a part of it. The theorems on the items of each result say that these ways give what the general one
does.
-/

namespace GraphQuery

namespace Store

open ItemSet

/-- The items of a store, and those of another that it does not hold. If there are none of these it
stays as it is, but for its type. -/
def extend (s t : Store) (itemType : ItemType) : Store :=
  if t.subset s then
    if s.itemType = itemType then s else s.withType itemType
  else
    ofDistinct (restrict false t.items s.items ++ s.items) itemType

/-- Every item of either store. Shared items are kept as the larger one has them, or the first of two
of one size. -/
def union (a b : Store) : Store :=
  if a.isEmpty then
    if b.isEmpty then empty (a.itemType.common b.itemType) else b
  else if b.isEmpty then
    a
  else
    let itemType := a.itemType.common b.itemType
    if b.size ≤ a.size then a.extend b itemType else b.extend a itemType

/-- The items of both stores, as the smaller one has them, or the first of two of one size. -/
def intersection (a b : Store) : Store :=
  let itemType := a.itemType.meet b.itemType
  if a.isEmpty then
    if b.isEmpty then empty itemType else a
  else if b.isEmpty then
    b
  else
    match a.held.only?, b.held.only? with
    | some x, _ => if b.contains x then singleton x itemType else empty itemType
    | none, some y => if a.contains y then singleton y itemType else empty itemType
    | none, none =>
      if a.size ≤ b.size then ofDistinct (restrict true a.items b.items) itemType
      else ofDistinct (restrict true b.items a.items) itemType

/-- The items of the first store that are not in the second, under the type of the first. -/
def subtraction (a b : Store) : Store :=
  if a.isEmpty || b.isEmpty then
    a
  else
    match a.held.only? with
    | some x => if b.contains x then empty a.itemType else a
    | none => ofDistinct (restrict false a.items b.items) a.itemType

variable {a b : Store}

theorem items_eq_nil (empty : a.isEmpty = true) : a.items = [] := by
  rwa [← isEmpty_items, List.isEmpty_iff] at empty

theorem items_of_only? {x : Item} (only : a.held.only? = some x) : a.items = [x] := by
  rw [items, Held.eq_one_of_only? only, Held.items_one]

theorem size_of_only? {x : Item} (only : a.held.only? = some x) : a.size = 1 := by
  rw [size, Held.eq_one_of_only? only]
  rfl

theorem restrict_one (wanted : Bool) (x : Item) (b : Store) :
    restrict wanted [x] b.items = if b.contains x = wanted then [x] else [] := by
  rw [restrict_eq_filter, List.filter_cons, List.filter_nil, contains_items]
  simp only [beq_iff_eq]

@[simp]
theorem items_extend (s t : Store) (type : ItemType) :
    (s.extend t type).items = restrict false t.items s.items ++ s.items := by
  unfold extend
  split
  · next inside =>
    rw [List.isEmpty_iff.mp inside, List.nil_append]
    split <;> rfl
  · exact items_ofDistinct _ _

@[simp]
theorem itemType_extend (s t : Store) (type : ItemType) : (s.extend t type).itemType = type := by
  unfold extend
  split
  · split
    · next same => exact same
    · rfl
  · rfl

theorem items_union (a b : Store) : (a.union b).items =
    if a.isEmpty then b.items
    else if b.isEmpty then a.items
    else if b.size ≤ a.size then restrict false b.items a.items ++ a.items
    else restrict false a.items b.items ++ b.items := by
  unfold union
  split
  · split
    · next none => exact (items_eq_nil none).symm
    · rfl
  · split
    · rfl
    · dsimp only
      split
      · exact items_extend a b _
      · exact items_extend b a _

/-- The type of a union is the common type of the operands that hold items, or of both if neither
does. -/
theorem itemType_union (a b : Store) : (a.union b).itemType =
    if a.isEmpty = b.isEmpty then a.itemType.common b.itemType
    else if a.isEmpty then b.itemType else a.itemType := by
  unfold union
  cases a.isEmpty <;> cases b.isEmpty <;>
    simp only [Bool.false_eq_true, Bool.true_eq_false, if_false, if_true]
  · split
    · exact itemType_extend a b _
    · exact itemType_extend b a _
  · rfl

/-- An intersection holds what the smaller operand has in common with the other. -/
theorem items_intersection (normal : a.held.Normal) (b : Store) : (a.intersection b).items =
    if a.size ≤ b.size then restrict true a.items b.items else restrict true b.items a.items := by
  have unshared (xs : List Item) : restrict true [] xs = [] := restrict_eq_filter true [] xs
  unfold intersection
  dsimp only
  split
  · next none =>
    have size : a.size = 0 := beq_iff_eq.mp none
    rw [items_eq_nil none, size, if_pos (Nat.zero_le _), unshared]
    split
    · rfl
    · exact items_eq_nil none
  · next filled =>
    have positive : a.size ≠ 0 := fun size => filled (beq_iff_eq.mpr size)
    split
    · next none =>
      have size : b.size = 0 := beq_iff_eq.mp none
      rw [items_eq_nil none, size, if_neg (by omega), unshared]
    · next filled' =>
      have positive' : b.size ≠ 0 := fun size => filled' (beq_iff_eq.mpr size)
      split
      · next x only =>
        have short : a.size ≤ b.size := by
          have size := size_of_only? only
          omega
        rw [items_of_only? only, restrict_one, if_pos short]
        split <;> rfl
      · next y several only =>
        -- a single item in normal form is held as such, so there are two or more here
        have longer : ¬a.size ≤ b.size := fun le => by
          have size := size_of_only? only
          obtain ⟨x, single⟩ := normal.eq_one (show a.size = 1 by omega)
          rw [single] at several
          cases several
        rw [items_of_only? only, restrict_one, if_neg longer]
        split <;> rfl
      · split <;> exact items_ofDistinct _ _

/-- The type of an intersection is the narrower one of operands that hold items, or of two that hold
none, and otherwise that of the operand without items. -/
theorem itemType_intersection (a b : Store) : (a.intersection b).itemType =
    if a.isEmpty = b.isEmpty then a.itemType.meet b.itemType
    else if a.isEmpty then a.itemType else b.itemType := by
  unfold intersection
  cases a.isEmpty <;> cases b.isEmpty <;>
    simp only [Bool.false_eq_true, Bool.true_eq_false, if_false, if_true]
  · split <;> split <;> rfl
  · rfl

theorem items_subtraction (a b : Store) :
    (a.subtraction b).items = restrict false a.items b.items := by
  unfold subtraction
  split
  · next none =>
    obtain none | none := Bool.or_eq_true_iff.mp none
    · rw [items_eq_nil none, restrict_eq_filter, List.filter_nil]
    · rw [items_eq_nil none, restrict_eq_filter]
      exact (List.filter_eq_self.mpr fun _ _ => rfl).symm
  · split
    · next x only =>
      rw [items_of_only? only, restrict_one]
      cases b.contains x with
      | true => rfl
      | false => exact items_of_only? only
    · exact items_ofDistinct _ _

@[simp]
theorem itemType_subtraction (a b : Store) : (a.subtraction b).itemType = a.itemType := by
  unfold subtraction
  split
  · rfl
  · split
    · split <;> rfl
    · rfl

/-! Normal form is kept -/

theorem normal_extend (normal : a.held.Normal) (normal' : b.held.Normal) (type : ItemType) :
    (a.extend b type).held.Normal := by
  unfold extend
  split
  · split <;> exact normal
  · refine Held.normal_ofDistinct (List.pairwise_append.mpr
      ⟨normal'.distinct.sublist (restrict_sublist ..), normal.distinct, fun x fresh y member => ?_⟩)
    rw [restrict_eq_filter, List.mem_filter] at fresh
    have absent : a.items.contains x = false := by simpa using fresh.2
    rw [← Bool.not_eq_true, List.contains_iff_exists_mem_beq] at absent
    exact Bool.eq_false_iff.mpr fun equal => absent ⟨y, member, equal⟩

theorem normal_union (normal : a.held.Normal) (normal' : b.held.Normal) :
    (a.union b).held.Normal := by
  unfold union
  split
  · split
    · trivial
    · exact normal'
  · split
    · exact normal
    · dsimp only
      split
      · exact normal_extend normal normal' _
      · exact normal_extend normal' normal _

theorem normal_restrict (normal : a.held.Normal) (wanted : Bool) (xs : List Item) (type : ItemType) :
    (ofDistinct (restrict wanted a.items xs) type).held.Normal :=
  Held.normal_ofDistinct (normal.distinct.sublist (restrict_sublist ..))

theorem normal_intersection (normal : a.held.Normal) (normal' : b.held.Normal) :
    (a.intersection b).held.Normal := by
  unfold intersection
  dsimp only
  split
  · split
    · trivial
    · exact normal
  · split
    · exact normal'
    · split
      · split <;> trivial
      · split <;> trivial
      · split
        · exact normal_restrict normal ..
        · exact normal_restrict normal' ..

theorem normal_subtraction (normal : a.held.Normal) (b : Store) :
    (a.subtraction b).held.Normal := by
  unfold subtraction
  split
  · exact normal
  · split
    · split
      · trivial
      · exact normal
    · exact normal_restrict normal ..

end Store

namespace ItemSet

/-- Every item of either set. Shared items are kept as the larger set has them, or the first of two
sets of one size. -/
def union (a b : ItemSet) : ItemSet :=
  ⟨a.toStore.union b.toStore, Store.normal_union a.normal b.normal⟩

/-- The items of both sets, as the smaller set has them, or the first of two sets of one size. -/
def intersection (a b : ItemSet) : ItemSet :=
  ⟨a.toStore.intersection b.toStore, Store.normal_intersection a.normal b.normal⟩

/-- The items of the first set that are not in the second, under the type of the first. -/
def subtraction (a b : ItemSet) : ItemSet :=
  ⟨a.toStore.subtraction b.toStore, Store.normal_subtraction a.normal b.toStore⟩

theorem items_union (a b : ItemSet) : (a.union b).items =
    if a.isEmpty then b.items
    else if b.isEmpty then a.items
    else if b.size ≤ a.size then restrict false b.items a.items ++ a.items
    else restrict false a.items b.items ++ b.items :=
  a.toStore.items_union b.toStore

/-- The declared type of a union depends on those of its operands and on which of them hold items. -/
theorem itemType_union (a b : ItemSet) : (a.union b).itemType =
    if a.isEmpty = b.isEmpty then a.itemType.common b.itemType
    else if a.isEmpty then b.itemType else a.itemType :=
  a.toStore.itemType_union b.toStore

theorem items_intersection (a b : ItemSet) : (a.intersection b).items =
    if a.size ≤ b.size then restrict true a.items b.items else restrict true b.items a.items :=
  Store.items_intersection a.normal b.toStore

theorem itemType_intersection (a b : ItemSet) : (a.intersection b).itemType =
    if a.isEmpty = b.isEmpty then a.itemType.meet b.itemType
    else if a.isEmpty then a.itemType else b.itemType :=
  a.toStore.itemType_intersection b.toStore

@[simp]
theorem items_subtraction (a b : ItemSet) :
    (a.subtraction b).items = restrict false a.items b.items :=
  a.toStore.items_subtraction b.toStore

@[simp]
theorem itemType_subtraction (a b : ItemSet) : (a.subtraction b).itemType = a.itemType :=
  a.toStore.itemType_subtraction b.toStore

end ItemSet

end GraphQuery
