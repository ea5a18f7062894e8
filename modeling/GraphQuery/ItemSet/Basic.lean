import GraphQuery.ItemSet.Store
/-!
# Item sets

An item set is a store in normal form: pairwise different items under a declared item type, held in
the way that their number asks for. The declared type is advice: nothing checks the items against it.
Two sets are equal when their types are and each contains the items of the other. The order of the
items shows only in the order in which work is done on them.
-/

namespace GraphQuery

/-- A finite set of items with a declared item type. -/
structure ItemSet extends Store where
  normal : held.Normal

namespace ItemSet

/-- The items, those added last before the others. -/
def items (s : ItemSet) : List Item :=
  s.toStore.items

/-- The sum of the items' fingerprints. -/
def digest (s : ItemSet) : UInt64 :=
  s.held.digest

/-- The set that comes about when items are added one after another. Of several equal items the
first is kept. -/
def ofList (xs : List Item) (itemType : ItemType) : ItemSet :=
  ⟨.ofList xs itemType, Held.normal_ofDistinct (pairwise_reverse_firsts xs)⟩

/-- The set of the items of a list, in the order of the list. Of several equal items the first is
kept. -/
def collect (xs : List Item) (itemType : ItemType) : ItemSet :=
  ⟨.ofDistinct (firsts xs) itemType, Held.normal_ofDistinct (pairwise_firsts xs)⟩

/-- The set without items. -/
def empty (itemType : ItemType) : ItemSet :=
  ⟨.empty itemType, trivial⟩

/-- The set of one item. -/
def singleton (x : Item) (itemType : ItemType) : ItemSet :=
  ⟨.singleton x itemType, trivial⟩

instance : Inhabited ItemSet := ⟨empty .any⟩

/-- The number of items. -/
def size (s : ItemSet) : Nat :=
  s.toStore.size

/-- Whether there are no items. -/
def isEmpty (s : ItemSet) : Bool :=
  s.toStore.isEmpty

/-- Whether the item, or one equal to it, is in the set. -/
def contains (s : ItemSet) (x : Item) : Bool :=
  s.toStore.contains x

instance : Membership Item ItemSet := ⟨fun s x => s.contains x = true⟩

instance (s : ItemSet) (x : Item) : Decidable (x ∈ s) :=
  inferInstanceAs (Decidable (s.contains x = true))

/-- The item of a set of one. -/
def only? (s : ItemSet) : Option Item :=
  s.held.only?

/-- The same items under another declared type. -/
def withType (s : ItemSet) (itemType : ItemType) : ItemSet :=
  ⟨s.toStore.withType itemType, s.normal⟩

/-- The items that pass, given one verdict for each. -/
def sift (s : ItemSet) (verdicts : List Bool) : ItemSet :=
  ⟨s.toStore.sift verdicts, Store.normal_sift s.normal verdicts⟩

/-- The subset of the items that pass a test, which is made on each in turn. -/
def filterM {m : Type → Type} [Monad m] (s : ItemSet) (test : Item → m Bool) : m ItemSet :=
  match s.held with
  | .none => return s
  | .one x => return if ← test x then s else .empty s.itemType
  | .many items _ => return s.sift (← items.mapM test)

/-- No two items of a set are equal. -/
theorem distinct (s : ItemSet) : s.items.Pairwise fun a b => (a == b) = false :=
  s.normal.distinct

/-- Some of the items of a set, under another declared type. -/
def part (s : ItemSet) (xs : List Item) (h : xs.Sublist s.items) (itemType : ItemType) : ItemSet :=
  ⟨.ofDistinct xs itemType, Held.normal_ofDistinct (s.distinct.sublist h)⟩

/-- Whether every item of the first set is in the second. -/
def subset (s t : ItemSet) : Bool :=
  s.toStore.subset t.toStore

/-- Whether two sets have the same declared type and the same items. -/
def same (s t : ItemSet) : Bool :=
  s.toStore.same t.toStore

instance : BEq ItemSet := ⟨same⟩

/-- A set is its declared type, the number of its items, and their fingerprint. -/
instance : ByteEncoded ItemSet :=
  ⟨fun s => encode s.itemType ++ Fingerprint.natBytes s.size ++ encode s.digest⟩

instance : Hashable ItemSet := ⟨fingerprint⟩

/-- The written form: the items between braces. -/
def display (s : ItemSet) : String :=
  "\x7b" ++ ", ".intercalate (s.items.map Item.display) ++ "\x7d"

/-- The fingerprint of a set is that of its items. -/
theorem digest_eq (s : ItemSet) : s.digest = unorderedFingerprint s.items :=
  s.normal.digest_eq

/-- A set is determined by its items and its declared type. -/
theorem eq_of_items {s t : ItemSet} (items : s.items = t.items) (itemType : s.itemType = t.itemType) :
    s = t := by
  obtain ⟨⟨type, held⟩, normal⟩ := s
  obtain ⟨⟨type', held'⟩, normal'⟩ := t
  obtain rfl : type = type' := itemType
  have held : held = held' := calc
    held = .ofDistinct held.items := normal.eq_ofDistinct
    _ = .ofDistinct held'.items := congrArg Held.ofDistinct items
    _ = held' := normal'.eq_ofDistinct.symm
  subst held
  rfl

theorem length_items (s : ItemSet) : s.items.length = s.size :=
  s.toStore.length_items

theorem isEmpty_eq (s : ItemSet) : s.isEmpty = s.items.isEmpty :=
  s.toStore.isEmpty_items.symm

theorem mem_iff {s : ItemSet} {x : Item} : x ∈ s ↔ s.items.contains x = true := by
  rw [items, Store.contains_items]
  rfl

theorem mem_iff_exists {s : ItemSet} {x : Item} : x ∈ s ↔ ∃ y ∈ s.items, (x == y) = true :=
  mem_iff.trans List.contains_iff_exists_mem_beq

theorem mem_of_mem_items {s : ItemSet} {x : Item} (member : x ∈ s.items) : x ∈ s :=
  mem_iff_exists.mpr ⟨x, member, BEq.rfl⟩

@[simp]
theorem items_ofList (xs : List Item) (t : ItemType) : (ofList xs t).items = (firsts xs).reverse :=
  Store.items_ofDistinct (firsts xs).reverse t

@[simp]
theorem items_collect (xs : List Item) (t : ItemType) : (collect xs t).items = firsts xs :=
  Store.items_ofDistinct (firsts xs) t

/-- None of several items is left out if no two of them are equal. -/
theorem items_collect_of_distinct {xs : List Item}
    (distinct : xs.Pairwise fun a b => (a == b) = false) (t : ItemType) : (collect xs t).items = xs :=
  (items_collect xs t).trans (firsts_eq_self distinct)

/-- A set is made anew of its items. -/
theorem collect_items (s : ItemSet) (t : ItemType) : collect s.items t = s.withType t :=
  eq_of_items (items_collect_of_distinct s.distinct t) rfl

@[simp]
theorem items_empty (t : ItemType) : (empty t).items = [] := rfl

@[simp]
theorem items_singleton (x : Item) (t : ItemType) : (singleton x t).items = [x] := rfl

@[simp]
theorem items_withType (s : ItemSet) (t : ItemType) : (s.withType t).items = s.items := rfl

@[simp]
theorem items_part (s : ItemSet) {xs : List Item} (h : xs.Sublist s.items) (t : ItemType) :
    (s.part xs h t).items = xs :=
  Store.items_ofDistinct xs t

@[simp]
theorem items_sift (s : ItemSet) (verdicts : List Bool) :
    (s.sift verdicts).items = passed s.items verdicts :=
  s.toStore.items_sift verdicts

theorem items_sift_subset (s : ItemSet) (verdicts : List Bool) : (s.sift verdicts).items ⊆ s.items := by
  rw [items_sift]
  exact (passed_sublist s.items verdicts).subset

theorem mem_of_mem_items_ofList {xs : List Item} {t : ItemType} {x : Item}
    (member : x ∈ (ofList xs t).items) : x ∈ xs := by
  rw [items_ofList, List.mem_reverse] at member
  exact (firsts_sublist xs).subset member

theorem mem_of_mem_items_collect {xs : List Item} {t : ItemType} {x : Item}
    (member : x ∈ (collect xs t).items) : x ∈ xs := by
  rw [items_collect] at member
  exact (firsts_sublist xs).subset member

@[simp]
theorem itemType_withType (s : ItemSet) (t : ItemType) : (s.withType t).itemType = t := rfl

@[simp]
theorem itemType_ofList (xs : List Item) (t : ItemType) : (ofList xs t).itemType = t := rfl

@[simp]
theorem itemType_collect (xs : List Item) (t : ItemType) : (collect xs t).itemType = t := rfl

@[simp]
theorem itemType_part (s : ItemSet) {xs : List Item} (h : xs.Sublist s.items) (t : ItemType) :
    (s.part xs h t).itemType = t := rfl

@[simp]
theorem itemType_sift (s : ItemSet) (verdicts : List Bool) :
    (s.sift verdicts).itemType = s.itemType :=
  s.toStore.itemType_sift verdicts

@[simp]
theorem mem_ofList {xs : List Item} {t : ItemType} {x : Item} :
    x ∈ ofList xs t ↔ xs.contains x = true := by
  simp [mem_iff]

@[simp]
theorem not_mem_empty {t : ItemType} {x : Item} : x ∉ empty t := by
  simp [mem_iff]

@[simp]
theorem mem_singleton {x y : Item} {t : ItemType} : x ∈ singleton y t ↔ (x == y) = true := by
  simp [mem_iff]

@[simp]
theorem mem_withType {s : ItemSet} {t : ItemType} {x : Item} : x ∈ s.withType t ↔ x ∈ s := Iff.rfl

theorem subset_iff {s t : ItemSet} : s.subset t = true ↔ ∀ x ∈ s.items, x ∈ t :=
  Store.subset_iff

end ItemSet

end GraphQuery
