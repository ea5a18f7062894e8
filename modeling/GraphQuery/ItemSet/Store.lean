import GraphQuery.ItemSet.Distinct
/-!
# Stores

How the items of a set are held. No item and a single item are held as such, so that these cases,
which are by far the most frequent, take no table; two or more items are held together, with the sum
of their fingerprints. What is held is in normal form if it is held in the way that the number of items
asks for. It is made in normal form and stays so, whatever is done with it: `ofDistinct` is the one
place where the form is chosen.

A store is what is held under a declared item type.
-/

namespace GraphQuery

/-- Items as they are held. -/
inductive Held where
  /-- No items. -/
  | none
  /-- One item. -/
  | one (x : Item)
  /-- Pairwise different items, normally two or more, and the sum of their fingerprints. -/
  | many (items : List Item) (digest : UInt64)

namespace Held

/-- The items, those added last before the others. -/
def items : Held → List Item
  | none => []
  | one x => [x]
  | many items _ => items

/-- The sum of the items' fingerprints. -/
def digest : Held → UInt64
  | none => 0
  | one x => fingerprint x
  | many _ digest => digest

/-- The number of items. -/
def size : Held → Nat
  | none => 0
  | one _ => 1
  | many items _ => items.length

/-- Whether the item, or one equal to it, is held. -/
def contains : Held → Item → Bool
  | none, _ => false
  | one y, x => y == x
  | many items _, x => items.contains x

/-- The item that is held as a single one. -/
def only? : Held → Option Item
  | one x => some x
  | none | many .. => .none

/-- How pairwise different items are held. -/
def ofDistinct : List Item → Held
  | [] => none
  | [x] => one x
  | x :: y :: rest => many (x :: y :: rest) (unorderedFingerprint (x :: y :: rest))

/-- The items are held in the way that their number asks for. Those that are held together are two or
more, no two of them equal, with the sum of their own fingerprints. -/
def Normal : Held → Prop
  | none | one _ => True
  | many items digest => 2 ≤ items.length ∧ (items.Pairwise fun a b => (a == b) = false) ∧
      digest = unorderedFingerprint items

@[simp]
theorem items_one (x : Item) : (one x).items = [x] := rfl

@[simp]
theorem length_items (h : Held) : h.items.length = h.size := by
  cases h <;> rfl

@[simp]
theorem contains_items (h : Held) (x : Item) : h.items.contains x = h.contains x := by
  cases h with
  | none | many => rfl
  | one y => rw [items, contains, List.contains_cons, List.contains_nil, Bool.or_false, BEq.comm]

@[simp]
theorem items_ofDistinct (xs : List Item) : (ofDistinct xs).items = xs := by
  match xs with
  | [] | [_] | _ :: _ :: _ => rfl

theorem eq_one_of_only? {h : Held} {x : Item} (only : h.only? = some x) : h = one x := by
  cases h with
  | none | many => cases only
  | one y => rw [Option.some.inj only]

theorem normal_ofDistinct {xs : List Item} (distinct : xs.Pairwise fun a b => (a == b) = false) :
    (ofDistinct xs).Normal := by
  match xs with
  | [] | [_] => trivial
  | _ :: _ :: rest => exact ⟨Nat.le_add_left 2 rest.length, distinct, rfl⟩

namespace Normal

variable {h : Held} (normal : h.Normal)

include normal

/-- No two items that are held are equal. -/
theorem distinct : h.items.Pairwise fun a b => (a == b) = false := by
  cases h with
  | none => exact .nil
  | one x => exact List.pairwise_singleton _ x
  | many => exact normal.2.1

theorem digest_eq : h.digest = unorderedFingerprint h.items := by
  cases h with
  | none => rfl
  | one x => simp [digest, items]
  | many => exact normal.2.2

/-- How items are held in normal form is determined by the items. -/
theorem eq_ofDistinct : h = ofDistinct h.items := by
  match h, normal with
  | .none, _ | .one _, _ => rfl
  | .many [] _, ⟨long, _⟩ | .many [_] _, ⟨long, _⟩ => simp at long
  | .many (_ :: _ :: _) _, ⟨_, _, rfl⟩ => rfl

theorem eq_none (size : h.size = 0) : h = .none := by
  cases h with
  | none => rfl
  | one => cases size
  | many => exact absurd (size ▸ normal.1 : 2 ≤ 0) (by omega)

theorem eq_one (size : h.size = 1) : ∃ x, h = .one x := by
  cases h with
  | none => cases size
  | one x => exact ⟨x, rfl⟩
  | many => exact absurd (size ▸ normal.1 : 2 ≤ 1) (by omega)

end Normal

end Held

/-- Items under a declared type. -/
structure Store where
  itemType : ItemType
  held : Held

namespace Store

open ItemSet

/-- The items, those added last before the others. -/
def items (s : Store) : List Item :=
  s.held.items

/-- The number of items. -/
def size (s : Store) : Nat :=
  s.held.size

/-- Whether there are no items. -/
def isEmpty (s : Store) : Bool :=
  s.size == 0

/-- Whether the item, or one equal to it, is in the store. -/
def contains (s : Store) (x : Item) : Bool :=
  s.held.contains x

/-- The store without items. -/
def empty (itemType : ItemType) : Store :=
  ⟨itemType, .none⟩

/-- The store of one item. -/
def singleton (x : Item) (itemType : ItemType) : Store :=
  ⟨itemType, .one x⟩

/-- The store of pairwise different items. -/
def ofDistinct (xs : List Item) (itemType : ItemType) : Store :=
  ⟨itemType, .ofDistinct xs⟩

/-- The store that comes about when items are added one after another. Of several equal items the
first is kept. -/
def ofList (xs : List Item) (itemType : ItemType) : Store :=
  ofDistinct (firsts xs).reverse itemType

/-- The same items, held as they were, under another declared type. -/
def withType (s : Store) (itemType : ItemType) : Store :=
  { s with itemType }

/-- The items that pass, given one verdict for each. If all pass the store stays as it is. -/
def sift (s : Store) (verdicts : List Bool) : Store :=
  let kept := passed s.items verdicts
  if kept.length = s.size then s else ofDistinct kept s.itemType

/-- Whether every item of the first store is in the second. -/
def subset (s t : Store) : Bool :=
  (restrict false s.items t.items).isEmpty

/-- Whether two stores have the same declared type and the same items. Stores of different size, and
those that hold items together whose fingerprints differ, are told apart without comparing items. -/
def same (s t : Store) : Bool :=
  s.itemType == t.itemType && s.size == t.size &&
    match s.held, t.held with
    | .many _ digest, .many _ digest' => digest == digest' && s.subset t
    | _, _ => s.subset t

@[simp]
theorem length_items (s : Store) : s.items.length = s.size :=
  s.held.length_items

@[simp]
theorem isEmpty_items (s : Store) : s.items.isEmpty = s.isEmpty := by
  rw [isEmpty, ← length_items]
  cases s.items <;> rfl

@[simp]
theorem contains_items (s : Store) (x : Item) : s.items.contains x = s.contains x :=
  s.held.contains_items x

@[simp]
theorem items_ofDistinct (xs : List Item) (t : ItemType) : (ofDistinct xs t).items = xs :=
  Held.items_ofDistinct xs

/-- Nothing is left out if as many are kept as there were. -/
@[simp]
theorem items_sift (s : Store) (verdicts : List Bool) :
    (s.sift verdicts).items = passed s.items verdicts := by
  dsimp only [sift]
  split
  · next all => exact ((passed_sublist _ _).eq_of_length (all.trans s.length_items.symm)).symm
  · exact items_ofDistinct _ _

@[simp]
theorem itemType_sift (s : Store) (verdicts : List Bool) :
    (s.sift verdicts).itemType = s.itemType := by
  dsimp only [sift]
  split <;> rfl

theorem subset_iff {s t : Store} : s.subset t = true ↔ ∀ x ∈ s.items, t.contains x = true := by
  simp [subset, restrict_eq_filter]

theorem normal_sift {s : Store} (normal : s.held.Normal) (verdicts : List Bool) :
    (s.sift verdicts).held.Normal := by
  dsimp only [sift]
  split
  · exact normal
  · exact Held.normal_ofDistinct (normal.distinct.sublist (passed_sublist _ _))

end Store

end GraphQuery
