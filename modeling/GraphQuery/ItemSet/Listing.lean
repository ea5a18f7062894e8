import GraphQuery.ItemSet.Basic
/-!
# Listing items

An order in which to list the items of a set, so that equal sets are listed alike however they came
about: by kind, and within a kind by value. Nodes are listed by the names that the caller knows them
by, and tuples slot by slot.
-/

namespace GraphQuery

/-- The place of a kind among the kinds of item, which are listed in the order of their
declaration. -/
def Kind.rank (k : Kind) : Nat :=
  k.ctorIdx

section

variable (nameOf : Node → String)

/-- Which of two atoms is listed first. -/
def Atom.listing (a b : Atom) : Ordering :=
  match a, b with
  | .bool a, .bool b => compare a b
  | .int64 a, .int64 b => compare a.toInt b.toInt
  | .int32 a, .int32 b => compare a.toInt b.toInt
  | .uint8 a, .uint8 b => compare a.toNat b.toNat
  | .size a, .size b => compare a b
  | .char a, .char b => compare a.toNat b.toNat
  | .text a, .text b | .literal a, .literal b => compare a b
  | .node a, .node b => compare (nameOf a) (nameOf b)
  | .position q a, .position r b => (compare q r).then (compare (nameOf a) (nameOf b))
  | a, b => compare a.kind.rank b.kind.rank

mutual

/-- Which of two contents is listed first. A tuple comes after those that it begins with. -/
def Content.listing : Content → Content → Ordering
  | .atom a, .atom b => a.listing nameOf b
  | .tuple xs, .tuple ys => Content.listingSlots xs ys
  | .atom _, .tuple _ => .lt
  | .tuple _, .atom _ => .gt

/-- Which of two lists of slots is listed first. -/
def Content.listingSlots : List Content → List Content → Ordering
  | [], [] => .eq
  | [], _ :: _ => .lt
  | _ :: _, [] => .gt
  | x :: xs, y :: ys => (x.listing y).then (Content.listingSlots xs ys)

end

/-- The items of a set in the order of their listing. -/
def ItemSet.listed (s : ItemSet) : List Item :=
  s.items.mergeSort fun x y => (x.content.listing nameOf y.content).isLE

end

end GraphQuery
