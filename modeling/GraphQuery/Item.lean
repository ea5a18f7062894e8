import GraphQuery.Node
import GraphQuery.Quoted
/-!
# Items

The values that flow through a query graph: atoms of the basic kinds, and tuples of items. A tuple
carries a declared type for each slot and remembers whether it was made as a view of another tuple.
Neither shows in equality: two items are equal when their contents are, and equal items have equal
fingerprints.
-/

namespace GraphQuery

/-- A value without slots. A position is a node taken as part of a particular query. -/
inductive Atom where
  | unit
  | bool (b : Bool)
  | int64 (n : Int64)
  | int32 (n : Int32)
  | uint8 (n : UInt8)
  | size (n : Nat)
  | char (c : Char)
  | text (s : String)
  | literal (s : String)
  | node (n : Node)
  | position (query : QueryId) (node : Node)
deriving DecidableEq

namespace Atom

/-- The kind of an atom. -/
def kind : Atom → Kind
  | .unit => .unit
  | .bool _ => .bool
  | .int64 _ => .int64
  | .int32 _ => .int32
  | .uint8 _ => .uint8
  | .size _ => .size
  | .char _ => .char
  | .text _ => .text
  | .literal _ => .literal
  | .node _ => .node
  | .position .. => .position

/-- The bytes of an atom: a byte for its kind, then its value. -/
def bytes : Atom → List UInt8
  | .unit => [0]
  | .bool b => 1 :: encode b
  | .int64 n => 2 :: encode n
  | .int32 n => 3 :: encode n
  | .uint8 n => 4 :: encode n
  | .size n => 5 :: Fingerprint.natBytes n
  | .char c => 6 :: encode c.val
  | .text s => 7 :: encode s
  | .literal s => 8 :: encode s
  | .node n => 9 :: encode n
  | .position q n => 10 :: Fingerprint.natBytes q ++ encode n

/-- The written form of an atom. A node shows its label. -/
def display : Atom → String
  | .unit => "()"
  | .bool b => if b then "true" else "false"
  | .int64 n => toString n.toInt
  | .int32 n => toString n.toInt
  | .uint8 n => toString n.toNat
  | .size n => toString n
  | .char c => Quoted.char c
  | .text s => Quoted.string s
  | .literal s => Quoted.string s
  | .node n => "Node(" ++ n.label ++ ")"
  | .position _ n => "Position(" ++ n.label ++ ")"

end Atom

mutual

/-- A value that can be a member of an item set. -/
inductive Item where
  | atom (a : Atom)
  | tuple (t : Tuple)

/-- A record of fixed arity. A view picks its slots out of another tuple. -/
structure Tuple where
  slots : List Slot
  isView : Bool

/-- One slot of a tuple: its value, and the type declared for it. -/
structure Slot where
  value : Item
  declared : ItemType

end

/-- What an item holds: its atoms and how tuples group them, without declared types or views. -/
inductive Content where
  | atom (a : Atom)
  | tuple (slots : List Content)

namespace Content

mutual

private def decEq : (a b : Content) → Decidable (a = b)
  | .atom a, .atom b => decidable_of_iff (a = b) (by simp)
  | .tuple xs, .tuple ys =>
    have := decEqSlots xs ys
    decidable_of_iff (xs = ys) (by simp)
  | .atom _, .tuple _ | .tuple _, .atom _ => isFalse nofun

private def decEqSlots : (xs ys : List Content) → Decidable (xs = ys)
  | [], [] => isTrue rfl
  | x :: xs, y :: ys =>
    have := decEq x y
    have := decEqSlots xs ys
    decidable_of_iff (x = y ∧ xs = ys) (by simp)
  | [], _ :: _ | _ :: _, [] => isFalse nofun

end

instance : DecidableEq Content := decEq

mutual

/-- The bytes of a content: those of an atom, or the number of slots and then the slots. -/
def bytes : Content → List UInt8
  | .atom a => a.bytes
  | .tuple slots => 11 :: Fingerprint.natBytes slots.length ++ slotBytes slots

/-- The bytes of the slots of a tuple, in order. -/
def slotBytes : List Content → List UInt8
  | [] => []
  | c :: cs => c.bytes ++ slotBytes cs

end

instance : ByteEncoded Content := ⟨bytes⟩

mutual

/-- The written form of a content. A tuple of one slot keeps a comma, and one of none is empty. -/
def display : Content → String
  | .atom a => a.display
  | .tuple [] => ""
  | .tuple [c] => "(" ++ c.display ++ ",)"
  | .tuple (c :: d :: cs) => "(" ++ ", ".intercalate (slotDisplays (c :: d :: cs)) ++ ")"

/-- The written forms of the slots of a tuple, in order. -/
def slotDisplays : List Content → List String
  | [] => []
  | c :: cs => c.display :: slotDisplays cs

end

end Content

namespace Tuple

/-- The declared slot types. -/
def types (t : Tuple) : List ItemType :=
  t.slots.map Slot.declared

/-- The slot values, in order. -/
def values (t : Tuple) : List Item :=
  t.slots.map Slot.value

/-- The number of slots. -/
def arity (t : Tuple) : Nat :=
  t.slots.length

/-- A slot of the tuple. -/
def slot (t : Tuple) (i : Fin t.arity) : Slot :=
  t.slots.get i

/-- The value in a slot. -/
def get? (t : Tuple) (i : Nat) : Option Item :=
  t.slots[i]?.map Slot.value

@[simp]
theorem length_types (t : Tuple) : t.types.length = t.arity := by
  simp [types, arity]

@[simp]
theorem length_values (t : Tuple) : t.values.length = t.arity := by
  simp [values, arity]

end Tuple

namespace Item

/-- The kind of an item. -/
def kind : Item → Kind
  | .atom a => a.kind
  | .tuple _ => .tuple

/-- The narrowest type of an item. -/
def typeOf : Item → ItemType
  | .atom a => .kind a.kind
  | .tuple t => .tuple t.types

mutual

/-- What an item holds. -/
def content : Item → Content
  | .atom a => .atom a
  | .tuple ⟨slots, _⟩ => .tuple (slotContents slots)

/-- What the slots of a tuple hold. -/
def slotContents : List Slot → List Content
  | [] => []
  | ⟨value, _⟩ :: rest => value.content :: slotContents rest

end

@[simp]
theorem content_atom (a : Atom) : (atom a).content = .atom a := rfl

theorem slotContents_eq_map (slots : List Slot) :
    slotContents slots = slots.map fun s => s.value.content := by
  induction slots with
  | nil => rfl
  | cons s rest ih => cases s; simp only [slotContents, List.map_cons, ih]

@[simp]
theorem content_tuple (t : Tuple) : (tuple t).content = .tuple (t.values.map content) := by
  obtain ⟨slots, isView⟩ := t
  exact congrArg Content.tuple ((slotContents_eq_map slots).trans (by simp [Tuple.values]))

/-- Items that hold the same are the same or both tuples. -/
theorem eq_or_tuple_of_content {x y : Item} (same : x.content = y.content) :
    x = y ∨ ∃ t u, x = .tuple t ∧ y = .tuple u := by
  cases x with
  | atom a =>
    cases y with
    | atom b => exact .inl (congrArg atom (Content.atom.inj same))
    | tuple u => cases (content_atom a).symm.trans (same.trans (content_tuple u))
  | tuple t =>
    cases y with
    | atom b => cases (content_tuple t).symm.trans (same.trans (content_atom b))
    | tuple u => exact .inr ⟨t, u, rfl, rfl⟩

/-- Only an atom holds what an atom does. -/
theorem eq_atom_of_content {x : Item} {a : Atom} (same : x.content = .atom a) : x = .atom a := by
  obtain rfl | ⟨t, u, rfl, contra⟩ := eq_or_tuple_of_content (y := .atom a) same
  · rfl
  · cases contra

/-- Two items are the same when they hold the same. -/
def same : Item → Item → Bool
  | .atom a, .atom b => decide (a = b)
  | a, b => decide (a.content = b.content)

instance : BEq Item := ⟨same⟩

theorem beq_iff {a b : Item} : (a == b) = true ↔ a.content = b.content := by
  change same a b = true ↔ _
  unfold same
  split <;> simp

instance : EquivBEq Item where
  symm h := beq_iff.2 (beq_iff.1 h).symm
  trans h k := beq_iff.2 ((beq_iff.1 h).trans (beq_iff.1 k))
  rfl := beq_iff.2 rfl

instance : ByteEncoded Item := ⟨fun x => encode x.content⟩

instance : Hashable Item := ⟨fingerprint⟩

/-- Equal items have equal fingerprints. -/
theorem fingerprint_congr {a b : Item} (h : (a == b) = true) : fingerprint a = fingerprint b := by
  simp only [fingerprint, encode, beq_iff.1 h]

instance : LawfulHashable Item := ⟨fun _ _ => fingerprint_congr⟩

/-- The written form of an item. -/
def display (x : Item) : String :=
  x.content.display

end Item

/-- Whether an item is a value of a type. A tuple is judged by its declared slot types, and every
tuple is of kind `tuple`. -/
def ItemType.admits : ItemType → Item → Bool
  | .any, _ => true
  | .kind k, x => x.kind == k
  | .tuple ts, .tuple t => ItemType.acceptsSlots ts t.types
  | .tuple _, .atom _ => false

end GraphQuery
