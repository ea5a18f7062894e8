import GraphQuery.Fingerprint
/-!
# Item types

The types that nodes and operations declare for the items that pass through them. A type is the
top type `any`, one kind of value, or a list of slot types for tuples. `accepts` orders types by
what may stand where they are expected, `common` is the least type above two others, and `meet` is
the narrower of two related types.
-/

namespace GraphQuery

/-- The kinds of value. Every tuple is of kind `tuple`; no value is of kind `item`, which only
declares that anything may be produced, and none of a `foreign` kind, which a type declares for values
that nothing here makes. -/
inductive Kind where
  | unit
  | bool
  | int64
  | int32
  | uint8
  | size
  | char
  | text
  | literal
  | node
  | position
  | tuple
  | item
  | foreign (name : String)
deriving DecidableEq, Repr

/-- The name of a kind as messages spell it. -/
def Kind.name : Kind → String
  | .unit => "()"
  | .bool => "bool"
  | .int64 => "i64"
  | .int32 => "i32"
  | .uint8 => "u8"
  | .size => "usize"
  | .char => "char"
  | .text => "alloc::string::String"
  | .literal => "&str"
  | .node => "trellis_query::graph::node::Node"
  | .position => "trellis_query::tools::Position"
  | .tuple => "trellis_core::tuple::Tuple"
  | .item => "trellis_core::item::Item"
  | .foreign name => name

/-- The bytes of a kind: a word, and its name if it is foreign. -/
def Kind.bytes (k : Kind) : List UInt8 :=
  match k with
  | .foreign name => Fingerprint.natBytes k.ctorIdx ++ encode name
  | _ => Fingerprint.natBytes k.ctorIdx

instance : ByteEncoded Kind := ⟨Kind.bytes⟩

/-- A declared type of items. -/
inductive ItemType where
  /-- Every item. -/
  | any
  /-- The values of one kind. -/
  | kind (k : Kind)
  /-- The tuples whose own slot types fit these. -/
  | tuple (slots : List ItemType)
deriving Repr

namespace ItemType

mutual

private def decEq : (a b : ItemType) → Decidable (a = b)
  | .any, .any => isTrue rfl
  | .kind k, .kind l => decidable_of_iff (k = l) (by simp)
  | .tuple xs, .tuple ys =>
    have := decEqSlots xs ys
    decidable_of_iff (xs = ys) (by simp)
  | .any, .kind _ | .any, .tuple _ | .kind _, .any => isFalse nofun
  | .kind _, .tuple _ | .tuple _, .any | .tuple _, .kind _ => isFalse nofun

private def decEqSlots : (xs ys : List ItemType) → Decidable (xs = ys)
  | [], [] => isTrue rfl
  | x :: xs, y :: ys =>
    have := decEq x y
    have := decEqSlots xs ys
    decidable_of_iff (x = y ∧ xs = ys) (by simp)
  | [], _ :: _ | _ :: _, [] => isFalse nofun

end

instance : DecidableEq ItemType := decEq

mutual

/-- Whether every value of the second type may stand where the first is expected. -/
def accepts : ItemType → ItemType → Bool
  | .any, _ => true
  | .kind k, .kind l => k == l
  | .tuple ts, .tuple us => acceptsSlots ts us
  | .kind _, .any | .kind _, .tuple _ | .tuple _, .any | .tuple _, .kind _ => false

/-- Slot types accept others of the same number, slot by slot. -/
def acceptsSlots : List ItemType → List ItemType → Bool
  | [], [] => true
  | t :: ts, u :: us => t.accepts u && acceptsSlots ts us
  | [], _ :: _ | _ :: _, [] => false

end

mutual

/-- The narrowest type that accepts both: one of the two if it accepts the other, and the common types
slot by slot for tuples of one arity. -/
def common (a b : ItemType) : ItemType :=
  if a.accepts b then
    a
  else if b.accepts a then
    b
  else
    match a, b with
    | .tuple ts, .tuple us => if ts.length = us.length then .tuple (commonSlots ts us) else .any
    | .any, _ | .kind _, _ | .tuple _, .any | .tuple _, .kind _ => .any

/-- The common types of two lists of slots, slot by slot. -/
def commonSlots : List ItemType → List ItemType → List ItemType
  | t :: ts, u :: us => t.common u :: commonSlots ts us
  | [], _ | _ :: _, [] => []

end

/-- The narrower of two types. Unrelated types give their common type, so that the choice never
depends on the order of the two. -/
def meet (a b : ItemType) : ItemType :=
  if a.accepts b then b else if b.accepts a then a else a.common b

/-- The slot types of a tuple type. -/
def slots? : ItemType → Option (List ItemType)
  | .tuple ts => some ts
  | .any | .kind _ => none

mutual

/-- The written form: `any`, the name of the kind, or the slots in parentheses. -/
def text : ItemType → String
  | .any => "any"
  | .kind k => k.name
  | .tuple ts => "(" ++ ",".intercalate (slotTexts ts) ++ ")"

/-- The written forms of the slots of a tuple type. -/
def slotTexts : List ItemType → List String
  | [] => []
  | t :: ts => t.text :: slotTexts ts

end

mutual

/-- The bytes of a type: a word for its form, and then the kind, or the slots with their number. -/
def bytes : ItemType → List UInt8
  | .any => Fingerprint.natBytes 0
  | .kind k => Fingerprint.natBytes 1 ++ encode k
  | .tuple ts => Fingerprint.natBytes 2 ++ Fingerprint.natBytes ts.length ++ slotBytes ts

/-- The bytes of the slots of a tuple type, in order. -/
def slotBytes : List ItemType → List UInt8
  | [] => []
  | t :: ts => t.bytes ++ slotBytes ts

end

instance : ByteEncoded ItemType := ⟨bytes⟩

theorem acceptsSlots_length {ts us : List ItemType} (h : acceptsSlots ts us = true) :
    ts.length = us.length := by
  induction ts generalizing us with
  | nil => cases us <;> simp_all [acceptsSlots]
  | cons t ts ih =>
    cases us with
    | nil => simp [acceptsSlots] at h
    | cons u us =>
      simp only [acceptsSlots, Bool.and_eq_true] at h
      simp [ih h.2]

@[simp]
theorem any_accepts (t : ItemType) : any.accepts t = true := by
  cases t <;> rfl

end ItemType

end GraphQuery
