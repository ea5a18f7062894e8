import GraphQuery.Error
/-!
# Typed values as items

The types of value that items hold, so that tests, mappings and functions can be written over those
types. A value goes into an item and comes back out of every item of its kind.
-/

namespace GraphQuery

/-- The types whose values are items of one kind. -/
class Datum (α : Type) where
  kind : Kind
  toItem : α → Item
  /-- The value of an item of the kind. -/
  ofItem? : Item → Option α

/-- A fixed text, of another kind than texts that are computed. -/
structure Literal where
  text : String
deriving DecidableEq

/-- A node as part of a query. -/
structure Position where
  query : QueryId
  node : Node
deriving DecidableEq

namespace Datum

/-- The declared type of items that hold an `α`. -/
def itemType (α : Type) [Datum α] : ItemType :=
  .kind (kind α)

instance : Datum Unit where
  kind := .unit
  toItem _ := .atom .unit
  ofItem?
    | .atom .unit => some ()
    | _ => none

instance : Datum Bool where
  kind := .bool
  toItem b := .atom (.bool b)
  ofItem?
    | .atom (.bool b) => some b
    | _ => none

instance : Datum Int64 where
  kind := .int64
  toItem n := .atom (.int64 n)
  ofItem?
    | .atom (.int64 n) => some n
    | _ => none

instance : Datum Int32 where
  kind := .int32
  toItem n := .atom (.int32 n)
  ofItem?
    | .atom (.int32 n) => some n
    | _ => none

instance : Datum UInt8 where
  kind := .uint8
  toItem n := .atom (.uint8 n)
  ofItem?
    | .atom (.uint8 n) => some n
    | _ => none

instance : Datum Nat where
  kind := .size
  toItem n := .atom (.size n)
  ofItem?
    | .atom (.size n) => some n
    | _ => none

instance : Datum Char where
  kind := .char
  toItem c := .atom (.char c)
  ofItem?
    | .atom (.char c) => some c
    | _ => none

instance : Datum String where
  kind := .text
  toItem s := .atom (.text s)
  ofItem?
    | .atom (.text s) => some s
    | _ => none

instance : Datum Literal where
  kind := .literal
  toItem s := .atom (.literal s.text)
  ofItem?
    | .atom (.literal s) => some ⟨s⟩
    | _ => none

instance : Datum Node where
  kind := .node
  toItem n := .atom (.node n)
  ofItem?
    | .atom (.node n) => some n
    | _ => none

instance : Datum Position where
  kind := .position
  toItem p := .atom (.position p.query p.node)
  ofItem?
    | .atom (.position q n) => some ⟨q, n⟩
    | _ => none

instance : Datum Tuple where
  kind := .tuple
  toItem := .tuple
  ofItem?
    | .tuple t => some t
    | .atom _ => none

/-- An item holds itself under whatever kind it has, and is never an item of kind `item`. -/
instance : Datum Item where
  kind := .item
  toItem := id
  ofItem? _ := none

/-- The value that a test or mapping called `name` expects in an item. -/
def expect (α : Type) [Datum α] (name : String) (x : Item) : Except Error α :=
  match ofItem? x with
  | some a => pure a
  | none => throw (.operation (.wrongKind name (kind α) x.kind))

end Datum

end GraphQuery
