import GraphQuery.Operation.Basic
/-!
# Making operations

The checked ways to make operations. Slots have to exist and types have to fit where an operation
is made, so that afterwards it fails only on items that are not of its type. Tests, mappings and
functions over typed values fail on items of another kind.
-/

namespace GraphQuery

/-- The test that gives the same verdict on every item of one kind. -/
def Predicate.constant (id : Nat) (name : String) (kind : Kind) (verdict : Bool) : Predicate :=
  ⟨id, name, .kind kind, fun x =>
    if x.kind = kind then pure verdict else throw (.operation (.wrongKind name kind x.kind))⟩

/-- The test that `test` makes of the values of type `α`. -/
def Predicate.typed {α : Type} [Datum α] (id : Nat) (name : String) (test : α → Bool) :
    Predicate :=
  ⟨id, name, Datum.itemType α, fun x => test <$> Datum.expect α name x⟩

/-- The mapping that leads from each value of type `α` to some of type `β`. -/
def Mapping.typed {α β : Type} [Datum α] [Datum β] (id : Nat) (name : String)
    (map : α → List β) : Mapping where
  id
  name
  inputType := Datum.itemType α
  outputType := Datum.itemType β
  map x := do
    let a ← Datum.expect α name x
    return .ofList ((map a).map Datum.toItem) (Datum.itemType β)

/-- The slot of a tuple type that a number names. -/
def slotIndex (types : List ItemType) (i : Nat) : Except Error (Fin types.length) :=
  if h : i < types.length then
    pure ⟨i, h⟩
  else
    throw (.invalidArgument (.slotIndex i types))

namespace Filter

/-- The filter for items equal to a value. -/
def equalTo (x : Item) : Filter :=
  .equals x x.typeOf

/-- The filters that a conjunction tries one after another. -/
def members : Filter → List Filter
  | .every inner _ => inner
  | f => [f]

/-- The conjunction of some filters. Members that are conjunctions are replaced by their own. -/
def conjunction (filters : List Filter) (itemType : ItemType) : Filter :=
  .every (filters.flatMap members) itemType

/-- The filter for tuples with a slot that passes. The slot's type has to suit the inner filter. -/
def onSlotOf (types : List ItemType) (index : Nat) (inner : Filter) : Except Error Filter := do
  let i ← slotIndex types index
  if inner.itemType.accepts (types.get i) then
    return .onSlot types i inner
  else
    throw (.typeMismatch (.slotFor index types inner.text) inner.itemType (types.get i))

end Filter

namespace Follow

/-- The follow to one slot of a tuple. -/
def slotOf (types : List ItemType) (index : Nat) : Except Error Follow :=
  return .slot types (← slotIndex types index)

/-- The follow to the view of a tuple in another order. -/
def permuteOf (types : List ItemType) (order : List Nat) : Except Error Follow :=
  return .permute types (← order.mapM (slotIndex types))

/-- The follow that replaces a slot. The slot's type has to suit the inner follow. -/
def onSlotOf (types : List ItemType) (index : Nat) (inner : Follow) : Except Error Follow := do
  let i ← slotIndex types index
  if inner.inputType.accepts (types.get i) then
    return .onSlot types i inner
  else
    throw (.typeMismatch (.slotFor index types inner.text) inner.inputType (types.get i))

end Follow

/-- The selection between nodes of a query, which has to contain them. -/
def Selection.within (query : Query) (start : Node) (stop? : Option Node) :
    Except Error Selection :=
  match (start :: stop?.toList).find? fun n => !query.containsNode n with
  | some n => throw (.invalidArgument (.foreignNode n query.id))
  | none => return ⟨query, start, stop?⟩

namespace BoundFunction

/-- Checks that slot types suit the parameters they are given to, from parameter `i` on. -/
def checkArguments (name : String) :
    (i : Nat) → (params given : List ItemType) → Except Error Unit
  | i, p :: ps, t :: ts =>
    if p.accepts t then
      checkArguments name (i + 1) ps ts
    else
      throw (.typeMismatch (.argument i name) p t)
  | _, [], _ | _, _ :: _, [] => pure ()

/-- Binds a function to the last slots of the tuples of a type. It has to have a parameter, and the
tuples a suitable slot for every parameter. -/
def bind (id : Nat) (name : String) (types params : List ItemType) (returns : ItemType)
    (call : List Item → Except Error Item) : Except Error BoundFunction := do
  if params.isEmpty then
    throw (.invalidArgument (.noReceiver name))
  if types.length < params.length then
    throw (.typeMismatch (.arguments name) (.tuple params) (.tuple types))
  checkArguments name 0 params (types.drop (types.length - params.length))
  return ⟨id, name, types, params, returns, call⟩

/-- The value of one argument of a typed function. -/
def argument (α : Type) [Datum α] (name : String) (arguments : List Item) (i : Nat) :
    Except Error α :=
  match arguments[i]? >>= Datum.ofItem? with
  | some a => pure a
  | none => throw (.operation (.wrongArgument i name (Datum.kind α)))

/-- Binds a typed function of one argument to the last slot. -/
def unary {α β : Type} [Datum α] [Datum β] (id : Nat) (name : String) (types : List ItemType)
    (function : α → β) : Except Error BoundFunction :=
  bind id name types [Datum.itemType α] (Datum.itemType β) fun arguments => do
    let a ← argument α name arguments 0
    return Datum.toItem (function a)

/-- Binds a typed function of two arguments to the last two slots. -/
def binary {α β γ : Type} [Datum α] [Datum β] [Datum γ] (id : Nat) (name : String)
    (types : List ItemType) (function : α → β → γ) : Except Error BoundFunction :=
  bind id name types [Datum.itemType α, Datum.itemType β] (Datum.itemType γ) fun arguments => do
    let a ← argument α name arguments 0
    let b ← argument β name arguments 1
    return Datum.toItem (function a b)

end BoundFunction

end GraphQuery
