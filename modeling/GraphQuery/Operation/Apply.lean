import GraphQuery.Operation.Equality
import GraphQuery.Tuple
/-!
# Applying operations

What an operation makes of an item and of a set of items. Operations that make selections are given
the way to make them, `select`; nothing else of the evaluation is visible to them.
-/

namespace GraphQuery

/-- The tuple that an item is, if its slot types fit the expected ones. -/
def Item.fitting? (types : List ItemType) : Item → Option { t : Tuple // t.arity = types.length }
  | .tuple t =>
    if h : ItemType.acceptsSlots types t.types = true then
      some ⟨t, by simpa using (ItemType.acceptsSlots_length h).symm⟩
    else
      none
  | .atom _ => none

/-- Why an item does not fit an operation on tuples. -/
def Item.misfit (operation : String) (types : List ItemType) : Item → Error
  | .tuple t => .operation (.wrongTuple operation types t.types)
  | .atom a => .operation (.notTuple operation a.kind)

/-- The value of the slot that an operation on tuples works on. -/
def Tuple.valueAt {types : List ItemType} (t : { t : Tuple // t.arity = types.length })
    (i : Fin types.length) : Item :=
  (t.val.slot (i.cast t.property.symm)).value

/-- What a bound function makes of a tuple of its type. -/
def BoundFunction.applyTo (f : BoundFunction) (t : Tuple) : Except Error Item := do
  let result ← f.call (t.values.drop f.kept)
  if f.returns.admits result then
    if f.kept = 0 then
      return result
    else
      return .tuple (← Tuple.ofTyped (t.values.take f.kept ++ [result]) f.resultTypes)
  else
    throw (.operation (.wrongResult f.name result.kind f.returns))

variable {m : Type → Type} [Monad m] [MonadExceptOf Error m]

/-- Takes over the outcome of a computation without effects. -/
def ofOutcome {α : Type} : Except Error α → m α
  | .ok a => pure a
  | .error e => throw e

section

variable (select : Selection → Item → m ItemSet)

namespace Filter

mutual

/-- Whether an item passes a filter. -/
@[specialize]
def accept : Filter → Item → m Bool
  | .test p, x => ofOutcome (p.test x)
  | .anything _, _ => pure true
  | .equals y _, x => pure (x == y)
  | .every members _, x => acceptEvery members x
  | .counting s c k, x => do return c.holds (← select s x).size k
  | .onSlot types i inner, x =>
    match x.fitting? types with
    | some t => inner.accept (Tuple.valueAt t i)
    | none => throw (x.misfit (Filter.onSlot types i inner).text types)

/-- Whether an item passes every one of some filters. Those after the first that rejects it are not
tried. -/
@[specialize]
def acceptEvery : List Filter → Item → m Bool
  | [], _ => pure true
  | f :: fs, x => do if ← f.accept x then acceptEvery fs x else return false

end

/-- The items of a set that pass. Where every item does, none is looked at. -/
def apply : Filter → ItemSet → m ItemSet
  | .anything _, items => return items
  | f, items => items.filterM (f.accept select)

/-- The set of an item that passes, and otherwise none. -/
def follow (f : Filter) (x : Item) : m ItemSet := do
  return if ← f.accept select x then .singleton x f.itemType else .empty f.itemType

end Filter

namespace Follow

/-- The items that a follow leads to from one item. -/
@[specialize]
def follow : Follow → Item → m ItemSet
  | .map f, x => ofOutcome (f.map x)
  | .filter f, x => f.follow select x
  | .select s, x => select s x
  | .slot types i, x =>
    match x.fitting? types with
    | some t => pure (.singleton (Tuple.valueAt t i) (types.get i))
    | none => throw (x.misfit (Follow.slot types i).text types)
  | .permute types order, x =>
    match x.fitting? types with
    | some t =>
      let view := t.val.view (order.map (Fin.cast t.property.symm))
      pure (.singleton (.tuple view) (Follow.permute types order).outputType)
    | none => throw (x.misfit (Follow.permute types order).text types)
  | .pair inner, x => do
    let reached ← inner.follow x
    let pairs ← ofOutcome <| reached.items.mapM fun y =>
      Tuple.ofTyped [x, y] [inner.inputType, inner.outputType]
    return .collect (pairs.map .tuple) (Follow.pair inner).outputType
  | .onSlot types i inner, x =>
    match x.fitting? types with
    | some t => do
      let reached ← inner.follow (Tuple.valueAt t i)
      let rebuilt ← ofOutcome <| reached.items.mapM fun y =>
        Tuple.ofTyped (t.val.values.set i y) (types.set i inner.outputType)
      return .collect (rebuilt.map .tuple) (Follow.onSlot types i inner).outputType
    | none => throw (x.misfit (Follow.onSlot types i inner).text types)
  | .call f, x =>
    match x.fitting? f.types with
    | some t => do return .singleton (← ofOutcome (f.applyTo t.val)) f.outputType
    | none => throw (x.misfit f.name f.types)

/-- Adds to what has been reached the items that a follow leads to from one more. -/
def addReached (f : Follow) (reached : Array Item) (x : Item) : m (Array Item) := do
  let result ← f.follow select x
  return if result.isEmpty then reached else reached ++ result.items

/-- The items that a follow leads to from any item of a set. A filter keeps the declared type of
the set. What a single item leads to is the result itself, declared as it should be. -/
def apply : Follow → ItemSet → m ItemSet
  | .filter f, items => f.apply select items
  | f, items =>
    match items.only? with
    | some x => do
      let result ← f.follow select x
      return if result.itemType = f.outputType then result else result.withType f.outputType
    | none => do
      let reached ← items.items.foldlM (f.addReached select) #[]
      return .collect reached.toList f.outputType

end Follow

/-- What an operation makes of a set of items. -/
def Operation.apply : Operation → ItemSet → m ItemSet
  | .filter f, items => f.apply select items
  | .follow f, items => f.apply select items
  | .count _, items => pure (.singleton (.atom (.size items.size)) (.kind .size))

end

end GraphQuery
