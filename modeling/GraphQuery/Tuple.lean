import GraphQuery.Error
/-!
# Making tuples

A tuple is made from values, typed by what they are or checked against declared slot types, or as a
view that picks slots of another tuple, in any order and with repetition.
-/

namespace GraphQuery

namespace Tuple

/-- The tuple of some values, each slot typed by its value. -/
def ofValues (values : List Item) : Tuple :=
  ⟨values.map fun x => ⟨x, x.typeOf⟩, false⟩

/-- Pairs values with slot types, from slot `i` on, and stops at the first that does not fit. -/
def checkSlots : (i : Nat) → List Item → List ItemType → Except Error (List Slot)
  | i, x :: xs, t :: ts =>
    if t.admits x then
      return ⟨x, t⟩ :: (← checkSlots (i + 1) xs ts)
    else
      throw (.typeMismatch (.tupleSlot i) t x.typeOf)
  | _, [], _ | _, _ :: _, [] => pure []

/-- The tuple of some values under declared slot types, which have to admit them. -/
def ofTyped (values : List Item) (types : List ItemType) : Except Error Tuple :=
  if values.length = types.length then
    return ⟨← checkSlots 0 values types, false⟩
  else
    throw (.invalidArgument (.arity values.length types))

/-- The view whose slot `i` is slot `order[i]` of the tuple. -/
def view (t : Tuple) (order : List (Fin t.arity)) : Tuple :=
  ⟨order.map fun i => t.slot i, true⟩

/-- The view for an order that may name slots the tuple does not have. -/
def permute (t : Tuple) (order : List Nat) : Except Error Tuple :=
  match order.find? (t.arity ≤ ·) with
  | some bad => throw (.invalidArgument (.viewIndex bad t.arity))
  | none => return t.view (order.filterMap fun i => if h : i < t.arity then some ⟨i, h⟩ else none)

@[simp]
theorem types_ofValues (values : List Item) : (ofValues values).types = values.map Item.typeOf := by
  simp [ofValues, types]

@[simp]
theorem values_ofValues (values : List Item) : (ofValues values).values = values := by
  simp [ofValues, Tuple.values, Function.comp_def]

@[simp]
theorem types_view (t : Tuple) (order : List (Fin t.arity)) :
    (t.view order).types = order.map fun i => (t.slot i).declared := by
  simp [view, types, Function.comp_def]

@[simp]
theorem values_view (t : Tuple) (order : List (Fin t.arity)) :
    (t.view order).values = order.map fun i => (t.slot i).value := by
  simp [view, values, Function.comp_def]

end Tuple

end GraphQuery
