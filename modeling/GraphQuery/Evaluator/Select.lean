import GraphQuery.Evaluator.State
import GraphQuery.Operation.Apply
/-!
# Making selections

A selection finds all items that arrive at one node when items are sent along the walks of a query
from another. Each frame is expanded by applying the operations that leave its start and selecting
on from where they lead; walks that come back to an open frame are cut, and the members of a closed
component share what they found. Operations that make selections of their own do so through the
same state, so that they are guarded and cached alike.

Frames may nest without bound, so the recursion takes the number of frames that it may nest. A
computation that nests more has no outcome; with enough, the number does not matter.
-/

namespace GraphQuery

/-- A computation on the state of an evaluator, which may fail and still leave the state changed,
and which has no outcome if it nests too many frames. -/
abbrev EvalM := ExceptT Error (StateT Evaluator Option)

namespace EvalM

variable {α : Type}

/-- The computation without outcome. -/
def exhausted : EvalM α :=
  ExceptT.mk fun _ => none

/-- The outcome of a computation, failure included. -/
def observe (x : EvalM α) : EvalM (Except Error α) :=
  ExceptT.lift x.run

/-- Notes on an error the place that it passes through. -/
def within (place : Unit → Place) (x : EvalM α) : EvalM α :=
  ExceptT.adapt (fun e => e.through (place ())) x

end EvalM

namespace Evaluator

/-- The lesser of two visit indices, where none is greater than all. -/
def lower : Option Nat → Option Nat → Option Nat
  | some i, some j => some (min i j)
  | some i, none => some i
  | none, low? => low?

section

-- How to find what a frame reaches.
variable (walk : Query → Node → Node → ItemSet → EvalM Reach)

/-- Selects between two nodes. The events of a selection frame its work, unless it is part of
another. -/
def selectBy (q : Query) (start stop : Node) (items : ItemSet) : EvalM ItemSet := do
  let outermost := (← get).depth == 0
  if outermost then
    modify (report (.select ⟨q.id, start, stop, items⟩))
  let before := (← get).stats
  let reach ← walk q start stop items
  if outermost then
    modify fun ev =>
      let work := ev.stats.since before
      ev.report (.selected q.id reach.items.size work)
  return reach.items

/-- The union of the selections that end at each result node, in the order of the nodes. -/
def selectResultsBy (q : Query) (start : Node) (items : ItemSet) : EvalM ItemSet :=
  match q.resultNodes with
  | [] => return .empty .any
  | stop :: stops => do
    let first ← selectBy walk q start stop items
    stops.foldlM (fun found stop => return found.union (← selectBy walk q start stop items)) first

/-- Makes the selection of an operation for one item. -/
def nestedBy (s : Selection) (x : Item) : EvalM ItemSet :=
  let items := ItemSet.singleton x s.inputType
  EvalM.within (fun _ => .nested s.text x) <|
    match s.stop? with
    | some stop => selectBy walk s.query s.start stop items
    | none => selectResultsBy walk s.query s.start items

/-- Applies one operation and walks on from the target of its arc. -/
def stepBy (q : Query) (stop : Node) (items : ItemSet) (found : Reach) (a : Arc)
    (op : Operation) : EvalM Reach := do
  let reached ← EvalM.within (fun _ => .applying op.text a) (op.apply (nestedBy walk) items)
  if reached.isEmpty then
    return found
  let reach ← EvalM.within (fun _ => .walking a) (walk q a.target stop reached)
  return ⟨found.items.union reach.items, lower found.low? reach.low?⟩

/-- Expands a frame by every operation that leaves its start. -/
def expandBy (q : Query) (start stop : Node) (items : ItemSet) : EvalM Reach := do
  let own := if start = stop then items else .empty stop.inputType
  let extend := fun found (a, op) => stepBy walk q stop items found a op
  let reach ← (q.steps start).foldlM extend ⟨own, none⟩
  return { reach with items := reach.items.withType stop.inputType }

/-- Finds what a frame reaches: from what is known of it, or by expanding it. -/
def visitBy (q : Query) (start stop : Node) (items : ItemSet) : EvalM Reach := do
  if items.isEmpty then
    return ⟨.empty stop.inputType, none⟩
  let frame : Frame := ⟨q.id, start, stop, items⟩
  if let some known ← modifyGet (consult frame) then
    return known
  if let some limit := (← get).limitReached? then
    throw (.depthExceeded limit)
  let index := (← get).nextIndex
  let mark := (← get).component.size
  modify (enter frame)
  let outcome ← EvalM.observe (expandBy walk q start stop items)
  modify (exit frame)
  match outcome with
  | .error e =>
    modify (abandon mark)
    throw e
  | .ok reach =>
    if reach.low?.any (· < index) then
      modify (suspend frame ⟨index, reach.items⟩)
      return reach
    else
      return ⟨← modifyGet (close mark reach.items), none⟩

end

/-- Finds what a frame reaches, nesting at most `fuel` frames. -/
def visit : (fuel : Nat) → Query → Node → Node → ItemSet → EvalM Reach
  | 0, _, _, _, _ => EvalM.exhausted
  | fuel + 1, q, start, stop, items => visitBy (visit fuel) q start stop items

/-- The items that arrive at `stop` when items are sent along the walks of a query from `start`. -/
def select (fuel : Nat) : Query → Node → Node → ItemSet → EvalM ItemSet :=
  selectBy (visit fuel)

/-- The items that arrive at any result node. -/
def selectResults (fuel : Nat) : Query → Node → ItemSet → EvalM ItemSet :=
  selectResultsBy (visit fuel)

/-- The items that an operation's selection reaches from one item. -/
def nested (fuel : Nat) : Selection → Item → EvalM ItemSet :=
  nestedBy (visit fuel)

end Evaluator

end GraphQuery
