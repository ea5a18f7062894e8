import GraphQuery.Graph
import GraphQuery.Datum
import GraphQuery.ItemSet.Algebra
/-!
# Operations and queries

What the arcs of a query graph are labelled with: filters, which keep some items, follows, which
lead from each item to others, and counting. Some of them make a selection in another query, so
operations and queries are defined together. Each operation has the types of items that it accepts
and hands on, and a text.
-/

namespace GraphQuery

/-- A test that a caller supplies. The number identifies it, as functions cannot be compared. -/
structure Predicate where
  id : Nat
  name : String
  itemType : ItemType
  test : Item → Except Error Bool

/-- A mapping that a caller supplies, from an item to the items it leads to. -/
structure Mapping where
  id : Nat
  name : String
  inputType : ItemType
  outputType : ItemType
  map : Item → Except Error ItemSet

/-- A function that a caller supplies, bound to the last slots of the tuples of one type. It is
given those slots and its result takes their place. -/
structure BoundFunction where
  id : Nat
  name : String
  types : List ItemType
  params : List ItemType
  returns : ItemType
  call : List Item → Except Error Item

/-- The comparisons of two sizes. -/
inductive Comparison where
  | lt
  | le
  | eq
  | ne
  | ge
  | gt
deriving DecidableEq, Repr

mutual

/-- An operation that keeps the items which pass. -/
inductive Filter where
  /-- Items that pass a caller's test. -/
  | test (p : Predicate)
  /-- Every item. -/
  | anything (itemType : ItemType)
  /-- Items equal to a value. -/
  | equals (value : Item) (itemType : ItemType)
  /-- Items that pass every member, tried in order up to the first that rejects. -/
  | every (members : List Filter) (itemType : ItemType)
  /-- Items from which a selection reaches a number of items. -/
  | counting (selection : Selection) (comparison : Comparison) (threshold : Nat)
  /-- Tuples with a slot that passes. -/
  | onSlot (types : List ItemType) (index : Fin types.length) (inner : Filter)

/-- An operation that leads from each item to a set of items. -/
inductive Follow where
  /-- The items that a caller's mapping gives. -/
  | map (m : Mapping)
  /-- The item itself, if it passes. -/
  | filter (f : Filter)
  /-- The items that a selection reaches. -/
  | select (selection : Selection)
  /-- One slot of a tuple. -/
  | slot (types : List ItemType) (index : Fin types.length)
  /-- The view of a tuple in another order. -/
  | permute (types : List ItemType) (order : List (Fin types.length))
  /-- The pairs of the item and each item that another follow leads to. -/
  | pair (inner : Follow)
  /-- The tuples with a slot replaced by each item that another follow leads to from it. -/
  | onSlot (types : List ItemType) (index : Fin types.length) (inner : Follow)
  /-- A tuple with its last slots replaced by the result of a function of them. -/
  | call (f : BoundFunction)

/-- What an arc does to the items that pass along it. -/
inductive Operation where
  | filter (f : Filter)
  | follow (f : Follow)
  /-- The number of items. -/
  | count (inputType : ItemType)

/-- A query with the nodes to select between. Without an end, the selection ends at every result
node of the query. -/
structure Selection where
  query : Query
  start : Node
  stop? : Option Node

/-- A graph whose arcs are labelled with operations. Its number is its identity. -/
structure Query where
  id : QueryId
  graph : Graph Operation

end

/-- Whether two sizes compare as stated. -/
def Comparison.holds : Comparison → Nat → Nat → Bool
  | .lt, m, n => m < n
  | .le, m, n => m ≤ n
  | .eq, m, n => m == n
  | .ne, m, n => m != n
  | .ge, m, n => n ≤ m
  | .gt, m, n => n < m

/-- The sign of a comparison. -/
def Comparison.text : Comparison → String
  | .lt => "<"
  | .le => "<="
  | .eq => "=="
  | .ne => "!="
  | .ge => ">="
  | .gt => ">"

/-- The comparison with a sign. -/
def Comparison.ofText? (s : String) : Option Comparison :=
  [.lt, .le, .eq, .ne, .ge, .gt].find? (·.text == s)

namespace BoundFunction

/-- The number of leading slots that are left as they are. -/
def kept (f : BoundFunction) : Nat :=
  f.types.length - f.params.length

/-- The slot types of the tuple that carries a result behind the slots left as they are. -/
def resultTypes (f : BoundFunction) : List ItemType :=
  f.types.take f.kept ++ [f.returns]

/-- The type of what the function makes of a tuple: the bare result if no slot is left. -/
def outputType (f : BoundFunction) : ItemType :=
  if f.kept = 0 then f.returns else .tuple f.resultTypes

end BoundFunction

namespace Query

/-- The nodes, in the order in which they were added. -/
def nodes (q : Query) : List Node :=
  q.graph.nodes

/-- Whether the node belongs to the query. -/
def containsNode (q : Query) (n : Node) : Bool :=
  q.graph.containsNode n

/-- The nodes at which results are collected. -/
def resultNodes (q : Query) : List Node :=
  q.nodes.filter Node.isResult

/-- The operations that leave a node, each with its arc, in the order in which they are applied. -/
def steps (q : Query) (n : Node) : List (Arc × Operation) :=
  (q.graph.arcsFrom n).flatMap fun a => (q.graph.labels a).map fun op => (a, op)

end Query

namespace Selection

/-- The type of the items that the selection starts from. -/
def inputType (s : Selection) : ItemType :=
  s.start.inputType

/-- The type of the items that the selection reaches: that of its end, or the common type of all
result nodes. -/
def outputType (s : Selection) : ItemType :=
  match s.stop? with
  | some stop => stop.inputType
  | none =>
    match s.query.resultNodes.map Node.inputType with
    | [] => .any
    | t :: ts => ts.foldl ItemType.common t

/-- The text of a selection, which names its query by number. -/
def text (s : Selection) : String :=
  let target := match s.stop? with
    | some stop => stop.label
    | none => "results"
  s!"sub-query #{s.query.id} {s.start.label} -> {target}"

end Selection

namespace Filter

/-- The type of the items that a filter is made for. -/
def itemType : Filter → ItemType
  | .test p => p.itemType
  | .anything t | .equals _ t | .every _ t => t
  | .counting s _ _ => s.inputType
  | .onSlot types _ _ => .tuple types

mutual

/-- Whether a filter may be fused with others. One that makes a selection may not. -/
def isMergeable : Filter → Bool
  | .test _ | .anything _ | .equals .. => true
  | .every members _ => allMergeable members
  | .counting .. => false
  | .onSlot _ _ inner => inner.isMergeable

/-- Whether every filter of a list may be fused. -/
def allMergeable : List Filter → Bool
  | [] => true
  | f :: fs => f.isMergeable && allMergeable fs

end

mutual

/-- The text of a filter. -/
def text : Filter → String
  | .test p => p.name
  | .anything _ => "accept all"
  | .equals x _ => s!"equals {x.display}"
  | .every members _ => "FilterSet\x7b" ++ ", ".intercalate (texts members) ++ "\x7d"
  | .counting s c k => s!"|{s.text}| {c.text} {k}"
  | .onSlot _ i inner => s!"slot {i.val} {inner.text}"

/-- The texts of several filters. -/
def texts : List Filter → List String
  | [] => []
  | f :: fs => f.text :: texts fs

end

end Filter

namespace Follow

/-- The type of the items that a follow is made for. -/
def inputType : Follow → ItemType
  | .map m => m.inputType
  | .filter f => f.itemType
  | .select s => s.inputType
  | .slot types _ | .permute types _ | .onSlot types _ _ => .tuple types
  | .pair inner => inner.inputType
  | .call f => .tuple f.types

/-- The type of the items that a follow leads to. -/
def outputType : Follow → ItemType
  | .map m => m.outputType
  | .filter f => f.itemType
  | .select s => s.outputType
  | .slot types i => types.get i
  | .permute types order => .tuple (order.map types.get)
  | .pair inner => .tuple [inner.inputType, inner.outputType]
  | .onSlot types i inner => .tuple (types.set i inner.outputType)
  | .call f => f.outputType

/-- The text of a follow. -/
def text : Follow → String
  | .map m => m.name
  | .filter f => f.text
  | .select s => s.text
  | .slot _ i => s!"slot {i.val}"
  | .permute _ order =>
    "permutate [" ++ ", ".intercalate (order.map fun i => toString i.val) ++ "]"
  | .pair inner => s!"to tuple ({inner.text})"
  | .onSlot _ i inner => s!"slot {i.val} to ({inner.text})"
  | .call f => f.name

end Follow

namespace Operation

/-- The type of the items that an operation accepts. -/
def inputType : Operation → ItemType
  | .filter f => f.itemType
  | .follow f => f.inputType
  | .count t => t

/-- The type of the items that an operation hands on. -/
def outputType : Operation → ItemType
  | .filter f => f.itemType
  | .follow f => f.outputType
  | .count _ => .kind .size

/-- The text of an operation. -/
def text : Operation → String
  | .filter f => f.text
  | .follow f => f.text
  | .count _ => "count"

/-- The filter that an operation is. -/
def filter? : Operation → Option Filter
  | .filter f => some f
  | .follow _ | .count _ => none

end Operation

end GraphQuery
