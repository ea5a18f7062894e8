import GraphQuery.Rewrite.Session
/-!
# Reachable positions

Which nodes of a query can be reached from one of its nodes is itself a selection: the items are
positions of the query, and a single node has a loop that leads from each position to itself and
to its neighbours. As each step keeps the positions it starts from, the sets of positions grow until
they stop changing, and then the walk is cut.

A node with a given label is found in the same way, by a filter over all nodes.
-/

namespace GraphQuery

/-- Along the arcs, or against them. -/
inductive Direction where
  | forward
  | backward
deriving DecidableEq, Repr

namespace Query

/-- The nodes one arc away. -/
def neighbours (q : Query) : Direction → Node → List Node
  | .forward, n => (q.graph.arcsFrom n).map Arc.target
  | .backward, n => (q.graph.arcsTo n).map Arc.source

/-- The item for a node as part of the query. -/
def position (q : Query) (n : Node) : Item :=
  Datum.toItem (⟨q.id, n⟩ : Position)

/-- The positions one step leads to: the neighbours of a position, and the position. -/
def nearby (q : Query) (d : Direction) (p : Position) : List Position :=
  (q.neighbours d p.node).map (⟨q.id, ·⟩) ++ [p]

/-- The query with a single node, at which positions loop in the given direction. -/
def stepping (q : Query) (d : Direction) (id : QueryId) (n : Node) : Except Error Query := do
  let name := match d with
    | .forward => "successors"
    | .backward => "predecessors"
  let step := Mapping.typed 0 name (q.nearby d)
  return (← Builder.addArc Graph.empty ⟨n, n⟩ (.follow (.map step))).build id

/-- The positions reachable from a node, itself included. The sets of positions nest no deeper than
the query has nodes, the first set and the cut not counted. -/
def reachable (q : Query) (d : Direction) (origin : Node) : SessionM ItemSet := do
  let n := Node.plain (← Session.freshNode) "position" (Datum.itemType Position)
  let steps ← ofOutcome (q.stepping d (← Session.freshQuery) n)
  let origin := ItemSet.singleton (q.position origin) (Datum.itemType Position)
  Session.select (q.nodes.length + 2) steps n n origin

/-- The query that sends nodes through a filter on their label. -/
def labelled (label : String) (id : QueryId) (start stop : Node) : Except Error Query := do
  let test := Predicate.typed 0 "has label" fun n : Node => n.label == label
  return (← Builder.addArc Graph.empty ⟨start, stop⟩ (.filter (.test test))).build id

/-- The first node with a label. -/
def findNode? (q : Query) (label : String) : SessionM (Option Node) := do
  let start := Node.plain (← Session.freshNode) "nodes" (Datum.itemType Node)
  let stop := Node.plain (← Session.freshNode) "matches" (Datum.itemType Node)
  let matching ← ofOutcome (labelled label (← Session.freshQuery) start stop)
  let nodes := ItemSet.ofList (q.nodes.map Datum.toItem) (Datum.itemType Node)
  let found ← Session.select 2 matching start stop nodes
  return q.nodes.find? fun n => found.contains (Datum.toItem n)

end Query

end GraphQuery
