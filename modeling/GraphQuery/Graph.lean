import GraphQuery.Node
import Std.Data.HashMap
import Std.Data.HashSet
/-!
# Labelled graphs

A directed graph whose arcs carry lists of labels. Nodes and arcs keep the order in which they were
added. Beside the lists there are a table of the nodes, one of the labels of each arc, and two of the
arcs that leave and enter each node. Every arc has at least one label, no arc has two equal labels, and
removing the last label of an arc removes the arc.
-/

namespace GraphQuery

/-- A graph whose arcs carry labels of type `α`. -/
structure Graph (α : Type) where
  /-- The nodes, in the order in which they were added. -/
  nodes : List Node
  nodeIndex : Std.HashSet Node
  /-- The arcs, in the order in which they were added. -/
  arcs : List Arc
  /-- The labels of each arc, in the order in which they were added. -/
  labelled : List (Arc × List α)
  /-- The arcs that leave each node. -/
  outgoing : Std.HashMap Node (List Arc)
  /-- The arcs that enter each node. -/
  incoming : Std.HashMap Node (List Arc)

namespace Graph

variable {α : Type}

/-- The graph without nodes. -/
def empty : Graph α :=
  ⟨[], ∅, [], [], ∅, ∅⟩

instance : Inhabited (Graph α) := ⟨empty⟩

/-- Whether the node is in the graph. -/
def containsNode (g : Graph α) (n : Node) : Bool :=
  g.nodeIndex.contains n

/-- The labels of an arc; none if the graph does not have it. -/
def labels (g : Graph α) (a : Arc) : List α :=
  (g.labelled.lookup a).getD []

/-- The arcs that leave a node. -/
def arcsFrom (g : Graph α) (n : Node) : List Arc :=
  g.outgoing.getD n []

/-- The arcs that enter a node. -/
def arcsTo (g : Graph α) (n : Node) : List Arc :=
  g.incoming.getD n []

/-- Adds a node, unless it is there. -/
def addNode (g : Graph α) (n : Node) : Graph α :=
  { g with
    nodes := if g.containsNode n then g.nodes else g.nodes ++ [n]
    nodeIndex := g.nodeIndex.insert n }

/-- Adds an arc with one label to a graph that has its endpoints but not the arc. -/
def appendArc (g : Graph α) (a : Arc) (label : α) : Graph α :=
  { g with
    arcs := g.arcs ++ [a]
    labelled := g.labelled ++ [(a, [label])]
    outgoing := g.outgoing.insert a.source (g.arcsFrom a.source ++ [a])
    incoming := g.incoming.insert a.target (g.arcsTo a.target ++ [a]) }

/-- Replaces the labels of an arc. -/
def setLabels (g : Graph α) (a : Arc) (labels : List α) : Graph α :=
  { g with labelled := g.labelled.map fun (b, old) => if b = a then (b, labels) else (b, old) }

/-- Adds a label to an arc, with the arc and its endpoints as needed. A label equal to one that the
arc has is left out. -/
def addLabel [BEq α] (g : Graph α) (a : Arc) (label : α) : Graph α :=
  let g := (g.addNode a.source).addNode a.target
  match g.labelled.lookup a with
  | none => g.appendArc a label
  | some labels => if labels.any (· == label) then g else g.setLabels a (labels ++ [label])

/-- Takes an arc out of the index entry of one of its endpoints, and the entry with its last arc. -/
def unindex (index : Std.HashMap Node (List Arc)) (n : Node) (a : Arc) :
    Std.HashMap Node (List Arc) :=
  let kept := (index.getD n []).filter (· != a)
  if kept.isEmpty then index.erase n else index.insert n kept

/-- Removes an arc and its labels, if the graph has the arc. -/
def removeArc? (g : Graph α) (a : Arc) : Option (Graph α) :=
  if (g.labelled.lookup a).isSome then
    some { g with
      arcs := g.arcs.filter (· != a)
      labelled := g.labelled.filter (·.1 != a)
      outgoing := unindex g.outgoing a.source a
      incoming := unindex g.incoming a.target a }
  else
    none

/-- Removes a label from an arc, and the arc with its last label. There is nothing to remove if the
arc has no such label. -/
def removeLabel? [BEq α] (g : Graph α) (a : Arc) (label : α) : Option (Graph α) :=
  let old := g.labels a
  let kept := old.filter fun l => !(l == label)
  if kept.length = old.length then none
  else if kept.isEmpty then g.removeArc? a
  else some (g.setLabels a kept)

/-- Removes a node with every arc into or out of it, if the graph has the node. -/
def removeNode? (g : Graph α) (n : Node) : Option (Graph α) :=
  if g.containsNode n then
    let incident := g.arcsFrom n ++ g.arcsTo n
    let g := incident.foldl (fun g a => (g.removeArc? a).getD g) g
    some { g with
      nodes := g.nodes.filter (· != n)
      nodeIndex := g.nodeIndex.erase n
      outgoing := g.outgoing.erase n
      incoming := g.incoming.erase n }
  else
    none

/-- Adds the nodes of another graph, and then its labels arc by arc. -/
def merge [BEq α] (g other : Graph α) : Graph α :=
  let g := other.nodes.foldl addNode g
  other.arcs.foldl (fun g a => (other.labels a).foldl (fun g l => g.addLabel a l) g) g

end Graph

end GraphQuery
