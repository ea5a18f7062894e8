import GraphQuery.Fingerprint
import GraphQuery.ItemType
/-!
# Nodes and arcs

A node is a labelled, typed position of a query graph. Its number is its identity: numbers are
handed out once each, so that two nodes made separately differ even where labels and types agree.
An arc is a pair of nodes.
-/

namespace GraphQuery

/-- The number that identifies a node. -/
abbrev NodeId := Nat

/-- The number that identifies a query. -/
abbrev QueryId := Nat

/-- A position of a query graph, with the types of the items that arrive and leave. -/
structure Node where
  id : NodeId
  label : String
  inputType : ItemType
  outputType : ItemType
  isResult : Bool
deriving DecidableEq, Repr

namespace Node

/-- A node that hands on the type of items it receives. -/
def plain (id : NodeId) (label : String) (itemType : ItemType) : Node :=
  ⟨id, label, itemType, itemType, false⟩

/-- A node at which results are collected. -/
def result (id : NodeId) (label : String) (itemType : ItemType) : Node :=
  ⟨id, label, itemType, itemType, true⟩

end Node

instance : Hashable Node := ⟨fun n => hash n.id⟩

instance : ByteEncoded Node := ⟨fun n => Fingerprint.natBytes n.id⟩

/-- A directed edge between two nodes. -/
structure Arc where
  source : Node
  target : Node
deriving DecidableEq, Repr

namespace Arc

/-- Whether the arc leaves and enters the same node. -/
def isLoop (a : Arc) : Bool :=
  a.source == a.target

/-- Whether the node is an endpoint of the arc. -/
def touches (a : Arc) (n : Node) : Bool :=
  a.source == n || a.target == n

/-- The written form: the labels of the endpoints around an arrow. -/
def text (a : Arc) : String :=
  a.source.label ++ " -> " ++ a.target.label

end Arc

end GraphQuery
