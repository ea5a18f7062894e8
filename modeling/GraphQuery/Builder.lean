import GraphQuery.Operation.Equality
/-!
# Building queries

Queries are built by adding operations to arcs one at a time. An operation is accepted where it
takes the items that leave its arc's source and hands on items that its target takes. A built query
is a snapshot with a number of its own.
-/

namespace GraphQuery

/-- A graph of operations under construction. -/
abbrev Builder := Graph Operation

namespace Builder

/-- The site at which an operation does not fit an arc, with the types expected and found there. -/
def misfit? (a : Arc) (op : Operation) : Option (Site × ItemType × ItemType) :=
  if !op.inputType.accepts a.source.outputType then
    some (.arcInput op.text a, op.inputType, a.source.outputType)
  else if !a.target.inputType.accepts op.outputType then
    some (.arcOutput op.text a, a.target.inputType, op.outputType)
  else
    none

/-- Labels an arc with an operation that fits it. -/
def addArc (b : Builder) (a : Arc) (op : Operation) : Except Error Builder :=
  match misfit? a op with
  | some (site, expected, found) => throw (.typeMismatch site expected found)
  | none => return Graph.addLabel b a op

/-- Adds the nodes, arcs and operations of a query. -/
def addQuery (b : Builder) (q : Query) : Builder :=
  Graph.merge b q.graph

/-- The builder that holds a copy of a query. -/
def ofQuery (q : Query) : Builder :=
  q.graph

/-- Freezes the graph as the query of the given number. -/
def build (b : Builder) (id : QueryId) : Query :=
  ⟨id, b⟩

end Builder

/-- The written form of a query: the number of nodes, and the operations of each arc under the node
that it leaves. -/
def Query.text (q : Query) : String :=
  s!"Nodes: {q.nodes.length}\n" ++
    String.join (q.nodes.flatMap fun n => (q.graph.arcsFrom n).flatMap fun a =>
      s!"\t{a.text}\n" :: (q.graph.labels a).map fun op => s!"\t\t-> {op.text}\n")

end GraphQuery
