import GraphQuery.Operation.Make
import GraphQuery.Builder
/-!
# Chains of filters

A link is a node that does no more than pass items from one filter on to another: a single arc
enters it and a single arc leaves it, neither is a loop, and each has a single operation, a filter
that may be fused. A chain is a longest run of links with the arcs around them. Links that form a
closed ring belong to no chain.
-/

namespace GraphQuery

namespace Query

/-- The only arc into a node. -/
def soleIn? (q : Query) (n : Node) : Option Arc :=
  match q.graph.arcsTo n with
  | [a] => some a
  | _ => none

/-- The only arc out of a node. -/
def soleOut? (q : Query) (n : Node) : Option Arc :=
  match q.graph.arcsFrom n with
  | [a] => some a
  | _ => none

/-- The filter on an arc that has no other operation, if it may be fused. -/
def soleFilter? (q : Query) (a : Arc) : Option Filter :=
  match q.graph.labels a with
  | [op] => op.filter?.filter Filter.isMergeable
  | _ => none

/-- Whether a node, other than the ends of a selection, is a link. -/
def isLink (q : Query) (start stop n : Node) : Bool :=
  n != start && n != stop &&
    match q.soleIn? n, q.soleOut? n with
    | some a, some b =>
      !a.isLoop && !b.isLoop && (q.soleFilter? a).isSome && (q.soleFilter? b).isSome
    | _, _ => false

end Query

/-- A run of links between an entry and an exit that are none. -/
structure Chain where
  entry : Node
  exit : Node
  /-- The arcs from the entry to the exit. -/
  arcs : List Arc
  /-- The links between them. -/
  interior : List Node
  /-- The filters on the arcs. -/
  filters : List Filter

namespace Chain

section

variable (q : Query) (link : Node → Bool)

/-- The outcome of going back from link to link. -/
inductive Origin where
  /-- The first link of a chain. -/
  | first (n : Node)
  /-- The links of a ring. -/
  | ring (links : List Node)

/-- Goes back from a link to the first of its chain, or around its ring. -/
def origin : (fuel : Nat) → (visited : List Node) → Node → Origin
  | 0, visited, _ => .ring visited
  | fuel + 1, visited, n =>
    match (q.soleIn? n).map Arc.source |>.filter link with
    | none => .first n
    | some previous =>
      if visited.contains previous then .ring visited
      else origin fuel (previous :: visited) previous

/-- Goes on from a link to the last of its chain: the arcs that leave the links, the links, and
where the last arc leads. -/
def onward : (fuel : Nat) → (behind : List Node) → Node → List Arc × List Node × Node
  | 0, _, n => ([], [], n)
  | fuel + 1, behind, n =>
    match q.soleOut? n with
    | none => ([], [], n)
    | some a =>
      if link a.target && !(n :: behind).contains a.target then
        let (arcs, links, exit) := onward fuel (n :: behind) a.target
        (a :: arcs, n :: links, exit)
      else
        ([a], [n], a.target)

/-- The chain of which a node is the first link. -/
def startingAt? (n : Node) : Option Chain := do
  let a ← q.soleIn? n
  let (arcs, interior, exit) := onward q link (q.nodes.length + 1) [] n
  let arcs := a :: arcs
  return { entry := a.source, exit, arcs, interior, filters := arcs.filterMap q.soleFilter? }

/-- The first chain that starts from one of the seeds and touches no node of `stuck`, and `stuck`
with the rings found before it. -/
def findFrom : (seeds stuck : List Node) → Option Chain × List Node
  | [], stuck => (none, stuck)
  | seed :: seeds, stuck =>
    if stuck.contains seed || !link seed then
      findFrom seeds stuck
    else
      match origin q link (q.nodes.length + 1) [seed] seed with
      | .ring links => findFrom seeds (links ++ stuck)
      | .first n =>
        match startingAt? q link n with
        | none => findFrom seeds stuck
        | some chain =>
          if chain.interior.any stuck.contains then findFrom seeds stuck
          else (some chain, stuck)

end

/-- The first chain of a query that touches no node of `stuck`, and `stuck` with the rings found
before it. -/
def find (q : Query) (start stop : Node) (stuck : List Node) : Option Chain × List Node :=
  findFrom q (q.isLink start stop) q.nodes stuck

/-- The graph with one arc in place of the chain, which has the conjunction of its filters. -/
def fuse (c : Chain) (q : Query) : Except Error Builder :=
  let b := c.interior.foldl (fun b n => (Graph.removeNode? b n).getD b) q.graph
  Builder.addArc b ⟨c.entry, c.exit⟩
    (.filter (Filter.conjunction c.filters c.entry.outputType))

end Chain

end GraphQuery
