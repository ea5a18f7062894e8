import GraphQuery.Rewrite.Prune
import GraphQuery.Rewrite.Chain
/-!
# Optimizing queries

A pass rewrites a query into another that selects the same between two given nodes. The standard
passes remove what lies on no walk between the nodes and fuse chains of filters.
-/

namespace GraphQuery

namespace Query

/-- Fuses chains of filters until none is left, nesting at most `fuel` rounds. A chain whose fused
filter does not fit between its ends is left alone from then on. -/
def fuseFrom (start stop : Node) : (fuel : Nat) → (stuck : List Node) → Query → SessionM Query
  | 0, _, _ => Session.exhausted
  | fuel + 1, stuck, q =>
    match Chain.find q start stop stuck with
    | (none, _) => return q
    | (some chain, stuck) =>
      match chain.fuse q with
      | .ok b => do
        let id ← Session.freshQuery
        Session.report (.fused chain.entry chain.exit chain.filters.length)
        fuseFrom start stop fuel stuck (b.build id)
      | .error e =>
        if e.isTypeMismatch then fuseFrom start stop fuel (chain.interior ++ stuck) q
        else throw e

/-- The query with every chain of filters fused into one arc. Each round removes a node or leaves
one more alone, so there are at most twice as many as nodes. -/
def fuseChains (q : Query) (start stop : Node) : SessionM Query :=
  fuseFrom start stop (2 * q.nodes.length + 1) [] q

end Query

/-- A rewriting of queries for selections between two nodes. -/
structure Pass where
  name : String := "unnamed"
  run : Query → Node → Node → SessionM Query

namespace Pass

/-- Removes the nodes on no walk between the two. -/
def prune : Pass where
  name := "prune_unreachable"
  run := Query.prune

/-- Fuses the chains of filters. -/
def fuse : Pass where
  name := "merge_filter_chains"
  run := Query.fuseChains

/-- The passes that are run unless others are asked for. -/
def standard : List Pass :=
  [prune, fuse]

end Pass

/-- Rewrites a query by some passes, one after another. -/
def Query.optimize (q : Query) (passes : List Pass) (start stop : Node) : SessionM Query :=
  passes.foldlM (fun q pass => do
    let r ← pass.run q start stop
    Session.report (.pass pass.name q.nodes.length r.nodes.length q.graph.arcs.length
      r.graph.arcs.length)
    return r) q

end GraphQuery
