import GraphQuery.Rewrite.Reachability
/-!
# Pruning

A node lies on a walk between two others exactly if it can be reached forward from the first and
backward from the second. Pruning removes all other nodes, with their arcs.
-/

namespace GraphQuery.Query

/-- The positions on walks from `start` to `stop`. -/
def between (q : Query) (start stop : Node) : SessionM ItemSet := do
  let ahead ← q.reachable .forward start
  let behind ← q.reachable .backward stop
  return ahead.intersection behind

/-- The graph without some of its nodes. -/
def without (q : Query) (nodes : List Node) : Builder :=
  nodes.foldl (fun b n => (Graph.removeNode? b n).getD b) q.graph

/-- The query without the nodes that lie on no walk from `start` to `stop`, or the same query if
there are none. -/
def prune (q : Query) (start stop : Node) : SessionM Query := do
  let kept ← q.between start stop
  let doomed := q.nodes.filter fun n => !kept.contains (q.position n)
  if doomed.isEmpty then
    return q
  Session.report (.pruned q.id doomed.length)
  return (q.without doomed).build (← Session.freshQuery)

end GraphQuery.Query
