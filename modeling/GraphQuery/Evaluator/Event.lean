import GraphQuery.ItemSet.Equality
/-!
# Frames, counts and events

A frame is one selection to be made. As frames are dealt with and queries are rewritten, the work is
counted and its steps are reported as events. Each event has a message and named fields.
-/

namespace GraphQuery

/-- One selection to be made. -/
structure Frame where
  query : QueryId
  start : Node
  stop : Node
  items : ItemSet

instance : BEq Frame where
  beq f g := f.query == g.query && f.start == g.start && f.stop == g.stop && f.items == g.items

instance : Hashable Frame where
  hash f := [hash f.query, hash f.start, hash f.stop, hash f.items].foldl
    (fun state part => (state ^^^ part) * Fingerprint.prime) Fingerprint.basis

theorem Frame.beq_iff {f g : Frame} : (f == g) = true ↔
    f.query = g.query ∧ f.start = g.start ∧ f.stop = g.stop ∧ (f.items == g.items) = true := by
  change (_ && _ && _ && _) = true ↔ _
  simp [and_assoc]

instance : EquivBEq Frame where
  symm h :=
    have ⟨query, start, stop, items⟩ := Frame.beq_iff.1 h
    Frame.beq_iff.2 ⟨query.symm, start.symm, stop.symm, BEq.symm items⟩
  trans h k :=
    have ⟨query, start, stop, items⟩ := Frame.beq_iff.1 h
    have ⟨query', start', stop', items'⟩ := Frame.beq_iff.1 k
    Frame.beq_iff.2
      ⟨query.trans query', start.trans start', stop.trans stop', BEq.trans items items'⟩
  rfl := Frame.beq_iff.2 ⟨rfl, rfl, rfl, BEq.rfl⟩

instance : LawfulHashable Frame where
  hash_eq f g h := by
    obtain ⟨query, start, stop, items⟩ := Frame.beq_iff.1 h
    have items : hash f.items = hash g.items := LawfulHashable.hash_eq _ _ items
    simp only [hash, query, start, stop] at items ⊢
    rw [items]

/-- Counts of what an evaluator has done. -/
structure Stats where
  /-- Frames that were expanded. -/
  expanded : Nat := 0
  /-- Frames that were answered from the cache. -/
  cacheHits : Nat := 0
  /-- Walks that ended because they came upon an open frame. -/
  cycleCuts : Nat := 0
deriving DecidableEq, Repr

/-- The work done between two counts. -/
def Stats.since (now before : Stats) : Stats where
  expanded := now.expanded - before.expanded
  cacheHits := now.cacheHits - before.cacheHits
  cycleCuts := now.cycleCuts - before.cycleCuts

/-- What is reported of the work as it is done. -/
inductive Event where
  /-- A selection begins that is not part of another. -/
  | select (frame : Frame)
  /-- That selection has found its results. -/
  | selected (query : QueryId) (results : Nat) (work : Stats)
  /-- A walk came upon a frame in progress. -/
  | cycleCut (frame : Frame) (index : Nat)
  /-- A walk came upon a pending frame. -/
  | joined (frame : Frame) (index : Nat)
  /-- A frame is expanded, at the given depth of nesting. -/
  | expanding (frame : Frame) (depth : Nat)
  /-- A rewriting pass is over. -/
  | pass (name : String) (nodesBefore nodesAfter arcsBefore arcsAfter : Nat)
  /-- Nodes off all walks were removed. -/
  | pruned (query : QueryId) (count : Nat)
  /-- A chain of filters was fused. -/
  | fused (entry exit : Node) (filters : Nat)

/-- The value of a field of an event. -/
inductive EventField where
  | number (n : Nat)
  | text (s : String)
  | query (id : QueryId)

namespace Event

/-- What happened. -/
def message : Event → String
  | .select _ => "select"
  | .selected .. => "select done"
  | .cycleCut .. => "cycle cut"
  | .joined .. => "joined open component"
  | .expanding .. => "expanding frame"
  | .pass .. => "optimizer pass"
  | .pruned .. => "pruned unreachable nodes"
  | .fused .. => "merged filter chain"

/-- The ends of a frame. -/
private def ends (f : Frame) : List (String × EventField) :=
  [("start", .text f.start.label), ("end", .text f.stop.label)]

/-- The particulars of what happened, by name. -/
def fields : Event → List (String × EventField)
  | .select f => ("query", .query f.query) :: ("items", .number f.items.size) :: ends f
  | .selected query results work =>
    [("query", .query query), ("results", .number results), ("frames", .number work.expanded),
      ("cache_hits", .number work.cacheHits), ("cycle_cuts", .number work.cycleCuts)]
  | .cycleCut f index | .joined f index => ("index", .number index) :: ends f
  | .expanding f depth => ("items", .number f.items.size) :: ("depth", .number depth) :: ends f
  | .pass name nodesBefore nodesAfter arcsBefore arcsAfter =>
    [("pass", .text name), ("nodes_before", .number nodesBefore),
      ("nodes_after", .number nodesAfter), ("arcs_before", .number arcsBefore),
      ("arcs_after", .number arcsAfter)]
  | .pruned query count => [("query", .query query), ("pruned", .number count)]
  | .fused entry exit filters =>
    [("entry", .text entry.label), ("exit", .text exit.label), ("filters", .number filters)]

end Event

end GraphQuery
