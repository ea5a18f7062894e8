import GraphQuery.ItemSet.Algebra
import GraphQuery.Evaluator.Event
import Std.Data.HashMap
/-!
# The state of an evaluator

A frame is one selection to be made: a query, two of its nodes and the items to start from. Frames
that lead back to each other form components, and all members of a component select the same
items. The state of an evaluator tells four kinds of frame apart:

* frames in progress, which are being expanded, each with the index of its visit;
* pending frames, which were expanded but belong to a component that is still open, each with the
  items found so far;
* cached frames, with the items that they select;
* all others, which are not known yet.

The functions of this module are the steps in which a frame passes from one kind to the next.
-/

namespace GraphQuery

/-- What expanding a frame found, and the least visit index of an open frame that it came upon. -/
structure Reach where
  items : ItemSet
  low? : Option Nat

/-- A frame that was expanded while a frame it leads to is open. -/
structure Pending where
  index : Nat
  found : ItemSet

/-- The settings of an evaluator. -/
structure Config where
  /-- Whether the results of closed components are cached. -/
  memoize : Bool := true
  /-- How many frames may be nested. -/
  maxDepth? : Option Nat := none
deriving DecidableEq, Repr

/-- Everything that an evaluator keeps from one selection to the next, and while one is made. -/
structure Evaluator where
  config : Config := {}
  stats : Stats := {}
  inProgress : Std.HashMap Frame Nat := ∅
  pending : Std.HashMap Frame Pending := ∅
  /-- The frames in progress and the pending ones, in the order of their visits. -/
  component : Array Frame := #[]
  cache : Std.HashMap Frame ItemSet := ∅
  /-- The index that the next visit gets. -/
  nextIndex : Nat := 0
  /-- The number of nested frames. -/
  depth : Nat := 0
  events : Array Event := #[]

namespace Evaluator

instance : Inhabited Evaluator := ⟨{}⟩

/-- The number of cached frames. -/
def cachedFrames (ev : Evaluator) : Nat :=
  ev.cache.size

/-- Forgets all cached frames. -/
def clearCache (ev : Evaluator) : Evaluator :=
  { ev with cache := ∅ }

/-- Reports an event. -/
def report (e : Event) (ev : Evaluator) : Evaluator :=
  { ev with events := ev.events.push e }

/-- What is known of a frame without expanding it. A frame in progress counts as empty for now, and
a pending frame as what it has found. -/
def consult (f : Frame) (ev : Evaluator) : Option Reach × Evaluator :=
  if let some items := ev.cache[f]? then
    (some ⟨items, none⟩, { ev with stats.cacheHits := ev.stats.cacheHits + 1 })
  else if let some index := ev.inProgress[f]? then
    let ev := { ev with stats.cycleCuts := ev.stats.cycleCuts + 1 }
    (some ⟨.empty f.stop.inputType, some index⟩, ev.report (.cycleCut f index))
  else if let some p := ev.pending[f]? then
    let ev := { ev with stats.cycleCuts := ev.stats.cycleCuts + 1 }
    (some ⟨p.found, some p.index⟩, ev.report (.joined f p.index))
  else
    (none, ev)

/-- The limit on nesting, if no further frame may be nested. -/
def limitReached? (ev : Evaluator) : Option Nat :=
  ev.config.maxDepth?.filter (· ≤ ev.depth)

/-- Starts to expand a frame. -/
def enter (f : Frame) (ev : Evaluator) : Evaluator :=
  let ev := { ev with
    inProgress := ev.inProgress.insert f ev.nextIndex
    component := ev.component.push f
    nextIndex := ev.nextIndex + 1
    depth := ev.depth + 1
    stats.expanded := ev.stats.expanded + 1 }
  let depth := ev.depth
  ev.report (.expanding f depth)

/-- Ends the expansion of a frame. -/
def exit (f : Frame) (ev : Evaluator) : Evaluator :=
  { ev with
    inProgress := ev.inProgress.erase f
    depth := ev.depth - 1 }

/-- Drops the open frames from position `mark` on, after one of them failed. -/
def abandon (mark : Nat) (ev : Evaluator) : Evaluator :=
  let members := ev.component.extract mark
  { ev with
    component := ev.component.shrink mark
    pending := members.foldl (fun pending f => pending.erase f) ev.pending }

/-- Leaves a frame pending whose component is still open. -/
def suspend (f : Frame) (p : Pending) (ev : Evaluator) : Evaluator :=
  { ev with pending := ev.pending.insert f p }

/-- Closes the component of the frames from position `mark` on, whose root has found `found`. What
the members found together is what each of them selects. -/
def close (mark : Nat) (found : ItemSet) (ev : Evaluator) : ItemSet × Evaluator :=
  let members := ev.component.extract mark
  let gather := fun ((items, pending) : ItemSet × Std.HashMap Frame Pending) (f : Frame) =>
    match pending[f]? with
    | some p => (items.union p.found, pending.erase f)
    | none => (items, pending)
  let (items, pending) := members.foldl gather (found, ev.pending)
  let cache := if ev.config.memoize then
      members.foldl (fun cache f => cache.insert f items) ev.cache
    else
      ev.cache
  (items, { ev with component := ev.component.shrink mark, pending, cache })

end Evaluator

end GraphQuery
