import GraphQuery.Operation.Basic
import Mathlib.Logic.Relation
/-!
# Nested queries

Operations that make selections hold the queries that they select in, so a query contains other
queries, and never itself. Queries are told apart by their numbers: `Numbered` says that equal
numbers mean equal queries, which holds as long as numbers are handed out once each.
-/

namespace GraphQuery

/-- Induction on filters. A conjunction may use the statement for each of its members. -/
@[elab_as_elim, induction_eliminator]
protected theorem Filter.induct {motive : Filter → Prop} (test : ∀ p, motive (.test p))
    (anything : ∀ t, motive (.anything t)) (equals : ∀ x t, motive (.equals x t))
    (every : ∀ members t, (∀ f ∈ members, motive f) → motive (.every members t))
    (counting : ∀ s c k, motive (.counting s c k))
    (onSlot : ∀ types i inner, motive inner → motive (.onSlot types i inner)) :
    ∀ f, motive f
  | .test p => test p
  | .anything t => anything t
  | .equals x t => equals x t
  | .every members t => every members t fun f _ =>
      Filter.induct test anything equals every counting onSlot f
  | .counting s c k => counting s c k
  | .onSlot types i inner => onSlot types i inner
      (Filter.induct test anything equals every counting onSlot inner)

/-- Induction on follows. -/
@[elab_as_elim, induction_eliminator]
protected theorem Follow.induct {motive : Follow → Prop} (map : ∀ m, motive (.map m))
    (filter : ∀ f, motive (.filter f)) (select : ∀ s, motive (.select s))
    (slot : ∀ types i, motive (.slot types i))
    (permute : ∀ types order, motive (.permute types order))
    (pair : ∀ inner, motive inner → motive (.pair inner))
    (onSlot : ∀ types i inner, motive inner → motive (.onSlot types i inner))
    (call : ∀ f, motive (.call f)) : ∀ f, motive f
  | .map m => map m
  | .filter f => filter f
  | .select s => select s
  | .slot types i => slot types i
  | .permute types order => permute types order
  | .pair inner => pair inner
      (Follow.induct map filter select slot permute pair onSlot call inner)
  | .onSlot types i inner => onSlot types i inner
      (Follow.induct map filter select slot permute pair onSlot call inner)
  | .call f => call f

namespace Filter

mutual

/-- The selections that a filter makes. -/
def selections : Filter → List Selection
  | .test _ | .anything _ | .equals .. => []
  | .every members _ => allSelections members
  | .counting s _ _ => [s]
  | .onSlot _ _ inner => inner.selections

/-- The selections that the filters of a list make. -/
def allSelections : List Filter → List Selection
  | [] => []
  | f :: fs => f.selections ++ allSelections fs

end

theorem allSelections_eq (fs : List Filter) : allSelections fs = fs.flatMap selections := by
  induction fs with
  | nil => rfl
  | cons f fs ih => rw [allSelections, ih, List.flatMap_cons]

end Filter

/-- The selections that a follow makes. -/
def Follow.selections : Follow → List Selection
  | .map _ | .slot .. | .permute .. | .call _ => []
  | .filter f => f.selections
  | .select s => [s]
  | .pair inner | .onSlot _ _ inner => inner.selections

/-- The selections that an operation makes. -/
def Operation.selections : Operation → List Selection
  | .filter f => f.selections
  | .follow f => f.selections
  | .count _ => []

namespace Query

/-- The operations of a query, arc by arc. -/
def operations (q : Query) : List Operation :=
  q.graph.labelled.flatMap Prod.snd

/-- One query is selected in by an operation of another. -/
def Nests (q r : Query) : Prop :=
  ∃ op ∈ q.operations, ∃ s ∈ op.selections, s.query = r

/-- A query is another or nested in it, at any depth. -/
def Within (q r : Query) : Prop :=
  Relation.ReflTransGen Nests q r

/-- Queries are within themselves. -/
theorem subset_within (queries : Set Query) : queries ⊆ {r | ∃ q ∈ queries, q.Within r} :=
  fun q member => ⟨q, member, .refl⟩

/-- The queries within those of a set have different numbers. -/
def Numbered (queries : Set Query) : Prop :=
  ∀ q ∈ queries, ∀ r ∈ queries, ∀ q' r', q.Within q' → r.Within r' → q'.id = r'.id → q' = r'

/-- No operation of a query makes selections. -/
def Flat (q : Query) : Prop :=
  ∀ op ∈ q.operations, op.selections = []

/-- Nothing is nested in a flat query. -/
theorem Flat.eq_of_within {q r : Query} (flat : q.Flat) (within : q.Within r) : r = q := by
  induction within with
  | refl => rfl
  | tail _ nests ih =>
    obtain ⟨op, listed, s, selects, -⟩ := ih ▸ nests
    rw [flat op listed] at selects
    cases selects

/-- Flat queries have only their own numbers. -/
theorem Numbered.of_flat {queries : Set Query} (flat : ∀ q ∈ queries, q.Flat)
    (apart : ∀ q ∈ queries, ∀ r ∈ queries, q.id = r.id → q = r) : Numbered queries := by
  intro q member r member' q' r' within within' same
  obtain rfl := (flat q member).eq_of_within within
  obtain rfl := (flat r member').eq_of_within within'
  exact apart _ member _ member' same

theorem Flat.numbered {q : Query} (flat : q.Flat) : Numbered {q} :=
  .of_flat (by rintro _ rfl; exact flat) (by rintro _ rfl _ rfl -; rfl)

theorem mem_steps {q : Query} {n : Node} {a : Arc} {op : Operation} :
    (a, op) ∈ q.steps n ↔ a ∈ q.graph.arcsFrom n ∧ op ∈ q.graph.labels a := by
  simp [steps]

theorem mem_operations_of_mem_labels {q : Query} {a : Arc} {op : Operation}
    (label : op ∈ q.graph.labels a) : op ∈ q.operations := by
  unfold Graph.labels at label
  cases found : q.graph.labelled.lookup a with
  | none => simp [found] at label
  | some ops =>
    rw [found, Option.getD_some] at label
    obtain ⟨before, after, split, -⟩ := List.lookup_eq_some_iff.mp found
    exact List.mem_flatMap.mpr ⟨(a, ops), by simp [split], label⟩

theorem mem_operations_of_mem_steps {q : Query} {n : Node} {a : Arc} {op : Operation}
    (step : (a, op) ∈ q.steps n) : op ∈ q.operations :=
  mem_operations_of_mem_labels (mem_steps.mp step).2

end Query

private theorem Filter.sizeOf_selection {s : Selection} (f : Filter)
    (member : s ∈ f.selections) : sizeOf s < sizeOf f := by
  induction f with
  | test | anything | equals => simp [Filter.selections] at member
  | every members _ ih =>
    rw [Filter.selections, Filter.allSelections_eq, List.mem_flatMap] at member
    obtain ⟨f, listed, member⟩ := member
    have := ih f listed member
    have := List.sizeOf_lt_of_mem listed
    simp only [Filter.every.sizeOf_spec]
    omega
  | counting t =>
    obtain rfl : s = t := by simpa [Filter.selections] using member
    simp only [Filter.counting.sizeOf_spec]
    omega
  | onSlot _ _ inner ih =>
    have := ih member
    simp only [Filter.onSlot.sizeOf_spec]
    omega

private theorem Follow.sizeOf_selection {s : Selection} (f : Follow)
    (member : s ∈ f.selections) : sizeOf s < sizeOf f := by
  induction f with
  | map | slot | permute | call => simp [Follow.selections] at member
  | filter f =>
    have := f.sizeOf_selection member
    simp only [Follow.filter.sizeOf_spec]
    omega
  | select t =>
    obtain rfl : s = t := by simpa [Follow.selections] using member
    simp only [Follow.select.sizeOf_spec]
    omega
  | pair inner ih =>
    have := ih member
    simp only [Follow.pair.sizeOf_spec]
    omega
  | onSlot _ _ inner ih =>
    have := ih member
    simp only [Follow.onSlot.sizeOf_spec]
    omega

private theorem Operation.sizeOf_selection {s : Selection} (op : Operation)
    (member : s ∈ op.selections) : sizeOf s < sizeOf op := by
  cases op with
  | filter f =>
    have := Filter.sizeOf_selection f member
    simp only [Operation.filter.sizeOf_spec]
    omega
  | follow f =>
    have := Follow.sizeOf_selection f member
    simp only [Operation.follow.sizeOf_spec]
    omega
  | count => simp [Operation.selections] at member

namespace Query

/-- A nested query is smaller than the query that it is nested in. -/
theorem Nests.sizeOf_lt {q r : Query} (nests : q.Nests r) : sizeOf r < sizeOf q := by
  obtain ⟨op, member, s, selects, rfl⟩ := nests
  obtain ⟨entry, listed, labels⟩ := List.mem_flatMap.mp member
  have inLabels := List.sizeOf_lt_of_mem labels
  have inList := List.sizeOf_lt_of_mem listed
  have inOperation := op.sizeOf_selection selects
  obtain ⟨query, start, stop⟩ := s
  obtain ⟨arc, ops⟩ := entry
  obtain ⟨id, ⟨nodes, nodeIndex, arcs, labelled, outgoing, incoming⟩⟩ := q
  simp only [Selection.mk.sizeOf_spec, Prod.mk.sizeOf_spec, Query.mk.sizeOf_spec,
    Graph.mk.sizeOf_spec] at *
  omega

theorem Within.sizeOf_le {q r : Query} (within : q.Within r) : sizeOf r ≤ sizeOf q := by
  induction within with
  | refl => exact Nat.le_refl _
  | tail _ nests ih => exact Nat.le_trans (Nat.le_of_lt nests.sizeOf_lt) ih

/-- No query is nested in itself. -/
theorem Nests.ne_of_within {q r s : Query} (nests : q.Nests r) (within : r.Within s) : q ≠ s := by
  rintro rfl
  have := nests.sizeOf_lt
  have := within.sizeOf_le
  omega

theorem nests_wf : WellFounded fun r q : Query => q.Nests r :=
  Subrelation.wf Nests.sizeOf_lt (measure sizeOf).wf

end Query

end GraphQuery
