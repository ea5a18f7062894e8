import GraphQuery.Proofs.Purity
/-!
# Calls

Queries are built one after the other, each with the next number. Between calls an evaluator is in
a state that earlier calls have left: selections that passed or failed, in any queries and in any
order, and forgetting the cache.
-/

namespace GraphQuery

/-- A set of queries as they are built one after the other: each with the next number, and selecting
in queries only that were built before. -/
inductive Query.Built : QueryId → Set Query → Prop where
  | none : Built 0 ∅
  | build {next : QueryId} {queries : Set Query} {q : Query} (built : Built next queries)
    (numbered : q.id = next) (nested : ∀ r, q.Nests r → r ∈ queries) :
    Built (next + 1) (insert q queries)

namespace Query.Built

variable {next : QueryId} {queries : Set Query}

theorem id_lt (built : Built next queries) {q : Query} (member : q ∈ queries) : q.id < next := by
  induction built with
  | none => cases member
  | build _ numbered _ ih =>
    obtain rfl | member := member
    · exact numbered ▸ Nat.lt_succ_self _
    · exact (ih member).trans (Nat.lt_succ_self _)

theorem within (built : Built next queries) {q r : Query} (member : q ∈ queries)
    (within : q.Within r) : r ∈ queries := by
  induction within with
  | refl => exact member
  | @tail r s _ nests ih =>
    clear member
    induction built with
    | none => cases ih
    | build _ _ nested ih' =>
      obtain rfl | member := ih
      · exact .inr (nested s nests)
      · exact .inr (ih' member)

/-- Queries that are built one after the other have different numbers. -/
theorem numbered (built : Built next queries) : Numbered queries := by
  intro q first r second q' r' within within' same
  replace first := built.within first within
  replace second := built.within second within'
  clear within within'
  induction built with
  | none => cases first
  | build built numbered _ ih =>
    obtain rfl | first := first
    · obtain rfl | second := second
      · rfl
      · exact absurd (same.symm.trans numbered) (built.id_lt second).ne
    · obtain rfl | second := second
      · exact absurd (same.trans numbered) (built.id_lt first).ne
      · exact ih first second

end Query.Built

namespace Evaluator

open EvalM

/-- The states that earlier calls have left. Each selection is one of those allowed, from a node of
a query with some items, and may pass or fail. -/
inductive After (allowed : Query → Node → ItemSet → Prop) (memoize : Bool) : Evaluator → Prop where
  | nothing : After allowed memoize (.fresh memoize)
  | select {ev ev' : Evaluator} {q : Query} {start stop : Node} {items : ItemSet} {fuel : Nat}
    {r : Except Error ItemSet} (before : After allowed memoize ev) (call : allowed q start items)
    (ends : (select fuel q start stop items).Ends ev r ev') : After allowed memoize ev'
  | selectResults {ev ev' : Evaluator} {q : Query} {start : Node} {items : ItemSet} {fuel : Nat}
    {r : Except Error ItemSet} (before : After allowed memoize ev) (call : allowed q start items)
    (ends : (selectResults fuel q start items).Ends ev r ev') : After allowed memoize ev'
  | clearCache {ev : Evaluator} (before : After allowed memoize ev) :
    After allowed memoize ev.clearCache

/-- A call that makes selections in one of some queries leads from one state to another. It may pass or
fail. -/
inductive Selecting (queries : Set Query) (ev ev' : Evaluator) : Prop where
  | select {q : Query} {start stop : Node} {items : ItemSet} {fuel : Nat} {r : Except Error ItemSet}
    (member : q ∈ queries) (ends : (select fuel q start stop items).Ends ev r ev')
  | selectResults {q : Query} {start : Node} {items : ItemSet} {fuel : Nat} {r : Except Error ItemSet}
    (member : q ∈ queries) (ends : (selectResults fuel q start items).Ends ev r ev')

/-- The states between calls of an evaluator with any settings, limits on depth included. -/
inductive Serves (queries : Set Query) (config : Config) : Evaluator → Prop where
  | nothing : Serves queries config (.started config)
  | selecting {ev ev' : Evaluator} (before : Serves queries config ev)
    (call : Selecting queries ev ev') : Serves queries config ev'
  | clearCache {ev : Evaluator} (before : Serves queries config ev) :
    Serves queries config ev.clearCache

end Evaluator

end GraphQuery
