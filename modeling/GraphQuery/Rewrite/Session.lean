import GraphQuery.Evaluator.Select
import GraphQuery.Operation.Make
import GraphQuery.Builder
/-!
# Sessions

Rewriting a query makes nodes and queries, and it makes selections in queries over the nodes of the
query itself. A session hands out the numbers of what is made, each once, and collects the events
of those selections.
-/

namespace GraphQuery

/-- The numbers not handed out yet, and the events so far. -/
structure Session where
  nextNode : NodeId := 0
  nextQuery : QueryId := 0
  events : Array Event := #[]

/-- A computation in a session. -/
abbrev SessionM := ExceptT Error (StateT Session Option)

namespace Session

/-- A number for a new node. -/
def freshNode : SessionM NodeId :=
  modifyGet fun s => (s.nextNode, { s with nextNode := s.nextNode + 1 })

/-- A number for a new query. -/
def freshQuery : SessionM QueryId :=
  modifyGet fun s => (s.nextQuery, { s with nextQuery := s.nextQuery + 1 })

/-- Reports an event. -/
def report (e : Event) : SessionM Unit :=
  modify fun s => { s with events := s.events.push e }

/-- The computation without outcome. -/
def exhausted {α : Type} : SessionM α :=
  ExceptT.mk fun _ => none

/-- Makes a selection with an evaluator of its own, nesting at most `fuel` frames. -/
def select (fuel : Nat) (q : Query) (start stop : Node) (items : ItemSet) : SessionM ItemSet :=
  match (Evaluator.select fuel q start stop items).run {} with
  | none => exhausted
  | some (outcome, ev) => do
    modify fun s => { s with events := s.events ++ ev.events }
    ofOutcome outcome

end Session

end GraphQuery
