import GraphQuery.Proofs.Moments
/-!
# Why a run fails

A walk that fails has gone along some arcs to a frame where it cannot go on: the evaluator gives up
for depth there, or an operation fails. An operation fails with an error of its own, or because a
selection that it makes has failed, which again comes down to a walk. The error tells the arcs of every
such walk from the outside in.
-/

namespace GraphQuery

open EvalM

namespace Inquiry

variable {α β : Type} {select : Selection → Item → EvalM ItemSet} {P : Error → Prop}

/-- Carried out from a state, an inquiry fails with an error of its own, after the selections that it
asked for have passed. -/
inductive Raises (select : Selection → Item → EvalM ItemSet) :
    Inquiry α → Evaluator → Error → Prop where
  | here (e : Error) (ev : Evaluator) : Raises select (.done (.error e)) ev e
  | later {s : Selection} {x : Item} {next : ItemSet → Inquiry α} {found : ItemSet} {e : Error}
    {ev ev₁ : Evaluator} (passed : (select s x).Ends ev (.ok found) ev₁)
    (rest : Raises select (next found) ev₁ e) : Raises select (.ask s x next) ev e

/-- Whether the errors that an inquiry fails with by itself have a property. -/
def RaisesOnly (P : Error → Prop) : Inquiry α → Prop
  | .done (.ok _) => True
  | .done (.error e) => P e
  | .ask _ _ next => ∀ found, (next found).RaisesOnly P

theorem Raises.holds {p : Inquiry α} {ev : Evaluator} {e : Error} (raises : p.Raises select ev e)
    (only : p.RaisesOnly P) : P e := by
  induction raises with
  | here => exact only
  | later _ _ ih => exact ih (only _)

theorem raisesOnly_pure (a : α) : (pure a : Inquiry α).RaisesOnly P := trivial

theorem raisesOnly_throw {e : Error} (holds : P e) : (throw e : Inquiry α).RaisesOnly P := holds

theorem raisesOnly_ofOutcome {o : Except Error α} (holds : ∀ e, o = .error e → P e) :
    (ofOutcome o : Inquiry α).RaisesOnly P := by
  cases o with
  | ok => trivial
  | error e => exact holds e rfl

theorem raisesOnly_bind {p : Inquiry α} {f : α → Inquiry β} (first : p.RaisesOnly P)
    (second : ∀ a, (f a).RaisesOnly P) : (p >>= f).RaisesOnly P := by
  induction p with
  | done outcome =>
    cases outcome with
    | ok a => exact second a
    | error e => exact first
  | ask s x next ih => exact fun found => ih found (first found)

theorem raisesOnly_mapM {f : α → Inquiry β} (only : ∀ a, (f a).RaisesOnly P) (as : List α) :
    (as.mapM f).RaisesOnly P := by
  induction as with
  | nil => exact raisesOnly_pure _
  | cons a as ih =>
    rw [List.mapM_cons]
    exact raisesOnly_bind (only a) fun b => raisesOnly_bind ih fun bs => raisesOnly_pure _

end Inquiry

/-! What callers supply -/

/-- The test fails only with errors that have a property. -/
def Predicate.FailsOnly (P : Error → Prop) (p : Predicate) : Prop :=
  ∀ x e, p.test x = .error e → P e

/-- The tests that callers supplied for a filter fail only with errors that have a property. -/
inductive Filter.FailsOnly (P : Error → Prop) : Filter → Prop where
  | test {p : Predicate} (only : p.FailsOnly P) : FailsOnly P (.test p)
  | anything (t : ItemType) : FailsOnly P (.anything t)
  | equals (value : Item) (t : ItemType) : FailsOnly P (.equals value t)
  | every {members : List Filter} (only : ∀ f ∈ members, FailsOnly P f) (t : ItemType) :
    FailsOnly P (.every members t)
  | counting (s : Selection) (c : Comparison) (k : Nat) : FailsOnly P (.counting s c k)
  | onSlot (types : List ItemType) (i : Fin types.length) {inner : Filter}
    (only : FailsOnly P inner) : FailsOnly P (.onSlot types i inner)

/-- By itself, a filter fails only as its tests do, or because an item does not fit. -/
theorem Filter.FailsOnly.accept {P : Error → Prop} {f : Filter} (only : f.FailsOnly P)
    (misfit : ∀ (x : Item) operation types, P (x.misfit operation types)) (x : Item) :
    (f.accept Inquiry.select x).RaisesOnly P := by
  induction only generalizing x with
  | test only => exact Inquiry.raisesOnly_ofOutcome (only x)
  | anything | equals => trivial
  | @every members only t ih =>
    rw [Filter.accept]
    induction members with
    | nil => trivial
    | cons f fs rest =>
      rw [Filter.acceptEvery]
      refine Inquiry.raisesOnly_bind (ih f List.mem_cons_self x) fun accepted => ?_
      cases accepted with
      | false => trivial
      | true =>
        exact rest (fun g member => only g (List.mem_cons_of_mem f member))
          fun g member => ih g (List.mem_cons_of_mem f member)
  | counting => exact fun _ => trivial
  | onSlot types i _ ih =>
    rw [Filter.accept]
    cases x.fitting? types with
    | none => exact Inquiry.raisesOnly_throw (misfit x _ _)
    | some t => exact ih _

namespace Evaluator

/-- What makes a walk fail in the end. -/
inductive Origin where
  /-- An operation fails by itself. -/
  | operation
  /-- No further frame may be nested. -/
  | limit

/-- Walks set each other off, one after the other, along some arcs. -/
inductive Moment.Along : Moment → List Arc → Moment → Prop where
  | nil (m : Moment) : Along m [] m
  | cons {q : Query} {start stop : Node} {items reached : ItemSet} {ev ev₁ ev₂ : Evaluator}
    {steps rest : List (Arc × Operation)} {a : Arc} {op : Operation} {fuel : Nat} {arcs : List Arc}
    {m : Moment} (expanding : Expanding q start stop items ev steps ev₁)
    (next : q.steps start = steps ++ (a, op) :: rest)
    (applied : (op.apply (nested fuel) items).Ends ev₁ (.ok reached) ev₂)
    (filled : reached.isEmpty = false) (along : Along ⟨.walk q a.target stop reached, ev₂⟩ arcs m) :
    Along ⟨.walk q start stop items, ev⟩ (a :: arcs) m

/-- An error spells why the walk of a moment fails: first the arcs to the frame where it cannot go on,
then, if an operation fails there, the operation and what its own error tells. -/
inductive Spelled : Origin → Moment → Error → Prop where
  /-- The evaluator gives up. -/
  | limited {m : Moment} {arcs : List Arc} {q : Query} {start stop : Node} {items : ItemSet}
    {ev : Evaluator} {limit : Nat} (along : m.Along arcs ⟨.walk q start stop items, ev⟩)
    (filled : items.isEmpty = false) (unknown : (consult ⟨q.id, start, stop, items⟩ ev).1 = none)
    (limited : ev.limitReached? = some limit) :
    Spelled .limit m ⟨arcs.map .walking, .depthExceeded limit⟩
  /-- An operation raises an error. -/
  | raised {m : Moment} {arcs : List Arc} {q : Query} {start stop : Node} {items : ItemSet}
    {ev ev₁ ev₂ : Evaluator} {steps rest : List (Arc × Operation)} {a : Arc} {op : Operation}
    {fuel : Nat} {d : Error} (along : m.Along arcs ⟨.walk q start stop items, ev⟩)
    (expanding : Expanding q start stop items ev steps ev₁)
    (next : q.steps start = steps ++ (a, op) :: rest)
    (applied : (op.apply (nested fuel) items).Ends ev₁ (.error d) ev₂)
    (raises : (op.inquiry items).Raises (nested fuel) ev₁ d) :
    Spelled .operation m ⟨arcs.map .walking ++ .applying op.text a :: d.trail, d.cause⟩
  /-- A selection fails that an operation makes for an item. -/
  | passed {o : Origin} {m m' : Moment} {arcs : List Arc} {q : Query} {start stop : Node}
    {items : ItemSet} {ev ev₁ ev₂ ev₃ : Evaluator} {steps rest : List (Arc × Operation)} {a : Arc}
    {op : Operation} {fuel : Nat} {s : Selection} {x : Item} {e : Error}
    (along : m.Along arcs ⟨.walk q start stop items, ev⟩)
    (expanding : Expanding q start stop items ev steps ev₁)
    (next : q.steps start = steps ++ (a, op) :: rest)
    (applied : (op.apply (nested fuel) items).Ends ev₁ (.error (e.through (.nested s.text x))) ev₃)
    (asksIn : (op.inquiry items).AsksIn (nested fuel) ev₁ s x ev₂)
    (setsOff : Moment.SetsOff ⟨.nested s x, ev₂⟩ m') (spelled : Spelled o m' e) :
    Spelled o m ⟨arcs.map .walking ++ .applying op.text a :: .nested s.text x :: e.trail, e.cause⟩

variable {q : Query} {start stop : Node} {items reached : ItemSet} {ev ev₁ ev₂ : Evaluator}
  {steps rest : List (Arc × Operation)} {a : Arc} {op : Operation} {fuel : Nat} {m m' : Moment}
  {arcs : List Arc} {e : Error} {o : Origin}

/-- The error of a walk that is set off tells the arc to it, and goes on as before. -/
theorem Spelled.walking (expanding : Expanding q start stop items ev steps ev₁)
    (next : q.steps start = steps ++ (a, op) :: rest)
    (applied : (op.apply (nested fuel) items).Ends ev₁ (.ok reached) ev₂)
    (filled : reached.isEmpty = false)
    (spelled : Spelled o ⟨.walk q a.target stop reached, ev₂⟩ e) :
    Spelled o ⟨.walk q start stop items, ev⟩ (e.through (.walking a)) := by
  cases spelled with
  | limited along filled' unknown limited =>
    exact .limited (.cons expanding next applied filled along) filled' unknown limited
  | raised along expanding' next' applied' raises =>
    exact .raised (.cons expanding next applied filled along) expanding' next' applied' raises
  | passed along expanding' next' applied' asksIn setsOff spelled =>
    exact .passed (.cons expanding next applied filled along) expanding' next' applied' asksIn setsOff
      spelled

theorem Moment.Along.follows (along : m.Along arcs m') : m.Follows m' := by
  induction along with
  | nil => exact .refl
  | cons expanding next applied filled _ ih => exact ih.head (.walks expanding next applied filled)

end Evaluator

end GraphQuery
