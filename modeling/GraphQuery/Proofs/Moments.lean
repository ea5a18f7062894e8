import GraphQuery.Proofs.Selections
import GraphQuery.Proofs.Stacking
/-!
# The moments of a run

A run makes its way through moments: a walk sets out from a frame, or an operation starts to make a
selection for an item. What is done at one moment sets off what is done at later ones, once the parts
before these are over. Which moments there are does not depend on whether the run ends.

At every moment the evaluator is orderly, and no query that may be selected in from here on has an open
frame. If the operations are stable, it is truthful besides.
-/

namespace GraphQuery

namespace Inquiry

open EvalM

variable {α : Type}

/-- Carried out from a state, an inquiry asks for a selection in another, after the selections that it
asked for before have passed. -/
inductive AsksIn (select : Selection → Item → EvalM ItemSet) :
    Inquiry α → Evaluator → Selection → Item → Evaluator → Prop where
  | here (s : Selection) (x : Item) (next : ItemSet → Inquiry α) (ev : Evaluator) :
    AsksIn select (.ask s x next) ev s x ev
  | later {s t : Selection} {x y : Item} {next : ItemSet → Inquiry α} {found : ItemSet}
    {ev ev₁ ev₂ : Evaluator} (passed : (select s x).Ends ev (.ok found) ev₁)
    (rest : AsksIn select (next found) ev₁ t y ev₂) : AsksIn select (.ask s x next) ev t y ev₂

/-- An inquiry asks for its own selections only, in states with whatever property its selections
keep. -/
theorem AsksIn.keeps {select : Selection → Item → EvalM ItemSet} {P : Selection → Prop}
    {I : Evaluator → Prop} (answers : ∀ s, P s → ∀ x ev found ev', I ev →
      (select s x).Ends ev (.ok found) ev' → I ev')
    {p : Inquiry α} {ev ev' : Evaluator} {s : Selection} {x : Item}
    (asksIn : p.AsksIn select ev s x ev') (asks : p.AsksOnly P) (before : I ev) : P s ∧ I ev' := by
  induction asksIn with
  | here => exact ⟨asks.1, before⟩
  | later passed _ ih => exact ih (asks.2 _) (answers _ asks.1 _ _ _ _ before passed)

theorem AsksIn.of_asksOnly {select : Selection → Item → EvalM ItemSet} {P : Selection → Prop}
    {p : Inquiry α} {ev ev' : Evaluator} {s : Selection} {x : Item}
    (asksIn : p.AsksIn select ev s x ev') (asks : p.AsksOnly P) : P s :=
  (asksIn.keeps (I := fun _ => True) (fun _ _ _ _ _ _ _ _ => trivial) asks trivial).1

end Inquiry

namespace Evaluator

open EvalM

/-- What is done at a moment of a run. -/
inductive Job where
  /-- Finding what a frame reaches. -/
  | walk (q : Query) (start stop : Node) (items : ItemSet)
  /-- Making the selection of an operation for an item. -/
  | nested (s : Selection) (x : Item)

/-- A job and the state in which it is started. -/
structure Moment where
  job : Job
  state : Evaluator

/-- A frame is being expanded, and some steps have been taken. -/
structure Expanding (q : Query) (start stop : Node) (items : ItemSet) (ev : Evaluator)
    (steps : List (Arc × Operation)) (ev' : Evaluator) : Prop where
  filled : items.isEmpty = false
  unknown : (consult ⟨q.id, start, stop, items⟩ ev).1 = none
  unlimited : ev.limitReached? = none
  taken : ∃ fuel reach, (steps.foldlM (fun found (a, op) => stepBy (visit fuel) q stop items found a op)
    ⟨if start = stop then items else .empty stop.inputType, none⟩).Ends
      (enter ⟨q.id, start, stop, items⟩ ev) (.ok reach) ev'

/-- Selections that end at some nodes have passed, one after the other. -/
inductive Passed (q : Query) (start : Node) (items : ItemSet) :
    List Node → Evaluator → Evaluator → Prop where
  | nil (ev : Evaluator) : Passed q start items [] ev ev
  | cons {stop : Node} {stops : List Node} {fuel : Nat} {found : ItemSet} {ev ev₁ ev' : Evaluator}
    (first : (select fuel q start stop items).Ends ev (.ok found) ev₁)
    (rest : Passed q start items stops ev₁ ev') : Passed q start items (stop :: stops) ev ev'

/-- What is done at one moment sets off what is done at another. -/
inductive Moment.SetsOff : Moment → Moment → Prop where
  /-- An operation of the expanded frame asks for a selection. -/
  | asks {q : Query} {start stop : Node} {items : ItemSet} {ev ev₁ ev₂ : Evaluator}
    {steps rest : List (Arc × Operation)} {a : Arc} {op : Operation} {fuel : Nat} {s : Selection}
    {x : Item} (expanding : Expanding q start stop items ev steps ev₁)
    (next : q.steps start = steps ++ (a, op) :: rest)
    (asksIn : (op.inquiry items).AsksIn (nested fuel) ev₁ s x ev₂) :
    SetsOff ⟨.walk q start stop items, ev⟩ ⟨.nested s x, ev₂⟩
  /-- The frame that an operation has led to is walked on from. -/
  | walks {q : Query} {start stop : Node} {items reached : ItemSet} {ev ev₁ ev₂ : Evaluator}
    {steps rest : List (Arc × Operation)} {a : Arc} {op : Operation} {fuel : Nat}
    (expanding : Expanding q start stop items ev steps ev₁)
    (next : q.steps start = steps ++ (a, op) :: rest)
    (applied : (op.apply (nested fuel) items).Ends ev₁ (.ok reached) ev₂)
    (filled : reached.isEmpty = false) :
    SetsOff ⟨.walk q start stop items, ev⟩ ⟨.walk q a.target stop reached, ev₂⟩
  /-- The selection of an operation walks to the next of its ends. -/
  | selects {s : Selection} {x : Item} {before after : List Node} {stop : Node} {ev ev₁ : Evaluator}
    (passed : Passed s.query s.start (.singleton x s.inputType) before ev ev₁)
    (next : s.stops = before ++ stop :: after) :
    SetsOff ⟨.nested s x, ev⟩ ⟨.walk s.query s.start stop (.singleton x s.inputType),
      announce s.query s.start stop (.singleton x s.inputType) ev₁⟩

/-- What follows from a moment. -/
def Moment.Follows : Moment → Moment → Prop :=
  Relation.ReflTransGen Moment.SetsOff

/-- A call starts with a walk, to the one end of a selection or to the next result node. -/
inductive Begins (queries : Set Query) (ev : Evaluator) : Moment → Prop where
  | select {q : Query} (member : q ∈ queries) (start stop : Node) (items : ItemSet) :
    Begins queries ev ⟨.walk q start stop items, announce q start stop items ev⟩
  | selectResults {q : Query} {start stop : Node} {items : ItemSet} {before after : List Node}
    {ev₁ : Evaluator} (member : q ∈ queries) (passed : Passed q start items before ev ev₁)
    (next : q.resultNodes = before ++ stop :: after) :
    Begins queries ev ⟨.walk q start stop items, announce q start stop items ev₁⟩

/-- The moments of the runs of calls on an evaluator in some state. -/
def Happens (queries : Set Query) (ev : Evaluator) (m : Moment) : Prop :=
  ∃ first, Begins queries ev first ∧ first.Follows m

variable {known queries : Set Query} {q : Query} {ev ev' : Evaluator} {m m' : Moment}

/-- The query that a moment is about. -/
def Moment.query : Moment → Query
  | ⟨.walk q _ _ _, _⟩ => q
  | ⟨.nested s _, _⟩ => s.query

theorem mem_steps_of_split {n : Node} {steps rest : List (Arc × Operation)} {a : Arc}
    {op : Operation} (next : q.steps n = steps ++ (a, op) :: rest) :
    a ∈ q.graph.arcsFrom n ∧ op ∈ q.graph.labels a :=
  Query.mem_steps.mp (next ▸ List.mem_append_right steps List.mem_cons_self)

theorem mem_operations_of_split {n : Node} {steps rest : List (Arc × Operation)} {a : Arc}
    {op : Operation} (next : q.steps n = steps ++ (a, op) :: rest) : op ∈ q.operations :=
  Query.mem_operations_of_mem_labels (mem_steps_of_split next).2

/-- What is set off is about the same query or one nested in it. -/
theorem Moment.SetsOff.within (setsOff : m.SetsOff m') : m.query.Within m'.query := by
  cases setsOff with
  | @asks _ _ _ items _ _ _ _ _ _ op _ s _ _ next asksIn =>
    have selects := asksIn.of_asksOnly (op.inquiry_asksOnly items)
    exact .single ⟨op, mem_operations_of_split next, s, selects, rfl⟩
  | walks => exact .refl
  | selects => exact .refl

/-- A walk of a query whose operations make no selections sets off its walks along arcs only. -/
theorem Moment.SetsOff.of_flat {n stop : Node} {items : ItemSet} (flat : q.Flat)
    (setsOff : Moment.SetsOff ⟨.walk q n stop items, ev⟩ m) :
    ∃ a op items' ev', (a, op) ∈ q.steps n ∧ m = ⟨.walk q a.target stop items', ev'⟩ := by
  cases setsOff with
  | @asks _ _ _ _ _ _ _ _ _ a op _ s _ _ next asksIn =>
    have selects := asksIn.of_asksOnly (op.inquiry_asksOnly items)
    rw [flat op (mem_operations_of_split next)] at selects
    cases selects
  | @walks _ _ _ _ reached _ _ ev₂ _ _ a op _ _ next =>
    exact ⟨a, op, reached, ev₂, next ▸ List.mem_append_right _ List.mem_cons_self, rfl⟩

theorem Moment.Follows.within (follows : m.Follows m') : m.query.Within m'.query := by
  induction follows with
  | refl => exact .refl
  | tail _ setsOff ih => exact ih.trans setsOff.within

/-- Selections keep whatever each of them keeps. -/
theorem Passed.keeps {start : Node} {items : ItemSet} {stops : List Node} {I : Evaluator → Prop}
    (passed : Passed q start items stops ev ev')
    (selects : ∀ fuel stop found ev ev', I ev →
      (select fuel q start stop items).Ends ev (.ok found) ev' → I ev')
    (before : I ev) : I ev' := by
  induction passed with
  | nil => exact before
  | cons first _ ih => exact ih (selects _ _ _ _ _ before first)

/-! Without any assumption on operations -/

/-- The state of a moment is orderly and has the settings that it always had, and none of the queries
that may be selected in from there on has an open frame, apart from that of a walk. -/
def Moment.Poised (known : Set Query) (config : Config) : Moment → Prop
  | ⟨.walk q _ _ _, ev⟩ =>
    q ∈ known ∧ ev.config = config ∧ Orderly ev ∧ ∀ r, q.Nests r → Clear r ev
  | ⟨.nested s _, ev⟩ => s.query ∈ known ∧ ev.config = config ∧ Orderly ev ∧ Clear s.query ev

section

variable (shelf : Shelf known)

include shelf

theorem select_returns (member : q ∈ known) {fuel : Nat} {start stop : Node} {items : ItemSet}
    {r : Except Error ItemSet} (orderly : Orderly ev) (clear : Clear q ev)
    (ends : (select fuel q start stop items).Ends ev r ev') : Returns ev ev' :=
  selectBy_returns (visit_disciplined shelf fuel) member orderly clear ends

theorem Passed.returns {start : Node} {items : ItemSet} {stops : List Node} (member : q ∈ known)
    (orderly : Orderly ev) (clear : Clear q ev) (passed : Passed q start items stops ev ev') :
    Returns ev ev' :=
  passed.keeps (I := Returns ev) (fun _ _ _ _ _ between first => between.trans
    (select_returns shelf member between.orderly (clear.extends between.ext) first)) (.refl orderly)

/-- What is noted when the next selection sets out leaves the open frames as they are. -/
theorem Passed.announces {start : Node} {items : ItemSet} {stops : List Node} (member : q ∈ known)
    (orderly : Orderly ev) (clear : Clear q ev) (passed : Passed q start items stops ev ev')
    (stop : Node) : Returns ev (announce q start stop items ev') := by
  have returns := passed.returns shelf member orderly clear
  exact returns.trans ((sameBut_announce q start stop items ev').returns returns.orderly)

/-- The next selection sets out poised. -/
theorem Passed.poised {start : Node} {items : ItemSet} {stops : List Node} (member : q ∈ known)
    (orderly : Orderly ev) (clear : Clear q ev) (passed : Passed q start items stops ev ev')
    (stop : Node) :
    Moment.Poised known ev.config ⟨.walk q start stop items, announce q start stop items ev'⟩ := by
  have announced := passed.announces shelf member orderly clear stop
  exact ⟨member, announced.ext.config, announced.orderly, fun r nests t within =>
    clear.extends announced.ext t (within.head nests)⟩

/-- The steps taken pile frames of the expanded query on its own. -/
theorem Expanding.piles {start stop : Node} {items : ItemSet} {steps rest : List (Arc × Operation)}
    (expanding : Expanding q start stop items ev steps ev') (member : q ∈ known)
    (listed : q.steps start = steps ++ rest) (orderly : Orderly ev)
    (clear : ∀ r, q.Nests r → Clear r ev) :
    (∀ r, q.Nests r → Clear r ev') ∧ ∃ low? new, Piles (enter ⟨q.id, start, stop, items⟩ ev)
      ⟨q.id, start, stop, items⟩ low? ev' new := by
  obtain ⟨-, unknown, -, fuel, reach, taken⟩ := expanding
  obtain ⟨uncached, unopened⟩ := consult_eq_none.mp unknown
  have entered (r : Query) (nests : q.Nests r) := (clear r nests).enter shelf member nests
    (f := ⟨q.id, start, stop, items⟩) rfl
  have started : Piles (enter ⟨q.id, start, stop, items⟩ ev) ⟨q.id, start, stop, items⟩ none
      (enter ⟨q.id, start, stop, items⟩ ev) [] :=
    .of_uncut (orderly.enter unopened uncached) (.refl _)
  obtain ⟨_, new, -, piles⟩ | ⟨_, _, contra, -⟩ := foldlM_piles shelf (visit_disciplined shelf fuel)
    member (f := ⟨q.id, start, stop, items⟩) rfl
    (fun step member => listed ▸ List.mem_append_left rest member) entered started taken
  · exact ⟨piles.clear shelf member rfl entered, _, new, piles⟩
  · cases contra

/-- The state in which a moment does its work: a walk has entered its frame. -/
def Moment.entered : Moment → Evaluator
  | ⟨.walk q start stop items, ev⟩ => enter ⟨q.id, start, stop, items⟩ ev
  | ⟨.nested _ _, ev⟩ => ev

/-- What is set off is poised, and all that was open at the work of the moment still is. -/
theorem Moment.Poised.setsOff {config : Config} (poised : m.Poised known config)
    (setsOff : m.SetsOff m') : m'.Poised known config ∧ ∃ new, m.entered.Extends m'.state new := by
  cases setsOff with
  | @asks q start stop items ev ev₁ ev₂ steps rest a op fuel s x expanding next asksIn =>
    obtain ⟨member, rfl, orderly, clear⟩ := poised
    obtain ⟨clear₁, _, new, piles⟩ := expanding.piles shelf member next orderly clear
    have nests {t : Selection} (selects : t ∈ op.selections) : q.Nests t.query :=
      ⟨op, mem_operations_of_split next, t, selects, rfl⟩
    obtain ⟨selects, returns⟩ := asksIn.keeps (I := Returns ev₁)
      (fun t selects x ev found ev' between passed => between.trans
        (nestedBy_returns (visit_disciplined shelf fuel) (shelf.closed q member _ (nests selects))
          between.orderly ((clear₁ _ (nests selects)).extends between.ext) passed))
      (op.inquiry_asksOnly items) (.refl piles.orderly)
    have grows := piles.ext.trans returns.ext
    exact ⟨⟨shelf.closed q member _ (nests selects), grows.config, returns.orderly,
      (clear₁ _ (nests selects)).extends returns.ext⟩, _, grows⟩
  | @walks q start stop items reached ev ev₁ ev₂ steps rest a op fuel expanding next applied filled =>
    obtain ⟨member, rfl, orderly, clear⟩ := poised
    obtain ⟨clear₁, _, new, piles⟩ := expanding.piles shelf member next orderly clear
    have returns := apply_returns shelf (visit_disciplined shelf fuel) member
      (mem_operations_of_split next) piles.orderly clear₁ applied
    have grows := piles.ext.trans returns.ext
    exact ⟨⟨member, grows.config, returns.orderly, fun r nests =>
      (clear₁ r nests).extends returns.ext⟩, _, grows⟩
  | @selects s x before after stop ev ev₁ passed next =>
    obtain ⟨member, rfl, orderly, clear⟩ := poised
    exact ⟨passed.poised shelf member orderly clear stop, [],
      (passed.announces shelf member orderly clear stop).ext⟩

theorem Moment.Poised.follows {config : Config} (poised : m.Poised known config)
    (follows : m.Follows m') : m'.Poised known config := by
  induction follows with
  | refl => exact poised
  | tail _ setsOff ih => exact (ih.setsOff shelf setsOff).1

/-- The walks to the ends of an operation's selection come upon no open frame. -/
theorem Moment.Poised.low_eq_none {config : Config} {s : Selection} {x : Item} {start stop : Node}
    {items : ItemSet} {ev₁ ev₂ : Evaluator} {fuel : Nat} {reach : Reach}
    (poised : Moment.Poised known config ⟨.nested s x, ev⟩)
    (setsOff : Moment.SetsOff ⟨.nested s x, ev⟩ ⟨.walk q start stop items, ev₁⟩)
    (ends : (visit fuel q start stop items).Ends ev₁ (.ok reach) ev₂) : reach.low? = none := by
  obtain ⟨member, -, orderly, clear⟩ := poised
  cases setsOff with
  | @selects _ _ before after _ _ ev₀ passed next =>
    have announced := passed.announces shelf member orderly clear stop
    have clear₁ := clear.extends announced.ext
    have unwinds := visit_disciplined shelf fuel s.query member announced.orderly
      (fun r nests t within => clear₁ t (within.head nests)) ends
    exact (unwinds.returns announced.orderly rfl clear₁).2 reach rfl

/-- Calls start poised where no frame is open. -/
theorem Begins.poised (included : queries ⊆ known) (orderly : Orderly ev) (closed : ev.openSpots = [])
    (begins : Begins queries ev m) : m.Poised known ev.config := by
  have clear := clear_of_closed closed
  cases begins with
  | @select q member start stop items =>
    exact (Passed.nil ev).poised shelf (included member) orderly (clear q) stop
  | @selectResults q _ stop _ _ _ _ member passed next =>
    exact passed.poised shelf (included member) orderly (clear q) stop

end

/-! Where operations are stable -/

/-- The state of a moment is truthful besides. -/
def Moment.Honest (known : Set Query) : Moment → Prop
  | ⟨.walk q _ _ _, ev⟩ => q ∈ known ∧ Ready known q ev
  | ⟨.nested s _, ev⟩ => s.query ∈ known ∧ Truthful known ev ∧ Clear s.query ev

theorem Moment.Honest.truthful (honest : m.Honest known) : Truthful known m.state :=
  match m, honest with
  | ⟨.walk .., _⟩, ⟨_, ready⟩ => ready.truthful
  | ⟨.nested .., _⟩, ⟨_, truthful, _⟩ => truthful

section

variable (col : Collection known)

include col

/-- The steps taken leave what is needed to go on. -/
theorem Expanding.ready {start stop : Node} {items : ItemSet} {steps rest : List (Arc × Operation)}
    (expanding : Expanding q start stop items ev steps ev') (member : q ∈ known)
    (listed : q.steps start = steps ++ rest) (ready : Ready known q ev) : Ready known q ev' := by
  obtain ⟨filled, unknown, -, fuel, reach, taken⟩ := expanding
  obtain ⟨uncached, unopened⟩ := consult_eq_none.mp unknown
  have applies := (understood_of_stable col member).applies
  have entered := ready.enter col member (f := ⟨q.id, start, stop, items⟩) rfl unopened uncached
  have stepped := foldlM_stepped col member (walks_visit col member applies fuel) (applies fuel)
    (f := ⟨q.id, start, stop, items⟩) rfl filled entered entered.truthful (.start q _ _)
    (fun step member => listed ▸ List.mem_append_left rest member) taken
  cases stepped with
  | ok after progress => exact entered.leaves col member after rfl progress.leaves

theorem Passed.truthful {start : Node} {items : ItemSet} {stops : List Node} (member : q ∈ known)
    (truthful : Truthful known ev) (clear : Clear q ev) (passed : Passed q start items stops ev ev') :
    Truthful known ev' ∧ Clear q ev' :=
  passed.keeps (I := fun ev => Truthful known ev ∧ Clear q ev) (fun fuel stop _ _ _ before ends => by
    obtain ⟨after, ext, -⟩ := select_mirrors col member (understood_of_stable col member) start stop rfl
      before.1 (coherent_fresh known true) before.2 (clear_fresh q true) ends
    exact ⟨after, before.2.extends ext⟩) ⟨truthful, clear⟩

/-- The next selection sets out honestly. -/
theorem Passed.honest {start : Node} {items : ItemSet} {stops : List Node} (member : q ∈ known)
    (truthful : Truthful known ev) (clear : Clear q ev) (passed : Passed q start items stops ev ev')
    (stop : Node) :
    Moment.Honest known ⟨.walk q start stop items, announce q start stop items ev'⟩ := by
  obtain ⟨truthful', clear'⟩ := passed.truthful col member truthful clear
  have announced := sameBut_announce q start stop items ev'
  exact ⟨member, (clear'.extends announced.extends).ready (truthful'.of_sameBut announced)⟩

theorem Moment.Honest.setsOff (honest : m.Honest known) (setsOff : m.SetsOff m') :
    m'.Honest known := by
  cases setsOff with
  | @asks q start stop items ev ev₁ ev₂ steps rest a op fuel s x expanding next asksIn =>
    obtain ⟨member, ready⟩ := honest
    have ready₁ := expanding.ready col member next ready
    have nests {t : Selection} (selects : t ∈ op.selections) : q.Nests t.query :=
      ⟨op, mem_operations_of_split next, t, selects, rfl⟩
    have inside {t : Selection} (selects : t ∈ op.selections) : t.query ∈ known :=
      col.closed q member _ (nests selects)
    obtain ⟨selects, truthful, ext⟩ := asksIn.keeps
      (I := fun ev => Truthful known ev ∧ ev₁.Extends ev [])
      (fun t selects x ev found ev' ⟨between, ext⟩ passed => by
        obtain ⟨after, ext', -⟩ := nested_answers col (inside selects)
          (understood_of_stable col (inside selects)) between
          ((ready₁.clear _ (nests selects)).extends ext) passed
        exact ⟨after, ext.trans ext'⟩)
      (op.inquiry_asksOnly items) ⟨ready₁.truthful, .refl ev₁⟩
    exact ⟨inside selects, truthful, (ready₁.clear _ (nests selects)).extends ext⟩
  | @walks q start stop items reached ev ev₁ ev₂ steps rest a op fuel expanding next applied filled =>
    obtain ⟨member, ready⟩ := honest
    have ready₁ := expanding.ready col member next ready
    obtain ⟨after, ext, -⟩ := (understood_of_stable col member).applies fuel op
      (mem_operations_of_split next) ready₁ expanding.filled applied
    exact ⟨member, ready₁.leaves col member after (k := Frame.spot ⟨q.id, start, stop, items⟩) rfl
      (.of_extends ext _ none)⟩
  | @selects s x before after stop ev ev₁ passed next =>
    obtain ⟨member, truthful, clear⟩ := honest
    exact passed.honest col member truthful clear stop

theorem Moment.Honest.follows (honest : m.Honest known) (follows : m.Follows m') :
    m'.Honest known := by
  induction follows with
  | refl => exact honest
  | tail _ setsOff ih => exact ih.setsOff col setsOff

/-- Calls start honest where no frame is open. -/
theorem Begins.honest (included : queries ⊆ known) (truthful : Truthful known ev)
    (closed : ev.openSpots = []) (begins : Begins queries ev m) : m.Honest known := by
  have clear := clear_of_closed closed
  cases begins with
  | @select q member start stop items =>
    exact (Passed.nil ev).honest col (included member) truthful (clear q) stop
  | @selectResults q _ stop _ _ _ _ member passed next =>
    exact passed.honest col (included member) truthful (clear q) stop

end

end Evaluator

end GraphQuery
