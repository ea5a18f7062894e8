import GraphQuery.Proofs.Calls
import GraphQuery.Proofs.Labels
import GraphQuery.Proofs.Stacking
import GraphQuery.Proofs.TypedState
import GraphQuery.Proofs.WalkUnion
/-!
# Type safety

Selections in well-typed queries do not go wrong. From instances of what the start takes, on an
evaluator that was used for such selections only, they find instances of what the end takes, and no
check fails on the way.
-/

namespace GraphQuery

namespace Query

/-- The query is built, of well-typed operations and between nodes that hand on what they take. -/
structure IsTyped (q : Query) : Prop where
  made : Builder.Made q.graph
  handsOn : ∀ n ∈ q.nodes, n.outputType.accepts n.inputType = true
  typed : ∀ op ∈ q.operations, op.WellTyped

/-- The query and all queries nested in it are typed. -/
def WellTyped (q : Query) : Prop :=
  ∀ r, q.Within r → r.IsTyped

/-- An operation takes what arrives at the node that it leaves, and gives what its target takes. -/
theorem IsTyped.step {q : Query} (typed : q.IsTyped) {n : Node} {a : Arc} {op : Operation}
    (step : (a, op) ∈ q.steps n) : op.inputType.accepts n.inputType = true ∧
      a.target.inputType.accepts op.outputType = true := by
  obtain ⟨arc, label⟩ := mem_steps.mp step
  obtain ⟨known, rfl⟩ := typed.made.consistent.mem_arcsFrom.mp arc
  obtain ⟨takes, gives⟩ := Builder.misfit?_eq_none.mp (typed.made.fits a op label)
  have source := (typed.made.consistent.endpoints a known).1
  exact ⟨ItemType.accepts_trans takes (typed.handsOn a.source source), gives⟩

theorem wellTyped_tally : tally.WellTyped := by
  intro q within
  rw [flat_tally.eq_of_within within]
  exact {
    made := made_tally
    handsOn := by
      intro n member
      obtain rfl | rfl := mem_nodes_tally.mp member <;> rfl
    typed := fun op listed => by
      rcases mem_operations_tally.mp listed with rfl | rfl
      · exact .filter (.anything .any)
      · exact .count .any }

end Query

namespace Evaluator

open EvalM

/-- What expanding a frame from a typed state leaves: a typed state, and items of the type that the
end takes. -/
structure Delivers (ev : Evaluator) (f : Frame) (reach : Reach) (ev' : Evaluator)
    (new : List Frame) : Prop extends Piles ev f reach.low? ev' new where
  typed : Typed ev'
  isOf : reach.items.IsOf f.stop.inputType

variable {ev ev₁ ev₂ ev' : Evaluator} {f g : Frame} {reach reach' : Reach} {new new' : List Frame}

namespace Delivers

/-- What was delivered after a first part of an expansion and what was delivered after the next. -/
theorem join (first : Delivers ev f reach ev₁ new) (second : Delivers ev₁ g reach' ev₂ new')
    (query : g.query = f.query) (stop : g.stop = f.stop) :
    Delivers ev f ⟨reach.items.union reach'.items, lower reach.low? reach'.low?⟩ ev₂
      (new ++ new') where
  toPiles := first.toPiles.join second.toPiles query stop
  typed := second.typed
  isOf := first.isOf.union (stop ▸ second.isOf)

/-- What was delivered is still there after what leaves no frame open. -/
theorem quiet (first : Delivers ev f reach ev₁ new) (typed : Typed ev₂) (ext : ev₁.Extends ev₂ []) :
    Delivers ev f reach ev₂ new where
  toPiles := first.toPiles.quiet typed.toOrderly ext
  typed := typed
  isOf := first.isOf

end Delivers

/-- An inquiry that yields does so from every state with a property, if the selections that it makes
give what they should and keep the property. -/
theorem run_yields {α : Type} {select : Selection → Item → EvalM ItemSet} {good : α → Prop}
    {P : Selection → Prop} {I : Evaluator → Prop} (answers : ∀ s, P s → ∀ x, x.IsA s.inputType →
      ∀ ev r ev', I ev → (select s x).Ends ev r ev' →
        I ev' ∧ ∃ found, r = .ok found ∧ found.IsOf s.outputType)
    {p : Inquiry α} (asks : p.AsksOnly P) (yields : p.Yields good) {r : Except Error α}
    (before : I ev) (ends : (p.run select).Ends ev r ev') : I ev' ∧ ∃ a, r = .ok a ∧ good a := by
  induction p generalizing ev with
  | done outcome =>
    obtain ⟨rfl, rfl⟩ := ends_ofOutcome.mp ends
    exact ⟨before, yields⟩
  | ask s x next ih =>
    obtain ⟨isA, further⟩ := yields
    obtain ⟨e, failed, -⟩ | ⟨found, ev₁, passed, rest⟩ := ends_bind.mp ends
    · obtain ⟨-, found, contra, -⟩ := answers s asks.1 x isA _ _ _ before failed
      cases contra
    · obtain ⟨between, _, same, isOf⟩ := answers s asks.1 x isA _ _ _ before passed
      obtain rfl := Except.ok.inj same
      exact ih found (asks.2 found) (further found isOf) between rest

/-- Walks from a typed state without open frames of nested queries deliver. -/
def Delivering (known : Set Query) (walk : Query → Node → Node → ItemSet → EvalM Reach) : Prop :=
  ∀ q ∈ known, ∀ ⦃start stop items ev r ev'⦄, Typed ev → (∀ r, q.Nests r → Clear r ev) →
    items.IsOf start.inputType → (walk q start stop items).Ends ev r ev' →
      ∃ reach new, r = .ok reach ∧ Delivers ev ⟨q.id, start, stop, items⟩ reach ev' new

section

variable {known : Set Query} {walk : Query → Node → Node → ItemSet → EvalM Reach} {q : Query}
  (walks : Delivering known walk)

include walks

/-- A selection leaves no frame open and finds instances of what its end takes. -/
theorem selectBy_safe (member : q ∈ known) {start stop : Node} {items : ItemSet}
    {r : Except Error ItemSet} (typed : Typed ev) (clear : Clear q ev)
    (isOf : items.IsOf start.inputType) (ends : (selectBy walk q start stop items).Ends ev r ev') :
    (Typed ev' ∧ ev.Extends ev' []) ∧ ∃ found, r = .ok found ∧ found.IsOf stop.inputType := by
  obtain ⟨r₀, ev₀, walked, rfl, rfl⟩ := (selectBy_ends walk).mp ends
  have announced := sameBut_announce q start stop items ev
  have concluded := sameBut_conclude q (announce q start stop items ev) r₀ ev₀
  have typed₀ := typed.of_sameBut announced
  have clear₀ := clear.extends announced.extends
  obtain ⟨reach, new, rfl, delivers⟩ := walks q member typed₀
    (fun s nests t within => clear₀ t (within.head nests)) isOf walked
  obtain ⟨rfl, -⟩ := delivers.low_eq_none fun k i same opened =>
    clear₀ q .refl k ((typed₀.opened k).mpr ⟨i, opened⟩) same
  exact ⟨⟨delivers.typed.of_sameBut concluded,
    (announced.extends.trans delivers.ext).trans concluded.extends⟩, _, rfl, delivers.isOf⟩

theorem selectResultsBy_safe (member : q ∈ known) {start : Node} {items : ItemSet} {t : ItemType}
    {r : Except Error ItemSet} (above : ∀ stop ∈ q.resultNodes, t.accepts stop.inputType = true)
    (typed : Typed ev) (clear : Clear q ev) (isOf : items.IsOf start.inputType)
    (ends : (selectResultsBy walk q start items).Ends ev r ev') :
    (Typed ev' ∧ ev.Extends ev' []) ∧ ∃ found, r = .ok found ∧ found.IsOf t := by
  obtain ⟨after, ⟨founds, rfl, all⟩ | ⟨e, -, stop, -, ev₁, between, failed⟩⟩ :=
    selectResultsBy_cases walk (I := fun ev₁ => Typed ev₁ ∧ ev.Extends ev₁ [])
      (S := fun _ found => found.IsOf t) (fun stop listed ev₁ r ev₂ between ended => by
        obtain ⟨⟨after, ext⟩, found, rfl, isOf'⟩ :=
          selectBy_safe walks member between.1 (clear.extends between.2) isOf ended
        refine ⟨⟨after, between.2.trans ext⟩, fun found same => ?_⟩
        exact Except.ok.inj same ▸ isOf'.of_accepts (above stop listed))
      ⟨typed, .refl ev⟩ ends
  · refine ⟨after, _, rfl, ItemSet.isOf_unite fun found member => ?_⟩
    obtain ⟨stop, -, isOf'⟩ := exists_of_mem_forall₂ all.flip member
    exact isOf'
  · obtain ⟨-, _, contra, -⟩ :=
      selectBy_safe walks member between.1 (clear.extends between.2) isOf failed
    cases contra

/-- The selection of an operation finds instances of its output type. -/
theorem nestedBy_safe {s : Selection} (member : s.query ∈ known) {x : Item} {r : Except Error ItemSet}
    (typed : Typed ev) (clear : Clear s.query ev) (isA : x.IsA s.inputType)
    (ends : (nestedBy walk s x).Ends ev r ev') :
    (Typed ev' ∧ ev.Extends ev' []) ∧ ∃ found, r = .ok found ∧ found.IsOf s.outputType := by
  unfold nestedBy at ends
  obtain ⟨r₀, ended, rfl⟩ := ends_within.mp ends
  have isOf : (ItemSet.singleton x s.inputType).IsOf s.start.inputType :=
    List.forall_mem_singleton.mpr isA
  cases single : s.stop? with
  | some stop =>
    rw [single] at ended
    have listed : stop ∈ s.stops := by rw [Selection.stops, single]; exact List.mem_singleton_self stop
    obtain ⟨after, found, rfl, isOf⟩ := selectBy_safe walks member typed clear isOf ended
    exact ⟨after, found, rfl, isOf.of_accepts (s.outputType_accepts listed)⟩
  | none =>
    rw [single] at ended
    have same : s.stops = s.query.resultNodes := by rw [Selection.stops, single]
    obtain ⟨after, found, rfl, isOf⟩ := selectResultsBy_safe walks member
      (fun stop listed => s.outputType_accepts (same ▸ listed)) typed clear isOf ended
    exact ⟨after, found, rfl, isOf⟩

end

section

variable {known : Set Query} (shelf : Shelf known) (typed : ∀ q ∈ known, q.IsTyped)
  {walk : Query → Node → Node → ItemSet → EvalM Reach} (walks : Delivering known walk)
  {q : Query} (member : q ∈ known)

include shelf typed walks member

/-- An operation makes instances of its output type of instances of its input type. -/
theorem apply_safe {op : Operation} (listed : op ∈ q.operations) {items : ItemSet}
    {r : Except Error ItemSet} (before : Typed ev) (clear : ∀ r, q.Nests r → Clear r ev)
    (isOf : items.IsOf op.inputType)
    (ends : (op.apply (nestedBy walk) items).Ends ev r ev') :
    (Typed ev' ∧ ev.Extends ev' []) ∧ ∃ found, r = .ok found ∧ found.IsOf op.outputType := by
  rw [op.apply_eq_run] at ends
  refine run_yields (I := fun ev₁ => Typed ev₁ ∧ ev.Extends ev₁ []) ?_ (op.inquiry_asksOnly items)
    (((typed q member).typed op listed).yields isOf) ⟨before, .refl ev⟩ ends
  intro s selects x isA ev₁ r ev₂ between ends
  have nests : q.Nests s.query := ⟨op, listed, s, selects, rfl⟩
  obtain ⟨⟨after, ext⟩, found⟩ := nestedBy_safe walks (shelf.closed q member s.query nests) between.1
    ((clear s.query nests).extends between.2) isA ends
  exact ⟨⟨after, between.2.trans ext⟩, found⟩

variable {f : Frame} (query : f.query = q.id)

include query

/-- Each step of an expansion succeeds and leaves no more than the expansion may. -/
theorem stepBy_safe {a : Arc} {op : Operation} (listed : (a, op) ∈ q.steps f.start)
    (isOf : f.items.IsOf f.start.inputType) (clear : ∀ r, q.Nests r → Clear r ev)
    (delivers : Delivers ev f reach ev₁ new) {r : Except Error Reach}
    (ends : (stepBy walk q f.stop f.items reach a op).Ends ev₁ r ev') :
    ∃ reach' new', r = .ok reach' ∧ Delivers ev f reach' ev' new' := by
  obtain ⟨takes, gives⟩ := (typed q member).step listed
  have listed' := Query.mem_operations_of_mem_steps listed
  have clear₁ := delivers.toPiles.clear shelf member query clear
  have applied {r : Except Error ItemSet} {ev₂ : Evaluator}
      (ends : (op.apply (nestedBy walk) f.items).Ends ev₁ r ev₂) :=
    apply_safe shelf typed walks member listed' delivers.typed clear₁ (isOf.of_accepts takes) ends
  obtain ⟨e, failed, -⟩ | ⟨reached, ev₂, passed, rest⟩ := (stepBy_ends walk).mp ends
  · obtain ⟨-, _, contra, -⟩ := applied failed
    cases contra
  · obtain ⟨⟨typed₂, ext⟩, _, same, isOf'⟩ := applied passed
    obtain rfl := Except.ok.inj same
    have between := delivers.quiet typed₂ ext
    cases nowhere : reached.isEmpty with
    | true =>
      rw [nowhere, if_pos rfl] at rest
      obtain ⟨rfl, rfl⟩ := rest
      exact ⟨reach, new, rfl, between⟩
    | false =>
      rw [nowhere, if_neg (by decide)] at rest
      obtain ⟨r₀, walked, rfl⟩ := rest
      obtain ⟨reach', new', rfl, second⟩ := walks q member typed₂
        (fun r nests => (clear₁ r nests).extends ext) (isOf'.of_accepts gives) walked
      exact ⟨_, _, rfl, between.join second query.symm rfl⟩

/-- All steps that remain succeed. -/
theorem foldlM_safe {steps : List (Arc × Operation)} (listed : ∀ step ∈ steps, step ∈ q.steps f.start)
    (isOf : f.items.IsOf f.start.inputType) (clear : ∀ r, q.Nests r → Clear r ev)
    (delivers : Delivers ev f reach ev₁ new) {r : Except Error Reach}
    (ends : (steps.foldlM (fun found (a, op) => stepBy walk q f.stop f.items found a op) reach).Ends
      ev₁ r ev') : ∃ reach' new', r = .ok reach' ∧ Delivers ev f reach' ev' new' := by
  obtain ⟨reach', same, new', delivers'⟩ | ⟨_, _, impossible⟩ :=
    ends_foldlM_cases (I := fun reach ev₁ => ∃ new, Delivers ev f reach ev₁ new)
      (F := fun _ _ => False) (fun step remains reach ev₁ r ev' ⟨new, delivers⟩ ends => by
        obtain ⟨reach', new', same, delivers'⟩ :=
          stepBy_safe shelf typed walks member query (listed step remains) isOf clear delivers ends
        exact .inl ⟨reach', same, new', delivers'⟩) ⟨new, delivers⟩ ends
  · exact ⟨reach', new', same, delivers'⟩
  · exact impossible.elim

/-- Expanding a frame succeeds. -/
theorem expandBy_safe (before : Typed ev) (isOf : f.items.IsOf f.start.inputType)
    (clear : ∀ r, q.Nests r → Clear r ev) {r : Except Error Reach}
    (ends : (expandBy walk q f.start f.stop f.items).Ends ev r ev') :
    ∃ reach new, r = .ok reach ∧ Delivers ev f reach ev' new := by
  obtain ⟨r₀, taken, rfl⟩ := (expandBy_ends walk).mp ends
  have own : ItemSet.IsOf (if f.start = f.stop then f.items else .empty f.stop.inputType)
      f.stop.inputType := by
    split
    · next same => exact same ▸ isOf
    · exact ItemSet.isOf_empty _ _
  have started : Delivers ev f ⟨if f.start = f.stop then f.items else .empty f.stop.inputType, none⟩
      ev [] := ⟨.of_uncut before.toOrderly (.refl ev), before, own⟩
  obtain ⟨reach, new, rfl, delivers⟩ :=
    foldlM_safe shelf typed walks member query (fun _ => id) isOf clear started taken
  exact ⟨_, new, rfl, { delivers with }⟩

omit shelf typed walks member query in
/-- An expansion that is over leaves a frame pending, or its component closed. -/
theorem settle_safe (before : Typed ev) (unopened : ∀ i, ¬ ev.OpenAt f.spot i)
    (delivers : Delivers (enter f ev) f reach ev₂ new) {r : Except Error Reach}
    (settled : (r, ev') = settle f ev.nextIndex ev.component.size (.ok reach) (exit f ev₂)) :
    ∃ reach' new', r = .ok reach' ∧ Delivers ev f reach' ev' new' := by
  have ext := delivers.ext
  obtain ⟨l, low, lower, same⟩ | ⟨-, same⟩ := settle_ok_cases f ev.nextIndex ev.component.size reach
    (exit f ev₂)
  · obtain ⟨rfl, rfl⟩ := Prod.mk.inj (settled.trans same)
    exact ⟨reach, f :: new, rfl, delivers.toPiles.suspend unopened low lower reach.items,
      .suspend unopened ext delivers.typed delivers.isOf, delivers.isOf⟩
  · obtain ⟨rfl, rfl⟩ := Prod.mk.inj (settled.trans same)
    obtain ⟨isOf, after⟩ := before.close unopened ext delivers.typed delivers.isOf
      fun g member => (delivers.members g member).2
    have ext' := close_extends reach.items ext unopened delivers.typed.disjoint
    exact ⟨_, [], rfl, .of_uncut after.toOrderly ext', after, isOf⟩

/-- One visit, given the walks that it sets off. -/
theorem visitBy_safe (before : Typed ev) (isOf : f.items.IsOf f.start.inputType)
    (clear : ∀ r, q.Nests r → Clear r ev) {r : Except Error Reach}
    (ends : (visitBy walk q f.start f.stop f.items).Ends ev r ev') :
    ∃ reach new, r = .ok reach ∧ Delivers ev f reach ev' new := by
  have frame : (⟨q.id, f.start, f.stop, f.items⟩ : Frame) = f := by rw [← query]
  cases (visitBy_ends walk).mp ends with
  | empty =>
    exact ⟨_, [], rfl, .of_uncut before.toOrderly (.refl ev), before,
      ItemSet.isOf_empty _ _⟩
  | @known reach filled known =>
    rw [frame] at known ⊢
    refine ⟨reach, [], rfl, .of_consult before.toOrderly known,
      before.of_sameBut (sameBut_consult f ev), ?_⟩
    obtain ⟨found, hit, rfl⟩ | ⟨i, hit, rfl⟩ | ⟨p, hit, rfl⟩ := consult_eq_some known
    · exact before.cached f found hit
    · exact ItemSet.isOf_empty _ _
    · exact before.pending f p hit
  | limited _ _ limited =>
    rw [limitReached_eq_none before.unlimited] at limited
    cases limited
  | expanded _ unknown _ expanded settled =>
    rw [frame] at unknown expanded settled
    obtain ⟨uncached, unopened⟩ := consult_eq_none.mp unknown
    have entered (r : Query) (nests : q.Nests r) := (clear r nests).enter shelf member nests query
    obtain ⟨reach, new, rfl, delivers⟩ := expandBy_safe shelf typed walks member query
      (before.enter unopened uncached) isOf entered expanded
    exact settle_safe before unopened delivers settled

end

/-- With any number of frames to nest, walks in typed queries deliver. -/
theorem visit_delivering {known : Set Query} (shelf : Shelf known) (typed : ∀ q ∈ known, q.IsTyped)
    (n : Nat) : Delivering known (visit n) := by
  induction n with
  | zero => exact fun q _ start stop items ev r ev' _ _ _ ends => (not_ends_exhausted ends).elim
  | succ n ih =>
    intro q member start stop items ev r ev' before clear isOf ends
    exact visitBy_safe shelf typed ih member (f := ⟨q.id, start, stop, items⟩) rfl before isOf clear
      ends

/-- The selections that keep to the types: in one of some queries, from instances of what the start
takes. -/
def WellTypedCall (queries : Set Query) (q : Query) (start : Node) (items : ItemSet) : Prop :=
  q ∈ queries ∧ items.IsOf start.inputType

section

variable {queries : Set Query} (numbered : Query.Numbered queries)
  (welltyped : ∀ q ∈ queries, q.WellTyped)

include numbered welltyped

theorem delivering_within (n : Nat) :
    Delivering {r | ∃ q ∈ queries, q.Within r} (visit n) := by
  refine visit_delivering (.of_queries numbered) ?_ n
  rintro r ⟨q, member, within⟩
  exact welltyped q member r within

/-- Calls that keep to the types leave a typed evaluator without open frames. -/
theorem After.typed {memoize : Bool} (after : After (WellTypedCall queries) memoize ev) :
    Typed ev ∧ ev.openSpots = [] := by
  have call {ev ev' : Evaluator} {r : Except Error ItemSet} {t : ItemType}
      (before : Typed ev ∧ ev.openSpots = []) (safe : (Typed ev' ∧ ev.Extends ev' []) ∧
        ∃ found, r = .ok found ∧ found.IsOf t) : Typed ev' ∧ ev'.openSpots = [] :=
    ⟨safe.1.1, by rw [safe.1.2.openSpots, before.2]; rfl⟩
  induction after with
  | nothing => exact ⟨typed_fresh memoize, rfl⟩
  | @select _ _ q _ _ _ fuel _ _ called ends ih =>
    exact call ih (selectBy_safe (delivering_within numbered welltyped fuel) ⟨q, called.1, .refl⟩ ih.1
      (clear_of_closed ih.2 q) called.2 ends)
  | @selectResults _ _ q _ _ fuel _ _ called ends ih =>
    exact call ih (selectResultsBy_safe (delivering_within numbered welltyped fuel)
      ⟨q, called.1, .refl⟩ (fun _ _ => ItemType.any_accepts _) ih.1 (clear_of_closed ih.2 q) called.2
      ends)
  | clearCache _ ih => exact ⟨ih.1.clearCache, ih.2⟩

/-- In well-typed queries, selections from instances of what the start takes, on an evaluator that
was used for such selections only, find instances of what the end takes if they end. -/
theorem select_isOf {memoize : Bool} (after : After (WellTypedCall queries) memoize ev) {q : Query}
    (member : q ∈ queries) {start stop : Node} {items : ItemSet} (isOf : items.IsOf start.inputType)
    {fuel : Nat} {r : Except Error ItemSet} (ends : (select fuel q start stop items).Ends ev r ev') :
    ∃ found, r = .ok found ∧ found.IsOf stop.inputType := by
  obtain ⟨typed, closed⟩ := after.typed numbered welltyped
  exact (selectBy_safe (delivering_within numbered welltyped fuel) ⟨q, member, .refl⟩ typed
    (clear_of_closed closed q) isOf ends).2

end

/-- The number of items of any kind is a size. -/
theorem select_tally_isOf : ∃ fuel found ev', (select fuel Query.tally Query.tallySource
      Query.tallySink (.singleton (.atom .unit) .any)).Ends (.fresh true) (.ok found) ev' ∧
    found.IsOf (.kind .size) := by
  have pure : ∀ q ∈ ({Query.tally} : Set Query), q.IsPure := by
    rintro _ rfl
    exact Query.isPure_tally
  have welltyped : ∀ q ∈ ({Query.tally} : Set Query), q.WellTyped := by
    rintro _ rfl
    exact Query.wellTyped_tally
  have isOf : (ItemSet.singleton (.atom .unit) .any).IsOf Query.tallySource.inputType :=
    List.forall_mem_singleton.mpr ⟨.atom .unit, rfl⟩
  obtain ⟨fuel, r, ev', ends⟩ := select_halts (Library.of_queries Query.numbered_tally pure)
    ⟨Query.tally, rfl, .refl⟩ (Query.reachable_tally (.singleton (.atom .unit) .any))
    (coherent_fresh _ true) (clear_fresh Query.tally true)
  obtain ⟨found, rfl, typed⟩ := select_isOf Query.numbered_tally welltyped .nothing rfl isOf ends
  exact ⟨fuel, found, ev', ends, typed⟩

end Evaluator

end GraphQuery
