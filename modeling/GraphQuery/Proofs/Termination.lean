import GraphQuery.Proofs.Confinement
import GraphQuery.Proofs.Serving
/-!
# Selections end

The frames that are expanded at one time are pairwise different. So no more of them nest than can be
reached, and if these are finitely many, a selection ends. Nothing is assumed of the operations: which
frames can be reached is told by what operations come to in a run. Frames may be expanded again and
again, as the results of a component are not kept where nothing is cached, but each time they nest
within others of their number.
-/

namespace GraphQuery

open EvalM

/-- An inquiry ends if the selections that it asks for do. -/
theorem Inquiry.run_halts {α : Type} {select : Selection → Item → EvalM ItemSet} {p : Inquiry α}
    {ev : Evaluator} (answers : ∀ s x ev', p.AsksIn select ev s x ev' → (select s x).Halts ev') :
    (p.run select).Halts ev := by
  induction p generalizing ev with
  | done outcome => exact (ends_ofOutcome.mpr ⟨rfl, rfl⟩).halts
  | ask s x next ih =>
    exact (answers s x ev (.here s x next ev)).bind fun found ev₁ passed =>
      ih found fun t y ev' asksIn => answers t y ev' (.later passed asksIn)

namespace Evaluator

variable {known queries : Set Query} {config : Config} {q : Query} {start stop : Node}
  {items : ItemSet} {ev ev' : Evaluator} {fuel : Nat} {spots : Set Spot} {m m' : Moment}

/-! What is set off has to end -/

theorem selectBy_halts {walk : Query → Node → Node → ItemSet → EvalM Reach}
    (walks : (walk q start stop items).Halts (announce q start stop items ev)) :
    (selectBy walk q start stop items).Halts ev := by
  obtain ⟨r, ev', ends⟩ := walks
  exact ((selectBy_ends walk).mpr ⟨r, ev', ends, rfl, rfl⟩).halts

theorem nestedBy_halts {s : Selection} {x : Item}
    (walks : ∀ q start stop items ev₁,
      Moment.SetsOff ⟨.nested s x, ev⟩ ⟨.walk q start stop items, ev₁⟩ →
        (visit fuel q start stop items).Halts ev₁) :
    (nestedBy (visit fuel) s x).Halts ev :=
  nestedBy_composite (D := fun y _ => y.Halts ev) Halts.composite (visit fuel) halts_within.mpr
    fun _ _ _ _ next passed => selectBy_halts (walks _ _ _ _ _ (.selects passed next))

/-- One moment sets off another, at once or through the selection of an operation. -/
def Moment.GoesOn (m m' : Moment) : Prop :=
  m.SetsOff m' ∨ ∃ n, m.SetsOff n ∧ n.SetsOff m'

theorem Moment.GoesOn.follows (goesOn : m.GoesOn m') : m.Follows m' := by
  obtain setsOff | ⟨n, first, second⟩ := goesOn
  · exact .single setsOff
  · exact .tail (.single first) second

theorem visitBy_halts
    (walks : ∀ q' start' stop' items' ev',
      Moment.GoesOn ⟨.walk q start stop items, ev⟩ ⟨.walk q' start' stop' items', ev'⟩ →
        (visit fuel q' start' stop' items').Halts ev') :
    (visitBy (visit fuel) q start stop items).Halts ev := by
  cases filled : items.isEmpty with
  | true => exact ((visitBy_ends _).mpr (.empty filled)).halts
  | false =>
    cases unknown : (consult ⟨q.id, start, stop, items⟩ ev).1 with
    | some reach => exact ((visitBy_ends _).mpr (.known filled unknown)).halts
    | none =>
      cases unlimited : ev.limitReached? with
      | some limit => exact ((visitBy_ends _).mpr (.limited filled unknown unlimited)).halts
      | none =>
        suffices (expandBy (visit fuel) q start stop items).Halts
            (enter ⟨q.id, start, stop, items⟩ ev) by
          obtain ⟨r₀, ev₀, expanded⟩ := this
          exact ((visitBy_ends _).mpr (.expanded filled unknown unlimited expanded rfl)).halts
        refine expandBy_composite Halts.composite (visit fuel) filled unknown unlimited
          fun before a op after found ev₁ expanding next => ?_
        refine stepBy_composite Halts.composite (visit fuel) (halts_within.mpr ?_)
          fun reached ev₂ applied filled =>
            halts_within.mpr (walks _ _ _ _ _ (.inl (.walks expanding next applied filled)))
        rw [op.apply_eq_run]
        exact Inquiry.run_halts fun s x ev₂ asksIn => nestedBy_halts fun _ _ _ _ _ setsOff =>
          walks _ _ _ _ _ (.inr ⟨_, .asks expanding next asksIn, setsOff⟩)

/-- If no operation makes selections, a walk whose steps lead no further ends within two frames. -/
theorem visit_halts_of_shallow (flat : q.Flat)
    (shallow : ∀ a op, (a, op) ∈ q.steps start → q.steps a.target = []) :
    (visit 2 q start stop items).Halts ev := by
  -- a walk goes on to the target of a step, or further
  have leads {n n' stop stop' : Node} {q' : Query} {items items' : ItemSet} {ev ev' : Evaluator}
      (goesOn : Moment.GoesOn ⟨.walk q n stop items, ev⟩ ⟨.walk q' n' stop' items', ev'⟩) :
      ∃ a op, (a, op) ∈ q.steps n ∧ (q.steps a.target = [] → q' = q ∧ n' = a.target) := by
    obtain setsOff | ⟨m, first, second⟩ := goesOn
    · obtain ⟨a, op, _, _, listed, same⟩ := setsOff.of_flat flat
      cases same
      exact ⟨a, op, listed, fun _ => ⟨rfl, rfl⟩⟩
    · obtain ⟨a, op, _, _, listed, rfl⟩ := first.of_flat flat
      obtain ⟨_, _, _, _, further, -⟩ := second.of_flat flat
      exact ⟨a, op, listed, fun none => absurd further (none ▸ List.not_mem_nil)⟩
  refine visitBy_halts fun q' n' stop' items' ev' goesOn => ?_
  obtain ⟨a, op, listed, same⟩ := leads goesOn
  have none := shallow a op listed
  obtain ⟨rfl, rfl⟩ := same none
  refine visitBy_halts fun q' n' stop' items' ev' goesOn => ?_
  obtain ⟨b, op', contra, -⟩ := leads goesOn
  exact absurd contra (none ▸ List.not_mem_nil)

/-! Nested frames -/

/-- As many different spots of a set are open as frames are nested. -/
def Accounted (spots : Set Spot) (ev : Evaluator) : Prop :=
  ∃ l : List Spot, l.Nodup ∧ l.length = ev.depth ∧ ∀ k ∈ l, k ∈ spots ∧ k ∈ ev.openSpots

namespace Accounted

variable (accounted : Accounted spots ev)

include accounted

theorem depth_le (finite : spots.Finite) : ev.depth ≤ spots.ncard := by
  classical
  obtain ⟨l, distinct, length, inside⟩ := accounted
  rw [← length, ← List.toFinset_card_of_nodup distinct, ← Set.ncard_coe_finset]
  refine Set.ncard_le_ncard (fun k member => ?_) finite
  exact (inside k (List.mem_toFinset.mp member)).1

theorem of_extends {new : List Frame} (ext : ev.Extends ev' new) : Accounted spots ev' := by
  obtain ⟨l, distinct, length, inside⟩ := accounted
  exact ⟨l, distinct, length.trans ext.depth.symm, fun k member =>
    ⟨(inside k member).1, ext.mem_openSpots (inside k member).2⟩⟩

theorem enter {f : Frame} (inside : f.spot ∈ spots) (unopened : f.spot ∉ ev.openSpots) :
    Accounted spots (enter f ev) := by
  obtain ⟨l, distinct, length, within⟩ := accounted
  refine ⟨f.spot :: l, List.nodup_cons.mpr ⟨fun again => unopened (within _ again).2, distinct⟩,
    congrArg Nat.succ length, List.forall_mem_cons.mpr ⟨⟨inside, ?_⟩, fun k member => ?_⟩⟩
  · rw [openSpots_enter]
    exact List.mem_append_right _ (List.mem_singleton_self _)
  · rw [openSpots_enter]
    exact ⟨(within k member).1, List.mem_append_left _ (within k member).2⟩

end Accounted

theorem Accounted.enter_of_unknown (accounted : Accounted spots ev) (orderly : Orderly ev) {f : Frame}
    (inside : f.spot ∈ spots) (unknown : (consult f ev).1 = none) :
    Accounted spots (Evaluator.enter f ev) := by
  obtain ⟨-, unopened⟩ := consult_eq_none.mp unknown
  refine accounted.enter inside fun opened => ?_
  obtain ⟨i, opened⟩ := (orderly.opened f.spot).mp opened
  exact unopened i opened

theorem Moment.depth_le_entered (m : Moment) : m.state.depth ≤ m.entered.depth := by
  obtain ⟨job, ev⟩ := m
  cases job with
  | walk => exact Nat.le_succ ev.depth
  | nested => exact Nat.le_refl ev.depth

/-- The spots that walks set out from in what follows from a moment. -/
def Moment.walked (first : Moment) : Set Spot :=
  {k | ∃ q start stop items ev, first.Follows ⟨.walk q start stop items, ev⟩ ∧
    Frame.spot ⟨q.id, start, stop, items⟩ = k}

/-- A state of a run: that of a moment, or one in which a frame has been expanded so far. -/
inductive Moment.Meets (first : Moment) : Evaluator → Prop where
  | starts {m : Moment} (follows : first.Follows m) : Meets first m.state
  | expands {q : Query} {start stop : Node} {items : ItemSet} {ev ev' : Evaluator}
    {steps rest : List (Arc × Operation)} (follows : first.Follows ⟨.walk q start stop items, ev⟩)
    (expanding : Expanding q start stop items ev steps ev')
    (listed : q.steps start = steps ++ rest) : Meets first ev'

section

variable (shelf : Shelf known)

include shelf

/-- A walk that is expanded sets off deeper moments only. -/
theorem Moment.Poised.depth_lt
    (poised : Moment.Poised known config ⟨.walk q start stop items, ev⟩)
    (goesOn : Moment.GoesOn ⟨.walk q start stop items, ev⟩ m) : ev.depth < m.state.depth := by
  obtain setsOff | ⟨n, first, second⟩ := goesOn
  · obtain ⟨-, new, grows⟩ := poised.setsOff shelf setsOff
    exact Nat.lt_of_succ_le grows.depth.ge
  · obtain ⟨poised', new, grows⟩ := poised.setsOff shelf first
    obtain ⟨-, new', grows'⟩ := poised'.setsOff shelf second
    calc ev.depth
      _ < n.state.depth := Nat.lt_of_succ_le grows.depth.ge
      _ ≤ n.entered.depth := n.depth_le_entered
      _ = m.state.depth := grows'.depth.symm

variable {first : Moment} (poised : first.Poised known config)
  (accounted : Accounted spots first.state) (inside : first.walked ⊆ spots)

include poised accounted inside

/-- The nested frames of a moment are different spots that walks have set out from. -/
theorem Moment.Follows.accounts (follows : first.Follows m) : Accounted spots m.state := by
  induction follows with
  | refl => exact accounted
  | @tail n m follows setsOff ih =>
    have before := poised.follows shelf follows
    obtain ⟨-, new, grows⟩ := before.setsOff shelf setsOff
    refine Accounted.of_extends ?_ grows
    cases setsOff with
    | asks expanding =>
      exact ih.enter_of_unknown before.2.2.1 (inside ⟨_, _, _, _, _, follows, rfl⟩) expanding.unknown
    | walks expanding =>
      exact ih.enter_of_unknown before.2.2.1 (inside ⟨_, _, _, _, _, follows, rfl⟩) expanding.unknown
    | selects => exact ih

/-- No more frames are nested than spots that walks have set out from. -/
theorem Moment.Meets.depth_le (finite : spots.Finite) (meets : first.Meets ev) :
    ev.depth ≤ spots.ncard := by
  cases meets with
  | starts follows => exact (follows.accounts shelf poised accounted inside).depth_le finite
  | expands follows expanding listed =>
    have before := follows.accounts shelf poised accounted inside
    obtain ⟨member, -, orderly, clear⟩ := poised.follows shelf follows
    obtain ⟨-, _, new, piles⟩ := expanding.piles shelf member listed orderly clear
    have entered := before.enter_of_unknown orderly (inside ⟨_, _, _, _, _, follows, rfl⟩)
      expanding.unknown
    exact (entered.of_extends piles.ext).depth_le finite

/-- A walk ends if it may nest one frame more than there are spots left to nest. -/
theorem visit_halts_of_walked (finite : spots.Finite)
    (follows : first.Follows ⟨.walk q start stop items, ev⟩) (enough : spots.ncard < fuel + ev.depth) :
    (visit fuel q start stop items).Halts ev := by
  induction fuel generalizing q start stop items ev with
  | zero =>
    have := (follows.accounts shelf poised accounted inside).depth_le finite
    dsimp only at this
    omega
  | succ fuel ih =>
    refine visitBy_halts fun q' start' stop' items' ev' goesOn =>
      ih (follows.trans goesOn.follows) ?_
    have deeper := (poised.follows shelf follows).depth_lt shelf goesOn
    dsimp only at deeper
    omega

end

/-! What can be reached -/

/-- In a run of a call on an evaluator in service, a frame of the query has been expanded so far. -/
inductive Working (queries : Set Query) (config : Config) (q : Query) : Evaluator → Prop where
  | expanding {start stop : Node} {items : ItemSet} {ev₀ ev ev' : Evaluator}
    {steps rest : List (Arc × Operation)} (serves : Serves queries config ev₀)
    (happens : Happens queries ev₀ ⟨.walk q start stop items, ev⟩)
    (expanding : Expanding q start stop items ev steps ev')
    (listed : q.steps start = steps ++ rest) : Working queries config q ev'

end Evaluator

open Evaluator

/-- A selection may lead on along an arc, or to a selection that an operation makes, if an operation
of its start is applied to its items while evaluators in service are at work on its query. -/
inductive Call.MayLead (queries : Set Query) (config : Config) : Call → Call → Prop where
  | along {c : Call} {a : Arc} {op : Operation} {t : ItemSet} {fuel : Nat} {ev ev' : Evaluator}
    (arc : a ∈ c.query.graph.arcsFrom c.start) (label : op ∈ c.query.graph.labels a)
    (filled : c.items.isEmpty = false) (working : Working queries config c.query ev)
    (applied : (op.apply (nested fuel) c.items).Ends ev (.ok t) ev') (further : t.isEmpty = false) :
    MayLead queries config c ⟨c.query, a.target, c.stop, t⟩
  | into {c : Call} {a : Arc} {op : Operation} {s : Selection} {x : Item} {stop : Node} {fuel : Nat}
    {ev ev' : Evaluator} (arc : a ∈ c.query.graph.arcsFrom c.start)
    (label : op ∈ c.query.graph.labels a) (filled : c.items.isEmpty = false)
    (working : Working queries config c.query ev)
    (asks : (op.inquiry c.items).AsksIn (nested fuel) ev s x ev') (ends : stop ∈ s.stops) :
    MayLead queries config c ⟨s.query, s.start, stop, .singleton x s.inputType⟩

/-- The frames that may be reached from a selection, up to equality. -/
def Call.mayReach (queries : Set Query) (config : Config) (c : Call) : Set Spot :=
  {k | ∃ d, Relation.ReflTransGen (Call.MayLead queries config) c d ∧ d.frame.spot = k}

/-- Where no operation makes selections, what may be reached is what can be reached by an evaluator
that has done nothing before. -/
theorem Call.mayReach_subset {queries : Set Query} {config : Config} {c : Call} (flat : c.query.Flat) :
    c.mayReach queries config ⊆ c.reachable := by
  rintro k ⟨d, reaches, rfl⟩
  suffices Relation.ReflTransGen Call.Leads c d ∧ d.query = c.query from ⟨d, this.1, rfl⟩
  induction reaches with
  | refl => exact ⟨.refl, rfl⟩
  | @tail d _ _ leads ih =>
    obtain ⟨reaches, query⟩ := ih
    have done {a : Arc} {op : Operation} (label : op ∈ d.query.graph.labels a) :
        ∃ r, op.inquiry d.items = .done r :=
      Operation.exists_done (flat op (query ▸ Query.mem_operations_of_mem_labels label)) d.items
    cases leads with
    | @along _ op t _ _ _ arc label filled _ applied further =>
      obtain ⟨r, done⟩ := done label
      rw [op.apply_eq_run, done] at applied
      obtain ⟨same, -⟩ := ends_ofOutcome.mp applied
      exact ⟨reaches.tail (.along arc label filled ((Operation.gives_of_done done).mpr same) further),
        query⟩
    | into _ label _ _ asks =>
      obtain ⟨r, done⟩ := done label
      rw [done] at asks
      cases asks

namespace Evaluator

variable {queries : Set Query} {config : Config} {q : Query} {start stop : Node} {items : ItemSet}
  {ev : Evaluator} {first m : Moment} {c : Call}

/-- What is done at a moment may be reached from a selection. -/
def Moment.Reached (queries : Set Query) (config : Config) (c : Call) : Moment → Prop
  | ⟨.walk q start stop items, _⟩ =>
    Relation.ReflTransGen (Call.MayLead queries config) c ⟨q, start, stop, items⟩
  | ⟨.nested s x, _⟩ => ∀ stop ∈ s.stops, Relation.ReflTransGen (Call.MayLead queries config) c
    ⟨s.query, s.start, stop, .singleton x s.inputType⟩

/-- Whatever a run sets off may be reached. -/
theorem Moment.Reached.follows (serves : Serves queries config ev) (begins : Begins queries ev first)
    (reached : first.Reached queries config c) (follows : first.Follows m) :
    m.Reached queries config c := by
  induction follows with
  | refl => exact reached
  | @tail n m follows setsOff ih =>
    have happens : Happens queries ev n := ⟨first, begins, follows⟩
    cases setsOff with
    | @asks q start stop items _ _ _ steps rest a op _ s x expanding next asksIn =>
      intro stop' ends
      obtain ⟨arc, label⟩ := mem_steps_of_split next
      exact ih.tail (.into (c := ⟨q, start, stop, items⟩) arc label expanding.filled
        (.expanding serves happens expanding next) asksIn ends)
    | @walks q start stop items _ _ _ _ steps rest a op _ expanding next applied filled =>
      obtain ⟨arc, label⟩ := mem_steps_of_split next
      exact ih.tail (.along (c := ⟨q, start, stop, items⟩) arc label expanding.filled
        (.expanding serves happens expanding next) applied filled)
    | selects passed next =>
      exact ih _ (next ▸ List.mem_append_right _ List.mem_cons_self)

/-- If finitely many frames may be reached, then a selection ends, whatever calls were made before and
whether results are cached or not, and no more frames are nested at any moment of its run than may be
reached. -/
theorem select_terminates (numbered : Query.Numbered queries) (serves : Serves queries config ev)
    (member : q ∈ queries)
    (finite : (Call.mayReach queries config ⟨q, start, stop, items⟩).Finite) :
    (∃ r ev', ∀ fuel > (Call.mayReach queries config ⟨q, start, stop, items⟩).ncard,
      (select fuel q start stop items).Ends ev r ev') ∧
    ∀ st, Moment.Meets ⟨.walk q start stop items, announce q start stop items ev⟩ st →
      st.depth ≤ (Call.mayReach queries config ⟨q, start, stop, items⟩).ncard := by
  have shelf := Shelf.of_queries numbered
  have included := Query.subset_within queries
  obtain ⟨resting, -⟩ := serves.resting shelf included
  have begins : Begins queries ev ⟨.walk q start stop items, announce q start stop items ev⟩ :=
    .select member start stop items
  have poised := begins.poised shelf included resting.orderly resting.openSpots
  have depth : (announce q start stop items ev).depth = 0 :=
    (sameBut_announce q start stop items ev).depth.trans resting.depth
  have accounted : Accounted (Call.mayReach queries config ⟨q, start, stop, items⟩)
      (announce q start stop items ev) := ⟨[], .nil, depth.symm, nofun⟩
  have inside : Moment.walked ⟨.walk q start stop items, announce q start stop items ev⟩ ⊆
      Call.mayReach queries config ⟨q, start, stop, items⟩ := by
    rintro k ⟨q', start', stop', items', ev', follows, rfl⟩
    have reached := Moment.Reached.follows serves begins (c := ⟨q, start, stop, items⟩) .refl follows
    exact ⟨_, reached, rfl⟩
  refine ⟨?_, fun st meets => meets.depth_le shelf poised accounted inside finite⟩
  obtain ⟨r, ev', ends⟩ := selectBy_halts (visit_halts_of_walked shelf poised accounted inside finite
    .refl (by rw [depth]; exact Nat.lt_succ_self _))
  exact ⟨r, ev', fun fuel enough => growing_select q start stop items enough ends⟩

theorem ncard_mayReach_tally (queries : Set Query) (config : Config) (items : ItemSet) :
    (Call.mayReach queries config ⟨Query.tally, Query.tallySource, Query.tallySink, items⟩).Finite ∧
    (Call.mayReach queries config ⟨Query.tally, Query.tallySource, Query.tallySink, items⟩).ncard ≤ 2 := by
  have included : Call.mayReach queries config ⟨Query.tally, Query.tallySource, Query.tallySink, items⟩ ⊆
      _ := (Call.mayReach_subset Query.flat_tally).trans (Query.reachable_tally_subset items)
  refine ⟨(Set.toFinite _).subset included, (Set.ncard_le_ncard included).trans ?_⟩
  calc
    _ ≤ Set.ncard {_} + 1 := Set.ncard_insert_le _ _
    _ = 2 := by rw [Set.ncard_singleton]

/-- Two selections in `tally`, one after the other and without a cache: each comes upon its first frame
again while this is open, and ends. -/
theorem select_terminates_tally : ∃ r ev r' ev',
    (∀ fuel > 2, (select fuel Query.tally Query.tallySource Query.tallySink
      (.singleton (.atom .unit) .any)).Ends (.started ⟨false, none⟩) r ev) ∧
    (∀ fuel > 2, (select fuel Query.tally Query.tallySource Query.tallySink
      (.singleton (.atom .unit) .any)).Ends ev r' ev') ∧
    ∀ st, Moment.Meets ⟨.walk Query.tally Query.tallySource Query.tallySink
      (.singleton (.atom .unit) .any), announce Query.tally Query.tallySource Query.tallySink
        (.singleton (.atom .unit) .any) ev⟩ st → st.depth ≤ 2 := by
  obtain ⟨finite, few⟩ := ncard_mayReach_tally {Query.tally} ⟨false, none⟩ (.singleton (.atom .unit) .any)
  have member := Set.mem_singleton Query.tally
  obtain ⟨⟨r, ev, ends⟩, -⟩ := select_terminates Query.numbered_tally .nothing member finite
  obtain ⟨⟨r', ev', ends'⟩, depth⟩ := select_terminates Query.numbered_tally
    (.selecting .nothing (.select member (ends 3 (few.trans_lt (Nat.lt_succ_self 2))))) member finite
  exact ⟨r, ev, r', ev', fun fuel enough => ends fuel (few.trans_lt enough),
    fun fuel enough => ends' fuel (few.trans_lt enough), fun st meets => (depth st meets).trans few⟩

end Evaluator

end GraphQuery
