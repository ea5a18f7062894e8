import GraphQuery.Proofs.Limits
/-!
# The trails of errors

The trail of an error spells the walk that failed, whatever operations do and whatever state the
selection starts in. As every frame that is open then has had its arc noted, an error of the limit
carries as many arcs as frames may be nested.
-/

namespace GraphQuery

open EvalM

/-- Arcs of a query lead from one node to another, each from where the one before it has led. -/
inductive Query.Joins (q : Query) : Node → List Arc → Node → Prop where
  | nil (n : Node) : Joins q n [] n
  | cons {a : Arc} {arcs : List Arc} {n : Node} (arc : a ∈ q.graph.arcs)
    (joins : Joins q a.target arcs n) : Joins q a.source (a :: arcs) n

/-- Whether a place in a trail is the arc of a frame. -/
def Place.isStep : Place → Bool
  | .applying .. | .walking _ => true
  | .nested .. | .other _ => false

/-- The arcs of frames that an error has passed through. -/
def Error.steps (e : Error) : Nat :=
  e.trail.countP Place.isStep

theorem countP_walking (arcs : List Arc) : (arcs.map Place.walking).countP Place.isStep = arcs.length := by
  rw [List.countP_map]
  exact List.countP_eq_length.mpr fun _ _ => rfl

/-! Functions that do not give up for depth -/

/-- An error says that a limit on depth was exceeded. -/
def Error.ExceedsDepth (e : Error) : Prop :=
  ∃ limit, e.cause = .depthExceeded limit

/-- The test never says that a limit on depth was exceeded. -/
def Predicate.Sincere (p : Predicate) : Prop :=
  ∀ x e, p.test x = .error e → ¬ e.ExceedsDepth

/-- The mapping never says that a limit on depth was exceeded. -/
def Mapping.Sincere (m : Mapping) : Prop :=
  ∀ x e, m.map x = .error e → ¬ e.ExceedsDepth

/-- The function never says that a limit on depth was exceeded. -/
def BoundFunction.Sincere (f : BoundFunction) : Prop :=
  ∀ xs e, f.call xs = .error e → ¬ e.ExceedsDepth

/-- The tests that callers supplied for a filter are sincere. -/
inductive Filter.Sincere : Filter → Prop where
  | test {p : Predicate} (sincere : p.Sincere) : Sincere (.test p)
  | anything (t : ItemType) : Sincere (.anything t)
  | equals (value : Item) (t : ItemType) : Sincere (.equals value t)
  | every {members : List Filter} (sincere : ∀ f ∈ members, Sincere f) (t : ItemType) :
    Sincere (.every members t)
  | counting (s : Selection) (c : Comparison) (k : Nat) : Sincere (.counting s c k)
  | onSlot (types : List ItemType) (i : Fin types.length) {inner : Filter} (sincere : Sincere inner) :
    Sincere (.onSlot types i inner)

/-- The functions that callers supplied for a follow are sincere. -/
inductive Follow.Sincere : Follow → Prop where
  | map {m : Mapping} (sincere : m.Sincere) : Sincere (.map m)
  | filter {f : Filter} (sincere : f.Sincere) : Sincere (.filter f)
  | select (s : Selection) : Sincere (.select s)
  | slot (types : List ItemType) (i : Fin types.length) : Sincere (.slot types i)
  | permute (types : List ItemType) (order : List (Fin types.length)) : Sincere (.permute types order)
  | pair {inner : Follow} (sincere : Sincere inner) : Sincere (.pair inner)
  | onSlot (types : List ItemType) (i : Fin types.length) {inner : Follow} (sincere : Sincere inner) :
    Sincere (.onSlot types i inner)
  | call {f : BoundFunction} (sincere : f.Sincere) : Sincere (.call f)

/-- The functions that callers supplied for an operation are sincere. -/
inductive Operation.Sincere : Operation → Prop where
  | filter {f : Filter} (sincere : f.Sincere) : Sincere (.filter f)
  | follow {f : Follow} (sincere : f.Sincere) : Sincere (.follow f)
  | count (t : ItemType) : Sincere (.count t)

/-- The functions that callers supplied for a query, and for the queries nested in it, are sincere. -/
def Query.Sincere (q : Query) : Prop :=
  ∀ r, q.Within r → ∀ op ∈ r.operations, op.Sincere

theorem Item.misfit_not_exceedsDepth (x : Item) (operation : String) (types : List ItemType) :
    ¬ (x.misfit operation types).ExceedsDepth := by
  rintro ⟨limit, same⟩
  cases x <;> cases same

theorem Tuple.checkSlots_not_exceedsDepth {i : Nat} {xs : List Item} {types : List ItemType} {e : Error}
    (failed : Tuple.checkSlots i xs types = .error e) : ¬ e.ExceedsDepth := by
  induction xs generalizing i types with
  | nil => cases failed
  | cons x xs ih =>
    cases types with
    | nil => cases failed
    | cons t ts =>
      rw [Tuple.checkSlots] at failed
      split at failed
      · obtain later | ⟨_, -, ⟨⟩⟩ := bind_eq_error failed
        exact ih later
      · cases failed
        rintro ⟨limit, ⟨⟩⟩

theorem Tuple.ofTyped_not_exceedsDepth {xs : List Item} {types : List ItemType} {e : Error}
    (failed : Tuple.ofTyped xs types = .error e) : ¬ e.ExceedsDepth := by
  rw [Tuple.ofTyped] at failed
  split at failed
  · obtain slots | ⟨_, -, ⟨⟩⟩ := bind_eq_error failed
    exact Tuple.checkSlots_not_exceedsDepth slots
  · cases failed
    rintro ⟨limit, ⟨⟩⟩

theorem BoundFunction.Sincere.applyTo {f : BoundFunction} (sincere : f.Sincere) {t : Tuple} {e : Error}
    (failed : f.applyTo t = .error e) : ¬ e.ExceedsDepth := by
  obtain called | ⟨result, -, rest⟩ := bind_eq_error failed
  · exact sincere _ e called
  · split at rest
    · split at rest
      · cases rest
      · obtain made | ⟨_, -, ⟨⟩⟩ := bind_eq_error rest
        exact Tuple.ofTyped_not_exceedsDepth made
    · cases rest
      rintro ⟨limit, ⟨⟩⟩

theorem Filter.Sincere.failsOnly {f : Filter} (sincere : f.Sincere) :
    f.FailsOnly fun e => ¬ e.ExceedsDepth := by
  induction sincere with
  | test sincere => exact .test sincere
  | anything t => exact .anything t
  | equals value t => exact .equals value t
  | every _ t ih => exact .every ih t
  | counting s c k => exact .counting s c k
  | onSlot types i _ ih => exact .onSlot types i ih

theorem Filter.Sincere.accept {f : Filter} (sincere : f.Sincere) (x : Item) :
    (f.accept Inquiry.select x).RaisesOnly fun e => ¬ e.ExceedsDepth :=
  sincere.failsOnly.accept Item.misfit_not_exceedsDepth x

theorem Follow.Sincere.follow {f : Follow} (sincere : f.Sincere) (x : Item) :
    (f.follow Inquiry.select x).RaisesOnly fun e => ¬ e.ExceedsDepth := by
  have tuples {g : Item → Except Error Tuple} {ys : List Item}
      (typed : ∀ y e, g y = .error e → ¬ e.ExceedsDepth) :
      (ofOutcome (ys.mapM g) : Inquiry (List Tuple)).RaisesOnly fun e => ¬ e.ExceedsDepth := by
    refine Inquiry.raisesOnly_ofOutcome fun e failed => ?_
    obtain ⟨y, -, failed⟩ := mapM_error failed
    exact typed y e failed
  induction f generalizing x with
  | map m =>
    cases sincere with | map sincere
    exact Inquiry.raisesOnly_ofOutcome (sincere x)
  | filter f =>
    cases sincere with | filter sincere
    rw [Follow.follow, Filter.follow]
    exact Inquiry.raisesOnly_bind (sincere.accept x) fun _ => trivial
  | select s => exact fun _ => trivial
  | slot types i | permute types order =>
    rw [Follow.follow]
    cases x.fitting? types with
    | none => exact Inquiry.raisesOnly_throw (x.misfit_not_exceedsDepth _ _)
    | some t => trivial
  | pair inner ih =>
    cases sincere with | pair sincere
    rw [Follow.follow]
    exact Inquiry.raisesOnly_bind (ih sincere x) fun _ => Inquiry.raisesOnly_bind
      (tuples fun _ _ failed => Tuple.ofTyped_not_exceedsDepth failed) fun _ => trivial
  | onSlot types i inner ih =>
    cases sincere with | onSlot _ _ sincere
    rw [Follow.follow]
    cases x.fitting? types with
    | none => exact Inquiry.raisesOnly_throw (x.misfit_not_exceedsDepth _ _)
    | some t =>
      exact Inquiry.raisesOnly_bind (ih sincere _) fun _ => Inquiry.raisesOnly_bind
        (tuples fun _ _ failed => Tuple.ofTyped_not_exceedsDepth failed) fun _ => trivial
  | call f =>
    cases sincere with | call sincere
    rw [Follow.follow]
    cases x.fitting? f.types with
    | none => exact Inquiry.raisesOnly_throw (x.misfit_not_exceedsDepth _ _)
    | some t =>
      exact Inquiry.raisesOnly_bind
        (Inquiry.raisesOnly_ofOutcome fun _ failed => sincere.applyTo failed) fun _ => trivial

/-- An operation whose functions are sincere never says by itself that a limit on depth was exceeded. -/
theorem Operation.Sincere.inquiry {op : Operation} (sincere : op.Sincere) (items : ItemSet) :
    (op.inquiry items).RaisesOnly fun e => ¬ e.ExceedsDepth := by
  cases sincere with
  | @filter f sincere =>
    rw [Operation.inquiry, Operation.apply, f.apply_eq]
    exact Inquiry.raisesOnly_bind (Inquiry.raisesOnly_mapM sincere.accept _) fun _ => trivial
  | @follow f sincere =>
    rw [Operation.inquiry, Operation.apply, f.apply_eq]
    exact Inquiry.raisesOnly_bind (Inquiry.raisesOnly_mapM sincere.follow _) fun _ => trivial
  | count => trivial

namespace Evaluator

variable {known queries : Set Query} {config : Config} {q r : Query} {start stop n : Node}
  {items reached : ItemSet} {ev ev₁ : Evaluator} {fuel : Nat} {m m' : Moment} {arcs : List Arc}
  {e : Error} {o : Origin}

/-- Walks that set each other off stay in their query and keep their end, and their arcs are joined. -/
theorem Moment.Along.joins {stop' : Node} (along : Moment.Along ⟨.walk q start stop items, ev⟩ arcs
      ⟨.walk r n stop' reached, ev₁⟩) (consistent : q.graph.Consistent) :
    r = q ∧ stop' = stop ∧ q.Joins start arcs n := by
  generalize before : (⟨.walk q start stop items, ev⟩ : Moment) = first at along
  generalize after : (⟨.walk r n stop' reached, ev₁⟩ : Moment) = last at along
  induction along generalizing start items ev with
  | nil =>
    cases before
    cases after
    exact ⟨rfl, rfl, .nil _⟩
  | cons expanding next applied filled along ih =>
    cases before
    obtain ⟨rfl, rfl, joins⟩ := ih rfl after
    obtain ⟨arc, rfl⟩ := consistent.mem_arcsFrom.mp (mem_steps_of_split next).1
    exact ⟨rfl, rfl, .cons arc joins⟩

section

variable (shelf : Shelf known)

include shelf

/-- Every arc of a walk is one more frame that is open. -/
theorem Moment.Along.depth_eq (along : m.Along arcs m') (poised : m.Poised known config) :
    m'.state.depth = m.state.depth + arcs.length := by
  induction along with
  | nil => rfl
  | cons expanding next applied filled along ih =>
    have setsOff := Moment.SetsOff.walks expanding next applied filled
    have deeper := poised.depth_eq shelf setsOff
    have further := ih (poised.setsOff shelf setsOff).1
    dsimp only at deeper further ⊢
    rw [further, deeper, List.length_cons]
    exact Nat.succ_add_eq_add_succ _ _

/-- An error of the limit tells as many arcs as frames have been opened since. -/
theorem Spelled.steps_eq {limit : Nat} (poised : m.Poised known config)
    (limited : config.maxDepth? = some limit) (shallow : m.state.depth ≤ limit)
    (spelled : Spelled o m e) (gaveUp : o = .limit) : m.state.depth + e.steps = limit := by
  induction spelled with
  | @limited m arcs q start stop items ev limit' along _ _ reached =>
    obtain ⟨-, rfl, -⟩ := poised.follows shelf along.follows
    have low := poised.depth_le_of_follows shelf limited shallow along.follows
    obtain ⟨same, high⟩ := limitReached_eq_some.mp reached
    obtain rfl := Option.some.inj (limited.symm.trans same)
    rw [Error.steps, countP_walking, ← along.depth_eq shelf poised]
    exact Nat.le_antisymm low high
  | raised => cases gaveUp
  | @passed o m m' arcs q start stop items ev ev₁ ev₂ _ _ _ a op _ s x e along expanding next _ asksIn
      setsOff _ ih =>
    have asks := Moment.SetsOff.asks expanding next asksIn
    have opened := poised.follows shelf along.follows
    have asked := (opened.setsOff shelf asks).1
    have deep := opened.depth_eq shelf asks
    have deep' := asked.depth_eq shelf setsOff
    have counted := ih (asked.setsOff shelf setsOff).1
      (poised.depth_le_of_follows shelf limited shallow
        (along.follows.trans (.tail (.single asks) setsOff))) gaveUp
    have walked := along.depth_eq shelf poised
    have told : Error.steps ⟨arcs.map .walking ++ .applying op.text a :: .nested s.text x :: e.trail,
        e.cause⟩ = arcs.length + (e.steps + 1) := by
      rw [Error.steps, List.countP_append, countP_walking, List.countP_cons_of_pos rfl,
        List.countP_cons_of_neg (by exact Bool.false_ne_true)]
      rfl
    change ev₂.depth = ev.depth + 1 at deep
    change m'.state.depth = ev₂.depth at deep'
    change ev.depth = _ at walked
    omega

end

/-- If callers' functions are sincere, only the limit makes a walk fail for depth. -/
theorem Spelled.origin_eq (sincere : m.query.Sincere) (spelled : Spelled o m e)
    (deep : e.ExceedsDepth) : o = .limit := by
  induction spelled with
  | limited => rfl
  | raised along expanding next _ raises =>
    exact (raises.holds ((sincere _ along.follows.within _ (mem_operations_of_split next)).inquiry _)
      deep).elim
  | @passed _ _ m' _ _ _ _ _ _ _ _ _ _ _ _ _ _ _ _ _ along expanding next _ asksIn setsOff _ ih =>
    have later : Moment.Follows _ m' :=
      along.follows.trans (.tail (.single (.asks expanding next asksIn)) setsOff)
    exact ih (fun r within => sincere r (later.within.trans within)) deep

/-- The error of a failing selection spells the walk that failed, down to the walk of the selection that
made its last operation fail, and so on. On each level the arcs are arcs of the query that is selected
in, joined from the node where the walk set out, and the operation is one of those on the arc that is
noted with it. If callers' functions never say that a limit on depth was exceeded, an error that says so
names the limit of the evaluator, and tells as many arcs as this allows frames. -/
theorem select_fails (numbered : Query.Numbered {q}) (consistent : ∀ r, q.Within r → r.graph.Consistent)
    (resting : Resting ev) {ev' : Evaluator}
    (ends : (select fuel q start stop items).Ends ev (.error e) ev') :
    (∃ o, Spelled o ⟨.walk q start stop items, announce q start stop items ev⟩ e) ∧
    (∀ r, q.Within r → ∀ n stop' reached ev₁ arcs r' n' stop'' reached' ev₂,
      Moment.Along ⟨.walk r n stop' reached, ev₁⟩ arcs ⟨.walk r' n' stop'' reached', ev₂⟩ →
        r' = r ∧ r.Joins n arcs n' ∧
          ∀ a op, (a, op) ∈ r.steps n' → a ∈ r.graph.arcs ∧ a.source = n' ∧ op ∈ r.graph.labels a) ∧
    (q.Sincere → ∀ limit, e.cause = .depthExceeded limit →
      ev.config.maxDepth? = some limit ∧ e.steps = limit) := by
  -- With no limit on the other side, every error has a reason.
  have bears : (select fuel q start stop items).Bears none
      (fun o e => Spelled o ⟨.walk q start stop items, announce q start stop items ev⟩ e) ev :=
    selectBy_bears (visit_bears (fun _ _ _ _ _ _ _ => rfl) .refl)
  have spelled : ∃ o, Spelled o ⟨.walk q start stop items, announce q start stop items ev⟩ e := by
    obtain ⟨_, ⟨⟩, gaveUp⟩ | ⟨-, reason⟩ := bears ends
    · exact ⟨.limit, gaveUp⟩
    · exact ⟨.operation, reason e rfl⟩
  refine ⟨spelled, fun r within n stop' reached ev₁ arcs r' n' stop'' reached' ev₂ along => ?_,
    fun sincere limit cause => ?_⟩
  · obtain ⟨rfl, -, joins⟩ := along.joins (consistent r within)
    refine ⟨rfl, joins, fun a op step => ?_⟩
    obtain ⟨leaves, label⟩ := Query.mem_steps.mp step
    obtain ⟨arc, source⟩ := (consistent r' within).mem_arcsFrom.mp leaves
    exact ⟨arc, source, label⟩
  · obtain ⟨o, spelled⟩ := spelled
    have asked : (Moment.query ⟨.walk q start stop items, announce q start stop items ev⟩).Sincere :=
      sincere
    obtain rfl := spelled.origin_eq asked ⟨limit, cause⟩
    have shelf := Shelf.of_queries numbered
    have included := Query.subset_within {q}
    have begins : Begins {q} ev ⟨.walk q start stop items, announce q start stop items ev⟩ :=
      .select (Set.mem_singleton q) start stop items
    have poised := begins.poised shelf included resting.orderly resting.openSpots
    have depth : (announce q start stop items ev).depth = 0 :=
      (sameBut_announce q start stop items ev).depth.trans resting.depth
    obtain ⟨limit', limited, cause'⟩ := spelled.cause_of_limit shelf poised rfl
    obtain rfl : limit' = limit := Cause.depthExceeded.inj (cause'.symm.trans cause)
    have counted := spelled.steps_eq shelf poised limited (depth.trans_le limit'.zero_le) rfl
    dsimp only at counted
    exact ⟨limited, by omega⟩

end Evaluator

namespace Query

theorem consistent_census : census.graph.Consistent :=
  Graph.consistent_empty.addLabel _ _

theorem sincere_census : census.Sincere := by
  intro r within op listed
  obtain rfl | rfl := eq_of_within_census within
  · obtain rfl : op = .follow (.select counted) := List.mem_singleton.mp listed
    exact .follow (.select counted)
  · obtain rfl | rfl := mem_operations_tally.mp listed
    · exact .filter (.anything .any)
    · exact .count .any

end Query

namespace Evaluator

/-- A limit of two cuts a selection in `census`, whose operation counts an item in `tally`: the error tells
the arc of the operation, the item, and the arc to the frame that is one too deep. -/
theorem select_fails_census : ∃ e ev', (select 3 Query.census Query.tallySource Query.tallySink
      (.singleton (.atom .unit) .any)).Ends (.started ⟨true, some 2⟩) (.error e) ev' ∧
    e.trailTexts = ["applying sub-query #0 items -> number on items -> number",
      "in sub-query #0 items -> number for item ()", "walking items -> number"] ∧
    e.cause = .depthExceeded 2 ∧ e.steps = 2 := by
  have fails : ((select 3 Query.census Query.tallySource Query.tallySink
      (.singleton (.atom .unit) .any)).run (.started ⟨true, some 2⟩)).map (fun p => match p.1 with
        | .ok _ => none
        | .error e => some (e.trailTexts, match e.cause with
          | .depthExceeded limit => some limit
          | _ => none)) = some (some (["applying sub-query #0 items -> number on items -> number",
            "in sub-query #0 items -> number for item ()", "walking items -> number"], some 2)) := by
    cbv
  obtain ⟨⟨r, ev'⟩, ended, same⟩ := Option.map_eq_some_iff.mp fails
  cases r with
  | ok => cases same
  | error e =>
    obtain ⟨trail, cause⟩ := Prod.mk.inj (Option.some.inj same)
    have cause : e.cause = .depthExceeded 2 := by
      cases found : e.cause <;> simp_all
    have consistent (r : Query) (within : Query.census.Within r) : r.graph.Consistent := by
      obtain rfl | rfl := Query.eq_of_within_census within
      · exact Query.consistent_census
      · exact Query.consistent_tally
    obtain ⟨-, -, counted⟩ := select_fails Query.numbered_census consistent (.started _) ended
    exact ⟨e, ev', ended, trail, cause, (counted Query.sincere_census 2 cause).2⟩

end Evaluator

end GraphQuery
