import GraphQuery.Proofs.Serving
import GraphQuery.Proofs.Tables
/-!
# What evaluators record

Whatever evaluators have met, what they come to is what the tabulated queries select. Where a walk
passes, each operation on the way has passed, and so its result is in its table; where it fails, nothing
is recorded. So an evaluator is truthful of the tabulated queries at all times, although the operations
that it applies may not be stable. This takes that callers' functions respect equality and are told apart
by what they are compared by.
-/

namespace GraphQuery

/-- Functions that callers supplied are the same wherever they are equal. -/
def Closure.Identified (cs : Set Closure) : Prop :=
  ∀ c ∈ cs, ∀ c' ∈ cs, c.same c' = true → c = c'

/-- A shelf of queries with functions that respect equality and are the same wherever they are equal. -/
structure Registry (known : Set Query) : Prop extends Shelf known where
  lawful : ∀ q ∈ known, ∀ op ∈ q.operations, op.Lawful
  identified : Closure.Identified {c | ∃ q ∈ known, ∃ op ∈ q.operations, c ∈ op.closures}

/-- Selections in the queries of a shelf are the same wherever they are equal. -/
theorem Shelf.identifies {known : Set Query} (shelf : Shelf known) {cs : Set Closure}
    (identified : Closure.Identified cs) {op op' : Operation} (closures : ∀ c ∈ op.closures, c ∈ cs)
    (closures' : ∀ c ∈ op'.closures, c ∈ cs) (selections : ∀ s ∈ op.selections, s.query ∈ known)
    (selections' : ∀ s ∈ op'.selections, s.query ∈ known) :
    Identifies op.closures op'.closures op.selections op'.selections where
  closures c member c' member' := identified c (closures c member) c' (closures' c' member')
  selections s member s' member' equal := by
    obtain ⟨query, start, stop, -⟩ := Selection.beq_iff.mp equal
    have query := shelf.numbered _ (selections s member) _ (selections' s' member') query
    cases s
    cases s'
    cases query
    cases start
    cases stop
    rfl

namespace Registry

variable {known : Set Query}

theorem closures {q : Query} (member : q ∈ known) {op : Operation} (listed : op ∈ q.operations) :
    ∀ c ∈ op.closures, c ∈ {c | ∃ q ∈ known, ∃ op ∈ q.operations, c ∈ op.closures} :=
  fun _ supplied => ⟨q, member, op, listed, supplied⟩

theorem selections (reg : Registry known) {q : Query} (member : q ∈ known) {op : Operation}
    (listed : op ∈ q.operations) : ∀ s ∈ op.selections, s.query ∈ known :=
  fun s selects => reg.closed q member s.query ⟨op, listed, s, selects, rfl⟩

theorem identifies (reg : Registry known) {q q' : Query} (member : q ∈ known) (member' : q' ∈ known)
    {op op' : Operation} (listed : op ∈ q.operations) (listed' : op' ∈ q'.operations) :
    Identifies op.closures op'.closures op.selections op'.selections :=
  reg.toShelf.identifies reg.identified (closures member listed) (closures member' listed')
    (reg.selections member listed) (reg.selections member' listed')

end Registry

namespace Evaluator

open EvalM

variable {known : Set Query} {q : Query} {ev ev₁ ev₂ ev' : Evaluator} {new : List Frame}
  {walk : Query → Node → Node → ItemSet → EvalM Reach}

/-- Frames of the query may be visited: no frame of a query nested in it is open, and what is recorded
is in the tables. -/
structure Prepared (known : Set Query) (q : Query) (ev : Evaluator) : Prop where
  ready : Ready (Query.tabulated '' known) q.tabulated ev
  clear : ∀ r, q.Nests r → Clear r ev

theorem Clear.tabulated (clear : Clear q ev) : Clear q.tabulated ev := by
  intro r within k opened
  obtain rfl | ⟨s, nests, -⟩ := within.cases_head
  · rw [q.id_tabulated]
    exact clear q .refl k opened
  · exact (Query.not_nests_tabulated nests).elim

theorem Clear.prepared (clear : Clear q ev) (truthful : Truthful (Query.tabulated '' known) ev) :
    Prepared known q ev where
  ready := clear.tabulated.ready truthful
  clear _ nests s within := clear s (within.head nests)

section

variable (known) (q) (walk)

/-- The operations of a query pass with what they pass with on the answers of tabulated queries. -/
def Accords : Prop :=
  ∀ op ∈ q.operations, ∀ ⦃ev items r ev'⦄, Prepared known q ev →
    (op.apply (nestedBy walk) items).Ends ev r ev' →
      Truthful (Query.tabulated '' known) ev' ∧ ev.Extends ev' [] ∧
        ∀ t, r = .ok t → (op.inquiry items).Passes Selection.Finds t

/-- The visits to the frames of a query are visits to frames of the tabulated one. -/
def Records : Prop :=
  ∀ ⦃start stop items ev r ev'⦄, Prepared known q ev → items.isEmpty = false →
    (walk q start stop items).Ends ev r ev' →
      Visit (Query.tabulated '' known) False q.tabulated ev ⟨q.id, start, stop, items⟩ r ev'

end

theorem Arrives.congr {f g : Frame} {reach : Reach} (arrives : Arrives q ev f reach ev' new)
    (same : f.spot = g.spot) : Arrives q ev g reach ev' new where
  leaves := same ▸ arrives.leaves
  typed := arrives.typed.trans (congrArg (fun k : Spot => k.stop.inputType) same)
  sound := same ▸ arrives.sound
  covers := same ▸ arrives.covers
  hits := same ▸ arrives.hits

theorem Visit.congr {told : Prop} {f g : Frame} {r : Except Error Reach}
    (visit : Visit known told q ev f r ev') (same : f.spot = g.spot) :
    Visit known told q ev g r ev' := by
  cases visit with
  | ok after arrives => exact .ok after (arrives.congr same)
  | error after ext dooms => exact .error after ext fun holds => same ▸ dooms holds

section

variable (reg : Registry known) (member : q ∈ known)

include reg member

theorem Prepared.enter (prepared : Prepared known q ev) {f : Frame} (query : f.query = q.id)
    (unopened : ∀ i, ¬ ev.OpenAt f.spot i) (uncached : ¬ ev.Cached f.spot) :
    Prepared known q (enter f ev) where
  ready := prepared.ready.enter reg.tables ⟨q, member, rfl⟩ (query.trans q.id_tabulated.symm) unopened
    uncached
  clear r nests := (prepared.clear r nests).enter reg.toShelf member nests query

theorem Prepared.leaves (prepared : Prepared known q ev)
    (after : Truthful (Query.tabulated '' known) ev₁) {k : Spot} {low? : Option Nat}
    (query : k.query = q.id) (leaves : Leaves q.tabulated ev ev₁ k low? new) :
    Prepared known q ev₁ where
  ready := prepared.ready.leaves reg.tables ⟨q, member, rfl⟩ after (query.trans q.id_tabulated.symm)
    leaves
  clear r nests := (prepared.clear r nests).grow reg.toShelf member nests leaves.toExtends
    fun g inNew => (leaves.pends g inNew).reached.query.trans query

variable (records : Records known q walk) (accords : Accords known q walk) {f : Frame}
  (query : f.query = q.id) (filled : f.items.isEmpty = false)

include records accords query filled

/-- One more step is taken, which is a step of the tabulated query. -/
theorem stepBy_recorded {steps : List (Arc × Operation)} {reach : Reach} {a : Arc} {op : Operation}
    {r : Except Error Reach} (prepared : Prepared known q ev)
    (between : Truthful (Query.tabulated '' known) ev₁)
    (progress : Progress q.tabulated ev f steps reach ev₁ new) (listed : (a, op) ∈ q.steps f.start)
    (ends : (stepBy walk q f.stop f.items reach a op).Ends ev₁ r ev₂) :
    Stepped (Query.tabulated '' known) False q.tabulated ev f
      (steps ++ [(a, op.tabulated Selection.Finds)]) r ev₂ := by
  have listed' := Query.mem_operations_of_mem_steps listed
  have prepared₁ := prepared.leaves reg member between query progress.leaves
  obtain ⟨e, failed, rfl⟩ | ⟨reached, ev₁', passed, rest⟩ := (stepBy_ends walk).mp ends
  · obtain ⟨after, ext, -⟩ := accords op listed' prepared₁ failed
    exact .error after (progress.leaves.toExtends.trans ext) False.elim
  · obtain ⟨between', ext, passes⟩ := accords op listed' prepared₁ passed
    obtain ⟨entry, results, same⟩ := Operation.exists_tabulated_of_passes settles_finds
      (reg.lawful q member op listed') (reg.identifies member member listed' listed') (passes reached rfl)
    have takes : q.tabulated.Takes f.spot a (op.tabulated Selection.Finds) (some (.ok entry)) := by
      refine ⟨?_, f.items, rfl, filled, results⟩
      rw [q.steps_tabulated]
      exact List.mem_map_of_mem listed
    have empty := ItemSet.isEmpty_congr same
    refine progress.stepped reg.tables ⟨q, member, rfl⟩ between between' ext takes
      (query.trans q.id_tabulated.symm) id (fun nowhere => ?_) fun filled' => ?_
    · rwa [← empty, nowhere, if_pos rfl] at rest
    · rw [← empty, filled', if_neg Bool.false_ne_true] at rest
      obtain ⟨r₀, walked, same'⟩ := rest
      have prepared₁' := prepared₁.leaves reg member between' query (.of_extends ext f.spot none)
      refine ⟨r₀, (records prepared₁' (empty ▸ filled') walked).congr ?_, same'⟩
      rw [Frame.spot, Frame.spot, same, q.id_tabulated]

/-- One visit, given the visits nested in it. -/
theorem visitBy_recorded {r : Except Error Reach} (prepared : Prepared known q ev)
    (ends : (visitBy walk q f.start f.stop f.items).Ends ev r ev') :
    Visit (Query.tabulated '' known) False q.tabulated ev f r ev' := by
  refine Visited.visit reg.tables ⟨q, member, rfl⟩ (query.trans q.id_tabulated.symm) filled
    q.id_tabulated.symm prepared.ready (fun _ => id) (fun _ _ unopened uncached expanded => ?_)
    ((visitBy_ends walk).mp ends)
  have entered := prepared.enter reg member query unopened uncached
  obtain ⟨_, taken, rfl⟩ := (expandBy_ends walk).mp expanded
  have stepped := foldlM_stepped_of
    (s := fun step : Arc × Operation => (step.1, step.2.tabulated Selection.Finds))
    (fun step listed _ _ _ _ _ _ between progress => stepBy_recorded reg member records accords query
      filled entered between progress listed)
    entered.ready.truthful (.start q.tabulated _ f) taken
  rw [List.nil_append, ← q.steps_tabulated] at stepped
  exact stepped.retyped

end

theorem visit_recorded (reg : Registry known) (member : q ∈ known)
    (accords : ∀ n, Accords known q (visit n)) (n : Nat) : Records known q (visit n) := by
  induction n with
  | zero => exact fun _ _ _ _ _ _ _ _ ends => (not_ends_exhausted ends).elim
  | succ n ih =>
    intro start stop items ev r ev' prepared filled ends
    exact visitBy_recorded reg member ih (accords n) (f := ⟨q.id, start, stop, items⟩) rfl filled
      prepared ends

/-! Selections -/

section

variable (reg : Registry known) (member : q ∈ known) (accords : ∀ n, Accords known q (visit n))

include reg member accords

/-- A selection that passes comes to what the tabulated query selects. -/
theorem select_recorded {n : Nat} {start stop : Node} {items : ItemSet} {r : Except Error ItemSet}
    (truthful : Truthful (Query.tabulated '' known) ev) (clear : Clear q ev)
    (ends : (select n q start stop items).Ends ev r ev₁) :
    Truthful (Query.tabulated '' known) ev₁ ∧ ev.Extends ev₁ [] ∧ ∀ found, r = .ok found →
      q.tabulated.Selects ⟨q.tabulated.id, start, stop, items⟩ found := by
  obtain ⟨r₀, ev₀, walked, rfl, rfl⟩ := (selectBy_ends _).mp ends
  have announced := sameBut_announce q start stop items ev
  have concluded := sameBut_conclude q (announce q start stop items ev) r₀ ev₀
  have truthful₀ := truthful.of_sameBut announced
  have clear₀ := clear.extends announced.extends
  cases empty : items.isEmpty with
  | true =>
    cases n with
    | zero => exact (not_ends_exhausted walked).elim
    | succ n =>
      obtain ⟨rfl, rfl⟩ := walked.unique ((visitBy_ends _).mpr (.empty empty))
      refine ⟨truthful₀.of_sameBut concluded, announced.extends.trans concluded.extends, ?_⟩
      rintro _ ⟨⟩
      exact .of_isEmpty empty
  | false =>
    have visit := (visit_recorded reg member accords n (clear₀.prepared truthful₀) empty walked).congr
      (g := ⟨q.tabulated.id, start, stop, items⟩) (by rw [q.id_tabulated])
    obtain ⟨after, ext, outcome⟩ := visit.of_clear rfl truthful₀ clear₀.tabulated
    refine ⟨after.of_sameBut concluded, (announced.extends.trans ext).trans concluded.extends,
      fun found same => ?_⟩
    obtain ⟨reach, rfl, selects⟩ | ⟨e, rfl, -⟩ := outcome
    · rwa [← Except.ok.inj same]
    · cases same

/-- So does each selection at a result node. -/
theorem selectResults_recorded {n : Nat} {start : Node} {items : ItemSet} {r : Except Error ItemSet}
    (truthful : Truthful (Query.tabulated '' known) ev) (clear : Clear q ev)
    (ends : (selectResults n q start items).Ends ev r ev₁) :
    Truthful (Query.tabulated '' known) ev₁ ∧ ev.Extends ev₁ [] ∧ ∀ found, r = .ok found →
      ∃ founds, List.Forall₂ (fun stop =>
        q.tabulated.Selects ⟨q.tabulated.id, start, stop, items⟩) q.resultNodes founds ∧
          found = ItemSet.unite founds := by
  obtain ⟨⟨after, ext⟩, outcome⟩ := selectResultsBy_cases (visit n)
    (I := fun ev₁ => Truthful (Query.tabulated '' known) ev₁ ∧ ev.Extends ev₁ [])
    (S := fun stop => q.tabulated.Selects ⟨q.tabulated.id, start, stop, items⟩)
    (fun stop _ ev₁ r ev₂ between ended => by
      obtain ⟨after, ext, selects⟩ :=
        select_recorded reg member accords between.1 (clear.extends between.2) ended
      exact ⟨⟨after, between.2.trans ext⟩, selects⟩)
    ⟨truthful, .refl ev⟩ ends
  refine ⟨after, ext, ?_⟩
  obtain ⟨founds, rfl, all⟩ | ⟨e, rfl, -⟩ := outcome
  · rintro _ ⟨⟩
    exact ⟨founds, all, rfl⟩
  · rintro _ ⟨⟩

end

/-- The selection of an operation comes to what it finds in the tabulated query. -/
theorem nested_recorded (reg : Registry known) {s : Selection} (member : s.query ∈ known)
    (accords : ∀ n, Accords known s.query (visit n)) {n : Nat} {x : Item} {r : Except Error ItemSet}
    (truthful : Truthful (Query.tabulated '' known) ev) (clear : Clear s.query ev)
    (ends : (nested n s x).Ends ev r ev₁) :
    Truthful (Query.tabulated '' known) ev₁ ∧ ev.Extends ev₁ [] ∧
      ∀ found, r = .ok found → s.Finds x found := by
  unfold nested nestedBy at ends
  obtain ⟨r₀, ended, rfl⟩ := ends_within.mp ends
  have passed {found : ItemSet}
      (same : (r₀.mapError fun e => e.through (.nested s.text x)) = .ok found) : r₀ = .ok found := by
    cases r₀ with
    | ok => exact same
    | error => cases same
  unfold Selection.Finds Selection.FindsIn Selection.stops
  cases stop : s.stop? with
  | some stop' =>
    rw [stop] at ended
    obtain ⟨after, ext, selects⟩ := select_recorded reg member accords truthful clear ended
    exact ⟨after, ext, fun found same => ⟨[found], .cons (selects found (passed same)) .nil, rfl⟩⟩
  | none =>
    rw [stop] at ended
    obtain ⟨after, ext, selects⟩ := selectResults_recorded reg member accords truthful clear ended
    exact ⟨after, ext, fun found same => selects found (passed same)⟩

/-! Operations -/

/-- An inquiry passes with what it passes with on the answers of tabulated queries. -/
theorem run_recorded (reg : Registry known) {α : Type} {P : Selection → Prop}
    (nested : ∀ s, P s → s.query ∈ known ∧ ∀ n, Accords known s.query (visit n)) {p : Inquiry α}
    {n : Nat} {r : Except Error α} (asks : p.AsksOnly P)
    (truthful : Truthful (Query.tabulated '' known) ev) (clear : ∀ s, P s → Clear s.query ev)
    (ends : (p.run (nestedBy (visit n))).Ends ev r ev₁) :
    Truthful (Query.tabulated '' known) ev₁ ∧ ev.Extends ev₁ [] ∧
      ∀ a, r = .ok a → p.Passes Selection.Finds a := by
  induction p generalizing ev with
  | done outcome =>
    obtain ⟨rfl, rfl⟩ := ends_ofOutcome.mp ends
    refine ⟨truthful, .refl ev₁, ?_⟩
    rintro a rfl
    exact .done a
  | ask s x next ih =>
    obtain ⟨holds, later⟩ := asks
    obtain ⟨member, accords⟩ := nested s holds
    obtain ⟨e, failed, rfl⟩ | ⟨found, ev₂, passed, rest⟩ := ends_bind.mp ends
    · obtain ⟨after, ext, -⟩ := nested_recorded reg member accords truthful (clear s holds) failed
      exact ⟨after, ext, fun _ contra => nomatch contra⟩
    · obtain ⟨between, ext, finds⟩ := nested_recorded reg member accords truthful (clear s holds) passed
      obtain ⟨after, ext', passes⟩ := ih found (later found) between
        (fun s holds => (clear s holds).extends ext) rest
      exact ⟨after, ext.trans ext', fun a same => .ask (finds found rfl) (passes a same)⟩

/-- By induction on nesting, this holds of the operations of all queries. -/
theorem accords_visit (reg : Registry known) (member : q ∈ known) (n : Nat) :
    Accords known q (visit n) := by
  induction q using Query.nests_wf.induction generalizing n with
  | _ q ih =>
    intro op listed ev items r ev' prepared ends
    have nests (s : Selection) (selects : s ∈ op.selections) : q.Nests s.query :=
      ⟨op, listed, s, selects, rfl⟩
    rw [op.apply_eq_run] at ends
    refine run_recorded reg (fun s selects => ?_) (op.inquiry_asksOnly items) prepared.ready.truthful
      (fun s selects => prepared.clear s.query (nests s selects)) ends
    have inside := reg.closed q member s.query (nests s selects)
    exact ⟨inside, ih s.query (nests s selects) inside⟩

/-! Evaluators in service -/

variable {queries : Set Query} {config : Config}

/-- Between calls, what an evaluator has recorded is in the tables. -/
theorem Serves.recorded (reg : Registry known) (included : queries ⊆ known)
    (serves : Serves queries config ev) : Truthful (Query.tabulated '' known) ev := by
  induction serves with
  | nothing => exact truthful_started _ config
  | selecting before call ih =>
    have closed := (before.resting reg.toShelf included).1.openSpots
    cases call with
    | select member ends =>
      have member := included member
      exact (select_recorded reg member (accords_visit reg member) ih (clear_of_closed closed _) ends).1
    | selectResults member ends =>
      have member := included member
      exact (selectResults_recorded reg member (accords_visit reg member) ih
        (clear_of_closed closed _) ends).1
  | clearCache _ ih => exact ih.clearCache

/-- What an operation comes to between calls is in its table. -/
theorem Serves.applied (reg : Registry known) (included : queries ⊆ known)
    (serves : Serves queries config ev) {op : Operation} (lawful : op.Lawful)
    (identified : Identifies op.closures op.closures op.selections op.selections)
    (selects : ∀ s ∈ op.selections, s.query ∈ known) {items t : ItemSet} {n : Nat}
    (ends : (op.apply (nested n) items).Ends ev (.ok t) ev₁) :
    ∃ t', (op.tabulated Selection.Finds).Results items (some (.ok t')) ∧ t'.essence = t.essence := by
  have closed := (serves.resting reg.toShelf included).1.openSpots
  rw [op.apply_eq_run] at ends
  obtain ⟨-, -, passes⟩ := run_recorded reg
    (fun s inside => ⟨selects s inside, accords_visit reg (selects s inside)⟩)
    (op.inquiry_asksOnly items) (serves.recorded reg included)
    (fun s _ => clear_of_closed closed s.query) ends
  exact Operation.exists_tabulated_of_passes settles_finds lawful identified (passes t rfl)

end Evaluator

end GraphQuery
