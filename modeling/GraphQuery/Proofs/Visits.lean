import GraphQuery.Proofs.Components
/-!
# Visits

A visit to a frame either arrives at items that account for what the frame gathers, or it fails. Either
way the evaluator is left truthful. If the operations are pure and depth is not limited, then a visit
that fails does so because some operation fails that is met on the way. This holds for one visit if it
holds for the visits nested in it and if the operations come to one of their outcomes, and so by
induction for all visits.
-/

namespace GraphQuery

namespace Evaluator

open EvalM

/-- Frames of the query may be visited: no frame of a query nested in it is open, and the pending
ones have found part of what they gather. -/
structure Ready (known : Set Query) (q : Query) (ev : Evaluator) : Prop where
  truthful : Truthful known ev
  clear : ∀ r, q.Nests r → Clear r ev
  pending : ∀ (f : Frame) (p : Pending), f.query = q.id → ev.pending[f]? = some p →
    p.found.itemType = f.stop.inputType ∧ ∀ c ∈ p.found.contents, q.Gathers f.spot c

/-- Frames of the query may be visited, and no visit gives up for depth. -/
structure Able (known : Set Query) (q : Query) (ev : Evaluator) : Prop extends Ready known q ev where
  unlimited : ev.config.maxDepth? = none

/-- Failures are those of operations: these are pure, and the evaluator never gives up for depth. -/
def Candid (known : Set Query) (ev : Evaluator) : Prop :=
  Library known ∧ ev.config.maxDepth? = none

/-- The ways in which a visit to a frame may leave a ready state. Failures are told apart from those of
operations by a condition. -/
inductive Visit (known : Set Query) (told : Prop) (q : Query) (ev : Evaluator) (f : Frame) :
    Except Error Reach → Evaluator → Prop where
  | ok {reach : Reach} {ev' : Evaluator} {new : List Frame} (after : Truthful known ev')
    (arrives : Arrives q ev f reach ev' new) : Visit known told q ev f (.ok reach) ev'
  | error {e : Error} {ev' : Evaluator} (after : Truthful known ev') (ext : ev.Extends ev' [])
    (dooms : told → q.Dooms f.spot) : Visit known told q ev f (.error e) ev'

/-- The ways in which taking steps at a frame may leave a ready state. -/
inductive Stepped (known : Set Query) (told : Prop) (q : Query) (ev : Evaluator) (f : Frame)
    (steps : List (Arc × Operation)) : Except Error Reach → Evaluator → Prop where
  | ok {reach : Reach} {ev' : Evaluator} {new : List Frame} (after : Truthful known ev')
    (progress : Progress q ev f steps reach ev' new) :
    Stepped known told q ev f steps (.ok reach) ev'
  | error {e : Error} {ev' : Evaluator} {new : List Frame} (after : Truthful known ev')
    (ext : ev.Extends ev' new) (dooms : told → q.Dooms f.spot) :
    Stepped known told q ev f steps (.error e) ev'

section

variable (known : Set Query) (q : Query) (walk : Query → Node → Node → ItemSet → EvalM Reach)

/-- The operations of a query leave the evaluator truthful and come to one of their outcomes, except
that a failure may have other reasons. -/
def Applies : Prop :=
  ∀ op ∈ q.operations, ∀ ⦃ev items r ev'⦄, Ready known q ev → items.isEmpty = false →
    (op.apply (nestedBy walk) items).Ends ev r ev' →
      Truthful known ev' ∧ ev.Extends ev' [] ∧
        ((∃ t, r = .ok t) ∨ Candid known ev → op.Results items (some r))

/-- The visits to the frames of a query leave ready states in these ways only. -/
def Walks : Prop :=
  ∀ ⦃start stop items ev r ev'⦄, Ready known q ev → items.isEmpty = false →
    (walk q start stop items).Ends ev r ev' →
      Visit known (Candid known ev) q ev ⟨q.id, start, stop, items⟩ r ev'

end

variable {q : Query} {known : Set Query} {ev ev₁ ev₂ ev' : Evaluator} {new : List Frame}
  {walk : Query → Node → Node → ItemSet → EvalM Reach}

theorem Extends.candid (ext : ev.Extends ev' new) : Candid known ev' ↔ Candid known ev := by
  unfold Candid
  rw [ext.config]

section

variable (col : Collection known) (member : q ∈ known)

include col member

theorem Ready.enter (ready : Ready known q ev) {f : Frame} (query : f.query = q.id)
    (unopened : ∀ i, ¬ ev.OpenAt f.spot i) (uncached : ¬ ev.Cached f.spot) :
    Ready known q (enter f ev) where
  truthful := ready.truthful.enter unopened uncached
  clear r nests := (ready.clear r nests).enter col.toShelf member nests query
  pending := ready.pending

theorem Ready.leaves (ready : Ready known q ev) (after : Truthful known ev₁) {k : Spot}
    {low? : Option Nat} (query : k.query = q.id) (leaves : Leaves q ev ev₁ k low? new) :
    Ready known q ev₁ where
  truthful := after
  clear r nests := (ready.clear r nests).grow col.toShelf member nests leaves.toExtends fun g inNew =>
    (leaves.pends g inNew).reached.query.trans query
  pending f p queried hit := by
    by_cases recent : f.spot ∈ new.map Frame.spot
    · obtain ⟨g, inNew, same⟩ := List.mem_map.mp recent
      obtain ⟨p', hit', -, typed, accounts⟩ := (leaves.pends g inNew).pending
      rw [getElem?_of_spot _ same] at hit'
      obtain rfl := Option.some.inj (hit.symm.trans hit')
      exact ⟨typed.trans (congrArg (fun k : Spot => k.stop.inputType) same), same ▸ accounts.sound⟩
    · rw [leaves.toExtends.pending f recent] at hit
      exact ready.pending f p queried hit

theorem Able.enter (able : Able known q ev) {f : Frame} (query : f.query = q.id)
    (unopened : ∀ i, ¬ ev.OpenAt f.spot i) (uncached : ¬ ev.Cached f.spot) :
    Able known q (enter f ev) :=
  ⟨able.toReady.enter col member query unopened uncached, able.unlimited⟩

theorem Able.leaves (able : Able known q ev) (after : Truthful known ev₁) {k : Spot}
    {low? : Option Nat} (query : k.query = q.id) (leaves : Leaves q ev ev₁ k low? new) :
    Able known q ev₁ :=
  ⟨able.toReady.leaves col member after query leaves, by rw [leaves.config, able.unlimited]⟩

omit col member in
/-- Steps are taken one after the other, and each of them stands for a step that leaves the frame. -/
theorem foldlM_stepped_of {α : Type} {told : Prop} {f : Frame} {g : Reach → α → EvalM Reach}
    {s : α → Arc × Operation} {steps : List (Arc × Operation)} {rest : List α} {reach : Reach}
    {r : Except Error Reach}
    (one : ∀ a ∈ rest, ∀ ⦃steps reach ev₁ new r ev₂⦄, Truthful known ev₁ →
      Progress q ev f steps reach ev₁ new → (g reach a).Ends ev₁ r ev₂ →
        Stepped known told q ev f (steps ++ [s a]) r ev₂)
    (between : Truthful known ev₁) (progress : Progress q ev f steps reach ev₁ new)
    (ends : (rest.foldlM g reach).Ends ev₁ r ev₂) :
    Stepped known told q ev f (steps ++ rest.map s) r ev₂ := by
  induction rest generalizing steps reach ev₁ new with
  | nil =>
    obtain ⟨rfl, rfl⟩ := ends_pure.mp ends
    rw [List.map_nil, List.append_nil]
    exact .ok between progress
  | cons a rest ih =>
    rw [List.foldlM_cons] at ends
    obtain ⟨here, later⟩ := List.forall_mem_cons.mp one
    obtain ⟨e, failed, rfl⟩ | ⟨next, ev₁', passed, ends⟩ := ends_bind.mp ends
    · cases here between progress failed with
      | error after ext dooms => exact .error after ext dooms
    · cases here between progress passed with
      | ok after progress =>
        have taken := ih later after progress ends
        rwa [List.append_assoc] at taken

/-- Where an operation has led to a set, the step is over once that set was visited. -/
theorem Progress.stepped {told told' : Prop} {f : Frame} {steps : List (Arc × Operation)}
    {reach : Reach} {a : Arc} {op : Operation} {reached : ItemSet} {r : Except Error Reach}
    (between : Truthful known ev₁) (between' : Truthful known ev₂)
    (progress : Progress q ev f steps reach ev₁ new) (ext : ev₁.Extends ev₂ [])
    (takes : q.Takes f.spot a op (some (.ok reached))) (query : f.query = q.id) (same : told → told')
    (skips : reached.isEmpty = true → r = .ok reach ∧ ev' = ev₂)
    (walks : reached.isEmpty = false → ∃ r₀,
      Visit known told' q ev₂ ⟨q.id, a.target, f.stop, reached⟩ r₀ ev' ∧
        r = (r₀.mapError fun e => e.through (.walking a)).map fun next =>
          ⟨reach.items.union next.items, lower reach.low? next.low?⟩) :
    Stepped known told q ev f (steps ++ [(a, op)]) r ev' := by
  have stable := col.isStable q member
  cases nowhere : reached.isEmpty with
  | true =>
    obtain ⟨rfl, rfl⟩ := skips nowhere
    exact .ok between' (progress.skip stable between ext takes nowhere)
  | false =>
    obtain ⟨r₀, visit, rfl⟩ := walks nowhere
    cases visit with
    | ok after arrives =>
      rw [← query] at arrives
      exact .ok after (progress.step stable between between' ext takes nowhere arrives)
    | error after ext' dooms =>
      have earlier := progress.leaves.toExtends.trans ext
      refine .error after (earlier.trans ext') fun holds => .of_reaches ?_ (dooms (same holds))
      exact .single ⟨a, op, reached, takes, nowhere, by rw [← query]; rfl⟩

omit col member in
/-- What was found is declared as the end requires, which does not matter for what it accounts for. -/
theorem Stepped.retyped {told : Prop} {f : Frame} {steps : List (Arc × Operation)}
    {r₀ : Except Error Reach} (stepped : Stepped known told q ev f steps r₀ ev') :
    Stepped known told q ev f steps
        (r₀.map fun reach => { reach with items := reach.items.withType f.stop.inputType }) ev' ∧
      ∀ reach, (r₀.map fun reach => { reach with items := reach.items.withType f.stop.inputType }) =
        .ok reach → reach.items.itemType = f.stop.inputType := by
  cases stepped with
  | ok after progress =>
    refine ⟨.ok after ⟨progress.leaves, ?_, progress.hits⟩, ?_⟩
    · exact progress.accounts.grow (.refl q ev') (fun _ => id) (fun _ => id) progress.accounts.sound
    · rintro _ ⟨⟩
      rfl
  | error after ext dooms => exact ⟨.error after ext dooms, fun _ contra => nomatch contra⟩

variable (walks : Walks known q walk) (applies : Applies known q walk) {f : Frame}
  (query : f.query = q.id) (filled : f.items.isEmpty = false)

include walks applies query filled

/-- One more step is taken. -/
theorem stepBy_stepped {steps : List (Arc × Operation)} {reach : Reach} {a : Arc} {op : Operation}
    {r : Except Error Reach} (ready : Ready known q ev) (between : Truthful known ev₁)
    (progress : Progress q ev f steps reach ev₁ new) (listed : (a, op) ∈ q.steps f.start)
    (ends : (stepBy walk q f.stop f.items reach a op).Ends ev₁ r ev₂) :
    Stepped known (Candid known ev) q ev f (steps ++ [(a, op)]) r ev₂ := by
  have ready₁ := ready.leaves col member between query progress.leaves
  have applied := applies op (Query.mem_operations_of_mem_steps listed)
  obtain ⟨e, failed, rfl⟩ | ⟨reached, ev₁', passed, rest⟩ := (stepBy_ends walk).mp ends
  · obtain ⟨after, ext, results⟩ := applied ready₁ filled failed
    refine .error after (progress.leaves.toExtends.trans ext) fun candid => ?_
    have results := results (.inr (progress.leaves.toExtends.candid.mpr candid))
    exact ⟨f.spot, .refl q _, a, op, e, listed, f.items, rfl, filled, results⟩
  · obtain ⟨between', ext, results⟩ := applied ready₁ filled passed
    have takes : q.Takes f.spot a op (some (.ok reached)) :=
      ⟨listed, f.items, rfl, filled, results (.inl ⟨reached, rfl⟩)⟩
    refine progress.stepped col member between between' ext takes query
      (progress.leaves.toExtends.trans ext).candid.mpr (fun nowhere => ?_) fun filled' => ?_
    · rwa [nowhere, if_pos rfl] at rest
    · rw [filled', if_neg Bool.false_ne_true] at rest
      obtain ⟨r₀, walked, same⟩ := rest
      have ready₁' := ready₁.leaves col member between' query (.of_extends ext f.spot none)
      exact ⟨r₀, walks ready₁' filled' walked, same⟩

/-- All steps that remain are taken. -/
theorem foldlM_stepped {steps rest : List (Arc × Operation)} {reach : Reach}
    {r : Except Error Reach} (ready : Ready known q ev) (between : Truthful known ev₁)
    (progress : Progress q ev f steps reach ev₁ new) (listed : ∀ step ∈ rest, step ∈ q.steps f.start)
    (ends : (rest.foldlM (fun found (a, op) => stepBy walk q f.stop f.items found a op) reach).Ends
      ev₁ r ev₂) : Stepped known (Candid known ev) q ev f (steps ++ rest) r ev₂ := by
  have stepped := foldlM_stepped_of (s := id) (fun step inside _ _ _ _ _ _ between progress =>
    stepBy_stepped col member walks applies query filled ready between progress (listed step inside))
    between progress ends
  rwa [List.map_id] at stepped

/-- All steps that leave a frame are taken, and what was found is declared as the end requires. -/
theorem expandBy_stepped {r : Except Error Reach} (ready : Ready known q ev)
    (ends : (expandBy walk q f.start f.stop f.items).Ends ev r ev') :
    Stepped known (Candid known ev) q ev f (q.steps f.start) r ev' ∧
      ∀ reach, r = .ok reach → reach.items.itemType = f.stop.inputType := by
  obtain ⟨r₀, taken, rfl⟩ := (expandBy_ends walk).mp ends
  exact (foldlM_stepped col member walks applies query filled ready ready.truthful (.start q ev f)
    (fun _ => id) taken).retyped

omit walks applies query filled in
/-- A cached frame is settled. -/
theorem Truthful.settled (truthful : Truthful known ev) {k : Spot} (query : k.query = q.id)
    (cached : ev.Cached k) : Settled q ev k := by
  have closed {k' : Spot} (reaches : q.Reaches k k') : ev.Cached k' := by
    induction reaches with
    | refl => exact cached
    | tail reaches leads ih =>
      exact truthful.closed q member _ _ ih ((Query.Reaches.query reaches).trans query) leads
  obtain ⟨f, found, rfl, hit⟩ := cached
  obtain ⟨r, listed, same, selects⟩ := truthful.cached f found hit
  obtain rfl := col.numbered q member r listed (query.symm.trans same.symm)
  exact ⟨selects.safe, fun k reaches => truthful.disjoint k (closed reaches),
    fun _ => closed (.refl q _)⟩

omit walks applies filled in
/-- What is known of a frame is what a visit arrives at. -/
theorem consult_arrives {reach : Reach} (ready : Ready known q ev)
    (heard : (consult f ev).1 = some reach) : Arrives q ev f reach (consult f ev).2 [] := by
  have ext := (sameBut_consult f ev).extends
  obtain ⟨found, hit, rfl⟩ | ⟨i, hit, rfl⟩ | ⟨p, hit, rfl⟩ := consult_eq_some heard
  · obtain ⟨r, listed, same, selects⟩ := ready.truthful.cached f found hit
    obtain rfl := col.numbered q member r listed (query.symm.trans same.symm)
    have settled := ready.truthful.settled col member query ⟨f, found, rfl, hit⟩
    exact {
      leaves := .of_extends ext _ _
      typed := selects.itemType
      sound := fun c => (selects.contents c).mp
      covers := .settled (((Leaves.of_extends ext f.spot none).keeps ready.truthful).settled _ settled)
        fun c => (selects.contents c).mpr
      hits := fun l contra => nomatch contra }
  · exact {
      leaves := .of_extends ext _ _
      typed := rfl
      sound := by simp
      covers := .opened (ext.openAt (.of_inProgress hit)) ⟨i, rfl, Nat.le_refl i⟩
      hits := by
        rintro _ ⟨⟩
        exact ⟨f.spot, .of_inProgress hit, .refl q _⟩ }
  · obtain ⟨typed, sound⟩ := ready.pending f p query hit
    exact {
      leaves := .of_extends ext _ _
      typed := typed
      sound := sound
      covers := .opened (ext.openAt (.of_pending hit)) ⟨p.index, rfl, Nat.le_refl _⟩
      hits := by
        rintro _ ⟨⟩
        exact ⟨f.spot, .of_pending hit, .refl q _⟩ }

omit walks applies filled in
/-- An expansion that is over leaves the frame in one of the ways of a visit. -/
theorem settle_visit {told : Prop} {r₀ r : Except Error Reach} (ready : Ready known q ev)
    (unopened : ∀ i, ¬ ev.OpenAt f.spot i)
    (stepped : Stepped known told q (Evaluator.enter f ev) f (q.steps f.start) r₀ ev₂)
    (typed : ∀ reach, r₀ = .ok reach → reach.items.itemType = f.stop.inputType)
    (settled : (r, ev') = settle f ev.nextIndex ev.component.size r₀ (exit f ev₂)) :
    Visit known told q ev f r ev' := by
  cases stepped with
  | error after ext dooms =>
    cases settled
    exact .error (ready.truthful.abandon unopened ext after) (abandon_extends unopened ext) dooms
  | @ok reach _ new after progress =>
    have typed := typed reach rfl
    obtain ⟨l, low, lower, same⟩ | ⟨least, same⟩ := settle_ok_cases f ev.nextIndex ev.component.size reach
      (exit f ev₂)
    · obtain ⟨rfl, rfl⟩ := Prod.mk.inj (settled.trans same)
      exact .ok (after.suspend unopened progress.leaves.toExtends reach.items)
        (suspend_arrives unopened progress typed low lower)
    · obtain ⟨rfl, rfl⟩ := Prod.mk.inj (settled.trans same)
      have root : Root known q ev f reach ev₂ new := {
        toProgress := progress
        isStable := col.isStable q member
        query := query
        before := ready.truthful
        unopened := unopened
        after := after
        typed := typed
        least := least }
      exact .ok (root.close_truthful col member) root.arrives

omit walks applies in
/-- A visit leaves a ready state in one of these ways if the expansion does that it may set off. -/
theorem Visited.visit {p : Query} {told : Prop} {r : Except Error Reach} (same : p.id = q.id)
    (ready : Ready known q ev) (limited : ev.limitReached?.isSome = true → ¬ told)
    (expands : ∀ ⦃r₀ ev₀⦄, (∀ i, ¬ ev.OpenAt f.spot i) → ¬ ev.Cached f.spot →
      (expandBy walk p f.start f.stop f.items).Ends (Evaluator.enter f ev) r₀ ev₀ →
        Stepped known told q (Evaluator.enter f ev) f (q.steps f.start) r₀ ev₀ ∧
          ∀ reach, r₀ = .ok reach → reach.items.itemType = f.stop.inputType)
    (visited : Visited walk p f.start f.stop f.items ev r ev') : Visit known told q ev f r ev' := by
  have frame : (⟨p.id, f.start, f.stop, f.items⟩ : Frame) = f := by rw [same, ← query]
  cases visited with
  | empty empty => simp [filled] at empty
  | known _ heard =>
    rw [frame] at heard ⊢
    exact .ok (ready.truthful.of_sameBut (sameBut_consult f ev))
      (consult_arrives col member query ready heard)
  | limited _ _ reached =>
    exact .error ready.truthful (.refl ev) fun holds => (limited (by rw [reached]; rfl) holds).elim
  | expanded _ unknown _ expanded settled =>
    rw [frame] at unknown expanded settled
    obtain ⟨uncached, unopened⟩ := consult_eq_none.mp unknown
    obtain ⟨stepped, typed⟩ := expands unopened uncached expanded
    exact settle_visit col member query ready unopened stepped typed settled

/-- One visit, given the visits nested in it. -/
theorem visitBy_visit {r : Except Error Reach} (ready : Ready known q ev)
    (ends : (visitBy walk q f.start f.stop f.items).Ends ev r ev') :
    Visit known (Candid known ev) q ev f r ev' := by
  refine Visited.visit col member query filled rfl ready (fun limited candid => ?_)
    (fun _ _ unopened uncached expanded => ?_) ((visitBy_ends walk).mp ends)
  · rw [limitReached_eq_none candid.2] at limited
    cases limited
  · exact expandBy_stepped col member walks applies query filled
      (ready.enter col member query unopened uncached) expanded

end

end Evaluator

end GraphQuery
