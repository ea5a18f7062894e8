import GraphQuery.Proofs.Halting
/-!
# Visits in lockstep

Two evaluators with the same open spots visit equal frames in lockstep. Where one answers a frame
from its cache and the other expands it, the frame is safe and leads to no open spot, so the other
comes back with the same spots open. Where both expand it, their steps come to like outcomes one
after the other, and both leave the frame pending or neither does. So if one visit ends, the other
ends too, and both fail or neither does.
-/

namespace GraphQuery

namespace Evaluator

open EvalM

/-- The same spots of a query are open in two states. -/
def SameOpen (q : Query) (ev ev' : Evaluator) : Prop :=
  ∀ k : Spot, k.query = q.id → (k ∈ ev.openSpots ↔ k ∈ ev'.openSpots)

/-- Two runs fail both, or both pass and leave the same spots open. -/
inductive InStep (q : Query) (ev ev' : Evaluator) :
    Except Error Reach → Except Error Reach → Prop where
  | ok {reach reach' : Reach} (same : SameOpen q ev ev') : InStep q ev ev' (.ok reach) (.ok reach')
  | error {e e' : Error} : InStep q ev ev' (.error e) (.error e')

/-- What is known of the operations of a query: their outcomes, that they pass if these are all sets,
and, if they are pure, that they end if they have an outcome. -/
structure Understood (known : Set Query) (q : Query) : Prop where
  applies : ∀ n, Applies known q (visit n)
  ends : ∀ sure, sure ∨ Library known → Ending known q sure none 0

/-- Visits that nest so many frames are followed in lockstep from every state with the same open
spots. -/
def Followed (known : Set Query) (q : Query) (n : Nat) : Prop :=
  ∀ ⦃f : Frame⦄ ⦃items : ItemSet⦄ ⦃ev ev' ev₁ : Evaluator⦄ ⦃r : Except Error Reach⦄,
    f.query = q.id → f.items.isEmpty = false → items.essence = f.items.essence →
    Able known q ev → Able known q ev' → SameOpen q ev ev' →
    (visit n q f.start f.stop f.items).Ends ev r ev₁ →
    ∃ m r' ev₁', (visit m q f.start f.stop items).Ends ev' r' ev₁' ∧ InStep q ev₁ ev₁' r r'

variable {q : Query} {known : Set Query} {ev ev' ev₁ ev₁' ev₂ : Evaluator} {new : List Frame}
  {f : Frame} {r : Except Error Reach} {reach : Reach}

theorem SameOpen.extends (same : SameOpen q ev ev') (ext : ev.Extends ev₁ [])
    (ext' : ev'.Extends ev₁' []) : SameOpen q ev₁ ev₁' := by
  intro k queried
  rw [ext.openSpots, ext'.openSpots, List.map_nil, List.append_nil, List.append_nil]
  exact same k queried

namespace Arrives

variable (arrives : Arrives q ev f reach ev' new)

include arrives

/-- Nothing is left pending if nothing open was come upon. -/
theorem new_eq_nil (closed : reach.low? = none) : new = [] := by
  refine List.eq_nil_iff_forall_not_mem.mpr fun g member => ?_
  obtain ⟨k, i, -, -, l, low, -⟩ := (arrives.leaves.pends g member).anchored
  simp [closed] at low

/-- If nothing open was come upon, then the frame is safe and nothing open can be reached. -/
theorem safe_and_apart (closed : reach.low? = none) :
    q.Safe f.spot ∧ ∀ k, q.Reaches f.spot k → k ∉ ev.openSpots := by
  cases arrives.covers with
  | settled settled gathered =>
    refine ⟨settled.safe, fun k reaches opened => ?_⟩
    exact settled.apart k reaches (arrives.leaves.mem_openSpots opened)
  | opened opened below =>
    obtain ⟨l, low, -⟩ := below
    simp [closed] at low

/-- Nothing open was come upon if nothing open can be reached. -/
theorem low_eq_none (before : Truthful known ev)
    (apart : ∀ k, q.Reaches f.spot k → k ∉ ev.openSpots) : reach.low? = none := by
  cases low : reach.low? with
  | none => rfl
  | some l =>
    obtain ⟨k, opened, reaches⟩ := arrives.hits l low
    exact (apart k reaches ((before.opened k).mpr ⟨l, opened⟩)).elim

end Arrives

/-- A visit to a safe frame that leads to no open spot passes and leaves the same spots open. -/
theorem Visit.passes (candid : Candid known ev) (before : Truthful known ev) (safe : q.Safe f.spot)
    (apart : ∀ k, q.Reaches f.spot k → k ∉ ev.openSpots)
    (visit : Visit known (Candid known ev) q ev f r ev') :
    ∃ reach, r = .ok reach ∧ ev.Extends ev' [] := by
  cases visit with
  | error after ext dooms => exact (safe.not_dooms (dooms candid)).elim
  | ok after arrives =>
    obtain rfl := arrives.new_eq_nil (arrives.low_eq_none before apart)
    exact ⟨_, rfl, arrives.leaves.toExtends⟩

/-- A visit ends if finitely many spots can be reached and the operations are resolved there. -/
theorem visit_resolves_of_finite (col : Collection known) (member : q ∈ known)
    (understood : Understood known q) {sure : Prop} (known' : sure ∨ Library known)
    (able : Able known q ev) (query : f.query = q.id) (filled : f.items.isEmpty = false)
    (finite : {k | q.Reaches f.spot k}.Finite)
    (resolved : ∀ k, q.Reaches f.spot k → q.Resolved sure k) :
    ∃ n, (visit n q f.start f.stop f.items).Resolves sure ev := by
  obtain ⟨n, -, resolves⟩ := visit_resolves col member understood.applies sure none finite
    (fun _ reaches _ leads => reaches.tail leads) resolved (understood.ends sure known') able query
    filled (.refl q _) (Nat.lt_succ_self _)
  exact ⟨n, resolves⟩

/-- Where something open can be reached on one evaluator, it can on the other. -/
theorem SameOpen.not_apart (same : SameOpen q ev ev') (query : f.query = q.id)
    (apart : ¬ (q.Safe f.spot ∧ ∀ k, q.Reaches f.spot k → k ∉ ev.openSpots)) :
    ¬ (q.Safe f.spot ∧ ∀ k, q.Reaches f.spot k → k ∉ ev'.openSpots) :=
  fun ⟨safe, apart'⟩ => apart ⟨safe, fun k reaches =>
    mt (same k (reaches.query.trans query)).mp (apart' k reaches)⟩

section

variable (lib : Library known) (member : q ∈ known) (understood : Understood known q)

include lib member understood

variable {items : ItemSet} (query : f.query = q.id) (filled : f.items.isEmpty = false)
  (equal : items.essence = f.items.essence)

include query filled equal

/-- Visits in lockstep where nothing open can be reached. -/
theorem visit_inStep_of_apart {n : Nat} (able : Able known q ev) (able' : Able known q ev')
    (same : SameOpen q ev ev') (safe : q.Safe f.spot)
    (apart : ∀ k, q.Reaches f.spot k → k ∉ ev.openSpots)
    (ends : (visit n q f.start f.stop f.items).Ends ev r ev₁) :
    ∃ m r' ev₁', (visit m q f.start f.stop items).Ends ev' r' ev₁' ∧ InStep q ev₁ ev₁' r r' := by
  have spot : Frame.spot { f with items := items } = f.spot := by rw [Frame.spot, equal]; rfl
  have filled' : items.isEmpty = false := (ItemSet.isEmpty_congr equal).trans filled
  have frame (items : ItemSet) : (⟨q.id, f.start, f.stop, items⟩ : Frame) = { f with items } := by
    rw [← query]
  obtain ⟨m, r', ev₁', ends', -⟩ := visit_resolves_of_finite lib.collection member understood
    (f := { f with items := items }) (.inr lib) able' query filled' (spot ▸ safe.finite)
    fun k reaches => safe.resolved (spot ▸ reaches) False
  have visit := walks_visit lib.collection member understood.applies n able.toReady filled ends
  have visit' := walks_visit lib.collection member understood.applies m able'.toReady filled' ends'
  rw [frame] at visit visit'
  obtain ⟨reach, rfl, ext⟩ := visit.passes ⟨lib, able.unlimited⟩ able.truthful safe apart
  obtain ⟨reach', rfl, ext'⟩ := visit'.passes ⟨lib, able'.unlimited⟩ able'.truthful (spot ▸ safe)
    fun k reaches opened => by
      rw [spot] at reaches
      exact apart k reaches ((same k (reaches.query.trans query)).mpr opened)
  exact ⟨m, _, ev₁', ends', .ok (same.extends ext ext')⟩

omit query in
/-- Operations in lockstep: on equal sets they come to alike outcomes, and leave the stack alone. -/
theorem apply_inStep {n : Nat} {op : Operation} (able : Able known q ev) (able' : Able known q ev')
    (listed : op ∈ q.operations) {r : Except Error ItemSet} {ev₂ : Evaluator}
    (ends : (op.apply (nestedBy (visit n)) f.items).Ends ev r ev₂) :
    ∃ m r' ev₂', (op.apply (nestedBy (visit m)) items).Ends ev' r' ev₂' ∧ Alike r r' ∧
      (Truthful known ev₂ ∧ ev.Extends ev₂ []) ∧ Truthful known ev₂' ∧ ev'.Extends ev₂' [] := by
  have pure := lib.isPure q member q .refl op listed
  have filled' : items.isEmpty = false := (ItemSet.isEmpty_congr equal).trans filled
  have applies (k : Nat) := understood.applies k op listed
  obtain ⟨after, ext, results⟩ := applies n able.toReady filled ends
  replace results := results (.inr ⟨lib, able.unlimited⟩)
  -- a pure operation that ends on one of the sets is not endless on the other
  obtain ⟨m, -, r', ev₂', ends', -⟩ := understood.ends False (.inr lib) op listed ev' items able' filled'
    (Inquiry.resolved_of_not_endless (pure.not_endless equal.symm results))
  obtain ⟨after', ext', results'⟩ := applies m able'.toReady filled' ends'
  exact ⟨m, r', ev₂', ends', pure.alike equal.symm results (results' (.inr ⟨lib, able'.unlimited⟩)),
    ⟨after, ext⟩, after', ext'⟩

/-- One step in lockstep, given the visits that it leads to. -/
theorem stepBy_inStep {n : Nat} {a : Arc} {op : Operation} (reach' : Reach)
    (visits : Followed known q n) (able : Able known q ev) (able' : Able known q ev') (same : SameOpen q ev ev')
    (listed : (a, op) ∈ q.steps f.start)
    (ends : (stepBy (visit n) q f.stop f.items reach a op).Ends ev r ev₁) :
    ∃ m r' ev₁', (stepBy (visit m) q f.stop items reach' a op).Ends ev' r' ev₁' ∧
      InStep q ev₁ ev₁' r r' := by
  have listed' := Query.mem_operations_of_mem_steps listed
  obtain ⟨e, failed, rfl⟩ | ⟨reached, ev₂, passed, rest⟩ := (stepBy_ends _).mp ends
  · obtain ⟨m, r', ev₂', ends', alike, -⟩ :=
      apply_inStep lib member understood filled equal able able' listed' failed
    cases alike with
    | error d e' => exact ⟨m, _, _, (stepBy_ends _).mpr (.inl ⟨e', ends', rfl⟩), .error⟩
  · obtain ⟨m, r', ev₂', ends', alike, ⟨after, ext⟩, after', ext'⟩ :=
      apply_inStep lib member understood filled equal able able' listed' passed
    have able₂ := able.leaves lib.collection member after query (.of_extends ext f.spot none)
    have able₂' := able'.leaves lib.collection member after' query (.of_extends ext' f.spot none)
    have same₂ := same.extends ext ext'
    cases alike with
    | @ok _ reached' alike =>
      have alike := (ItemSet.essence_eq_iff.mpr alike).symm
      cases nowhere : reached.isEmpty with
      | true =>
        rw [nowhere, if_pos rfl] at rest
        obtain ⟨rfl, rfl⟩ := rest
        refine ⟨m, .ok reach', ev₂', (stepBy_ends _).mpr (.inr ⟨reached', ev₂', ends', ?_⟩), .ok same₂⟩
        rw [ItemSet.isEmpty_congr alike, nowhere, if_pos rfl]
        exact ⟨rfl, rfl⟩
      | false =>
        rw [nowhere, if_neg Bool.false_ne_true] at rest
        obtain ⟨r₀, walked, rfl⟩ := rest
        obtain ⟨m', r₀', ev₁', walked', inStep⟩ := visits
          (f := ⟨q.id, a.target, f.stop, reached⟩) rfl nowhere alike able₂ able₂' same₂ walked
        have applied := apply_refines (visit_refines (Nat.le_max_left m m')) op items ends'
        have arrived := visit_refines (Nat.le_max_right m m') _ _ _ _ walked'
        refine ⟨max m m', (r₀'.mapError fun e => e.through (.walking a)).map fun next =>
          ⟨reach'.items.union next.items, lower reach'.low? next.low?⟩, ev₁', ?_, ?_⟩
        · refine (stepBy_ends _).mpr (.inr ⟨reached', ev₂', applied, ?_⟩)
          rw [ItemSet.isEmpty_congr alike, nowhere, if_neg Bool.false_ne_true]
          exact ⟨r₀', arrived, rfl⟩
        · cases inStep with
          | ok same => exact .ok same
          | error => exact .error

/-- The steps of a frame in lockstep, given the visits that they lead to. -/
theorem foldlM_inStep {n : Nat} (visits : Followed known q n)
    (able : Able known q ev) (able' : Able known q ev') {steps rest : List (Arc × Operation)}
    {reach' : Reach} {new' : List Frame} (between : Truthful known ev₁)
    (between' : Truthful known ev₁') (same : SameOpen q ev₁ ev₁')
    (progress : Progress q ev f steps reach ev₁ new)
    (progress' : Progress q ev' { f with items } steps reach' ev₁' new')
    (listed : ∀ step ∈ rest, step ∈ q.steps f.start)
    (ends : (rest.foldlM (fun found (a, op) =>
      stepBy (visit n) q f.stop f.items found a op) reach).Ends ev₁ r ev₂) :
    ∃ m r' ev₂', (rest.foldlM (fun found (a, op) =>
      stepBy (visit m) q f.stop items found a op) reach').Ends ev₁' r' ev₂' ∧
        InStep q ev₂ ev₂' r r' := by
  have filled' : items.isEmpty = false := (ItemSet.isEmpty_congr equal).trans filled
  induction rest generalizing steps reach reach' ev₁ ev₁' new new' with
  | nil =>
    obtain ⟨rfl, rfl⟩ := ends_pure.mp ends
    exact ⟨0, _, _, ends_pure.mpr ⟨rfl, rfl⟩, .ok same⟩
  | cons step rest ih =>
    obtain ⟨here, later⟩ := List.forall_mem_cons.mp listed
    have able₁ := able.leaves lib.collection member between query progress.leaves
    have able₁' := able'.leaves lib.collection member between' query progress'.leaves
    obtain ⟨a, op⟩ := step
    rw [List.foldlM_cons] at ends
    obtain ⟨e, failed, rfl⟩ | ⟨next, ev₂, passed, ends⟩ := ends_bind.mp ends
    · obtain ⟨m, r', ev₂', failed', inStep⟩ := stepBy_inStep lib member understood query filled
        equal reach' visits able₁ able₁' same here failed
      cases inStep with
      | @error _ e' => exact ⟨m, .error e', ev₂', steps_failed failed', .error⟩
    · obtain ⟨m, r', ev₂', passed', inStep⟩ := stepBy_inStep lib member understood query filled
        equal reach' visits able₁ able₁' same here passed
      cases inStep with
      | ok same =>
        have taken := stepBy_stepped lib.collection member (walks_visit lib.collection member understood.applies n)
          (understood.applies n) query filled able.toReady between progress here passed
        have taken' := stepBy_stepped lib.collection member (walks_visit lib.collection member understood.applies m)
          (understood.applies m) (f := { f with items }) query filled' able'.toReady between' progress'
          here passed'
        cases taken with
        | ok after progress =>
          cases taken' with
          | ok after' progress' =>
            obtain ⟨m', r', ev₃', rest', inStep⟩ := ih after after' same progress progress' later ends
            exact ⟨max m m', r', ev₃', visit_steps_cons passed' rest', inStep⟩

omit lib member understood query filled equal in
/-- An expansion leaves the stack as it is if it has passed but something open can be reached. -/
theorem Visit.openSpots_eq {mark index : Nat} (visit : Visit known (Candid known ev) q ev f r ev')
    (apart : ¬ (q.Safe f.spot ∧ ∀ k, q.Reaches f.spot k → k ∉ ev.openSpots))
    (settled : (r, ev') = settle f index mark (.ok reach) (exit f ev₂)) :
    (∃ reach, r = .ok reach) ∧ ev'.openSpots = ev₂.openSpots := by
  obtain ⟨_, -, -, same⟩ | ⟨-, same⟩ := settle_ok_cases f index mark reach (exit f ev₂)
  · cases settled.trans same
    exact ⟨⟨reach, rfl⟩, rfl⟩
  · cases settled.trans same
    cases visit with
    | ok after arrives => exact (apart (arrives.safe_and_apart rfl)).elim

/-- Visits in lockstep where both expand the frame and something open can be reached. -/
theorem visit_inStep_of_unknown {n : Nat} (visits : Followed known q n)
    (able : Able known q ev) (able' : Able known q ev') (same : SameOpen q ev ev')
    (apart : ¬ (q.Safe f.spot ∧ ∀ k, q.Reaches f.spot k → k ∉ ev.openSpots))
    (heard : (consult f ev).1 = none) (heard' : (consult { f with items } ev').1 = none)
    (ends : (visit (n + 1) q f.start f.stop f.items).Ends ev r ev₁) :
    ∃ m r' ev₁', (visit m q f.start f.stop items).Ends ev' r' ev₁' ∧ InStep q ev₁ ev₁' r r' := by
  have spot : Frame.spot { f with items } = f.spot := by rw [Frame.spot, equal]; rfl
  have filled' : items.isEmpty = false := (ItemSet.isEmpty_congr equal).trans filled
  have entered := able.enter lib.collection member query (consult_eq_none.mp heard).2 (consult_eq_none.mp heard).1
  have entered' := able'.enter lib.collection member (f := { f with items }) query (consult_eq_none.mp heard').2
    (consult_eq_none.mp heard').1
  have sameEntered : SameOpen q (enter f ev) (enter { f with items } ev') := by
    intro k queried
    rw [openSpots_enter, openSpots_enter, spot, List.mem_append, List.mem_append, same k queried]
  have visit := walks_visit lib.collection member understood.applies (n + 1) able.toReady filled ends
  obtain ⟨_, ev₂, expanded, settled⟩ :=
    (visitBy_unknown _ query filled heard (limitReached_eq_none able.unlimited)).mp ends
  obtain ⟨r₀, taken, rfl⟩ := (expandBy_ends _).mp expanded
  obtain ⟨m, r₀', ev₂', taken', inStep⟩ := foldlM_inStep lib member understood query filled equal visits
    entered entered' entered.truthful entered'.truthful sameEntered (.start q _ f)
    (.start q _ { f with items }) (fun _ => id) taken
  have expanded' : (expandBy (Evaluator.visit m) q f.start f.stop items).Ends _ _ ev₂' :=
    (expandBy_ends _).mpr ⟨r₀', taken', rfl⟩
  have ends' := (visitBy_unknown (f := { f with items }) _ query filled' heard'
    (limitReached_eq_none able'.unlimited)).mpr ⟨_, ev₂', expanded', rfl⟩
  have visit' := walks_visit lib.collection member understood.applies (m + 1) able'.toReady filled' ends'
  refine ⟨m + 1, _, _, ends', ?_⟩
  have frame (items : ItemSet) : (⟨q.id, f.start, f.stop, items⟩ : Frame) = { f with items } := by
    rw [← query]
  rw [frame] at visit visit'
  cases inStep with
  | error =>
    cases settled
    exact .error
  | ok same₂ =>
    -- neither frame is safe and apart, so neither component is closed and the stacks stay the same
    have apart' := same.not_apart query apart
    obtain ⟨⟨reach, rfl⟩, stack⟩ := visit.openSpots_eq apart settled
    obtain ⟨⟨reach', passed⟩, stack'⟩ := visit'.openSpots_eq (spot.symm ▸ apart') rfl
    rw [passed]
    refine .ok fun k queried => ?_
    rw [stack, stack']
    exact same₂ k queried

end

/-- All visits are followed in lockstep. -/
theorem followed (lib : Library known) (member : q ∈ known) (understood : Understood known q)
    (n : Nat) : Followed known q n := by
  induction n with
  | zero => exact fun _ _ _ _ _ _ _ _ _ _ _ _ ends => (not_ends_exhausted ends).elim
  | succ n ih =>
    intro f items ev ev' ev₁ r query filled equal able able' same ends
    -- a frame from which nothing open can be reached is settled by itself, cached or not
    by_cases apart : q.Safe f.spot ∧ ∀ k, q.Reaches f.spot k → k ∉ ev.openSpots
    · exact visit_inStep_of_apart lib member understood query filled equal able able' same apart.1
        apart.2 ends
    have spot : Frame.spot { f with items } = f.spot := by rw [Frame.spot, equal]; rfl
    have filled' : items.isEmpty = false := (ItemSet.isEmpty_congr equal).trans filled
    -- any other frame is not cached, so that both visits come upon it open, or both expand it
    by_cases opened : f.spot ∈ ev.openSpots
    · obtain ⟨reach, heard⟩ := able.truthful.consult_of_mem opened
      obtain ⟨reach', heard'⟩ := able'.truthful.consult_of_mem (f := { f with items })
        (spot ▸ (same f.spot query).mp opened)
      obtain ⟨rfl, rfl⟩ := ends.unique (visitBy_known _ query filled heard)
      refine ⟨1, _, _, visitBy_known (f := { f with items }) _ query filled' heard', .ok ?_⟩
      exact same.extends (sameBut_consult _ _).extends (sameBut_consult _ _).extends
    · have unknown {ev : Evaluator} {items : ItemSet} (able : Able known q ev)
          (equal : items.essence = f.items.essence)
          (apart : ¬ (q.Safe f.spot ∧ ∀ k, q.Reaches f.spot k → k ∉ ev.openSpots))
          (opened : f.spot ∉ ev.openSpots) : (consult { f with items } ev).1 = none := by
        have spot : Frame.spot { f with items } = f.spot := by rw [Frame.spot, equal]; rfl
        rw [consult_eq_none, spot]
        refine ⟨fun cached => ?_, fun i openAt => opened ((able.truthful.opened f.spot).mpr ⟨i, openAt⟩)⟩
        have settled := able.truthful.settled lib.collection member query cached
        exact apart ⟨settled.safe, settled.apart⟩
      have heard := unknown able rfl apart opened
      have heard' := unknown able' equal (same.not_apart query apart) (mt (same f.spot query).mpr opened)
      exact visit_inStep_of_unknown lib member understood query filled equal ih able able' same
        apart heard heard' ends

end Evaluator

end GraphQuery
