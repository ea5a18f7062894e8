import GraphQuery.Proofs.Inquiry
import GraphQuery.Proofs.UnionOrder
/-!
# The parts of a selection

How each part of a selection ends, given how the walks that it sets off end: one statement for each
function of the evaluator, so that later proofs do not open them. More fuel never changes how a
selection ends.
-/

namespace GraphQuery

namespace Evaluator

open EvalM

section

variable (walk : Query → Node → Node → ItemSet → EvalM Reach)

/-- The state in which a selection starts its work. -/
def announce (q : Query) (start stop : Node) (items : ItemSet) (ev : Evaluator) : Evaluator :=
  if ev.depth == 0 then ev.report (.select ⟨q.id, start, stop, items⟩) else ev

/-- The state that a selection leaves, whose work started in one state and ended in another. -/
def conclude (q : Query) (before : Evaluator) : Except Error Reach → Evaluator → Evaluator
  | .error _, ev => ev
  | .ok reach, ev =>
    if before.depth == 0 then
      ev.report (.selected q.id reach.items.size (ev.stats.since before.stats))
    else
      ev

theorem selectBy_ends {q : Query} {start stop : Node} {items : ItemSet} {ev ev' : Evaluator}
    {r : Except Error ItemSet} :
    (selectBy walk q start stop items).Ends ev r ev' ↔
      ∃ r₀ ev₀, (walk q start stop items).Ends (announce q start stop items ev) r₀ ev₀ ∧
        r = r₀.map Reach.items ∧ ev' = conclude q (announce q start stop items ev) r₀ ev₀ := by
  unfold selectBy announce
  cases outermost : ev.depth == 0 with
  | true =>
    have reported : (ev.report (.select ⟨q.id, start, stop, items⟩)).depth == 0 := outermost
    simp only [ends_bind, ends_get, ends_modify, ends_pure, Except.ok.injEq, reduceCtorEq,
      false_and, exists_false, false_or, outermost, if_true, and_assoc, exists_and_left,
      exists_eq_left, true_and, exists_const]
    constructor
    · rintro (⟨e, failed, rfl⟩ | ⟨reach, ev₀, passed, rfl, rfl⟩)
      · exact ⟨_, _, failed, rfl, rfl⟩
      · exact ⟨_, _, passed, rfl, (if_pos reported).symm⟩
    · rintro ⟨r₀, ev₀, ended, rfl, rfl⟩
      cases r₀ with
      | error e => exact .inl ⟨e, ended, rfl⟩
      | ok reach => exact .inr ⟨reach, ev₀, ended, rfl, if_pos reported⟩
  | false =>
    simp only [ends_bind, ends_get, ends_pure, Except.ok.injEq, reduceCtorEq, false_and,
      exists_false, false_or, outermost, Bool.false_eq_true, if_false, and_assoc, exists_and_left,
      exists_eq_left]
    constructor
    · rintro (⟨e, failed, rfl⟩ | ⟨reach, ev₀, passed, rfl, rfl⟩)
      · exact ⟨_, _, failed, rfl, rfl⟩
      · exact ⟨_, _, passed, rfl, by simp [conclude, outermost]⟩
    · rintro ⟨r₀, ev₀, ended, rfl, rfl⟩
      cases r₀ with
      | error e => exact .inl ⟨e, ended, rfl⟩
      | ok reach => exact .inr ⟨reach, ev₀, ended, rfl, by simp [conclude, outermost]⟩

/-- The outcome and the state when the expansion of a frame is over, whose visit has an index and
whose component starts at a mark. -/
def settle (f : Frame) (index mark : Nat) :
    Except Error Reach → Evaluator → Except Error Reach × Evaluator
  | .error e, ev => (.error e, abandon mark ev)
  | .ok reach, ev =>
    if reach.low?.any (· < index) then (.ok reach, suspend f ⟨index, reach.items⟩ ev)
    else (.ok ⟨(close mark reach.items ev).1, none⟩, (close mark reach.items ev).2)

/-- When an expansion has passed, its frame is left pending if a frame below it was come upon, and if not,
its component is closed. -/
theorem settle_ok_cases (f : Frame) (index mark : Nat) (reach : Reach) (ev : Evaluator) :
    (∃ l, reach.low? = some l ∧ l < index ∧
      settle f index mark (.ok reach) ev = (.ok reach, suspend f ⟨index, reach.items⟩ ev)) ∨
    (∀ l, reach.low? = some l → index ≤ l) ∧ settle f index mark (.ok reach) ev =
      (.ok ⟨(close mark reach.items ev).1, none⟩, (close mark reach.items ev).2) := by
  cases below : reach.low?.any (· < index) with
  | true =>
    obtain ⟨l, low, lower⟩ := (Option.any_eq_true _ _).mp below
    exact .inl ⟨l, low, of_decide_eq_true lower, if_pos below⟩
  | false =>
    refine .inr ⟨fun l low => ?_, if_neg (Bool.not_eq_true _ ▸ below)⟩
    rw [low] at below
    exact Nat.le_of_not_lt (of_decide_eq_false below)

theorem consult_none {f : Frame} {ev : Evaluator} (unknown : (consult f ev).1 = none) :
    (consult f ev).2 = ev := by
  unfold consult at unknown ⊢
  split <;> try simp_all
  split <;> try simp_all
  split <;> simp_all

private theorem settle_ends {f : Frame} {index mark : Nat} {outcome r : Except Error Reach}
    {ev ev' : Evaluator} :
    (match outcome with
      | .error e => do
        modify (abandon mark)
        throw e
      | .ok reach =>
        if reach.low?.any (· < index) then do
          modify (suspend f ⟨index, reach.items⟩)
          return reach
        else
          return ⟨← modifyGet (close mark reach.items), none⟩ : EvalM Reach).Ends ev r ev' ↔
      (r, ev') = settle f index mark outcome ev := by
  cases outcome with
  | error e => simp [settle, ends_bind]
  | ok reach =>
    simp only [settle]
    split
    · rw [ends_bind]
      simp
    · rw [ends_bind]
      simp only [ends_modifyGet, ends_pure, reduceCtorEq, false_and, exists_false, false_or,
        Except.ok.injEq, Prod.mk.injEq]
      constructor
      · rintro ⟨_, _, ⟨rfl, rfl⟩, same⟩
        exact same
      · exact fun same => ⟨_, _, ⟨rfl, rfl⟩, same⟩

/-- The ways in which a visit to a frame ends. -/
inductive Visited (q : Query) (start stop : Node) (items : ItemSet) (ev : Evaluator) :
    Except Error Reach → Evaluator → Prop where
  | empty (empty : items.isEmpty = true) :
    Visited q start stop items ev (.ok ⟨.empty stop.inputType, none⟩) ev
  | known {reach : Reach} (filled : items.isEmpty = false)
    (known : (consult ⟨q.id, start, stop, items⟩ ev).1 = some reach) :
    Visited q start stop items ev (.ok reach) (consult ⟨q.id, start, stop, items⟩ ev).2
  | limited {limit : Nat} (filled : items.isEmpty = false)
    (unknown : (consult ⟨q.id, start, stop, items⟩ ev).1 = none)
    (limited : ev.limitReached? = some limit) :
    Visited q start stop items ev (.error (.depthExceeded limit)) ev
  | expanded {r₀ r : Except Error Reach} {ev₀ ev' : Evaluator} (filled : items.isEmpty = false)
    (unknown : (consult ⟨q.id, start, stop, items⟩ ev).1 = none)
    (unlimited : ev.limitReached? = none)
    (expanded : (expandBy walk q start stop items).Ends (enter ⟨q.id, start, stop, items⟩ ev) r₀ ev₀)
    (settled : (r, ev') = settle ⟨q.id, start, stop, items⟩ ev.nextIndex ev.component.size r₀
      (exit ⟨q.id, start, stop, items⟩ ev₀)) :
    Visited q start stop items ev r ev'

theorem visitBy_ends {q : Query} {start stop : Node} {items : ItemSet} {ev ev' : Evaluator}
    {r : Except Error Reach} :
    (visitBy walk q start stop items).Ends ev r ev' ↔
      Visited walk q start stop items ev r ev' := by
  unfold visitBy
  cases empty : items.isEmpty with
  | true =>
    simp only [if_true, ends_pure]
    constructor
    · rintro ⟨rfl, rfl⟩
      exact .empty empty
    · intro visited
      cases visited with
      | empty => exact ⟨rfl, rfl⟩
      | known filled | limited filled | expanded filled => simp [filled] at empty
  | false =>
    simp only [Bool.false_eq_true, if_false, ends_bind, ends_modifyGet, Except.ok.injEq,
      reduceCtorEq, false_and, exists_false, false_or, exists_and_left, exists_eq_left, and_assoc]
    cases unknown : (consult ⟨q.id, start, stop, items⟩ ev).1 with
    | some known =>
      simp only [ends_pure]
      constructor
      · rintro ⟨rfl, rfl⟩
        exact .known empty unknown
      · intro visited
        cases visited with
        | empty filled => simp [filled] at empty
        | known _ found =>
          obtain rfl := Option.some.inj (unknown.symm.trans found)
          exact ⟨rfl, rfl⟩
        | limited _ found | expanded _ found => simp [found] at unknown
    | none =>
      simp only [consult_none unknown, ends_bind, ends_get, Except.ok.injEq, reduceCtorEq,
        false_and, exists_false, false_or, exists_and_left, exists_eq_left, and_assoc]
      cases bound : ev.limitReached? with
      | some limit =>
        simp only [throw_bind, ends_throw]
        constructor
        · rintro ⟨rfl, rfl⟩
          exact .limited empty unknown bound
        · intro visited
          cases visited with
          | empty filled => simp [filled] at empty
          | known _ found => simp [found] at unknown
          | limited _ _ same =>
            obtain rfl := Option.some.inj (bound.symm.trans same)
            exact ⟨rfl, rfl⟩
          | expanded _ _ free => simp [free] at bound
      | none =>
        simp only [ends_bind, ends_get, ends_modify, ends_observe, Except.ok.injEq, reduceCtorEq,
          false_and, exists_false, false_or, exists_and_left, exists_eq_left, and_assoc]
        constructor
        · rintro ⟨-, -, ⟨⟨_, -, contra⟩, -⟩ | ⟨r₀, ev₀, ⟨_, ended, rfl⟩, -, -, rest⟩⟩
          · exact contra.elim
          · exact .expanded empty unknown bound ended (settle_ends.mp rest)
        · intro visited
          cases visited with
          | empty filled => simp [filled] at empty
          | known _ found => simp [found] at unknown
          | limited _ _ found => simp [found] at bound
          | expanded _ _ _ ended settled =>
            exact ⟨trivial, ⟨⟩, .inr ⟨_, _, ⟨_, ended, rfl⟩, trivial, ⟨⟩, settle_ends.mpr settled⟩⟩

section

variable {q : Query} {f : Frame} (query : f.query = q.id) (filled : f.items.isEmpty = false)

include query filled

theorem visitBy_known {ev : Evaluator} {reach : Reach} (known : (consult f ev).1 = some reach) :
    (visitBy walk q f.start f.stop f.items).Ends ev (.ok reach) (consult f ev).2 := by
  have frame : (⟨q.id, f.start, f.stop, f.items⟩ : Frame) = f := by rw [← query]
  have visited : Visited walk q f.start f.stop f.items ev (.ok reach)
      (consult ⟨q.id, f.start, f.stop, f.items⟩ ev).2 := .known filled (by rwa [frame])
  rw [frame] at visited
  exact (visitBy_ends walk).mpr visited

/-- A visit to a frame of which nothing is known expands it. -/
theorem visitBy_unknown {ev ev' : Evaluator} {r : Except Error Reach}
    (unknown : (consult f ev).1 = none) (unlimited : ev.limitReached? = none) :
    (visitBy walk q f.start f.stop f.items).Ends ev r ev' ↔ ∃ r₀ ev₀,
      (expandBy walk q f.start f.stop f.items).Ends (enter f ev) r₀ ev₀ ∧
        (r, ev') = settle f ev.nextIndex ev.component.size r₀ (exit f ev₀) := by
  have frame : (⟨q.id, f.start, f.stop, f.items⟩ : Frame) = f := by rw [← query]
  rw [visitBy_ends]
  constructor
  · intro visited
    cases visited with
    | empty empty => simp [filled] at empty
    | known _ known => simp [frame, unknown] at known
    | limited _ _ limited => simp [unlimited] at limited
    | expanded _ _ _ expanded settled =>
      rw [frame] at expanded settled
      exact ⟨_, _, expanded, settled⟩
  · rintro ⟨r₀, ev₀, expanded, settled⟩
    rw [← frame] at unknown settled
    exact .expanded filled unknown unlimited (by rwa [frame]) settled

end

/-- What a step adds to what was found: nothing if the operation led nowhere. -/
theorem stepBy_ends {q : Query} {stop : Node} {items : ItemSet} {found : Reach} {a : Arc}
    {op : Operation} {ev ev' : Evaluator} {r : Except Error Reach} :
    (stepBy walk q stop items found a op).Ends ev r ev' ↔
      (∃ e, (op.apply (nestedBy walk) items).Ends ev (.error e) ev' ∧
        r = .error (e.through (.applying op.text a))) ∨
      ∃ reached ev₁, (op.apply (nestedBy walk) items).Ends ev (.ok reached) ev₁ ∧
        if reached.isEmpty then r = .ok found ∧ ev' = ev₁
        else ∃ r₀, (walk q a.target stop reached).Ends ev₁ r₀ ev' ∧
          r = (r₀.mapError fun e => e.through (.walking a)).map fun reach =>
            ⟨found.items.union reach.items, lower found.low? reach.low?⟩ := by
  unfold stepBy
  rw [ends_bind]
  refine or_congr ?_ ?_
  · constructor
    · rintro ⟨e, noted, rfl⟩
      obtain ⟨r₀, ended, same⟩ := ends_within.mp noted
      cases r₀ with
      | error d =>
        obtain rfl := Except.error.inj same
        exact ⟨d, ended, rfl⟩
      | ok => cases same
    · rintro ⟨e, ended, rfl⟩
      exact ⟨_, ends_within.mpr ⟨_, ended, rfl⟩, rfl⟩
  · refine exists_congr fun reached => exists_congr fun ev₁ => and_congr ?_ ?_
    · rw [ends_within]
      constructor
      · rintro ⟨r₀, noted, same⟩
        cases r₀ with
        | error => cases same
        | ok =>
          obtain rfl := Except.ok.inj same
          exact noted
      · exact fun ended => ⟨_, ended, rfl⟩
    · cases reached.isEmpty with
      | true => simp
      | false =>
        simp only [Bool.false_eq_true, if_false]
        rw [ends_bind]
        constructor
        · rintro (⟨e, noted, rfl⟩ | ⟨reach, ev₂, noted, rest⟩)
          · obtain ⟨r₀, ended, same⟩ := ends_within.mp noted
            exact ⟨r₀, ended, by rw [← same]; rfl⟩
          · obtain ⟨r₀, ended, same⟩ := ends_within.mp noted
            obtain ⟨rfl, rfl⟩ := ends_pure.mp rest
            exact ⟨r₀, ended, by rw [← same]; rfl⟩
        · rintro ⟨r₀, ended, rfl⟩
          have noted : (within (fun _ => .walking a) (walk q a.target stop reached)).Ends ev₁
              (r₀.mapError fun e => e.through (.walking a)) ev' :=
            ends_within.mpr ⟨r₀, ended, rfl⟩
          cases r₀ with
          | error e => exact .inl ⟨_, noted, rfl⟩
          | ok reach => exact .inr ⟨_, _, noted, ends_pure.mpr ⟨rfl, rfl⟩⟩

/-- Expanding a frame takes the steps that leave its start, one after another. -/
theorem expandBy_ends {q : Query} {start stop : Node} {items : ItemSet} {ev ev' : Evaluator}
    {r : Except Error Reach} :
    (expandBy walk q start stop items).Ends ev r ev' ↔
      ∃ r₀, ((q.steps start).foldlM (fun found (a, op) => stepBy walk q stop items found a op)
          ⟨if start = stop then items else .empty stop.inputType, none⟩).Ends ev r₀ ev' ∧
        r = r₀.map fun reach => { reach with items := reach.items.withType stop.inputType } := by
  unfold expandBy
  rw [ends_bind]
  constructor
  · rintro (⟨e, ended, rfl⟩ | ⟨reach, ev₁, ended, rest⟩)
    · exact ⟨_, ended, rfl⟩
    · obtain ⟨rfl, rfl⟩ := ends_pure.mp rest
      exact ⟨_, ended, rfl⟩
  · rintro ⟨r₀, ended, rfl⟩
    cases r₀ with
    | error e => exact .inl ⟨e, ended, rfl⟩
    | ok reach => exact .inr ⟨reach, ev', ended, ends_pure.mpr ⟨rfl, rfl⟩⟩

/-- Selections at all result nodes keep what each of them keeps. They come to the union of what each of
them finds, or one of them fails. -/
theorem selectResultsBy_cases {q : Query} {start : Node} {items : ItemSet} {ev ev' : Evaluator}
    {r : Except Error ItemSet} {I : Evaluator → Prop} {S : Node → ItemSet → Prop}
    (selects : ∀ stop ∈ q.resultNodes, ∀ ev r ev', I ev →
      (selectBy walk q start stop items).Ends ev r ev' → I ev' ∧ ∀ found, r = .ok found → S stop found)
    (before : I ev) (ends : (selectResultsBy walk q start items).Ends ev r ev') :
    I ev' ∧ ((∃ founds, r = .ok (ItemSet.unite founds) ∧ List.Forall₂ S q.resultNodes founds) ∨
      ∃ e, r = .error e ∧ ∃ stop ∈ q.resultNodes, ∃ ev₁, I ev₁ ∧
        (selectBy walk q start stop items).Ends ev₁ (.error e) ev') := by
  have further {stops : List Node} (listed : ∀ stop ∈ stops, stop ∈ q.resultNodes) {first : ItemSet}
      {ev : Evaluator} (before : I ev) (ends : (stops.foldlM (fun (found : ItemSet) stop =>
        return found.union (← selectBy walk q start stop items)) first).Ends ev r ev') :
      I ev' ∧ ((∃ founds, r = .ok (founds.foldl .union first) ∧ List.Forall₂ S stops founds) ∨
        ∃ e, r = .error e ∧ ∃ stop ∈ q.resultNodes, ∃ ev₁, I ev₁ ∧
          (selectBy walk q start stop items).Ends ev₁ (.error e) ev') := by
    induction stops generalizing first ev with
    | nil =>
      obtain ⟨rfl, rfl⟩ := ends_pure.mp ends
      exact ⟨before, .inl ⟨[], rfl, .nil⟩⟩
    | cons stop stops ih =>
      obtain ⟨here, later⟩ := List.forall_mem_cons.mp listed
      simp only [List.foldlM_cons, bind_assoc, pure_bind] at ends
      obtain ⟨e, failed, rfl⟩ | ⟨next, ev₁, passed, rest⟩ := ends_bind.mp ends
      · exact ⟨(selects stop here _ _ _ before failed).1, .inr ⟨e, rfl, stop, here, ev, before, failed⟩⟩
      · obtain ⟨between, found⟩ := selects stop here _ _ _ before passed
        obtain ⟨after, ⟨founds, rfl, all⟩ | failed⟩ := ih later between rest
        · exact ⟨after, .inl ⟨next :: founds, rfl, .cons (found next rfl) all⟩⟩
        · exact ⟨after, .inr failed⟩
  unfold selectResultsBy at ends
  cases nodes : q.resultNodes with
  | nil =>
    rw [nodes] at ends
    obtain ⟨rfl, rfl⟩ := ends_pure.mp ends
    exact ⟨before, .inl ⟨[], rfl, .nil⟩⟩
  | cons stop stops =>
    rw [nodes] at ends selects further
    have here : stop ∈ stop :: stops := List.mem_cons_self
    obtain ⟨e, failed, rfl⟩ | ⟨first, ev₁, passed, rest⟩ := ends_bind.mp ends
    · exact ⟨(selects stop here _ _ _ before failed).1,
        .inr ⟨e, rfl, stop, here, ev, before, failed⟩⟩
    · obtain ⟨between, found⟩ := selects stop here _ _ _ before passed
      obtain ⟨after, ⟨founds, rfl, all⟩ | failed⟩ :=
        further (fun _ => List.mem_cons_of_mem stop) between rest
      · exact ⟨after, .inl ⟨first :: founds, rfl, .cons (found first rfl) all⟩⟩
      · exact ⟨after, .inr failed⟩

end

/-! More fuel -/

section

variable {walk walk' : Query → Node → Node → ItemSet → EvalM Reach}

theorem selectBy_refinesFrom {q : Query} {start stop : Node} {items : ItemSet} {ev : Evaluator}
    (walks : (walk q start stop items).RefinesFrom (announce q start stop items ev)
      (walk' q start stop items)) :
    (selectBy walk q start stop items).RefinesFrom ev (selectBy walk' q start stop items) := by
  intro r ev' ends
  obtain ⟨r₀, ev₀, ended, rest⟩ := (selectBy_ends walk).mp ends
  exact (selectBy_ends walk').mpr ⟨r₀, ev₀, walks ended, rest⟩

variable
  (better : ∀ q start stop items, (walk q start stop items).Refines (walk' q start stop items))

include better

theorem selectBy_refines (q : Query) (start stop : Node) (items : ItemSet) :
    (selectBy walk q start stop items).Refines (selectBy walk' q start stop items) :=
  fun _ _ _ ends => selectBy_refinesFrom ((better q start stop items).refinesFrom _) ends

theorem selectResultsBy_refines (q : Query) (start : Node) (items : ItemSet) :
    (selectResultsBy walk q start items).Refines (selectResultsBy walk' q start items) := by
  unfold selectResultsBy
  split
  · exact .refl _
  · refine (selectBy_refines better _ _ _ _).bind fun first => .foldlM (fun found stop => ?_) _ _
    exact (selectBy_refines better _ _ _ _).bind fun _ => .refl _

theorem nestedBy_refines (s : Selection) (x : Item) :
    (nestedBy walk s x).Refines (nestedBy walk' s x) := by
  unfold nestedBy
  refine .noting ?_
  split
  · exact selectBy_refines better _ _ _ _
  · exact selectResultsBy_refines better _ _ _

omit better in
theorem run_refines {select select' : Selection → Item → EvalM ItemSet}
    (better : ∀ s x, (select s x).Refines (select' s x)) {α : Type} (p : Inquiry α) :
    (p.run select).Refines (p.run select') := by
  induction p with
  | done => exact .refl _
  | ask s x next ih => exact (better s x).bind ih

theorem apply_refines (op : Operation) (items : ItemSet) :
    (op.apply (nestedBy walk) items).Refines (op.apply (nestedBy walk') items) := by
  rw [op.apply_eq_run, op.apply_eq_run]
  exact run_refines (nestedBy_refines better) _

theorem stepBy_refines (q : Query) (stop : Node) (items : ItemSet) (found : Reach) (a : Arc)
    (op : Operation) :
    (stepBy walk q stop items found a op).Refines (stepBy walk' q stop items found a op) := by
  unfold stepBy
  refine (Refines.noting (apply_refines better op items)).bind fun reached => ?_
  split
  · exact .refl _
  · exact (Refines.noting (better _ _ _ _)).bind fun _ => .refl _

theorem visitBy_refines (q : Query) (start stop : Node) (items : ItemSet) :
    (visitBy walk q start stop items).Refines (visitBy walk' q start stop items) := by
  intro ev r ev' ends
  refine (visitBy_ends walk').mpr ?_
  cases (visitBy_ends walk).mp ends with
  | empty empty => exact .empty empty
  | known filled known => exact .known filled known
  | limited filled unknown limited => exact .limited filled unknown limited
  | expanded filled unknown unlimited expanded settled =>
    obtain ⟨r₁, taken, typed⟩ := (expandBy_ends walk).mp expanded
    have taken' := Refines.foldlM (fun found (step : Arc × Operation) =>
      stepBy_refines better q stop items found step.1 step.2) _ _ taken
    exact .expanded filled unknown unlimited ((expandBy_ends walk').mpr ⟨r₁, taken', typed⟩) settled

end

/-- With more fuel a visit ends as it did, if it did. -/
theorem visit_refines {m n : Nat} (le : m ≤ n) (q : Query) (start stop : Node) (items : ItemSet) :
    (visit m q start stop items).Refines (visit n q start stop items) := by
  induction n generalizing m q start stop items with
  | zero =>
    obtain rfl : m = 0 := by omega
    exact .refl _
  | succ n ih =>
    cases m with
    | zero => exact fun ev r ev' ends => (not_ends_exhausted ends).elim
    | succ m => exact visitBy_refines (ih (Nat.le_of_succ_le_succ le)) q start stop items

/-- The steps fail if the first of them does. -/
theorem steps_failed {walk : Query → Node → Node → ItemSet → EvalM Reach} {q : Query} {stop : Node}
    {items : ItemSet} {a : Arc} {op : Operation} {steps : List (Arc × Operation)} {reach : Reach}
    {ev ev' : Evaluator} {e : Error}
    (failed : (stepBy walk q stop items reach a op).Ends ev (.error e) ev') :
    (((a, op) :: steps).foldlM (fun found (a, op) => stepBy walk q stop items found a op)
      reach).Ends ev (.error e) ev' := by
  rw [List.foldlM_cons]
  exact ends_bind.mpr (.inl ⟨e, failed, rfl⟩)

/-- With enough fuel for a first step and for the rest, all steps are taken. -/
theorem visit_steps_cons {m n : Nat} {q : Query} {stop : Node} {items : ItemSet} {a : Arc}
    {op : Operation} {steps : List (Arc × Operation)} {reach next : Reach} {ev ev₁ ev' : Evaluator}
    {r : Except Error Reach}
    (first : (stepBy (visit m) q stop items reach a op).Ends ev (.ok next) ev₁)
    (rest : (steps.foldlM (fun found (a, op) => stepBy (visit n) q stop items found a op) next).Ends
      ev₁ r ev') :
    (((a, op) :: steps).foldlM (fun found (a, op) =>
      stepBy (visit (max m n)) q stop items found a op) reach).Ends ev r ev' := by
  rw [List.foldlM_cons]
  refine ends_bind.mpr (.inr ⟨next, ev₁, ?_, ?_⟩)
  · exact stepBy_refines (visit_refines (Nat.le_max_left m n)) q stop items reach a op first
  · exact Refines.foldlM (fun found (step : Arc × Operation) =>
      stepBy_refines (visit_refines (Nat.le_max_right m n)) q stop items found step.1 step.2) _ _ rest

end Evaluator

end GraphQuery
