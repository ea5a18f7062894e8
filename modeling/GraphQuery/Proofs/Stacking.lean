import GraphQuery.Proofs.Coherence
/-!
# The stack of open frames

Whatever operations do and however a walk ends, it keeps to its own part of the component stack. A
walk that comes to items leaves only frames of its own query and end open, above those that were open
before, and each of them waits for a frame of that query that was open before. A walk that fails
leaves none. So a walk in a query without open frames leaves the stack as it was, and this is how
selections and operations leave it.
-/

namespace GraphQuery

namespace Evaluator

open EvalM

/-- What a walk from a frame piles on the stack: new open frames with the query and end of the frame,
which were visited since and wait for frames of the query that were open before. -/
structure Piles (ev : Evaluator) (f : Frame) (low? : Option Nat) (ev' : Evaluator)
    (new : List Frame) : Prop where
  orderly : Orderly ev'
  ext : ev.Extends ev' new
  members : ∀ g ∈ new, g.query = f.query ∧ g.stop = f.stop
  recent : ∀ g ∈ new, ∀ i, ev'.OpenAt g.spot i → ev.nextIndex ≤ i
  hits : ∀ l, low? = some l → ∃ k, k.query = f.query ∧ ev'.OpenAt k l
  anchored : ∀ g ∈ new, ∃ k i, k.query = f.query ∧ ev.OpenAt k i ∧ Below low? i

variable {q : Query} {ev ev₁ ev₂ ev' : Evaluator} {f g : Frame} {low? low'? : Option Nat}
  {new new' : List Frame}

namespace Piles

/-- Nothing is left open by what does not come upon open frames. -/
theorem of_extends (orderly : Orderly ev') (ext : ev.Extends ev' [])
    (hits : ∀ l, low? = some l → ∃ k, k.query = f.query ∧ ev'.OpenAt k l) :
    Piles ev f low? ev' [] :=
  ⟨orderly, ext, nofun, nofun, hits, nofun⟩

theorem of_uncut (orderly : Orderly ev') (ext : ev.Extends ev' []) : Piles ev f none ev' [] := by
  refine .of_extends orderly ext ?_
  intro l low
  cases low

/-- What was left after a first part of an expansion and what was left after the next. -/
theorem join (first : Piles ev f low? ev₁ new) (second : Piles ev₁ g low'? ev₂ new')
    (query : g.query = f.query) (stop : g.stop = f.stop) :
    Piles ev f (lower low? low'?) ev₂ (new ++ new') where
  orderly := second.orderly
  ext := first.ext.trans second.ext
  members h member := by
    rcases List.mem_append.mp member with old | recent
    · exact first.members h old
    · exact query ▸ stop ▸ second.members h recent
  recent h member i opened := by
    rcases List.mem_append.mp member with old | recent
    · have among : h.spot ∈ ev₁.openSpots := by
        rw [first.ext.openSpots]
        exact List.mem_append_right _ (List.mem_map_of_mem old)
      obtain ⟨j, before⟩ := (first.orderly.opened h.spot).mp among
      refine first.recent h old i ((second.ext.openAt_iff fun recent => ?_).mp opened)
      obtain ⟨h', recent, same⟩ := List.mem_map.mp recent
      exact second.ext.unopened h' recent j (same ▸ before)
    · exact first.ext.nextIndex.trans (second.recent h recent i opened)
  hits l low := by
    rcases lower_eq_some low with low | low
    · obtain ⟨k, same, opened⟩ := first.hits l low
      exact ⟨k, same, second.ext.openAt opened⟩
    · obtain ⟨k, same, opened⟩ := second.hits l low
      exact ⟨k, same.trans query, opened⟩
  anchored h member := by
    have onLeft {h : Frame} (old : h ∈ new) : ∃ k i, k.query = f.query ∧ ev.OpenAt k i ∧
        Below (lower low? low'?) i := by
      obtain ⟨k, i, same, opened, below⟩ := first.anchored h old
      exact ⟨k, i, same, opened, below_lower.mpr (.inl below)⟩
    rcases List.mem_append.mp member with old | recent
    · exact onLeft old
    · obtain ⟨k, i, same, opened, below⟩ := second.anchored h recent
      by_cases old : k ∈ new.map Frame.spot
      · obtain ⟨h', old, -⟩ := List.mem_map.mp old
        exact onLeft old
      · exact ⟨k, i, same.trans query, (first.ext.openAt_iff old).mp opened,
          below_lower.mpr (.inr below)⟩

/-- What was left is still left after what leaves no frame open. -/
theorem quiet (first : Piles ev f low? ev₁ new) (orderly : Orderly ev₂) (ext : ev₁.Extends ev₂ []) :
    Piles ev f low? ev₂ new where
  orderly := orderly
  ext := by
    have joined := first.ext.trans ext
    rwa [List.append_nil] at joined
  members := first.members
  recent g member i opened := first.recent g member i ((ext.openAt_iff List.not_mem_nil).mp opened)
  hits l low := by
    obtain ⟨k, same, opened⟩ := first.hits l low
    exact ⟨k, same, ext.openAt opened⟩
  anchored := first.anchored

/-- If no frame of the query was open before, none was come upon. -/
theorem low_eq_none (piles : Piles ev f low? ev' new)
    (clear : ∀ k i, k.query = f.query → ¬ ev.OpenAt k i) : new = [] ∧ low? = none := by
  have unopened : new = [] := by
    refine List.eq_nil_iff_forall_not_mem.mpr fun g member => ?_
    obtain ⟨k, i, same, opened, -⟩ := piles.anchored g member
    exact clear k i same opened
  refine ⟨unopened, Option.eq_none_iff_forall_ne_some.mpr fun l low => ?_⟩
  obtain ⟨k, same, opened⟩ := piles.hits l low
  exact clear k l same ((piles.ext.openAt_iff (by simp [unopened])).mp opened)

/-- Queries nested in that of the frame have no more open frames than before. -/
theorem clear {known : Set Query} (piles : Piles ev f low? ev' new) (shelf : Shelf known)
    (member : q ∈ known) (query : f.query = q.id) (clear : ∀ r, q.Nests r → Clear r ev) :
    ∀ r, q.Nests r → Clear r ev' :=
  fun r nests => (clear r nests).grow shelf member nests piles.ext fun g inNew =>
    (piles.members g inNew).1.trans query

/-- A frame that came upon one below it on the stack is left pending with those above it. -/
theorem suspend (unopened : ∀ i, ¬ ev.OpenAt f.spot i) (piles : Piles (enter f ev) f low? ev₂ new)
    {l : Nat} (low : low? = some l) (lower : l < ev.nextIndex) (found : ItemSet) :
    Piles ev f low? (suspend f ⟨ev.nextIndex, found⟩ (exit f ev₂)) (f :: new) := by
  have ext := piles.ext
  have fresh {i : Nat} (opened : ev₂.OpenAt f.spot i) : i = ev.nextIndex := by
    have entered := (ext.openAt_iff (spot_not_mem_new unopened ext)).mp opened
    rcases (openAt_enter unopened).mp entered with old | ⟨-, same⟩
    · exact (unopened i old).elim
    · exact same
  -- The least index is that of a frame below this one.
  have anchor : ∃ k, k.query = f.query ∧ ev.OpenAt k l := by
    obtain ⟨k, same, opened⟩ := piles.hits l low
    refine ⟨k, same, ?_⟩
    have old : k ∉ new.map Frame.spot := by
      intro recent
      obtain ⟨g, inNew, rfl⟩ := List.mem_map.mp recent
      exact absurd ((Nat.le_succ _).trans (piles.recent g inNew l opened)) lower.not_ge
    rcases (openAt_enter unopened).mp ((ext.openAt_iff old).mp opened) with opened | ⟨-, contra⟩
    · exact opened
    · exact absurd contra lower.ne
  refine {
    orderly := .suspend unopened ext piles.orderly found
    ext := suspend_extends unopened ext _
    members := List.forall_mem_cons.mpr ⟨⟨rfl, rfl⟩, piles.members⟩
    recent := List.forall_mem_cons.mpr ⟨fun i opened => ?_, fun g member i opened => ?_⟩
    hits := fun l low => ?_
    anchored := fun g _ => ?_ }
  · exact (fresh ((openAt_suspend unopened ext _).mp opened)).ge
  · have after := (openAt_suspend unopened ext _).mp opened
    exact (Nat.le_succ _).trans (piles.recent g member i after)
  · obtain ⟨k, same, opened⟩ := piles.hits l low
    exact ⟨k, same, (openAt_suspend unopened ext _).mpr opened⟩
  · obtain ⟨k, same, opened⟩ := anchor
    exact ⟨k, l, same, opened, l, low, Nat.le_refl l⟩

/-- What is known of a frame is found without opening any. -/
theorem of_consult (orderly : Orderly ev) {reach : Reach}
    (known : (consult f ev).1 = some reach) : Piles ev f reach.low? (consult f ev).2 [] := by
  have quiet := sameBut_consult f ev
  refine .of_extends (orderly.of_sameBut quiet) quiet.extends fun l low => ?_
  obtain ⟨found, hit, rfl⟩ | ⟨i, hit, rfl⟩ | ⟨p, hit, rfl⟩ := consult_eq_some known
  · cases low
  · cases low
    exact ⟨f.spot, rfl, quiet.extends.openAt (.of_inProgress hit)⟩
  · cases low
    exact ⟨f.spot, rfl, quiet.extends.openAt (.of_pending hit)⟩

end Piles

/-- An inquiry keeps whatever its selections keep. -/
theorem run_keeps {α : Type} {select : Selection → Item → EvalM ItemSet} {P : Selection → Prop}
    {I : Evaluator → Prop} (answers : ∀ s, P s → ∀ x ev r ev', I ev →
      (select s x).Ends ev r ev' → I ev')
    {p : Inquiry α} (asks : p.AsksOnly P) {r : Except Error α} (before : I ev)
    (ends : (p.run select).Ends ev r ev') : I ev' := by
  induction p generalizing ev with
  | done outcome =>
    obtain ⟨-, rfl⟩ := ends_ofOutcome.mp ends
    exact before
  | ask s x next ih =>
    obtain ⟨e, failed, -⟩ | ⟨found, ev₁, passed, rest⟩ := ends_bind.mp ends
    · exact answers s asks.1 x _ _ _ before failed
    · exact ih found (asks.2 found) (answers s asks.1 x _ _ _ before passed) rest

/-- The stack is as it was before. -/
structure Returns (ev ev' : Evaluator) : Prop where
  orderly : Orderly ev'
  ext : ev.Extends ev' []

theorem Returns.refl (orderly : Orderly ev) : Returns ev ev :=
  ⟨orderly, .refl ev⟩

theorem Returns.trans (first : Returns ev ev₁) (second : Returns ev₁ ev₂) : Returns ev ev₂ :=
  ⟨second.orderly, first.ext.trans second.ext⟩

theorem SameBut.returns (same : ev.SameBut ev') (orderly : Orderly ev) : Returns ev ev' :=
  ⟨orderly.of_sameBut same, same.extends⟩

/-- The ways in which a walk from a frame may leave the stack. -/
inductive Unwinds (ev : Evaluator) (f : Frame) : Except Error Reach → Evaluator → Prop where
  | ok {reach : Reach} {ev' : Evaluator} {new : List Frame}
    (piles : Piles ev f reach.low? ev' new) : Unwinds ev f (.ok reach) ev'
  | error {e : Error} {ev' : Evaluator} (returns : Returns ev ev') : Unwinds ev f (.error e) ev'

/-- A walk from a state without open frames of its query returns, without having come upon an open
frame. -/
theorem Unwinds.returns {r : Except Error Reach} (unwinds : Unwinds ev f r ev') (orderly : Orderly ev)
    (query : f.query = q.id) (clear : Clear q ev) :
    Returns ev ev' ∧ ∀ reach, r = .ok reach → reach.low? = none := by
  cases unwinds with
  | error returns => exact ⟨returns, nofun⟩
  | ok piles =>
    obtain ⟨rfl, low⟩ := piles.low_eq_none fun k i same opened =>
      clear q .refl k ((orderly.opened k).mpr ⟨i, opened⟩) (same.trans query)
    refine ⟨⟨piles.orderly, piles.ext⟩, ?_⟩
    rintro _ ⟨⟩
    exact low

/-- Walks from orderly states without open frames of nested queries keep to their part of the stack. -/
def Disciplined (known : Set Query) (walk : Query → Node → Node → ItemSet → EvalM Reach) : Prop :=
  ∀ q ∈ known, ∀ ⦃start stop items ev r ev'⦄, Orderly ev → (∀ r, q.Nests r → Clear r ev) →
    (walk q start stop items).Ends ev r ev' → Unwinds ev ⟨q.id, start, stop, items⟩ r ev'

section

variable {known : Set Query} {walk : Query → Node → Node → ItemSet → EvalM Reach}
  (walks : Disciplined known walk)

include walks

theorem selectBy_returns (member : q ∈ known) {start stop : Node} {items : ItemSet}
    {r : Except Error ItemSet} (orderly : Orderly ev) (clear : Clear q ev)
    (ends : (selectBy walk q start stop items).Ends ev r ev') : Returns ev ev' := by
  obtain ⟨r₀, ev₀, walked, -, rfl⟩ := (selectBy_ends walk).mp ends
  have announced := (sameBut_announce q start stop items ev).returns orderly
  have clear₀ := clear.extends announced.ext
  have returns := (walks q member announced.orderly (fun s nests t within =>
    clear₀ t (within.head nests)) walked).returns announced.orderly rfl clear₀
  have concluded := sameBut_conclude q (announce q start stop items ev) r₀ ev₀
  exact (announced.trans returns.1).trans (concluded.returns returns.1.orderly)

theorem selectResultsBy_returns (member : q ∈ known) {start : Node} {items : ItemSet}
    {r : Except Error ItemSet} (orderly : Orderly ev) (clear : Clear q ev)
    (ends : (selectResultsBy walk q start items).Ends ev r ev') : Returns ev ev' := by
  refine (selectResultsBy_cases walk (I := Returns ev) (S := fun _ _ => True) ?_ (.refl orderly) ends).1
  intro stop _ ev₁ r ev₂ before ended
  have after := selectBy_returns walks member before.orderly (clear.extends before.ext) ended
  exact ⟨before.trans after, fun _ _ => trivial⟩

theorem nestedBy_returns {s : Selection} (member : s.query ∈ known) {x : Item}
    {r : Except Error ItemSet} (orderly : Orderly ev) (clear : Clear s.query ev)
    (ends : (nestedBy walk s x).Ends ev r ev') : Returns ev ev' := by
  unfold nestedBy at ends
  obtain ⟨r₀, ended, -⟩ := ends_within.mp ends
  cases stop? : s.stop? with
  | some stop =>
    rw [stop?] at ended
    exact selectBy_returns walks member orderly clear ended
  | none =>
    rw [stop?] at ended
    exact selectResultsBy_returns walks member orderly clear ended

end

section

variable {known : Set Query} (shelf : Shelf known)
  {walk : Query → Node → Node → ItemSet → EvalM Reach} (walks : Disciplined known walk)
  (member : q ∈ known)

include shelf walks member

theorem apply_returns {op : Operation} (listed : op ∈ q.operations) {items : ItemSet}
    {r : Except Error ItemSet} (orderly : Orderly ev) (clear : ∀ r, q.Nests r → Clear r ev)
    (ends : (op.apply (nestedBy walk) items).Ends ev r ev') : Returns ev ev' := by
  rw [op.apply_eq_run] at ends
  refine run_keeps (I := Returns ev) ?_ (op.inquiry_asksOnly items) (.refl orderly) ends
  intro s selects x ev₁ r ev₂ between ends
  have nests : q.Nests s.query := ⟨op, listed, s, selects, rfl⟩
  exact between.trans (nestedBy_returns walks (shelf.closed q member s.query nests) between.orderly
    ((clear s.query nests).extends between.ext) ends)

variable (query : f.query = q.id)

include query

/-- Each step of an expansion leaves no more than the expansion may. -/
theorem stepBy_piles {reach : Reach} {a : Arc} {op : Operation} (listed : (a, op) ∈ q.steps f.start)
    (clear : ∀ r, q.Nests r → Clear r ev) (piles : Piles ev f reach.low? ev₁ new)
    {r : Except Error Reach}
    (ends : (stepBy walk q f.stop f.items reach a op).Ends ev₁ r ev') :
    (∃ reach' new', r = .ok reach' ∧ Piles ev f reach'.low? ev' new') ∨
      ∃ e new', r = .error e ∧ Orderly ev' ∧ ev.Extends ev' new' := by
  have listed' := Query.mem_operations_of_mem_steps listed
  have clear₁ := piles.clear shelf member query clear
  obtain ⟨e, failed, rfl⟩ | ⟨reached, ev₂, passed, rest⟩ := (stepBy_ends walk).mp ends
  · have returns := apply_returns shelf walks member listed' piles.orderly clear₁ failed
    exact .inr ⟨_, _, rfl, returns.orderly, piles.ext.trans returns.ext⟩
  · have returns := apply_returns shelf walks member listed' piles.orderly clear₁ passed
    have between := piles.quiet returns.orderly returns.ext
    cases nowhere : reached.isEmpty with
    | true =>
      rw [nowhere, if_pos rfl] at rest
      obtain ⟨rfl, rfl⟩ := rest
      exact .inl ⟨reach, new, rfl, between⟩
    | false =>
      rw [nowhere, if_neg (by decide)] at rest
      obtain ⟨r₀, walked, rfl⟩ := rest
      have unwinds := walks q member returns.orderly
        (fun r nests => (clear₁ r nests).extends returns.ext) walked
      cases unwinds with
      | ok second => exact .inl ⟨_, _, rfl, between.join second query.symm rfl⟩
      | error returns' => exact .inr ⟨_, _, rfl, returns'.orderly, between.ext.trans returns'.ext⟩

/-- All steps that remain leave no more than the expansion may. -/
theorem foldlM_piles {steps : List (Arc × Operation)} (listed : ∀ step ∈ steps, step ∈ q.steps f.start)
    {reach : Reach} (clear : ∀ r, q.Nests r → Clear r ev) (piles : Piles ev f reach.low? ev₁ new)
    {r : Except Error Reach}
    (ends : (steps.foldlM (fun found (a, op) => stepBy walk q f.stop f.items found a op) reach).Ends
      ev₁ r ev') :
    (∃ reach' new', r = .ok reach' ∧ Piles ev f reach'.low? ev' new') ∨
      ∃ e new', r = .error e ∧ Orderly ev' ∧ ev.Extends ev' new' := by
  obtain ⟨reach', same, new', piles'⟩ | ⟨e, same, new', after⟩ :=
    ends_foldlM_cases (I := fun reach ev₁ => ∃ new, Piles ev f reach.low? ev₁ new)
      (F := fun _ ev' => ∃ new', Orderly ev' ∧ ev.Extends ev' new')
      (fun step remains reach ev₁ r ev' ⟨new, piles⟩ ends => by
        obtain ⟨reach', new', same, piles'⟩ | ⟨e, new', same, after⟩ :=
          stepBy_piles shelf walks member query (listed step remains) clear piles ends
        · exact .inl ⟨reach', same, new', piles'⟩
        · exact .inr ⟨e, same, new', after⟩) ⟨new, piles⟩ ends
  · exact .inl ⟨reach', new', same, piles'⟩
  · exact .inr ⟨e, new', same, after⟩

/-- Expanding a frame that is neither cached nor open piles frames on it, or fails. -/
theorem expandBy_piles (orderly : Orderly ev) (clear : ∀ r, q.Nests r → Clear r ev)
    (unknown : (consult f ev).1 = none) {r : Except Error Reach}
    (ends : (expandBy walk q f.start f.stop f.items).Ends (enter f ev) r ev') :
    (∃ reach new, r = .ok reach ∧ Piles (enter f ev) f reach.low? ev' new) ∨
      ∃ e new, r = .error e ∧ Orderly ev' ∧ (enter f ev).Extends ev' new := by
  obtain ⟨uncached, unopened⟩ := consult_eq_none.mp unknown
  have started : Piles (enter f ev) f none (enter f ev) [] :=
    .of_uncut (orderly.enter unopened uncached) (.refl _)
  have entered (r : Query) (nests : q.Nests r) := (clear r nests).enter shelf member nests query
  obtain ⟨r₀, taken, rfl⟩ := (expandBy_ends walk).mp ends
  obtain ⟨reach, new, rfl, piles⟩ | ⟨e, new, rfl, after, ext⟩ :=
    foldlM_piles shelf walks member query (fun _ => id) entered started taken
  · exact .inl ⟨_, new, rfl, piles⟩
  · exact .inr ⟨e, new, rfl, after, ext⟩

/-- One visit, given the walks that it sets off. -/
theorem visitBy_unwinds (orderly : Orderly ev) (clear : ∀ r, q.Nests r → Clear r ev)
    {r : Except Error Reach}
    (ends : (visitBy walk q f.start f.stop f.items).Ends ev r ev') : Unwinds ev f r ev' := by
  have frame : (⟨q.id, f.start, f.stop, f.items⟩ : Frame) = f := by rw [← query]
  cases (visitBy_ends walk).mp ends with
  | empty => exact .ok (.of_uncut orderly (.refl ev))
  | known _ known =>
    rw [frame] at known ⊢
    exact .ok (.of_consult orderly known)
  | limited => exact .error (.refl orderly)
  | @expanded _ _ ev₂ _ _ unknown _ expanded settled =>
    rw [frame] at unknown expanded settled
    obtain ⟨-, unopened⟩ := consult_eq_none.mp unknown
    obtain ⟨reach, new, rfl, piles⟩ | ⟨e, new, rfl, after, ext⟩ :=
      expandBy_piles shelf walks member query orderly clear unknown expanded
    · obtain ⟨l, low, lower, same⟩ | ⟨-, same⟩ := settle_ok_cases f ev.nextIndex ev.component.size reach
        (exit f ev₂)
      · obtain ⟨rfl, rfl⟩ := Prod.mk.inj (settled.trans same)
        exact .ok (piles.suspend unopened low lower _)
      · obtain ⟨rfl, rfl⟩ := Prod.mk.inj (settled.trans same)
        exact .ok (.of_uncut (orderly.close unopened piles.ext piles.orderly _)
          (close_extends _ piles.ext unopened piles.orderly.disjoint))
    · cases settled
      exact .error ⟨orderly.abandon unopened ext after, abandon_extends unopened ext⟩

end

/-- With any number of frames to nest, walks keep to their part of the stack. -/
theorem visit_disciplined {known : Set Query} (shelf : Shelf known) (n : Nat) :
    Disciplined known (visit n) := by
  induction n with
  | zero => exact fun q _ start stop items ev r ev' _ _ ends => (not_ends_exhausted ends).elim
  | succ n ih =>
    intro q member start stop items ev r ev' orderly clear ends
    exact visitBy_unwinds shelf ih member (f := ⟨q.id, start, stop, items⟩) rfl orderly clear ends

end Evaluator

end GraphQuery
