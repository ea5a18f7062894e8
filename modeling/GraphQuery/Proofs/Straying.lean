import Mathlib
import GraphQuery.Proofs.Congruence
import GraphQuery.Proofs.Mappings
/-!
# Visits that go on without end

If no operation fails that can be met from a frame and no open frame can be reached, then a visit to it
ends only if finitely many frames can be reached. And a visit to a frame of which nothing is known ends
only if the walks that it sets off do, up to the first that fails. So a visit is shown to go on without
end by following it to where it does.
-/

namespace GraphQuery

open EvalM

namespace Evaluator

variable {known : Set Query} {q : Query} {stop : Node} {items : ItemSet} {fuel : Nat}
  {ev : Evaluator}

theorem Orderly.not_openAt (orderly : Orderly ev) {k : Spot} (outside : k ∉ ev.openSpots) (i : Nat) :
    ¬ ev.OpenAt k i :=
  fun opened => outside ((orderly.opened k).mpr ⟨i, opened⟩)

/-- A visit that ends and meets no failure and no open spot is one to a safe spot. -/
theorem safe_of_halts (col : Collection known) (member : q ∈ known) {f : Frame}
    (query : f.query = q.id) (filled : f.items.isEmpty = false) (ready : Ready known q ev)
    (candid : Candid known ev) (apart : ∀ k, q.Reaches f.spot k → k ∉ ev.openSpots)
    (sound : ¬ q.Dooms f.spot) (halts : (visit fuel q f.start f.stop f.items).Halts ev) :
    q.Safe f.spot := by
  obtain ⟨r, ev', ends⟩ := halts
  have visit := walks_visit col member (understood_of_stable col member).applies fuel ready filled ends
  rw [show (⟨q.id, f.start, f.stop, f.items⟩ : Frame) = f by rw [← query]] at visit
  cases visit with
  | error after ext dooms => exact (sound (dooms candid)).elim
  | ok after arrives =>
    exact (arrives.safe_and_apart (arrives.low_eq_none ready.truthful apart)).1

/-- A visit to a frame of which nothing is known ends only if its steps do. -/
theorem steps_halt_of_visit {f : Frame} {steps : List (Arc × Operation)}
    (leaving : q.steps f.start = steps) (query : f.query = q.id) (filled : f.items.isEmpty = false)
    (unknown : (consult f ev).1 = none) (unlimited : ev.config.maxDepth? = none)
    (halts : (visit fuel q f.start f.stop f.items).Halts ev) :
    ∃ fuel' found, (steps.foldlM (fun found (a, op) =>
      stepBy (visit fuel') q f.stop f.items found a op) found).Halts (enter f ev) := by
  obtain ⟨r, ev', ends⟩ := halts
  cases fuel with
  | zero => exact (not_ends_exhausted ends).elim
  | succ n =>
    obtain ⟨_, _, expanded, -⟩ := (visitBy_unknown _ query filled unknown
      (limitReached_eq_none unlimited)).mp ends
    obtain ⟨_, taken, -⟩ := (expandBy_ends _).mp expanded
    rw [leaving] at taken
    exact ⟨n, _, taken.halts⟩

section

variable {a : Arc} {op : Operation} {reached : ItemSet} {found : Reach}
  (done : op.inquiry items = .done (.ok reached)) (filled : reached.isEmpty = false)

include done filled

/-- Where an operation leads to a set of items, the steps that it is the first of end only if the walk
from there does, and when that passes, only if the others do. -/
theorem walk_halts_of_steps {walk : Query → Node → Node → ItemSet → EvalM Reach}
    {steps : List (Arc × Operation)}
    (halts : (((a, op) :: steps).foldlM (fun found (a, op) => stepBy walk q stop items found a op)
      found).Halts ev) :
    (walk q a.target stop reached).Halts ev ∧
      ∀ reach ev₁, (walk q a.target stop reached).Ends ev (.ok reach) ev₁ →
        ∃ next, (steps.foldlM (fun found (a, op) => stepBy walk q stop items found a op) next).Halts
          ev₁ := by
  have step {r : Except Error Reach} {ev₁ : Evaluator} :
      (stepBy walk q stop items found a op).Ends ev r ev₁ ↔
        ∃ r₀, (walk q a.target stop reached).Ends ev r₀ ev₁ ∧
          r = (r₀.mapError fun e => e.through (.walking a)).map fun reach =>
            ⟨found.items.union reach.items, lower found.low? reach.low?⟩ := by
    rw [stepBy_ends, op.apply_eq_run, done]
    simp [Inquiry.run, ends_ofOutcome, and_assoc, filled]
  obtain ⟨r, ev', ends⟩ := halts
  rw [List.foldlM_cons] at ends
  obtain ⟨e, failed, -⟩ | ⟨next, ev₁, passed, rest⟩ := ends_bind.mp ends
  · obtain ⟨r₀, walked, failure⟩ := step.mp failed
    refine ⟨walked.halts, fun reach ev₁ passed => ?_⟩
    obtain ⟨rfl, -⟩ := walked.unique passed
    cases failure
  · obtain ⟨r₀, walked, -⟩ := step.mp passed
    refine ⟨walked.halts, fun reach ev₂ walked' => ?_⟩
    obtain ⟨-, rfl⟩ := walked.unique walked'
    exact ⟨next, rest.halts⟩

end

end Evaluator

/-! A query that sends items astray -/

/-- From every item to the unit. -/
def Mapping.toUnit : Mapping where
  id := 0
  name := "unit"
  inputType := .any
  outputType := .kind .unit
  map _ := .ok (.singleton (.atom .unit) (.kind .unit))

/-- A test that refuses every item. -/
def Predicate.refusal : Predicate where
  id := 1
  name := "refusal"
  itemType := .any
  test _ := .error (.operation (.other "refused"))

/-- The unit, paired so many times with the unit. -/
def Item.tower : Nat → Item
  | 0 => .atom .unit
  | n + 1 => .tuple ⟨[⟨tower n, .any⟩, ⟨.atom .unit, .kind .unit⟩], false⟩

theorem Item.tower_injective {m n : Nat} (same : (tower m).content = (tower n).content) : m = n := by
  induction m generalizing n with
  | zero =>
    cases n with
    | zero => rfl
    | succ n => cases same
  | succ m ih =>
    cases n with
    | zero => cases same
    | succ n =>
      obtain ⟨inner, -⟩ := List.cons.inj (Content.tuple.inj same)
      rw [ih inner]

theorem Follow.pair_toUnit_passes (s : ItemSet) :
    ∃ u, (Operation.follow (.pair (.map .toUnit))).Results s (some (.ok u)) :=
  Operation.exists_passes rfl (fun _ _ results => ⟨_, Inquiry.results_pure.mp results⟩) s

namespace Query

/-- The node at which items are sent to the fork, and refused when they are back. -/
def snareEntry : Node :=
  .plain 0 "entry" .any

/-- The node from which items are sent back, and then into the pit. -/
def snareFork : Node :=
  .plain 1 "fork" .any

/-- The node at which items are paired without end. -/
def snarePit : Node :=
  .plain 2 "pit" .any

/-- Items are refused or fall into the pit, whichever comes first. -/
def snare : Query where
  id := 0
  graph := [(⟨snareEntry, snareFork⟩, Operation.follow (.map .toUnit)),
    (⟨snareEntry, snareFork⟩, .filter (.test .refusal)),
    (⟨snareFork, snareEntry⟩, .filter (.anything .any)),
    (⟨snareFork, snarePit⟩, .filter (.anything .any)),
    (⟨snarePit, snarePit⟩, .follow (.pair (.map .toUnit)))].foldl
      (fun g (a, op) => g.addLabel a op) Graph.empty

theorem steps_snareEntry : snare.steps snareEntry =
    [(⟨snareEntry, snareFork⟩, .follow (.map .toUnit)),
      (⟨snareEntry, snareFork⟩, .filter (.test .refusal))] := by
  cbv

theorem steps_snareFork : snare.steps snareFork =
    [(⟨snareFork, snareEntry⟩, .filter (.anything .any)),
      (⟨snareFork, snarePit⟩, .filter (.anything .any))] := by
  cbv

theorem steps_snarePit : snare.steps snarePit =
    [(⟨snarePit, snarePit⟩, .follow (.pair (.map .toUnit)))] := by
  cbv

theorem mem_operations_snare {op : Operation} : op ∈ snare.operations ↔
    op = .follow (.map .toUnit) ∨ op = .filter (.test .refusal) ∨ op = .filter (.anything .any) ∨
      op = .follow (.pair (.map .toUnit)) := by
  change op ∈ [_, _, _, _, _] ↔ _
  simp

theorem flat_snare : snare.Flat := by
  intro op listed
  obtain rfl | rfl | rfl | rfl := mem_operations_snare.mp listed <;> rfl

theorem lawful_snare : snare.Lawful := by
  intro r within op listed
  rw [flat_snare.eq_of_within within] at listed
  have respects : Mapping.toUnit.Respects := fun _ _ _ => .ok BEq.rfl
  obtain rfl | rfl | rfl | rfl := mem_operations_snare.mp listed
  · exact .follow (.map respects)
  · exact .filter (.test fun _ _ _ => rfl)
  · exact .filter (.anything .any)
  · exact .follow (.pair (.map respects))

theorem blind_snare : snare.Blind := by
  intro r within op listed
  rw [flat_snare.eq_of_within within] at listed
  obtain rfl | rfl | rfl | rfl := mem_operations_snare.mp listed
  · exact nofun
  · exact nofun
  · exact nofun
  · rintro t (_ | ⟨_, _ | ⟨_, ⟨⟩⟩⟩)
    · exact ItemType.blind_any
    · exact ItemType.blind_kind .unit

theorem isPure_snare : snare.IsPure := by
  intro r within op listed
  rw [flat_snare.eq_of_within within] at listed
  have col := collection_of_lawful flat_snare.numbered (fun q same => same ▸ lawful_snare)
    fun q same => same ▸ blind_snare
  have stable := col.isStable snare ⟨snare, rfl, .refl⟩ op listed
  obtain rfl | rfl | rfl | rfl := mem_operations_snare.mp listed
  · exact Mapping.isPure_map fun _ _ _ => .ok BEq.rfl
  · exact (Filter.isPure_iff rfl).mpr fun _ _ _ => rfl
  · exact (Filter.isPure_iff rfl).mpr (Filter.agrees_anything .any)
  · exact stable.isPure Follow.pair_toUnit_passes

/-- The unit at a node of `snare`, declared as its kind. -/
def snared (n : Node) : Frame :=
  ⟨snare.id, n, snarePit, .singleton (.atom .unit) (.kind .unit)⟩

/-- What is met in the pit after so many steps. -/
def pitSpot (n : Nat) (t : ItemType) : Spot :=
  ⟨snare.id, snarePit, snarePit, (ItemSet.singleton (.tower n) t).essence⟩

theorem leads_pitSpot (n : Nat) (t : ItemType) :
    snare.Leads (pitSpot n t) (pitSpot (n + 1) (.tuple [.any, .kind .unit])) :=
  ⟨⟨snarePit, snarePit⟩, .follow (.pair (.map .toUnit)),
    .singleton (.tower (n + 1)) (.tuple [.any, .kind .unit]),
    ⟨steps_snarePit ▸ List.mem_singleton_self _, _, rfl, rfl, .done _⟩, rfl, rfl⟩

theorem reaches_pitSpot (t : ItemType) (n : Nat) :
    ∃ u, snare.Reaches (pitSpot 0 t) (pitSpot n u) := by
  induction n with
  | zero => exact ⟨t, .refl _ _⟩
  | succ n ih =>
    obtain ⟨u, reaches⟩ := ih
    exact ⟨_, reaches.tail (leads_pitSpot n u)⟩

/-- Infinitely many spots can be reached in the pit. -/
theorem not_safe_pitSpot (t : ItemType) : ¬ snare.Safe (pitSpot 0 t) := by
  intro safe
  choose u reaches using reaches_pitSpot t
  refine Set.infinite_of_injective_forall_mem (f := fun n => pitSpot n (u n)) (fun m n same => ?_)
    reaches safe.finite
  exact Item.tower_injective
    (Finset.singleton_injective (congrArg (fun k : Spot => k.items.contents) same))

/-- Nothing leads out of the pit. -/
theorem start_of_reaches_pit {k k' : Spot} (pit : k.start = snarePit) (reaches : snare.Reaches k k') :
    k'.start = snarePit := by
  induction reaches with
  | refl => exact pit
  | tail _ leads ih =>
    obtain ⟨a, op, reached, ⟨listed, -⟩, -, rfl⟩ := leads
    rw [ih, steps_snarePit, List.mem_singleton] at listed
    cases listed
    rfl

/-- Nothing fails in the pit. -/
theorem not_dooms_pit {k : Spot} (pit : k.start = snarePit) : ¬ snare.Dooms k := by
  rintro ⟨k', reaches, a, op, e, fails⟩
  obtain ⟨s, same, filled, -⟩ := fails.2
  have pairs := fails.1
  rw [start_of_reaches_pit pit reaches, steps_snarePit, List.mem_singleton] at pairs
  cases pairs
  obtain ⟨u, passes⟩ := Follow.pair_toUnit_passes s
  obtain ⟨_, contra, -⟩ :=
    Takes.only isPure_snare.isStable ⟨fails.1, s, same, filled, passes⟩ fails
  cases contra

end Query

namespace Evaluator

section

variable {known : Set Query} {ev : Evaluator} {fuel : Nat} (lib : Library known)
  (member : Query.snare ∈ known) (ready : Ready known Query.snare ev)
  (unlimited : ev.config.maxDepth? = none)

include lib member ready unlimited

/-- What gets into the pit goes on without end. -/
theorem snarePit_strays (opened : ∀ k ∈ ev.openSpots, k.start ≠ Query.snarePit) :
    ¬ (visit fuel Query.snare Query.snarePit Query.snarePit
      (.singleton (.atom .unit) (.kind .unit))).Halts ev := by
  intro halts
  refine Query.not_safe_pitSpot (.kind .unit) (safe_of_halts lib.collection member
    (f := Query.snared Query.snarePit) rfl rfl ready ⟨lib, unlimited⟩ (fun k reaches inside => ?_)
    (Query.not_dooms_pit rfl) halts)
  exact opened k inside (Query.start_of_reaches_pit rfl reaches)

/-- So does what comes to the fork while the way back to the entry is barred. -/
theorem snareFork_strays (uncached : ¬ ev.Cached (Query.snared Query.snareFork).spot)
    (opened : ev.openSpots = [(Query.snared Query.snareEntry).spot]) :
    ¬ (visit fuel Query.snare Query.snareFork Query.snarePit
      (.singleton (.atom .unit) (.kind .unit))).Halts ev := by
  intro halts
  have unopened := ready.truthful.toOrderly.not_openAt (k := (Query.snared Query.snareFork).spot) (by
    rw [opened]
    rintro (_ | ⟨_, ⟨⟩⟩))
  have entered := ready.enter lib.collection member rfl unopened uncached
  have spots : (enter (Query.snared Query.snareFork) ev).openSpots =
      [(Query.snared Query.snareEntry).spot, (Query.snared Query.snareFork).spot] := by
    rw [openSpots_enter, opened]
    rfl
  obtain ⟨reach, known'⟩ := entered.truthful.consult_of_mem (f := Query.snared Query.snareEntry)
    (by rw [spots]; exact List.mem_cons_self)
  have same := sameBut_consult (Query.snared Query.snareEntry) (enter (Query.snared Query.snareFork) ev)
  obtain ⟨n, _, steps⟩ := steps_halt_of_visit (f := Query.snared Query.snareFork)
    Query.steps_snareFork rfl rfl (consult_eq_none.mpr ⟨uncached, unopened⟩) unlimited halts
  obtain ⟨back, on⟩ := walk_halts_of_steps rfl rfl steps
  cases n with
  | zero =>
    obtain ⟨_, _, ends⟩ := back
    exact not_ends_exhausted ends
  | succ n =>
    -- the visit to the entry is cut, so that the second step is taken
    obtain ⟨_, steps⟩ := on reach _ (visitBy_known _ (f := Query.snared Query.snareEntry) rfl rfl known')
    refine snarePit_strays lib member ?_ (same.config ▸ unlimited) (fun k inside => ?_)
      (walk_halts_of_steps rfl rfl steps).1
    · exact entered.leaves lib.collection member (entered.truthful.of_sameBut same) rfl
        (.of_extends same.extends (Query.snared Query.snareFork).spot none)
    · rw [same.extends.openSpots, spots] at inside
      simp only [List.map_nil, List.append_nil, List.mem_cons, List.not_mem_nil, or_false] at inside
      obtain rfl | rfl := inside <;> exact nofun

/-- And so does what comes to the entry for the first time. -/
theorem snareEntry_strays (uncached : ∀ k, ¬ ev.Cached k) (closed : ev.openSpots = []) :
    ¬ (visit fuel Query.snare Query.snareEntry Query.snarePit
      (.singleton (.atom .unit) (.kind .unit))).Halts ev := by
  intro halts
  have unopened := ready.truthful.toOrderly.not_openAt (k := (Query.snared Query.snareEntry).spot) (by
    rw [closed]
    exact List.not_mem_nil)
  obtain ⟨n, _, steps⟩ := steps_halt_of_visit (f := Query.snared Query.snareEntry)
    Query.steps_snareEntry rfl rfl (consult_eq_none.mpr ⟨uncached _, unopened⟩) unlimited halts
  refine snareFork_strays lib member (ready.enter lib.collection member rfl unopened (uncached _)) unlimited
    (uncached _) ?_ (walk_halts_of_steps rfl rfl steps).1
  rw [openSpots_enter, closed]
  rfl

end

/-- Declared as its kind, the unit finds the way back to the entry barred by its own open frame. -/
theorem select_snare_strays (fuel : Nat) : ¬ (select fuel Query.snare Query.snareEntry Query.snarePit
    (.singleton (.atom .unit) (.kind .unit))).Halts (.started {}) := by
  rintro ⟨r, ev', ends⟩
  obtain ⟨r₀, ev₀, walked, -⟩ := (selectBy_ends _).mp ends
  have lib := Library.of_queries Query.flat_snare.numbered fun q same => same ▸ Query.isPure_snare
  have announced := sameBut_announce Query.snare Query.snareEntry Query.snarePit
    (.singleton (.atom .unit) (.kind .unit)) (.started {})
  have clear : Clear Query.snare (.started {}) := clear_of_closed rfl _
  refine snareEntry_strays lib ⟨_, rfl, .refl⟩ ((clear.extends announced.extends).ready
    ((truthful_started _ {}).of_sameBut announced)) (announced.config ▸ rfl) ?_ ?_ walked.halts
  · rintro k ⟨g, found, -, hit⟩
    rw [announced.cache] at hit
    simp [Evaluator.started] at hit
  · exact announced.extends.openSpots

end Evaluator

end GraphQuery
