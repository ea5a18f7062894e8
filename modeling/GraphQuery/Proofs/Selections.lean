import GraphQuery.Proofs.Lockstep
/-!
# Selections

A selection leaves the open frames of an evaluator as they are and keeps it truthful. If it comes to a
set on a truthful evaluator without open frames of its query, it comes to an equal set on every
coherent one; and if failures are those of pure operations, then it also fails wherever it has failed
once. Given this for the queries nested in a query, it follows what the operations of that query come
to, and so it follows for all queries of a collection by induction on their nesting.
-/

namespace GraphQuery

namespace Evaluator

open EvalM

variable {q : Query} {known : Set Query} {ev ev' ev₁ : Evaluator} {new : List Frame}

/-- An evaluator without open frames of a query is ready for its visits. -/
theorem Clear.ready (clear : Clear q ev) (truthful : Truthful known ev) : Ready known q ev where
  truthful := truthful
  clear _ nests s within := clear s (within.head nests)
  pending f p queried hit := by
    have opened := (truthful.opened f.spot).mpr ⟨p.index, .of_pending hit⟩
    exact (clear q .refl f.spot opened queried).elim

theorem Clear.able (clear : Clear q ev) (coherent : Coherent known ev) : Able known q ev :=
  ⟨clear.ready coherent.toTruthful, coherent.unlimited⟩

/-- Given any number of frames to nest, a computation leaves truthful evaluators truthful and their
open frames as they are. When it comes to a set, or to a failure of operations, another ends alike on
every coherent evaluator. -/
def Mirrors (known : Set Query) (q : Query) (x y : Nat → EvalM ItemSet) : Prop :=
  ∀ ⦃n ev ev' r ev₁⦄, Truthful known ev → Coherent known ev' → Clear q ev → Clear q ev' →
    (x n).Ends ev r ev₁ → Truthful known ev₁ ∧ ev.Extends ev₁ [] ∧
      ((∃ s, r = .ok s) ∨ Candid known ev → ∃ m r' ev₁', (y m).Ends ev' r' ev₁' ∧ Alike r r')

/-- Given any number of frames to nest, a computation leaves coherent evaluators coherent and their
open frames as they are, and whenever it ends, another ends alike on every evaluator. -/
def Echoes (known : Set Query) (q : Query) (x y : Nat → EvalM ItemSet) : Prop :=
  ∀ ⦃n ev ev' r ev₁⦄, Coherent known ev → Coherent known ev' → Clear q ev → Clear q ev' →
    (x n).Ends ev r ev₁ → Coherent known ev₁ ∧ ev.Extends ev₁ [] ∧
      ∃ m r' ev₁', (y m).Ends ev' r' ev₁' ∧ Alike r r'

/-- More fuel never changes how a computation ends. -/
def Growing (x : Nat → EvalM ItemSet) : Prop :=
  ∀ ⦃m n⦄, m ≤ n → (x m).Refines (x n)

namespace Mirrors

theorem pure {s t : ItemSet} (equal : t.essence = s.essence) :
    Mirrors known q (fun _ => pure s) fun _ => pure t := by
  intro n ev ev' r ev₁ truthful coherent' clear clear' ends
  obtain ⟨rfl, rfl⟩ := ends_pure.mp ends
  exact ⟨truthful, .refl ev₁, fun _ => ⟨0, _, _, ends_pure.mpr ⟨rfl, rfl⟩,
    .ok (ItemSet.essence_eq_iff.mp equal.symm)⟩⟩

/-- Sequences mirror each other if their parts do. -/
theorem bind {x y : Nat → EvalM ItemSet} {f g : ItemSet → Nat → EvalM ItemSet}
    (first : Mirrors known q x y) (back : Mirrors known q y x) (growing : Growing y)
    (second : ∀ s t : ItemSet, t.essence = s.essence → Mirrors known q (f s) (g t))
    (growing' : ∀ t, Growing (g t)) :
    Mirrors known q (fun n => x n >>= fun s => f s n) fun n => y n >>= fun t => g t n := by
  intro n ev ev' r ev₁ truthful coherent' clear clear' ends
  obtain ⟨e, failed, rfl⟩ | ⟨s, ev₂, passed, rest⟩ := ends_bind.mp ends
  · obtain ⟨after, ext, mirrored⟩ := first truthful coherent' clear clear' failed
    refine ⟨after, ext, fun told => ?_⟩
    obtain ⟨m, r', ev₁', failed', alike⟩ := mirrored told
    cases alike with
    | error _ e' => exact ⟨m, _, ev₁', ends_bind.mpr (.inl ⟨e', failed', rfl⟩), .error _ _⟩
  · obtain ⟨between, ext, mirrored⟩ := first truthful coherent' clear clear' passed
    obtain ⟨m, r', ev₂', passed', alike⟩ := mirrored (.inl ⟨s, rfl⟩)
    obtain ⟨between', ext', -⟩ := back coherent'.toTruthful (coherent_fresh known true) clear'
      (clear_fresh q true) passed'
    cases alike with
    | @ok _ t same =>
      obtain ⟨after, ext₂, mirrored⟩ :=
        second s t (ItemSet.essence_eq_iff.mpr same).symm between (coherent'.of_extends ext' between')
          (clear.extends ext) (clear'.extends ext') rest
      refine ⟨after, ext.trans ext₂, fun told => ?_⟩
      obtain ⟨m', r'', ev₁', rest', alike⟩ := mirrored (told.imp_right ext.candid.mpr)
      refine ⟨max m m', r'', ev₁', ends_bind.mpr (.inr ⟨t, ev₂', ?_, ?_⟩), alike⟩
      · exact growing (Nat.le_max_left m m') passed'
      · exact growing' t (Nat.le_max_right m m') rest'

theorem noting {x y : Nat → EvalM ItemSet} {place place' : Unit → Place}
    (mirrors : Mirrors known q x y) :
    Mirrors known q (fun n => within place (x n)) fun n => within place' (y n) := by
  intro n ev ev' r ev₁ truthful coherent' clear clear' ends
  obtain ⟨r₀, ended, rfl⟩ := ends_within.mp ends
  obtain ⟨after, ext, mirrored⟩ := mirrors truthful coherent' clear clear' ended
  refine ⟨after, ext, fun told => ?_⟩
  obtain ⟨m, r', ev₁', ended', alike⟩ := mirrored <| told.imp_left fun ⟨s, same⟩ => by
    cases r₀ with
    | ok t => exact ⟨t, rfl⟩
    | error => cases same
  refine ⟨m, _, ev₁', ends_within.mpr ⟨r', ended', rfl⟩, ?_⟩
  cases alike with
  | ok same => exact .ok same
  | error d e => exact .error _ _

/-- In a library, coherent evaluators echo what mirrors. -/
theorem echoes {x y : Nat → EvalM ItemSet} (mirrors : Mirrors known q x y) (lib : Library known) :
    Echoes known q x y := by
  intro n ev ev' r ev₁ coherent coherent' clear clear' ends
  obtain ⟨after, ext, mirrored⟩ := mirrors coherent.toTruthful coherent' clear clear' ends
  exact ⟨coherent.of_extends ext after, ext, mirrored (.inr ⟨lib, coherent.unlimited⟩)⟩

end Mirrors

theorem growing_select (q : Query) (start stop : Node) (items : ItemSet) :
    Growing fun n => select n q start stop items :=
  fun _ _ le => selectBy_refines (visit_refines le) q start stop items

theorem growing_stops (q : Query) (start : Node) (items : ItemSet) (stops : List Node)
    (found : ItemSet) : Growing fun n => stops.foldlM (fun (found : ItemSet) stop =>
      return found.union (← selectBy (visit n) q start stop items)) found :=
  fun _ _ le => .foldlM (fun _ stop =>
    (selectBy_refines (visit_refines le) q start stop items).bind fun _ => .refl _) _ _

/-- A sequence ends, given enough frames to nest, if its parts do. -/
theorem Growing.bind_halts {x : Nat → EvalM ItemSet} {f : ItemSet → Nat → EvalM ItemSet}
    (growing : Growing x) (growing' : ∀ s, Growing (f s)) (first : ∃ n, (x n).Halts ev)
    (second : ∀ n s ev₁, (x n).Ends ev (.ok s) ev₁ → ∃ m, (f s m).Halts ev₁) :
    ∃ n, (x n >>= fun s => f s n).Halts ev := by
  obtain ⟨n, r, ev₁, ends⟩ := first
  cases r with
  | error e => exact ⟨n, (ends_bind.mpr (.inl ⟨e, ends, rfl⟩)).halts⟩
  | ok s =>
    obtain ⟨m, r', ev', rest⟩ := second n s ev₁ ends
    have ends := growing (Nat.le_max_left n m) ends
    have rest := growing' s (Nat.le_max_right n m) rest
    exact ⟨max n m, (ends_bind.mpr (.inr ⟨s, ev₁, ends, rest⟩)).halts⟩

/-- A visit from a state without open frames of the query finds what the frame selects, or it fails. -/
theorem Visit.of_clear {told : Prop} {f : Frame} {r : Except Error Reach} (query : f.query = q.id)
    (truthful : Truthful known ev) (clear : Clear q ev) (visit : Visit known told q ev f r ev₁) :
    Truthful known ev₁ ∧ ev.Extends ev₁ [] ∧ ((∃ reach, r = .ok reach ∧ q.Selects f reach.items) ∨
      ∃ e, r = .error e ∧ (told → q.Dooms f.spot)) := by
  cases visit with
  | error after ext dooms => exact ⟨after, ext, .inr ⟨_, rfl, dooms⟩⟩
  | @ok reach _ new after arrives =>
    have low : reach.low? = none := arrives.low_eq_none truthful fun k reaches opened =>
      clear q .refl k opened (reaches.query.trans query)
    obtain rfl := arrives.new_eq_nil low
    refine ⟨after, arrives.leaves.toExtends, .inl ⟨reach, rfl, arrives.typed, fun c => ?_, ?_⟩⟩
    · cases arrives.covers with
      | settled _ gathered => exact ⟨arrives.sound c, gathered c⟩
      | opened _ below =>
        obtain ⟨l, contra, -⟩ := below
        simp [low] at contra
    · exact (arrives.safe_and_apart low).1

section

variable (col : Collection known) (member : q ∈ known) (understood : Understood known q)

include col member understood

/-- If failures are those of operations, a frame whose visit fails is doomed. -/
theorem visit_clear {n : Nat} {f : Frame} {r : Except Error Reach} (query : f.query = q.id)
    (filled : f.items.isEmpty = false) (truthful : Truthful known ev) (clear : Clear q ev)
    (ends : (visit n q f.start f.stop f.items).Ends ev r ev₁) :
    Truthful known ev₁ ∧ ev.Extends ev₁ [] ∧ ((∃ reach, r = .ok reach ∧ q.Selects f reach.items) ∨
      ∃ e, r = .error e ∧ (Candid known ev → q.Dooms f.spot)) := by
  have visit := walks_visit col member understood.applies n (clear.ready truthful) filled ends
  rw [show (⟨q.id, f.start, f.stop, f.items⟩ : Frame) = f by rw [← query]] at visit
  exact visit.of_clear query truthful clear

/-- Where a frame is safe, a visit to an equal frame passes and finds an equal set. -/
theorem visit_of_selects {f : Frame} {items found : ItemSet} (query : f.query = q.id)
    (filled : f.items.isEmpty = false) (equal : items.essence = f.items.essence)
    (selects : q.Selects f found) (coherent : Coherent known ev) (clear : Clear q ev) :
    ∃ n reach ev₁, (visit n q f.start f.stop items).Ends ev (.ok reach) ev₁ ∧
      found.essence = reach.items.essence := by
  have spot : Frame.spot { f with items } = f.spot := by rw [Frame.spot, equal]; rfl
  have filled' : items.isEmpty = false := (ItemSet.isEmpty_congr equal).trans filled
  obtain ⟨n, r, ev₁, ends, passes⟩ := visit_resolves_of_finite col member understood
    (f := { f with items }) (.inl trivial) (clear.able coherent) query filled'
    (spot.symm ▸ selects.safe.finite) fun k reaches =>
      (spot.symm ▸ selects.safe).resolved reaches True
  obtain ⟨-, -, ⟨reach, rfl, selects'⟩ | ⟨e, rfl, -⟩⟩ := visit_clear col member understood
    (f := { f with items }) query filled' coherent.toTruthful clear ends
  · exact ⟨n, reach, ev₁, ends, selects.unique selects' spot.symm⟩
  · cases passes trivial

/-- A selection that passes comes to what its frame selects. If failures are those of operations, the
frame of one that fails is doomed. -/
theorem select_clear {n : Nat} {start stop : Node} {items : ItemSet} {r : Except Error ItemSet}
    (truthful : Truthful known ev) (clear : Clear q ev)
    (ends : (select n q start stop items).Ends ev r ev₁) :
    Truthful known ev₁ ∧ ev.Extends ev₁ [] ∧
      ((∃ found, r = .ok found ∧ q.Selects ⟨q.id, start, stop, items⟩ found) ∨
        ∃ e, r = .error e ∧ items.isEmpty = false ∧
          (Candid known ev → q.Dooms (Frame.spot ⟨q.id, start, stop, items⟩))) := by
  obtain ⟨r₀, ev₀, walked, rfl, rfl⟩ := (selectBy_ends _).mp ends
  have announced := sameBut_announce q start stop items ev
  have concluded := sameBut_conclude q (announce q start stop items ev) r₀ ev₀
  have truthful₀ := truthful.of_sameBut announced
  cases empty : items.isEmpty with
  | true =>
    cases n with
    | zero => exact (not_ends_exhausted walked).elim
    | succ n =>
      obtain ⟨rfl, rfl⟩ := walked.unique ((visitBy_ends _).mpr (.empty empty))
      exact ⟨truthful₀.of_sameBut concluded, announced.extends.trans concluded.extends,
        .inl ⟨_, rfl, .of_isEmpty empty⟩⟩
  | false =>
    obtain ⟨after, ext, outcome⟩ := visit_clear col member understood
      (f := ⟨q.id, start, stop, items⟩) rfl empty truthful₀ (clear.extends announced.extends) walked
    refine ⟨after.of_sameBut concluded, (announced.extends.trans ext).trans concluded.extends, ?_⟩
    obtain ⟨reach, rfl, selects⟩ | ⟨e, rfl, dooms⟩ := outcome
    · exact .inl ⟨_, rfl, selects⟩
    · exact .inr ⟨e, rfl, rfl, fun told => dooms (announced.extends.candid.mpr told)⟩

/-- Where a frame is safe, a selection from an equal set passes and finds an equal set. -/
theorem select_of_selects {start stop : Node} {items items' found : ItemSet}
    (equal : items'.essence = items.essence) (selects : q.Selects ⟨q.id, start, stop, items⟩ found)
    (coherent : Coherent known ev) (clear : Clear q ev) :
    ∃ n found' ev₁, (select n q start stop items').Ends ev (.ok found') ev₁ ∧
      found.essence = found'.essence := by
  have announced := sameBut_announce q start stop items' ev
  cases empty : items.isEmpty with
  | true =>
    have empty' : items'.isEmpty = true := (ItemSet.isEmpty_congr equal).trans empty
    exact ⟨1, _, _, (selectBy_ends _).mpr ⟨_, _, (visitBy_ends _).mpr (.empty empty'), rfl, rfl⟩,
      selects.unique (.of_isEmpty empty) rfl⟩
  | false =>
    obtain ⟨n, reach, ev₁, walked, same⟩ := visit_of_selects col member understood rfl empty equal
      selects (coherent.of_sameBut announced) (clear.extends announced.extends)
    exact ⟨n, _, _, (selectBy_ends _).mpr ⟨_, ev₁, walked, rfl, rfl⟩, same⟩

/-- Selections from equal sets mirror each other. -/
theorem select_mirrors (start stop : Node) {items items' : ItemSet}
    (equal : items'.essence = items.essence) :
    Mirrors known q (fun n => select n q start stop items) fun n => select n q start stop items' := by
  intro n ev ev' r ev₁ truthful coherent' clear clear' ends
  obtain ⟨after, ext, outcome⟩ := select_clear col member understood truthful clear ends
  refine ⟨after, ext, fun told => ?_⟩
  obtain ⟨found, rfl, selects⟩ | ⟨e, rfl, filled, -⟩ := outcome
  · obtain ⟨m, found', ev₁', ends', same⟩ :=
      select_of_selects col member understood equal selects coherent' clear'
    exact ⟨m, _, ev₁', ends', .ok (ItemSet.essence_eq_iff.mp same)⟩
  · obtain ⟨lib, unlimited⟩ : Candid known ev := told.resolve_left fun ⟨s, contra⟩ => nomatch contra
    obtain ⟨r₀, ev₀, walked, failed, -⟩ := (selectBy_ends _).mp ends
    have announced := sameBut_announce q start stop items ev
    have announced' := sameBut_announce q start stop items' ev'
    have clear₀ := clear.extends announced.extends
    have clear₀' := clear'.extends announced'.extends
    have same : SameOpen q (announce q start stop items ev) (announce q start stop items' ev') :=
      fun k queried => ⟨fun opened => (clear₀ q .refl k opened queried).elim,
        fun opened => (clear₀' q .refl k opened queried).elim⟩
    have able₀ := clear₀.able ⟨truthful.of_sameBut announced, by rw [announced.config, unlimited]⟩
    have able₀' := clear₀'.able (coherent'.of_sameBut announced')
    obtain ⟨m, r₀', ev₀', walked', inStep⟩ := followed lib member understood n
      (f := ⟨q.id, start, stop, items⟩) rfl filled equal able₀ able₀' same walked
    cases inStep with
    | error => exact ⟨m, _, _, (selectBy_ends _).mpr ⟨_, ev₀', walked', rfl, rfl⟩, .error _ _⟩
    | ok => cases failed

/-- So do selections at all result nodes. -/
theorem selectResults_mirrors (start : Node) {items items' : ItemSet}
    (equal : items'.essence = items.essence) :
    Mirrors known q (fun n => selectResults n q start items)
      fun n => selectResults n q start items' := by
  have mirrors (stop : Node) := select_mirrors col member understood start stop equal
  have back (stop : Node) := select_mirrors col member understood start stop equal.symm
  have further (stops : List Node) (s t : ItemSet) (same : t.essence = s.essence) :
      Mirrors known q
        (fun n => stops.foldlM (fun (found : ItemSet) stop =>
          return found.union (← selectBy (visit n) q start stop items)) s)
        fun n => stops.foldlM (fun (found : ItemSet) stop =>
          return found.union (← selectBy (visit n) q start stop items')) t := by
    induction stops generalizing s t with
    | nil => exact .pure same
    | cons stop stops ih =>
      simp only [List.foldlM_cons, bind_assoc, pure_bind]
      exact (mirrors stop).bind (back stop) (growing_select q start stop items')
        (fun u v same' => ih _ _ (ItemSet.essence_union_congr same same'))
        fun v => growing_stops q start items' stops _
  unfold selectResults selectResultsBy
  cases q.resultNodes with
  | nil => exact .pure rfl
  | cons stop stops =>
    exact (mirrors stop).bind (back stop) (growing_select q start stop items') (further stops)
      fun v => growing_stops q start items' stops v

end

section

variable (lib : Library known) (member : q ∈ known) (understood : Understood known q)

include lib member understood

/-- In a library, selections from equal sets come to like outcomes. -/
theorem select_echoes (start stop : Node) {items items' : ItemSet}
    (equal : items'.essence = items.essence) :
    Echoes known q (fun n => select n q start stop items) fun n => select n q start stop items' :=
  (select_mirrors lib.collection member understood start stop equal).echoes lib

theorem selectResults_echoes (start : Node) {items items' : ItemSet}
    (equal : items'.essence = items.essence) :
    Echoes known q (fun n => selectResults n q start items)
      fun n => selectResults n q start items' :=
  (selectResults_mirrors lib.collection member understood start equal).echoes lib

end

/-- The selections of an operation for equal items mirror each other. -/
theorem nested_mirrors (col : Collection known) {s : Selection} (member : s.query ∈ known)
    (understood : Understood known s.query) {x y : Item} (equal : (x == y) = true) :
    Mirrors known s.query (fun n => nested n s x) fun n => nested n s y := by
  have same : (ItemSet.singleton y s.inputType).essence = (ItemSet.singleton x s.inputType).essence :=
    (ItemSet.essence_singleton equal s.inputType).symm
  unfold nested nestedBy
  cases s.stop? with
  | none => exact .noting (selectResults_mirrors col member understood s.start same)
  | some stop => exact .noting (select_mirrors col member understood s.start stop same)

/-! Operations -/

section

variable (col : Collection known)

include col

/-- The selection of an operation gets one of its answers, except that a failure may have other
reasons. -/
theorem nested_answers {s : Selection} {x : Item} {n : Nat} {r : Except Error ItemSet}
    (member : s.query ∈ known) (understood : Understood known s.query)
    (truthful : Truthful known ev) (clear : Clear s.query ev) (ends : (nested n s x).Ends ev r ev₁) :
    Truthful known ev₁ ∧ ev.Extends ev₁ [] ∧
      ((∃ t, r = .ok t) ∨ Candid known ev → s.Answers x (some r)) := by
  obtain ⟨after, ext, mirrored⟩ := nested_mirrors col member understood BEq.rfl truthful
    (coherent_fresh known true) clear (clear_fresh s.query true) ends
  refine ⟨after, ext, fun told => ?_⟩
  obtain ⟨m, r', ev₁', ends', alike⟩ := mirrored told
  exact ⟨r', ⟨m, ev₁', ends'⟩, alike.symm⟩

/-- The selection of an operation ends if it has an answer. -/
theorem nested_ends {s : Selection} {x : Item} {r : Except Error ItemSet} (member : s.query ∈ known)
    (understood : Understood known s.query) (coherent : Coherent known ev)
    (clear : Clear s.query ev) (gives : s.Gives x r) (told : (∃ t, r = .ok t) ∨ Library known) :
    ∃ n r' ev₁, (nested n s x).Ends ev r' ev₁ ∧ Alike r r' := by
  obtain ⟨n, ev₀, ends⟩ := gives
  obtain ⟨-, -, mirrored⟩ := nested_mirrors col member understood BEq.rfl
    (coherent_fresh known true).toTruthful coherent (clear_fresh s.query true) clear ends
  exact mirrored (told.imp_right fun lib => ⟨lib, rfl⟩)

variable {α : Type} {P : Selection → Prop}
  (nested : ∀ s, P s → s.query ∈ known ∧ Understood known s.query)

include nested

/-- An inquiry comes to one of its outcomes, except that a failure may have other reasons. -/
theorem run_results {p : Inquiry α} {n : Nat} {r : Except Error α} (asks : p.AsksOnly P)
    (truthful : Truthful known ev) (clear : ∀ s, P s → Clear s.query ev)
    (ends : (p.run (nestedBy (visit n))).Ends ev r ev₁) :
    Truthful known ev₁ ∧ ev.Extends ev₁ [] ∧
      ((∃ a, r = .ok a) ∨ Candid known ev → p.Results (some r)) := by
  induction p generalizing ev with
  | done outcome =>
    obtain ⟨rfl, rfl⟩ := ends_ofOutcome.mp ends
    exact ⟨truthful, .refl ev₁, fun _ => .done r⟩
  | ask s x next ih =>
    obtain ⟨member, understood⟩ := nested s asks.1
    obtain ⟨e, failed, rfl⟩ | ⟨found, ev₂, passed, rest⟩ := ends_bind.mp ends
    · obtain ⟨after, ext, answer⟩ :=
        nested_answers col member understood truthful (clear s asks.1) failed
      refine ⟨after, ext, fun told => .failed (answer (.inr ?_))⟩
      exact told.resolve_left fun ⟨a, contra⟩ => nomatch contra
    · obtain ⟨between, ext, answer⟩ :=
        nested_answers col member understood truthful (clear s asks.1) passed
      obtain ⟨after, ext', results⟩ := ih found (asks.2 found) between
        (fun s holds => (clear s holds).extends ext) rest
      exact ⟨after, ext.trans ext', fun told =>
        .found (answer (.inl ⟨found, rfl⟩)) (results (told.imp_right ext.candid.mpr))⟩

/-- An inquiry ends if it is resolved. -/
theorem run_resolves {sure : Prop} (known' : sure ∨ Library known) {p : Inquiry α}
    (asks : p.AsksOnly P) (coherent : Coherent known ev) (clear : ∀ s, P s → Clear s.query ev)
    (resolved : p.Resolved sure) : ∃ n, (p.run (nestedBy (visit n))).Resolves sure ev := by
  induction p generalizing ev with
  | done outcome =>
    obtain ⟨r, same, passes⟩ := resolved _ (.done outcome)
    obtain rfl := Option.some.inj same
    exact ⟨0, _, _, ends_ofOutcome.mpr ⟨rfl, rfl⟩, passes⟩
  | ask s x next ih =>
    obtain ⟨member, understood⟩ := nested s asks.1
    by_cases answered : ∃ r, s.Gives x r
    · obtain ⟨r₀, gives⟩ := answered
      -- a selection that fails makes the inquiry fail, so then it is not sure to pass
      have told : (∃ t, r₀ = .ok t) ∨ Library known := by
        cases r₀ with
        | ok t => exact .inl ⟨t, rfl⟩
        | error e =>
          obtain ⟨_, same, passes⟩ := resolved _ (.failed ⟨_, gives, .refl _⟩)
          cases same
          exact known'.imp (fun holds => nomatch passes holds) id
      obtain ⟨n, r, ev₁, ended, alike⟩ :=
        nested_ends col member understood coherent (clear s asks.1) gives told
      cases alike with
      | error d e =>
        obtain ⟨_, same, passes⟩ := resolved _ (.failed ⟨_, gives, .error d e⟩)
        cases same
        exact ⟨n, _, _, ends_bind.mpr (.inl ⟨e, ended, rfl⟩), passes⟩
      | @ok _ found equal =>
        obtain ⟨after, ext, -⟩ :=
          nested_answers col member understood coherent.toTruthful (clear s asks.1) ended
        obtain ⟨m, r', ev', rest, passes⟩ := ih found (asks.2 found) (coherent.of_extends ext after)
          (fun s holds => (clear s holds).extends ext) fun o results =>
            resolved o (.found ⟨_, gives, .ok equal⟩ results)
        have asked := nestedBy_refines (visit_refines (Nat.le_max_left n m)) s x ended
        have went := run_refines (nestedBy_refines (visit_refines (Nat.le_max_right n m))) _ rest
        exact ⟨max n m, _, _, ends_bind.mpr (.inr ⟨found, ev₁, asked, went⟩), passes⟩
    · obtain ⟨_, contra, -⟩ := resolved none (.endless fun r gives => answered ⟨r, gives⟩)
      cases contra

end

/-- The operations of every query of a collection are understood. -/
theorem understood_of_stable (col : Collection known) (member : q ∈ known) :
    Understood known q := by
  induction q using Query.nests_wf.induction with
  | _ q ih =>
    have nests {op : Operation} (listed : op ∈ q.operations) {s : Selection}
        (selects : s ∈ op.selections) : q.Nests s.query := ⟨op, listed, s, selects, rfl⟩
    have nested (op : Operation) (listed : op ∈ q.operations) (s : Selection)
        (selects : s ∈ op.selections) : s.query ∈ known ∧ Understood known s.query := by
      have inside := col.closed q member s.query (nests listed selects)
      exact ⟨inside, ih s.query (nests listed selects) inside⟩
    constructor
    · intro n op listed ev items r ev' ready filled ends
      rw [op.apply_eq_run] at ends
      exact run_results col (nested op listed) (op.inquiry_asksOnly items) ready.truthful
        (fun s selects => ready.clear s.query (nests listed selects)) ends
    · intro sure known' op listed ev items able filled resolved
      obtain ⟨n, resolves⟩ := run_resolves col (nested op listed) known' (op.inquiry_asksOnly items)
        ⟨able.truthful, able.unlimited⟩
        (fun s selects => able.clear s.query (nests listed selects)) resolved
      exact ⟨n, (fun _ none => nomatch none), by rwa [op.apply_eq_run]⟩

/-- The operations of every query of a library are understood. -/
theorem understood (lib : Library known) (member : q ∈ known) : Understood known q :=
  understood_of_stable lib.collection member

end Evaluator

end GraphQuery
