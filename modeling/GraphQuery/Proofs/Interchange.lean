import Mathlib
import GraphQuery.Proofs.Recording
/-!
# Equal operations are interchangeable

Equality of operations is an equivalence, and equal operations come to equal sets wherever both pass,
whatever calls were made before. It does not matter then which of several equal operations an arc has,
nor how many of them: leaving out those that equal one that the arc has does not change what selections
come to.
-/

namespace GraphQuery

/-! Queries with equal operations -/

namespace Query

/-- The functions that callers supplied for some queries and those nested in them. -/
def closures (queries : Set Query) : Set Closure :=
  {c | ∃ q ∈ queries, ∃ r, q.Within r ∧ ∃ op ∈ r.operations, c ∈ op.closures}

/-- A query has for every operation of another an equal one on the same arc. -/
def Covers (q' q : Query) : Prop :=
  ∀ n a op, (a, op) ∈ q.steps n → ∃ op', (a, op') ∈ q'.steps n ∧ (op == op') = true

end Query

theorem Registry.of_queries {queries : Set Query} (numbered : Query.Numbered queries)
    (lawful : ∀ q ∈ queries, q.Lawful) (identified : Closure.Identified (Query.closures queries)) :
    Registry {r | ∃ q ∈ queries, q.Within r} where
  toShelf := .of_queries numbered
  lawful := by
    rintro r ⟨q, member, within⟩ op listed
    exact lawful q member r within op listed
  identified := by
    rintro c ⟨r, ⟨q, member, within⟩, op, listed, supplied⟩ c'
      ⟨r', ⟨q', member', within'⟩, op', listed', supplied'⟩
    exact identified c ⟨q, member, r, within, op, listed, supplied⟩ c'
      ⟨q', member', r', within', op', listed', supplied'⟩

/-- The spot of another query that has the same nodes and items. -/
def Spot.of (q : Query) (k : Spot) : Spot :=
  { k with query := q.id }

section

variable {known : Set Query} {q q' : Query} (reg : Registry known) (member : q ∈ known)
  (member' : q' ∈ known)

include reg member member'

/-- What can be reached in one tabulated query can be reached in another that covers it and is safe. -/
theorem Query.Covers.reaches (covers : q'.Covers q) {k k' : Spot}
    (safe : q'.tabulated.Safe (k.of q'.tabulated)) (reaches : q.tabulated.Reaches k k') :
    q'.tabulated.Reaches (k.of q'.tabulated) (k'.of q'.tabulated) := by
  induction reaches with
  | refl => exact .refl q'.tabulated _
  | @tail k' _ _ leads ih =>
    obtain ⟨a, entry, reached, ⟨listed, s, same, filled, results⟩, somewhere, rfl⟩ := leads
    rw [q.steps_tabulated] at listed
    obtain ⟨⟨_, op⟩, leaves, ⟨⟩⟩ := List.mem_map.mp listed
    obtain ⟨op', leaves', equal⟩ := covers _ _ _ leaves
    have inside := Query.mem_operations_of_mem_steps leaves
    have inside' := Query.mem_operations_of_mem_steps leaves'
    obtain ⟨o, results'⟩ := Operation.Results.exists (op'.tabulated Selection.Finds) s
    have takes : q'.tabulated.Takes (k'.of q'.tabulated) a (op'.tabulated Selection.Finds) o := by
      refine ⟨?_, s, same, filled, results'⟩
      rw [q'.steps_tabulated]
      exact List.mem_map_of_mem leaves'
    obtain ⟨r, rfl, passes⟩ := safe.resolved ih True a _ o takes
    cases r with
    | error => cases passes trivial
    | ok reached' =>
      have same' := Operation.tabulated_essence_eq settles_finds (reg.lawful q member op inside)
        (reg.identifies member member inside inside) (reg.identifies member' member' inside' inside')
        (reg.identifies member member' inside inside') (reg.lawful q' member' op' inside') equal rfl
        results results'
      refine ih.tail ⟨a, _, reached', takes, (ItemSet.isEmpty_congr same').symm.trans somewhere, ?_⟩
      rw [← same']
      rfl

/-- What one tabulated query gathers is gathered by another that covers it and is safe. -/
theorem Query.Covers.gathers (covers : q'.Covers q) {k : Spot} {c : Content}
    (safe : q'.tabulated.Safe (k.of q'.tabulated)) (gathers : q.tabulated.Gathers k c) :
    q'.tabulated.Gathers (k.of q'.tabulated) c := by
  obtain ⟨k', reaches, arrived, content⟩ := gathers
  exact ⟨k'.of q'.tabulated, covers.reaches reg member member' safe reaches, arrived, content⟩

/-- Tabulated queries that cover each other select equal sets where both select any. -/
theorem Query.Covers.selects (covers : q'.Covers q) (covers' : q.Covers q') {start stop : Node}
    {items items' found found' : ItemSet} (same : items.essence = items'.essence)
    (selects : q.tabulated.Selects ⟨q.tabulated.id, start, stop, items⟩ found)
    (selects' : q'.tabulated.Selects ⟨q'.tabulated.id, start, stop, items'⟩ found') :
    found.essence = found'.essence := by
  have spot : (Frame.spot ⟨q.tabulated.id, start, stop, items⟩).of q'.tabulated =
      Frame.spot ⟨q'.tabulated.id, start, stop, items'⟩ := by
    rw [Frame.spot, Frame.spot, same, Spot.of]
  have spot' : (Frame.spot ⟨q'.tabulated.id, start, stop, items'⟩).of q.tabulated =
      Frame.spot ⟨q.tabulated.id, start, stop, items⟩ := by
    rw [Frame.spot, Frame.spot, same, Spot.of]
  refine congrArg₂ ItemSet.Essence.mk (selects.itemType.trans selects'.itemType.symm) ?_
  ext c
  rw [List.mem_toFinset, List.mem_toFinset, selects.contents, selects'.contents]
  constructor
  · intro gathers
    exact spot ▸ covers.gathers reg member member' (spot ▸ selects'.safe) gathers
  · intro gathers
    exact spot' ▸ covers'.gathers reg member' member (spot' ▸ selects.safe) gathers

end

/-! Building with and without dropping -/

namespace Graph

variable {α : Type} {g g' : Graph α} {a : Arc} {l : α}

/-- Adds a label to an arc even if the arc has an equal one. -/
def keepLabel (g : Graph α) (a : Arc) (l : α) : Graph α :=
  letI : BEq α := ⟨fun _ _ => false⟩
  g.addLabel a l

theorem labels_keepLabel (a : Arc) (l : α) (b : Arc) :
    (g.keepLabel a l).labels b = if b = a then g.labels a ++ [l] else g.labels b := by
  let _ : BEq α := ⟨fun _ _ => false⟩
  have never : ((g.labels a).any (· == l)) = false := List.any_eq_false.mpr fun _ _ => nofun
  exact (labels_addLabel a l b).trans (by rw [never]; simp)

theorem Consistent.keepLabel (consistent : g.Consistent) (a : Arc) (l : α) :
    (g.keepLabel a l).Consistent :=
  let _ : BEq α := ⟨fun _ _ => false⟩
  consistent.addLabel a l

variable [BEq α]

/-- A graph has the labels of another on the same arcs, except for some that equal one that is left. -/
structure Condenses (g g' : Graph α) : Prop where
  consistent : g.Consistent
  consistent' : g'.Consistent
  kept : ∀ a, ∀ l ∈ g.labels a, l ∈ g'.labels a
  dropped : ∀ a, ∀ l ∈ g'.labels a, ∃ l' ∈ g.labels a, (l' == l) = true

namespace Condenses

theorem refl [ReflBEq α] (consistent : g.Consistent) : g.Condenses g :=
  ⟨consistent, consistent, fun _ _ => id, fun _ l member => ⟨l, member, BEq.rfl⟩⟩

/-- It stays so when a label is added to both that may be dropped from the first. -/
theorem add [ReflBEq α] (condenses : g.Condenses g') (a : Arc) (l : α) :
    (g.addLabel a l).Condenses (g'.keepLabel a l) where
  consistent := condenses.consistent.addLabel a l
  consistent' := condenses.consistent'.keepLabel a l
  kept b l' member := by
    rw [labels_keepLabel]
    rw [labels_addLabel] at member
    split at member
    · next here =>
      rw [if_pos here.1]
      obtain old | new := List.mem_append.mp member
      · exact List.mem_append_left _ (condenses.kept a l' old)
      · exact List.mem_append_right _ new
    · split
      · next here => exact List.mem_append_left _ (condenses.kept a l' (here ▸ member))
      · exact condenses.kept b l' member
  dropped b l' member := by
    rw [labels_keepLabel] at member
    rw [labels_addLabel]
    by_cases here : b = a
    · subst here
      rw [if_pos rfl] at member
      have old (earlier : l' ∈ g'.labels b) : ∃ l'' ∈ if b = b ∧ ((g.labels b).any (· == l)) = false
          then g.labels b ++ [l] else g.labels b, (l'' == l') = true := by
        obtain ⟨l'', member, equal⟩ := condenses.dropped b l' earlier
        refine ⟨l'', ?_, equal⟩
        split
        · exact List.mem_append_left _ member
        · exact member
      obtain earlier | new := List.mem_append.mp member
      · exact old earlier
      · obtain rfl := List.mem_singleton.mp new
        -- the first graph has kept it unless an equal label was there
        cases present : (g.labels b).any (· == l') with
        | false =>
          rw [if_pos ⟨rfl, rfl⟩]
          exact ⟨l', List.mem_append_right _ (List.mem_singleton_self l'), BEq.rfl⟩
        | true =>
          rw [if_neg fun contra => nomatch contra.2]
          exact List.any_eq_true.mp present
    · rw [if_neg here] at member
      rw [if_neg fun contra => here contra.1]
      exact condenses.dropped b l' member

end Condenses

end Graph

namespace Builder

/-- What a builder makes of operations that it adds, it makes of all of them up to some that equal one
that is left. -/
theorem condenses_of_adds {b b' g : Builder} (condenses : Graph.Condenses b b')
    {adds : List (Arc × Operation)} (added : adds.foldlM (fun b (a, op) => b.addArc a op) b = .ok g) :
    Graph.Condenses g (adds.foldl (fun b (a, op) => Graph.keepLabel b a op) b') := by
  induction adds generalizing b b' with
  | nil =>
    obtain rfl := Except.ok.inj added
    exact condenses
  | cons add adds ih =>
    rw [List.foldlM_cons] at added
    obtain ⟨b₁, first, rest⟩ := bind_eq_ok.mp added
    obtain ⟨-, rfl⟩ := addArc_eq_ok.mp first
    exact ih (condenses.add add.1 add.2) rest

/-- Built, such builders cover each other. -/
theorem covers_of_condenses {b b' : Builder} (condenses : Graph.Condenses b b') (id id' : QueryId) :
    (b'.build id').Covers (b.build id) ∧ (b.build id).Covers (b'.build id') := by
  have step {b : Builder} (consistent : Graph.Consistent b) {id : QueryId} {n : Node} {a : Arc}
      {op : Operation} : (a, op) ∈ (b.build id).steps n ↔ a.source = n ∧ op ∈ Graph.labels b a := by
    rw [Query.mem_steps]
    constructor
    · exact fun ⟨arc, label⟩ => ⟨(consistent.mem_arcsFrom.mp arc).2, label⟩
    · exact fun ⟨source, label⟩ =>
        ⟨consistent.mem_arcsFrom.mpr ⟨consistent.arcs_of_label label, source⟩, label⟩
  constructor
  · intro n a op listed
    obtain ⟨source, label⟩ := (step condenses.consistent).mp listed
    exact ⟨op, (step condenses.consistent').mpr ⟨source, condenses.kept a op label⟩, BEq.rfl⟩
  · intro n a op listed
    obtain ⟨source, label⟩ := (step condenses.consistent').mp listed
    obtain ⟨op', label', equal⟩ := condenses.dropped a op label
    exact ⟨op', (step condenses.consistent).mpr ⟨source, label'⟩, BEq.symm equal⟩

end Builder

namespace Evaluator

open EvalM

/-- An operation that callers may apply: its functions are among those that were supplied and respect
equality, and its selections are in some queries. -/
structure Applicable (queries : Set Query) (functions : Set Closure) (op : Operation) : Prop where
  lawful : op.Lawful
  supplied : ∀ c ∈ op.closures, c ∈ functions
  selects : ∀ s ∈ op.selections, s.query ∈ queries

/-- Equality of operations is an equivalence, for which conjunctions are multisets of their members. If
callers' functions respect equality and are the same wherever they are equal, then on any evaluators
equal operations come to equal sets, on equal sets that both pass on. So whether operations are dropped
that equal one on their arc does not change the set that a selection returns. -/
theorem equal_operations_agree {queries : Set Query} {functions : Set Closure}
    (numbered : Query.Numbered queries) (lawful : ∀ q ∈ queries, q.Lawful)
    (supplied : Query.closures queries ⊆ functions) (identified : Closure.Identified functions) :
    (EquivBEq Filter ∧ EquivBEq Follow ∧ EquivBEq Operation) ∧
    (∀ fs gs t u, (Filter.every fs t == Filter.every gs u) = true ↔ t = u ∧
      ∃ gs', gs'.Perm gs ∧ List.Forall₂ (fun f g => (f == g) = true) fs gs') ∧
    ∀ config config' ev ev', Serves queries config ev → Serves queries config' ev' →
      (∀ op op', (op == op') = true → Applicable queries functions op →
        Applicable queries functions op' → ∀ a b : ItemSet, (a == b) = true →
          ∀ fuel fuel' s t ev₁ ev₁', (op.apply (nested fuel) a).Ends ev (.ok s) ev₁ →
            (op'.apply (nested fuel') b).Ends ev' (.ok t) ev₁' → (s == t) = true) ∧
      ∀ (b g : Builder) (adds : List (Arc × Operation)) (id id' : QueryId), Builder.Made b →
        adds.foldlM (fun b (a, op) => b.addArc a op) b = .ok g → g.build id ∈ queries →
          Builder.build (adds.foldl (fun b (a, op) => Graph.keepLabel b a op) b) id' ∈ queries →
            ∀ start stop items fuel fuel' s t ev₁ ev₁',
              (select fuel (g.build id) start stop items).Ends ev (.ok s) ev₁ →
              (select fuel' (Builder.build (adds.foldl (fun b (a, op) => Graph.keepLabel b a op) b) id')
                start stop items).Ends ev' (.ok t) ev₁' → (s == t) = true := by
  have reg := Registry.of_queries numbered lawful fun c inside c' inside' =>
    identified c (supplied inside) c' (supplied inside')
  have included := Query.subset_within queries
  refine ⟨⟨inferInstance, inferInstance, inferInstance⟩, fun fs gs t u => Filter.every_same_iff,
    fun config config' ev ev' serves serves' => ⟨?_, ?_⟩⟩
  · intro op op' equal ⟨lawful, supplied, selects⟩ ⟨lawful', supplied', selects'⟩ a b same fuel fuel' s t
      ev₁ ev₁' ends ends'
    have known (s : Selection) (member : s ∈ op.selections) := included (selects s member)
    have known' (s : Selection) (member : s ∈ op'.selections) := included (selects' s member)
    have own := reg.toShelf.identifies identified supplied supplied known known
    have own' := reg.toShelf.identifies identified supplied' supplied' known' known'
    have both := reg.toShelf.identifies identified supplied supplied' known known'
    obtain ⟨u, results, left⟩ := serves.applied reg included lawful own known ends
    obtain ⟨v, results', right⟩ := serves'.applied reg included lawful' own' known' ends'
    have between : u.essence = v.essence := Operation.tabulated_essence_eq settles_finds lawful own own'
      both lawful' equal (ItemSet.essence_eq_iff.mpr same) results results'
    exact ItemSet.essence_eq_iff.mp (left.symm.trans (between.trans right))
  · intro b g adds id id' made added member member' start stop items fuel fuel' s t ev₁ ev₁' ends ends'
    have member := included member
    have member' := included member'
    have condenses := Builder.condenses_of_adds (.refl made.consistent) added
    obtain ⟨covers, covers'⟩ := Builder.covers_of_condenses condenses id id'
    have clear := clear_of_closed (serves.resting reg.toShelf included).1.openSpots
    have clear' := clear_of_closed (serves'.resting reg.toShelf included).1.openSpots
    obtain ⟨-, -, selects⟩ := select_recorded reg member (accords_visit reg member)
      (serves.recorded reg included) (clear _) ends
    obtain ⟨-, -, selects'⟩ := select_recorded reg member' (accords_visit reg member')
      (serves'.recorded reg included) (clear' _) ends'
    exact ItemSet.essence_eq_iff.mp
      (covers.selects reg member member' covers' rfl (selects s rfl) (selects' t rfl))

end Evaluator

/-- A test for units. -/
def Predicate.isUnit : Predicate :=
  ⟨0, "is_unit", .any, fun x => .ok (x == .atom .unit)⟩

theorem Predicate.respects_isUnit : isUnit.Respects := by
  intro x y same
  simp only [isUnit, BEq.congr_left same]

/-- The filter that keeps units, as a conjunction. -/
def Filter.units : Filter :=
  .every [.test .isUnit, .equals (.atom .unit) .any] .any

/-- The same filter with its members the other way around. -/
def Filter.unitsTurned : Filter :=
  .every [.equals (.atom .unit) .any, .test .isUnit] .any

namespace Query

/-- The node at which units arrive. -/
def unitSink : Node :=
  .result 1 "units" .any

/-- Equal operations on one arc. -/
def unitSteps : List (Arc × Operation) :=
  [(⟨tallySource, unitSink⟩, .filter .units), (⟨tallySource, unitSink⟩, .filter .unitsTurned)]

/-- What builders make of them, without the second. -/
def units : Query :=
  Builder.build (unitSteps.foldl (fun b (a, op) => Graph.addLabel b a op) Graph.empty) 0

/-- The query with both. -/
def unitsKept : Query :=
  Builder.build (unitSteps.foldl (fun b (a, op) => Graph.keepLabel b a op) Graph.empty) 1

theorem unitSteps_added :
    unitSteps.foldlM (fun b (a, op) => Builder.addArc b a op) Graph.empty = .ok units.graph := by
  refine bind_eq_ok.mpr ⟨_, Builder.addArc_eq_ok.mpr ⟨rfl, rfl⟩, ?_⟩
  exact bind_eq_ok.mpr ⟨_, Builder.addArc_eq_ok.mpr ⟨rfl, rfl⟩, rfl⟩

theorem operations_units : units.operations = [.filter .units] := by
  rfl

theorem mem_operations_units {q : Query} (member : q ∈ ({units, unitsKept} : Set Query)) {op : Operation}
    (listed : op ∈ q.operations) : op = .filter .units ∨ op = .filter .unitsTurned := by
  obtain rfl | rfl := member
  · rw [operations_units] at listed
    exact .inl (List.mem_singleton.mp listed)
  · exact List.mem_pair.mp listed

theorem flat_units : ∀ q ∈ ({units, unitsKept} : Set Query), q.Flat := by
  intro q member op listed
  obtain rfl | rfl := mem_operations_units member listed <;> rfl

theorem numbered_units : Numbered {units, unitsKept} := by
  refine .of_flat flat_units ?_
  rintro q (rfl | rfl) r (rfl | rfl) same
  · rfl
  · cases same
  · cases same
  · rfl

theorem lawful_units : ∀ q ∈ ({units, unitsKept} : Set Query), q.Lawful := by
  intro q member
  refine (flat_units q member).lawful fun op listed => ?_
  have test := Filter.Lawful.test Predicate.respects_isUnit
  have equals := Filter.Lawful.equals (.atom .unit) .any
  obtain rfl | rfl := mem_operations_units member listed
  · exact .filter (.every (by simpa using ⟨test, equals⟩) .any)
  · exact .filter (.every (by simpa using ⟨equals, test⟩) .any)

end Query

namespace Evaluator

open EvalM Query

/-- Units pass two equal conjunctions alike, and are selected alike with one of them dropped and with
both. -/
theorem equal_operations_agree_units : ∃ s t ev₁ ev₁' found found' ev₂ ev₂',
    (Operation.filter .units == .filter .unitsTurned) = true ∧
    ((Operation.filter .units).apply (nested 0) (.singleton (.atom .unit) .any)).Ends (.started {})
      (.ok s) ev₁ ∧
    ((Operation.filter .unitsTurned).apply (nested 0) (.singleton (.atom .unit) .any)).Ends
      (.started {}) (.ok t) ev₁' ∧ (s == t) = true ∧
    unitSteps.foldlM (fun b (a, op) => Builder.addArc b a op) Graph.empty = .ok units.graph ∧
    (select 3 units tallySource unitSink (.singleton (.atom .unit) .any)).Ends (.started {})
      (.ok found) ev₂ ∧
    (select 3 unitsKept tallySource unitSink (.singleton (.atom .unit) .any)).Ends (.started {})
      (.ok found') ev₂' ∧ (found == found') = true := by
  have serves : Serves {units, unitsKept} {} (.started {}) := .nothing
  have supplied : Query.closures {units, unitsKept} ⊆ {.test .isUnit} := by
    rintro c ⟨q, member, r, within, op, listed, closure⟩
    rw [(flat_units q member).eq_of_within within] at listed
    obtain rfl | rfl := mem_operations_units member listed <;> exact List.mem_singleton.mp closure
  have applicable {op : Operation} (listed : op ∈ unitsKept.operations) :
      Applicable {units, unitsKept} {.test .isUnit} op := by
    refine ⟨lawful_units unitsKept (.inr rfl) _ .refl op listed, fun c closure => ?_, fun s selects => ?_⟩
    · exact supplied ⟨unitsKept, .inr rfl, _, .refl, op, listed, closure⟩
    · rw [flat_units unitsKept (.inr rfl) op listed] at selects
      cases selects
  obtain ⟨-, -, interchange⟩ := equal_operations_agree numbered_units lawful_units supplied
    (by rintro _ rfl _ rfl -; rfl)
  obtain ⟨alike, dropped⟩ := interchange {} {} (.started {}) (.started {}) serves serves
  have equal : (Operation.filter .units == .filter .unitsTurned) = true := by decide
  obtain ⟨s, ev₁, ran⟩ : ∃ s ev₁, ((Operation.filter .units).apply (nested 0)
      (.singleton (.atom .unit) .any)).Ends (.started {}) (.ok s) ev₁ := exists_ends_of_isOk (by cbv)
  obtain ⟨t, ev₁', ran'⟩ : ∃ t ev₁', ((Operation.filter .unitsTurned).apply (nested 0)
      (.singleton (.atom .unit) .any)).Ends (.started {}) (.ok t) ev₁' := exists_ends_of_isOk (by cbv)
  obtain ⟨found, ev₂, selected⟩ : ∃ found ev₂, (select 3 units tallySource unitSink
      (.singleton (.atom .unit) .any)).Ends (.started {}) (.ok found) ev₂ :=
    exists_ends_of_isOk (by cbv)
  obtain ⟨found', ev₂', selected'⟩ : ∃ found' ev₂', (select 3 unitsKept tallySource unitSink
      (.singleton (.atom .unit) .any)).Ends (.started {}) (.ok found') ev₂' :=
    exists_ends_of_isOk (by cbv)
  have same := alike _ _ equal (applicable (.head _)) (applicable (.tail _ (.head _))) _ _ BEq.rfl
    _ _ _ _ _ _ ran ran'
  have same' := dropped _ _ unitSteps 0 1 .empty unitSteps_added (.inl rfl) (.inr rfl) _ _ _ _ _ _ _ _ _
    selected selected'
  exact ⟨s, t, ev₁, ev₁', found, found', ev₂, ev₂', equal, ran, ran', same, unitSteps_added, selected,
    selected', same'⟩

end Evaluator

end GraphQuery
