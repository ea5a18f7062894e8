import GraphQuery.Proofs.QuietOperations
import GraphQuery.Proofs.Selections
/-!
# Walks that carry items

A walk carries a set of items along its arcs: at every arc one of its operations is applied to what
was carried so far, until nothing is left. Carried sets are the spots that can be reached, so what is
said of spots can be said of walks: a frame gathers what is carried to its end, and it is doomed if
an operation fails on a set that is carried to it.
-/

namespace GraphQuery

/-- A selection between two nodes of a query. -/
structure Call where
  query : Query
  start : Node
  stop : Node
  items : ItemSet

/-- The frame of a selection. -/
def Call.frame (c : Call) : Frame :=
  ⟨c.query.id, c.start, c.stop, c.items⟩

/-- A selection leads on along an arc, or to a selection that an operation makes. -/
inductive Call.Leads : Call → Call → Prop where
  | along {c : Call} {a : Arc} {op : Operation} {t : ItemSet}
    (arc : a ∈ c.query.graph.arcsFrom c.start) (label : op ∈ c.query.graph.labels a)
    (filled : c.items.isEmpty = false) (gives : op.Gives c.items (.ok t))
    (further : t.isEmpty = false) : Leads c ⟨c.query, a.target, c.stop, t⟩
  | into {c : Call} {a : Arc} {op : Operation} {s : Selection} {x : Item} {stop : Node}
    (arc : a ∈ c.query.graph.arcsFrom c.start) (label : op ∈ c.query.graph.labels a)
    (filled : c.items.isEmpty = false) (asks : op.Asks c.items s x) (ends : stop ∈ s.stops) :
    Leads c ⟨s.query, s.start, stop, .singleton x s.inputType⟩

/-- The frames that can be reached from a selection, up to equality. -/
def Call.reachable (c : Call) : Set Spot :=
  {k | ∃ d, Relation.ReflTransGen Call.Leads c d ∧ d.frame.spot = k}

theorem Call.reachable_subset {c d : Call} (reaches : Relation.ReflTransGen Call.Leads c d) :
    d.reachable ⊆ c.reachable := by
  rintro k ⟨e, further, same⟩
  exact ⟨e, reaches.trans further, same⟩

namespace Query

/-- The sets that the walks from a node carry to others, when each arc applies one of its
operations to what has come so far. -/
inductive Carries (q : Query) (start : Node) (items : ItemSet) : Node → ItemSet → Prop where
  | here : Carries q start items start items
  | along {n : Node} {s t : ItemSet} {a : Arc} {op : Operation} (walk : Carries q start items n s)
    (arc : a ∈ q.graph.arcsFrom n) (label : op ∈ q.graph.labels a) (filled : s.isEmpty = false)
    (gives : op.Gives s (.ok t)) : Carries q start items a.target t

/-- An operation fails on a set that is carried to the source of its arc. -/
def Fails (q : Query) (start : Node) (items : ItemSet) : Prop :=
  ∃ n s, q.Carries start items n s ∧ s.isEmpty = false ∧
    ∃ a ∈ q.graph.arcsFrom n, ∃ op ∈ q.graph.labels a, ∃ e, op.Gives s (.error e)

/-- Nothing is made of no items. -/
theorem Carries.eq_of_isEmpty {q : Query} {start n : Node} {items s : ItemSet}
    (empty : items.isEmpty = true) (carries : q.Carries start items n s) : s = items := by
  induction carries with
  | here => rfl
  | along _ _ _ filled _ ih =>
    rw [ih, empty] at filled
    cases filled

/-- A set that is carried belongs to a selection that can be reached. -/
theorem Carries.leads {q : Query} {start stop n : Node} {items s : ItemSet}
    (carries : q.Carries start items n s) (filled : s.isEmpty = false) :
    Relation.ReflTransGen Call.Leads ⟨q, start, stop, items⟩ ⟨q, n, stop, s⟩ := by
  induction carries with
  | here => exact .refl
  | along _ arc label filled' gives ih => exact (ih filled').tail (.along arc label filled' gives filled)

end Query

namespace Inquiry

/-- An inquiry without end has asked for a selection that does not end, if only answers are given
that selections come to. -/
theorem exists_endless {p : Inquiry ItemSet}
    (endless : ∀ o, p.Results o → o = none) : ∃ s x, p.Asks s x ∧ ∀ r, ¬ s.Gives x r := by
  induction p with
  | done r => cases endless _ (.done r)
  | ask s x next ih =>
    by_cases answered : ∃ r, s.Gives x r
    · obtain ⟨r, gives⟩ := answered
      cases r with
      | error e => cases endless _ (.failed ⟨_, gives, .refl _⟩)
      | ok found =>
        obtain ⟨t, y, asks, unanswered⟩ := ih found fun o results =>
          endless o (.found ⟨_, gives, .refl _⟩ results)
        exact ⟨t, y, .later gives asks, unanswered⟩
    · exact ⟨s, x, .here s x next, fun r gives => answered ⟨r, gives⟩⟩

theorem Asks.holds {P : Selection → Prop} {p : Inquiry ItemSet} {s : Selection} {x : Item}
    (asks : p.Asks s x) (only : p.AsksOnly P) : P s := by
  induction asks with
  | here => exact only.1
  | later _ _ ih => exact ih (only.2 _)

end Inquiry

namespace Evaluator

open EvalM

variable {known : Set Query} {q : Query} {start stop n : Node} {items s : ItemSet}
  {op : Operation}

theorem able_fresh (known : Set Query) (q : Query) (memoize : Bool) :
    Able known q (.fresh memoize) :=
  (clear_fresh q memoize).able (coherent_fresh known memoize)

section

variable (lib : Library known) (member : q ∈ known)

include lib member

/-- What an operation makes of a set is one of its outcomes. -/
theorem results_of_gives {r : Except Error ItemSet} (listed : op ∈ q.operations)
    (filled : s.isEmpty = false) (gives : op.Gives s r) : op.Results s (some r) := by
  obtain ⟨fuel, ev, ends⟩ := gives
  obtain ⟨-, -, results⟩ := (understood lib member).applies fuel op listed
    (able_fresh known q true).toReady filled ends
  exact results (.inr ⟨lib, rfl⟩)

/-- An operation that comes to an outcome on a set makes a like outcome of every equal set. -/
theorem gives_of_results {r : Except Error ItemSet} {t : ItemSet} (listed : op ∈ q.operations)
    (filled : s.isEmpty = false) (same : t.essence = s.essence) (results : op.Results t (some r)) :
    ∃ r', op.Gives s r' ∧ Alike r r' := by
  have pure := lib.isPure q member q .refl op listed
  obtain ⟨fuel, -, r', ev, ends, -⟩ := (understood lib member).ends False (.inr lib) op listed
    (.fresh true) s (able_fresh known q true) filled
    (Inquiry.resolved_of_not_endless (pure.not_endless same results))
  have gives : op.Gives s r' := ⟨fuel, ev, ends⟩
  exact ⟨r', gives, pure.alike same results (results_of_gives lib member listed filled gives)⟩

/-- What is carried can be reached. -/
theorem reaches_of_carries (stop : Node) (carries : q.Carries start items n s)
    (filled : s.isEmpty = false) : q.Reaches ⟨q.id, start, stop, items.essence⟩
      ⟨q.id, n, stop, s.essence⟩ := by
  induction carries with
  | here => exact .refl q _
  | along _ arc label filled' gives ih =>
    have listed := Query.mem_steps.mpr ⟨arc, label⟩
    have results := results_of_gives lib member (Query.mem_operations_of_mem_steps listed) filled' gives
    exact (ih filled').tail ⟨_, _, _, ⟨listed, _, rfl, filled', results⟩, filled, rfl⟩

/-- What can be reached is carried. -/
theorem carries_of_reaches (filled : items.isEmpty = false) {k : Spot}
    (reaches : q.Reaches ⟨q.id, start, stop, items.essence⟩ k) :
    ∃ s, q.Carries start items k.start s ∧ s.isEmpty = false ∧ s.essence = k.items := by
  induction reaches with
  | refl => exact ⟨items, .here, filled, rfl⟩
  | tail _ leads ih =>
    obtain ⟨s, carries, filled', same⟩ := ih
    obtain ⟨a, op, reached, ⟨listed, t, same', -, results⟩, further, rfl⟩ := leads
    obtain ⟨arc, label⟩ := Query.mem_steps.mp listed
    obtain ⟨r, gives, alike⟩ := gives_of_results lib member (Query.mem_operations_of_mem_steps listed)
      filled' (same'.trans same.symm) results
    cases alike with
    | ok equal =>
      have equal := ItemSet.essence_eq_iff.mpr equal
      exact ⟨_, .along carries arc label filled' gives, (ItemSet.isEmpty_congr equal).symm.trans further,
        equal.symm⟩

/-- What can be reached belongs to a selection that can be reached. -/
theorem mem_reachable_of_reaches (filled : items.isEmpty = false) {k : Spot}
    (reaches : q.Reaches ⟨q.id, start, stop, items.essence⟩ k) :
    k ∈ Call.reachable ⟨q, start, stop, items⟩ := by
  obtain ⟨s, carries, filled', same⟩ := carries_of_reaches lib member filled reaches
  have query : k.query = q.id := Query.Reaches.query reaches
  have stops : k.stop = stop := Query.Reaches.stop reaches
  refine ⟨_, carries.leads filled', ?_⟩
  change (⟨q.id, k.start, stop, s.essence⟩ : Spot) = k
  rw [same, ← query, ← stops]

/-- A frame gathers what is carried to its end. -/
theorem gathers_iff (filled : items.isEmpty = false) (c : Content) :
    q.Gathers ⟨q.id, start, stop, items.essence⟩ c ↔
      ∃ s, q.Carries start items stop s ∧ c ∈ s.contents := by
  constructor
  · rintro ⟨k, reaches, arrived, content⟩
    obtain ⟨s, carries, -, same⟩ := carries_of_reaches lib member filled reaches
    rw [arrived, Query.Reaches.stop reaches] at carries
    exact ⟨s, carries, ItemSet.mem_essence.mp (same ▸ content)⟩
  · rintro ⟨s, carries, content⟩
    have filled' : s.isEmpty = false := by
      rw [← Bool.not_eq_true]
      intro empty
      simp [ItemSet.contents_eq_nil empty] at content
    exact ⟨_, reaches_of_carries lib member stop carries filled', rfl, ItemSet.mem_essence.mpr content⟩

/-- A frame is doomed if an operation fails on what is carried. -/
theorem dooms_iff (filled : items.isEmpty = false) :
    q.Dooms ⟨q.id, start, stop, items.essence⟩ ↔ q.Fails start items := by
  constructor
  · rintro ⟨k, reaches, a, op, e, listed, t, same', -, results⟩
    obtain ⟨s, carries, filled', same⟩ := carries_of_reaches lib member filled reaches
    obtain ⟨arc, label⟩ := Query.mem_steps.mp listed
    obtain ⟨r, gives, alike⟩ := gives_of_results lib member (Query.mem_operations_of_mem_steps listed)
      filled' (same'.trans same.symm) results
    cases alike with
    | error => exact ⟨_, s, carries, filled', a, arc, op, label, _, gives⟩
  · rintro ⟨n, s, carries, filled', a, arc, op, label, e, gives⟩
    have listed := Query.mem_steps.mpr ⟨arc, label⟩
    have results := results_of_gives lib member (Query.mem_operations_of_mem_steps listed) filled' gives
    exact ⟨_, reaches_of_carries lib member stop carries filled', a, op, e, listed, s, rfl, filled',
      results⟩

/-- What a frame selects is what all walks carry to its end, and nothing fails on the way. -/
theorem carries_of_selects {f : Frame} {found : ItemSet}
    (query : q.id = f.query) (selects : q.Selects f found) :
    ¬ q.Fails f.start f.items ∧ found.itemType = f.stop.inputType ∧
      ∀ x, x ∈ found ↔ ∃ s, q.Carries f.start f.items f.stop s ∧ x ∈ s := by
  have spot : f.spot = ⟨q.id, f.start, f.stop, f.items.essence⟩ := by rw [query]; rfl
  refine ⟨fun fails => ?_, selects.itemType, fun x => ?_⟩
  · cases empty : f.items.isEmpty with
    | false =>
      exact selects.safe.not_dooms (spot ▸ (dooms_iff lib member empty).mpr fails)
    | true =>
      obtain ⟨n, s, carries, filled, -⟩ := fails
      rw [carries.eq_of_isEmpty empty, empty] at filled
      cases filled
  simp only [ItemSet.mem_iff_content_mem]
  rw [selects.contents, spot]
  cases empty : f.items.isEmpty with
  | false => exact gathers_iff lib member empty x.content
  | true =>
    have nothing : f.items.contents = [] := ItemSet.contents_eq_nil empty
    constructor
    · rintro ⟨k, reaches, -, content⟩
      obtain rfl | ⟨_, ⟨a, op, t, ⟨-, s, same, filled, -⟩, -⟩, -⟩ := reaches.cases_head
      · simp [nothing] at content
      · rw [ItemSet.isEmpty_congr same, empty] at filled
        cases filled
    · rintro ⟨s, carries, content⟩
      rw [carries.eq_of_isEmpty empty, nothing] at content
      cases content

end

end Evaluator

end GraphQuery
