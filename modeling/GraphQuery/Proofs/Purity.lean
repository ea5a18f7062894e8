import GraphQuery.Proofs.ItemSetLaws
import GraphQuery.Proofs.Steps
/-!
# Pure operations

An operation is pure if its outcome is determined by its input set, up to equality: an equal set, or
an error, or no end at all. The selections that an operation makes are themselves known up to
equality only, as an evaluator may answer them with any of several equal sets. So the outcomes of
an operation are those that it comes to with any answers equal to what an evaluator finds that has
done nothing before. An operation is stable if this holds of its successes: where it comes to a set
from one input, it comes to an equal set from every equal input.
-/

namespace GraphQuery

/-- An evaluator with some settings that has done nothing yet. -/
def Evaluator.started (config : Config) : Evaluator :=
  { config }

/-- An evaluator that has done nothing yet and has no limit. -/
def Evaluator.fresh (memoize : Bool) : Evaluator :=
  { config := { memoize } }

namespace Selection

/-- What a selection comes to for an item on an evaluator that has done nothing yet. -/
def Gives (s : Selection) (x : Item) (r : Except Error ItemSet) : Prop :=
  ∃ fuel ev, (Evaluator.nested fuel s x).Ends (.fresh true) r ev

/-- The answers that a selection may get: all that are like what it comes to, or none if it does
not end. -/
def Answers (s : Selection) (x : Item) : Option (Except Error ItemSet) → Prop
  | some r => ∃ r₀, s.Gives x r₀ ∧ Alike r₀ r
  | none => ∀ r, ¬ s.Gives x r

/-- The nodes at which a selection ends. -/
def stops (s : Selection) : List Node :=
  match s.stop? with
  | some stop => [stop]
  | none => s.query.resultNodes

/-- The output type of a selection accepts what any of its ends takes. -/
theorem outputType_accepts (s : Selection) {stop : Node} (listed : stop ∈ s.stops) :
    s.outputType.accepts stop.inputType = true := by
  unfold stops at listed
  unfold outputType
  cases single : s.stop? with
  | some stop' =>
    rw [single] at listed
    rw [List.mem_singleton.mp listed]
    exact ItemType.accepts_refl _
  | none =>
    rw [single] at listed
    have typed := List.mem_map_of_mem (f := Node.inputType) listed
    cases types : s.query.resultNodes.map Node.inputType with
    | nil => exact ItemType.any_accepts _
    | cons t ts => exact ItemType.foldl_common_accepts ts t _ (types ▸ typed)

theorem outputType_eq_any {s : Selection} (none : s.stops = []) : s.outputType = .any := by
  unfold stops at none
  unfold outputType
  cases single : s.stop? with
  | some stop => simp [single] at none
  | none =>
    rw [single] at none
    simp [show s.query.resultNodes = [] from none]

end Selection

namespace Inquiry

variable {α : Type}

/-- The outcomes of an inquiry, where none stands for not ending. -/
inductive Results : Inquiry α → Option (Except Error α) → Prop where
  | done (r : Except Error α) : Results (.done r) (some r)
  | found {s : Selection} {x : Item} {next : ItemSet → Inquiry α} {found : ItemSet}
    {o : Option (Except Error α)} (answer : s.Answers x (some (.ok found)))
    (rest : Results (next found) o) : Results (.ask s x next) o
  | failed {s : Selection} {x : Item} {next : ItemSet → Inquiry α} {e : Error}
    (answer : s.Answers x (some (.error e))) : Results (.ask s x next) (some (.error e))
  | endless {s : Selection} {x : Item} {next : ItemSet → Inquiry α}
    (answer : s.Answers x none) : Results (.ask s x next) none

/-- An inquiry asks for a selection if the selections before it come to what they come to on an
evaluator that has done nothing yet. -/
inductive Asks : Inquiry α → Selection → Item → Prop where
  | here (s : Selection) (x : Item) (next : ItemSet → Inquiry α) : Asks (.ask s x next) s x
  | later {s t : Selection} {x y : Item} {next : ItemSet → Inquiry α} {found : ItemSet}
    (answer : s.Gives x (.ok found)) (rest : Asks (next found) t y) : Asks (.ask s x next) t y

/-- An inquiry comes to some end, and passes if that is sure. -/
def Resolved (sure : Prop) (p : Inquiry α) : Prop :=
  ∀ o, p.Results o → ∃ r, o = some r ∧ (sure → r.isOk = true)

theorem resolved_of_not_endless {p : Inquiry α} (ends : ¬ p.Results none) : p.Resolved False := by
  intro o results
  match o with
  | none => exact (ends results).elim
  | some r => exact ⟨r, rfl, False.elim⟩

/-- Every inquiry comes to something, if only to no end. -/
theorem Results.exists (p : Inquiry α) : ∃ o, p.Results o := by
  induction p with
  | done r => exact ⟨_, .done r⟩
  | ask s x next ih =>
    by_cases ends : ∃ r, s.Gives x r
    · obtain ⟨r, gives⟩ := ends
      cases r with
      | error e => exact ⟨_, .failed ⟨_, gives, .refl _⟩⟩
      | ok found =>
        obtain ⟨o, rest⟩ := ih found
        exact ⟨o, .found ⟨_, gives, .refl _⟩ rest⟩
    · exact ⟨none, .endless fun r gives => ends ⟨r, gives⟩⟩

end Inquiry

namespace Operation

/-- The outcomes of an operation on a set of items, where none stands for not ending. -/
def Results (op : Operation) (items : ItemSet) (o : Option (Except Error ItemSet)) : Prop :=
  (op.inquiry items).Results o

/-- Equal sets give like outcomes, or none of them has one. -/
def IsPure (op : Operation) : Prop :=
  ∀ ⦃a b : ItemSet⦄, (a == b) = true → ∀ ⦃o o'⦄, op.Results a o → op.Results b o' →
    Option.Rel Alike o o'

/-- Equal sets give equal sets, if one of them gives a set at all. -/
def IsStable (op : Operation) : Prop :=
  ∀ ⦃a b : ItemSet⦄, (a == b) = true → ∀ ⦃s o⦄, op.Results a (some (.ok s)) → op.Results b o →
    ∃ t, o = some (.ok t) ∧ (s == t) = true

/-- What an operation makes of a set of items on an evaluator that has done nothing yet. -/
def Gives (op : Operation) (items : ItemSet) (r : Except Error ItemSet) : Prop :=
  ∃ fuel ev, (op.apply (Evaluator.nested fuel) items).Ends (.fresh true) r ev

/-- On a set of items, an operation asks for a selection. -/
def Asks (op : Operation) (items : ItemSet) (s : Selection) (x : Item) : Prop :=
  (op.inquiry items).Asks s x

variable {op : Operation}

theorem IsPure.alike (pure : op.IsPure) {a b : ItemSet} (same : a.essence = b.essence)
    {r r' : Except Error ItemSet} (left : op.Results a (some r)) (right : op.Results b (some r')) :
    Alike r r' := by
  cases pure (ItemSet.essence_eq_iff.mp same) left right with
  | some alike => exact alike

theorem IsPure.not_endless (pure : op.IsPure) {a b : ItemSet} (same : a.essence = b.essence)
    {r : Except Error ItemSet} (ended : op.Results a (some r)) : ¬ op.Results b none :=
  fun endless => nomatch pure (ItemSet.essence_eq_iff.mp same) ended endless

theorem IsPure.isStable (pure : op.IsPure) : op.IsStable := by
  intro a b equal s o left right
  cases pure equal left right with
  | some alike =>
    cases alike with
    | ok same => exact ⟨_, rfl, same⟩

/-- An operation that does not tell equal sets apart is pure if it passes on all sets. -/
theorem IsStable.isPure (stable : op.IsStable)
    (passes : ∀ items, ∃ u, op.Results items (some (.ok u))) : op.IsPure := by
  intro a b equal o o' left right
  obtain ⟨u, passed⟩ := passes a
  obtain ⟨s, rfl, -⟩ := stable BEq.rfl passed left
  obtain ⟨t, rfl, same⟩ := stable equal left right
  exact .some (.ok same)

theorem Results.exists (op : Operation) (items : ItemSet) : ∃ o, op.Results items o :=
  Inquiry.Results.exists _

end Operation

namespace Query

/-- Every operation of a query, and of the queries nested in it, is pure. -/
def IsPure (q : Query) : Prop :=
  ∀ r, q.Within r → ∀ op ∈ r.operations, op.IsPure

theorem IsPure.within {q r : Query} (pure : q.IsPure) (within : q.Within r) : r.IsPure :=
  fun s deeper => pure s (within.trans deeper)

/-- Every operation of a query is stable. -/
def IsStable (q : Query) : Prop :=
  ∀ op ∈ q.operations, op.IsStable

theorem IsPure.isStable {q : Query} (pure : q.IsPure) : q.IsStable :=
  fun op listed => (pure q .refl op listed).isStable

end Query

end GraphQuery
