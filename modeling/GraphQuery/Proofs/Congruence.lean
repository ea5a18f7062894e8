import GraphQuery.Proofs.Discernment
import GraphQuery.Proofs.Serving
/-!
# Equal sets on equal sets

What is looked up of a frame is looked up under every equal frame, so operations had better not tell
equal sets apart. By induction on the nesting of queries they do not, if callers' functions respect
equality and the types that are checked are blind: then an operation passes on a set if and only if it
passes on every equal set, with equal results, whatever evaluators it is applied on. Other types do
tell equal sets apart.
-/

namespace GraphQuery

theorem Selection.Gives.unique {s : Selection} {x : Item} {r r' : Except Error ItemSet}
    (left : s.Gives x r) (right : s.Gives x r') : r = r' := by
  obtain ⟨n, ev, ends⟩ := left
  obtain ⟨m, ev', ends'⟩ := right
  exact (EvalM.Ends.unique_of_growing
    (fun _ _ le => Evaluator.nestedBy_refines (Evaluator.visit_refines le) s x) ends ends').1

/-- Selections in queries all of whose operations are stable come to equal sets from equal items. -/
theorem Selection.isStable_of_collection {known : Set Query} (col : Collection known) {s : Selection}
    (member : s.query ∈ known) : s.IsStable := by
  intro x y equal u o left right
  have mirrors := Evaluator.nested_mirrors col member (Evaluator.understood_of_stable col member) equal
  obtain ⟨r, gives, alike⟩ : s.Answers x (some (.ok u)) := by
    cases left with
    | found answer rest =>
      cases Inquiry.results_pure.mp rest
      exact answer
  obtain ⟨n, ev, ends⟩ := gives
  cases alike with | @ok u₀ _ same
  obtain ⟨-, -, mirrored⟩ := mirrors (Evaluator.coherent_fresh known true).toTruthful
    (Evaluator.coherent_fresh known true) (Evaluator.clear_fresh s.query true)
    (Evaluator.clear_fresh s.query true) ends
  obtain ⟨m, r', ev', ends', alike'⟩ := mirrored (.inl ⟨u₀, rfl⟩)
  have gives' : s.Gives y r' := ⟨m, ev', ends'⟩
  cases alike' with | @ok _ v₀ same'
  have only {r : Except Error ItemSet} (answer : s.Answers y (some r)) : Alike (.ok v₀) r := by
    obtain ⟨r₀, other, alike⟩ := answer
    exact gives'.unique other ▸ alike
  cases right with
  | endless answer => exact (answer _ gives').elim
  | failed answer => cases only answer
  | @found _ _ _ v _ answer rest =>
    cases only answer with
    | ok same'' =>
      refine ⟨v, Inquiry.results_pure.mp rest, ItemSet.essence_eq_iff.mpr ?_⟩
      exact BEq.trans (BEq.symm same) (BEq.trans same' same'')

namespace Query

/-- The functions that callers supplied for the operations of a query, and of the queries nested in
it, respect equality. -/
def Lawful (q : Query) : Prop :=
  ∀ r, q.Within r → ∀ op ∈ r.operations, op.Lawful

theorem Flat.lawful {q : Query} (flat : q.Flat) (lawful : ∀ op ∈ q.operations, op.Lawful) : q.Lawful := by
  intro r within
  rw [flat.eq_of_within within]
  exact lawful

/-- The types that the operations of a query check, and of the queries nested in it, are blind. -/
def Blind (q : Query) : Prop :=
  ∀ r, q.Within r → ∀ op ∈ r.operations, op.Blind

/-- By induction on nesting, all operations of lawful and blind queries are stable. -/
theorem isStable_of_lawful {queries : Set Query} (numbered : Numbered queries)
    (lawful : ∀ q ∈ queries, q.Lawful) (blind : ∀ q ∈ queries, q.Blind) {q r : Query}
    (member : q ∈ queries) (within : q.Within r) {p : Query} (deeper : r.Within p) : p.IsStable := by
  induction r using nests_wf.induction generalizing p with
  | _ r ih =>
    have below {r' : Query} (nests : r.Nests r') {p : Query} (deeper : r'.Within p) : p.IsStable :=
      ih r' nests (within.tail nests) deeper
    obtain rfl | ⟨r', nests, deeper⟩ := deeper.cases_head
    · intro op listed
      refine Operation.isStable_of_lawful (lawful q member r within op listed)
        (blind q member r within op listed) fun s selects => ?_
      have nests : r.Nests s.query := ⟨op, listed, s, selects, rfl⟩
      have inner : Numbered {s.query} := by
        rintro _ rfl _ rfl q' r' within' within''
        exact numbered q member q member q' r' ((within.tail nests).trans within')
          ((within.tail nests).trans within'')
      have col : Collection {p | ∃ q ∈ ({s.query} : Set Query), q.Within p} := by
        refine ⟨Shelf.of_queries inner, ?_⟩
        rintro p ⟨_, rfl, deeper⟩
        exact below nests deeper
      exact Selection.isStable_of_collection col ⟨_, rfl, .refl⟩
    · exact below nests deeper

/-- Lawful and blind queries are a collection, together with the queries nested in them. -/
theorem collection_of_lawful {queries : Set Query} (numbered : Numbered queries)
    (lawful : ∀ q ∈ queries, q.Lawful) (blind : ∀ q ∈ queries, q.Blind) :
    Collection {r | ∃ q ∈ queries, q.Within r} where
  toShelf := .of_queries numbered
  isStable := by
    rintro r ⟨q, member, within⟩
    exact isStable_of_lawful numbered lawful blind member within .refl

end Query

namespace Evaluator

open EvalM

variable {queries : Set Query} {config config' : Config} {ev ev' : Evaluator} {op : Operation}

/-- Between calls an evaluator without limit is coherent. -/
theorem Serves.coherent {known : Set Query} (col : Collection known) (included : queries ⊆ known)
    (serves : Serves queries config ev) (unlimited : config.maxDepth? = none) : Coherent known ev := by
  obtain ⟨-, same⟩ := serves.resting col.toShelf included
  exact ⟨serves.truthful col included, by rw [same, unlimited]⟩

/-- An operation that passes on a set passes on every equal set, whatever calls were made before, and
comes to equal sets, if neither it nor the queries in use can tell equal items apart: callers' functions
respect equality, and the types that are checked are blind. -/
theorem apply_congr (numbered : Query.Numbered queries) (lawful : ∀ q ∈ queries, q.Lawful)
    (blind : ∀ q ∈ queries, q.Blind) (serves : Serves queries config ev)
    (serves' : Serves queries config' ev') (unlimited : config.maxDepth? = none)
    (unlimited' : config'.maxDepth? = none) (lawful' : op.Lawful) (blind' : op.Blind)
    (selects : ∀ s ∈ op.selections, s.query ∈ queries) {a b : ItemSet} (equal : (a == b) = true) :
    ((∃ fuel s ev₁, (op.apply (nested fuel) a).Ends ev (.ok s) ev₁) ↔
      ∃ fuel t ev₁, (op.apply (nested fuel) b).Ends ev' (.ok t) ev₁) ∧
    ∀ fuel fuel' s t ev₁ ev₁', (op.apply (nested fuel) a).Ends ev (.ok s) ev₁ →
      (op.apply (nested fuel') b).Ends ev' (.ok t) ev₁' → (s == t) = true := by
  have col := Query.collection_of_lawful numbered lawful blind
  have included := Query.subset_within queries
  have nested (s : Selection) (member : s ∈ op.selections) :
      s.query ∈ {r | ∃ q ∈ queries, q.Within r} ∧
        Understood {r | ∃ q ∈ queries, q.Within r} s.query :=
    ⟨included (selects s member), understood_of_stable col (included (selects s member))⟩
  have stable : op.IsStable := Operation.isStable_of_lawful lawful' blind' fun s member =>
    Selection.isStable_of_collection col (nested s member).1
  have results {config : Config} {ev : Evaluator} (serves : Serves queries config ev) {a s : ItemSet}
      {fuel : Nat} {ev₁ : Evaluator} (ends : (op.apply (Evaluator.nested fuel) a).Ends ev (.ok s) ev₁) :
      op.Results a (some (.ok s)) := by
    have closed := (serves.resting col.toShelf included).1.openSpots
    rw [op.apply_eq_run] at ends
    obtain ⟨-, -, results⟩ := run_results col nested (op.inquiry_asksOnly a)
      (serves.truthful col included) (fun s _ => clear_of_closed closed s.query) ends
    exact results (.inl ⟨s, rfl⟩)
  have passes {config config' : Config} {ev ev' : Evaluator} (serves : Serves queries config ev)
      (serves' : Serves queries config' ev') (unlimited' : config'.maxDepth? = none) {a b : ItemSet}
      (equal : (a == b) = true) (passed : ∃ fuel s ev₁, (op.apply (Evaluator.nested fuel) a).Ends ev
        (.ok s) ev₁) : ∃ fuel t ev₁, (op.apply (Evaluator.nested fuel) b).Ends ev' (.ok t) ev₁ := by
    obtain ⟨fuel, s, ev₁, ends⟩ := passed
    have closed := (serves'.resting col.toShelf included).1.openSpots
    -- stability rules out that the selections on the equal set fail or do not end
    have resolved : (op.inquiry b).Resolved True := by
      intro o other
      obtain ⟨t, rfl, -⟩ := stable equal (results serves ends) other
      exact ⟨_, rfl, fun _ => rfl⟩
    obtain ⟨fuel', r, ev₁', ends', passes⟩ := run_resolves col nested (.inl trivial)
      (op.inquiry_asksOnly b) (serves'.coherent col included unlimited')
      (fun s _ => clear_of_closed closed s.query) resolved
    cases r with
    | ok t => exact ⟨fuel', t, ev₁', by rwa [op.apply_eq_run]⟩
    | error => cases passes trivial
  refine ⟨⟨passes serves serves' unlimited' equal, passes serves' serves unlimited (BEq.symm equal)⟩,
    fun fuel fuel' s t ev₁ ev₁' left right => ?_⟩
  obtain ⟨_, ⟨⟩, same⟩ := stable equal (results serves left) (results serves' right)
  exact same

end Evaluator

/-! Equal tuples that are declared differently -/

/-- The tuple of the number one, its slot declared as the kind of its value. -/
def Item.declared : Item :=
  .tuple (.ofValues [.atom (.int64 1)])

/-- The tuple of the number one, its slot open to any value. -/
def Item.undeclared : Item :=
  .tuple ⟨[⟨.atom (.int64 1), .any⟩], false⟩

theorem Item.declared_beq_undeclared : (declared == undeclared) = true := by
  decide

namespace Query

theorem lawful_tally : tally.Lawful := by
  refine flat_tally.lawful fun op listed => ?_
  obtain rfl | rfl := mem_operations_tally.mp listed
  · exact .filter (.anything .any)
  · exact .count .any

theorem blind_tally : tally.Blind := by
  intro r within op listed
  rw [flat_tally.eq_of_within within] at listed
  obtain rfl | rfl := mem_operations_tally.mp listed <;> exact fun t contra => nomatch contra

end Query

namespace Evaluator

open EvalM

/-- A slot open to any value is found in both of two equal tuples, before and after a selection. -/
theorem apply_congr_slot : ∃ r ev, (∃ fuel, (select fuel Query.tally Query.tallySource Query.tallySink
      (.singleton Item.declared .any)).Ends (.fresh true) r ev) ∧
    ∃ fuel s t ev₁ ev₂,
      ((Operation.follow (.slot [.any] 0)).apply (nested fuel) (.singleton Item.declared .any)).Ends
        (.fresh true) (.ok s) ev₁ ∧
      ((Operation.follow (.slot [.any] 0)).apply (nested fuel) (.singleton Item.undeclared .any)).Ends
        ev (.ok t) ev₂ ∧ (s == t) = true := by
  obtain ⟨fuel, r, ev, ends⟩ := select_halts
    (Library.of_queries Query.numbered_tally fun q same => same ▸ Query.isPure_tally)
    ⟨Query.tally, rfl, .refl⟩ (Query.reachable_tally (.singleton Item.declared .any))
    (coherent_fresh _ true) (clear_fresh Query.tally true)
  have serves : Serves {Query.tally} {} (.fresh true) := .nothing
  have serves' : Serves {Query.tally} {} ev := .selecting .nothing (.select rfl ends)
  have blind : (Operation.follow (.slot [.any] 0)).Blind :=
    List.forall_mem_singleton.mpr (ItemType.blind_tuple_iff.mpr (List.forall_mem_singleton.mpr rfl))
  obtain ⟨-, equal⟩ := apply_congr Query.numbered_tally (fun q same => same ▸ Query.lawful_tally)
    (fun q same => same ▸ Query.blind_tally) serves serves' rfl rfl (.follow (.slot [.any] 0)) blind
    (fun s contra => nomatch contra)
    (ItemSet.essence_eq_iff.mp (ItemSet.essence_singleton Item.declared_beq_undeclared .any))
  have left : ((Operation.follow (.slot [.any] 0)).apply (nested 0) (.singleton Item.declared .any)).Ends
      (.fresh true) _ _ := ends_pure.mpr ⟨rfl, rfl⟩
  have right : ((Operation.follow (.slot [.any] 0)).apply (nested 0) (.singleton Item.undeclared .any)).Ends
      ev _ _ := ends_pure.mpr ⟨rfl, rfl⟩
  exact ⟨r, ev, ⟨fuel, ends⟩, 0, _, _, _, _, left, right, equal _ _ _ _ _ _ left right⟩

/-- A slot of a number is found in one of two equal tuples only. -/
theorem slot_tells_apart :
    (ItemSet.singleton Item.declared .any == ItemSet.singleton Item.undeclared .any) = true ∧
    (Operation.follow (.slot [.kind .int64] 0)).Lawful ∧
    (∃ fuel s ev, ((Operation.follow (.slot [.kind .int64] 0)).apply (nested fuel)
      (.singleton Item.declared .any)).Ends (.fresh true) (.ok s) ev) ∧
    ¬ ∃ fuel t ev, ((Operation.follow (.slot [.kind .int64] 0)).apply (nested fuel)
      (.singleton Item.undeclared .any)).Ends (.fresh true) (.ok t) ev := by
  refine ⟨ItemSet.essence_eq_iff.mp (ItemSet.essence_singleton Item.declared_beq_undeclared .any),
    .follow (.slot _ _), ⟨0, _, _, ends_pure.mpr ⟨rfl, rfl⟩⟩, ?_⟩
  rintro ⟨fuel, t, ev, ends⟩
  have failed : ((Operation.follow (.slot [.kind .int64] 0)).apply (nested fuel)
      (.singleton Item.undeclared .any)).Ends (.fresh true) (.error (.operation (.wrongTuple "slot 0"
        [.kind .int64] [.any]))) (.fresh true) := ends_throw.mpr ⟨rfl, rfl⟩
  cases (ends.unique failed).1

end Evaluator

end GraphQuery
