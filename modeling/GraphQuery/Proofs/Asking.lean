import GraphQuery.Proofs.Carrying
import GraphQuery.Proofs.Discernment
/-!
# What operations ask for

An inquiry that passes has asked for some selections on the way. Which ones these are may depend on the
set it is made for: equal sets can be told apart by the members of a filter set, each of which decides
whether those after it are tried, even where the filter set as a whole is pure. So on equal sets an
operation asks for the same only if the members of its filter sets decide alike on equal items. They do
if they are pure on their own. What an operation asks for on every one of several equal sets, it has
asked for in any case.
-/

namespace GraphQuery

namespace Inquiry

variable {α β : Type} {p : Inquiry α} {s : Selection} {x y : Item} {log log' : List (Selection × Item)}

/-- An inquiry comes to a value and has asked for some selections on the way, each of which came to a
set. -/
inductive Logs : Inquiry α → List (Selection × Item) → α → Prop where
  | done (a : α) : Logs (.done (.ok a)) [] a
  | ask {s : Selection} {x : Item} {next : ItemSet → Inquiry α} {found : ItemSet}
    {log : List (Selection × Item)} {a : α} (answer : s.Answers x (some (.ok found)))
    (rest : Logs (next found) log a) : Logs (.ask s x next) ((s, x) :: log) a

theorem Logs.results {a : α} (logs : p.Logs log a) : p.Results (some (.ok a)) := by
  induction logs with
  | done a => exact .done (.ok a)
  | ask answer _ ih => exact .found answer ih

theorem Results.logs {a : α} (results : p.Results (some (.ok a))) : ∃ log, p.Logs log a := by
  induction p with
  | done r =>
    cases results
    exact ⟨[], .done a⟩
  | ask s x next ih =>
    cases results with
    | found answer rest =>
      obtain ⟨log, logs⟩ := ih _ rest
      exact ⟨_, .ask answer logs⟩

/-- Whatever an inquiry may ask for that always passes, it has asked for in one of its ways to pass. -/
theorem Asks.logs (asks : p.Asks s x) (passes : ∀ o, p.Results o → ∃ a, o = some (.ok a)) :
    ∃ log a, p.Logs log a ∧ (s, x) ∈ log := by
  induction asks with
  | here s x next =>
    obtain ⟨o, results⟩ := Results.exists (.ask s x next)
    obtain ⟨a, rfl⟩ := passes o results
    cases results with
    | found answer rest =>
      obtain ⟨log, logs⟩ := rest.logs
      exact ⟨_, a, .ask answer logs, List.mem_cons_self⟩
  | later gives _ ih =>
    have answer : Selection.Answers _ _ (some _) := ⟨_, gives, .refl _⟩
    obtain ⟨log, a, logs, member⟩ := ih fun o results => passes o (.found answer results)
    exact ⟨_, a, .ask answer logs, List.mem_cons_of_mem _ member⟩

theorem logs_pure {a b : α} : (pure a : Inquiry α).Logs log b ↔ log = [] ∧ b = a := by
  constructor
  · rintro ⟨⟩
    exact ⟨rfl, rfl⟩
  · rintro ⟨rfl, rfl⟩
    exact .done b

theorem logs_ofOutcome {r : Except Error α} {a : α} :
    (ofOutcome r : Inquiry α).Logs log a ↔ log = [] ∧ r = .ok a := by
  cases r with
  | ok b => simp only [ofOutcome, logs_pure, Except.ok.injEq, eq_comm]
  | error e =>
    constructor
    · rintro ⟨⟩
    · rintro ⟨-, ⟨⟩⟩

theorem logs_bind {f : α → Inquiry β} {b : β} : (p >>= f).Logs log b ↔
    ∃ first rest a, log = first ++ rest ∧ p.Logs first a ∧ (f a).Logs rest b := by
  induction p generalizing log with
  | done r =>
    cases r with
    | ok a =>
      rw [bind_done_ok]
      constructor
      · exact fun logs => ⟨[], log, a, rfl, .done a, logs⟩
      · rintro ⟨_, _, _, rfl, ⟨⟩, rest⟩
        exact rest
    | error e => exact iff_of_false nofun fun ⟨_, _, _, _, contra, _⟩ => nomatch contra
  | ask s x next ih =>
    rw [bind_ask]
    constructor
    · rintro (_ | ⟨answer, logs⟩)
      obtain ⟨first, rest, a, rfl, passed, later⟩ := (ih _).mp logs
      exact ⟨(s, x) :: first, rest, a, rfl, .ask answer passed, later⟩
    · rintro ⟨_, rest, a, rfl, _ | ⟨answer, passed⟩, later⟩
      exact .ask answer ((ih _).mpr ⟨_, rest, a, rfl, passed, later⟩)

/-- What is done for each member of a list asks for what it asks for one of them. -/
theorem logs_mapM {f : α → Inquiry β} {as : List α} {bs : List β} (logs : (as.mapM f).Logs log bs) :
    (∀ a ∈ as, ∃ part b, (f a).Logs part b ∧ part ⊆ log) ∧
      ∀ asked ∈ log, ∃ a ∈ as, ∃ part b, (f a).Logs part b ∧ asked ∈ part := by
  induction as generalizing log bs with
  | nil =>
    rw [List.mapM_nil] at logs
    obtain ⟨rfl, -⟩ := logs_pure.mp logs
    exact ⟨nofun, nofun⟩
  | cons a as ih =>
    rw [List.mapM_cons] at logs
    obtain ⟨first, _, b, rfl, here, further⟩ := logs_bind.mp logs
    obtain ⟨rest, _, bs, rfl, later, last⟩ := logs_bind.mp further
    obtain ⟨rfl, -⟩ := logs_pure.mp last
    rw [List.append_nil]
    obtain ⟨parts, asked⟩ := ih later
    refine ⟨List.forall_mem_cons.mpr ⟨⟨first, b, here, List.subset_append_left first rest⟩,
      fun a' member => ?_⟩, fun e member => ?_⟩
    · obtain ⟨part, b', logged, included⟩ := parts a' member
      exact ⟨part, b', logged, List.subset_append_of_subset_right first included⟩
    · obtain member | member := List.mem_append.mp member
      · exact ⟨a, List.mem_cons_self, first, b, here, member⟩
      · obtain ⟨a', among, found⟩ := asked e member
        exact ⟨a', List.mem_cons_of_mem a among, found⟩

end Inquiry

/-- Whatever is asked for in the second list is asked for in the first, for an equal item. -/
def AskedFor (log log' : List (Selection × Item)) : Prop :=
  ∀ s y, (s, y) ∈ log' → ∃ x, (s, x) ∈ log ∧ (x == y) = true

namespace AskedFor

variable {log log' part part' : List (Selection × Item)} {s : Selection} {x y : Item}

theorem nil : AskedFor log [] :=
  nofun

theorem single (equal : (x == y) = true) : AskedFor [(s, x)] [(s, y)] := by
  intro t z member
  obtain ⟨rfl, rfl⟩ := Prod.mk.inj (List.mem_singleton.mp member)
  exact ⟨x, List.mem_singleton_self _, equal⟩

theorem append (first : AskedFor log log') (second : AskedFor part part') :
    AskedFor (log ++ part) (log' ++ part') := by
  intro t z member
  obtain member | member := List.mem_append.mp member
  · obtain ⟨x, asked, equal⟩ := first t z member
    exact ⟨x, List.mem_append_left part asked, equal⟩
  · obtain ⟨x, asked, equal⟩ := second t z member
    exact ⟨x, List.mem_append_right log asked, equal⟩

/-- What is done for the members of two lists asks for the same if it does so for matching members. -/
theorem mapM {α β : Type} {f : α → Inquiry β} {as bs : List α} {founds founds' : List β}
    (left : (as.mapM f).Logs log founds) (right : (bs.mapM f).Logs log' founds')
    (pairs : ∀ b ∈ bs, ∃ a ∈ as, ∀ part part' c c', (f a).Logs part c → (f b).Logs part' c' →
      AskedFor part part') : AskedFor log log' := by
  intro s y member
  obtain ⟨b, among, part', c', logs', asked⟩ := (Inquiry.logs_mapM right).2 _ member
  obtain ⟨a, among', askedFor⟩ := pairs b among
  obtain ⟨part, c, logs, included⟩ := (Inquiry.logs_mapM left).1 a among'
  obtain ⟨x, found, equal⟩ := askedFor part part' c c' logs logs' s y asked
  exact ⟨x, included found, equal⟩

/-- Making something of an outcome asks for nothing more. -/
theorem of_bind_pure {α β : Type} {p p' : Inquiry α} {g h : α → β} {u v : β}
    (left : (p >>= fun a => pure (g a)).Logs log u) (right : (p' >>= fun a => pure (h a)).Logs log' v)
    (asked : ∀ {part part' a b}, p.Logs part a → p'.Logs part' b → AskedFor part part') :
    AskedFor log log' := by
  obtain ⟨part, _, _, rfl, first, last⟩ := Inquiry.logs_bind.mp left
  obtain ⟨part', _, _, rfl, first', last'⟩ := Inquiry.logs_bind.mp right
  obtain ⟨rfl, -⟩ := Inquiry.logs_pure.mp last
  obtain ⟨rfl, -⟩ := Inquiry.logs_pure.mp last'
  exact (asked first first').append .nil

/-- Nothing is asked for where an item does not fit. -/
theorem of_fitting {α : Type} {types : List ItemType}
    {p q : { t : Tuple // t.arity = types.length } → Inquiry α} {d e : Error} {a b : α}
    (left : (match x.fitting? types with
      | some t => p t
      | none => throw d).Logs log a)
    (right : (match y.fitting? types with
      | some u => q u
      | none => throw e).Logs log' b)
    (fitting : ∀ t u, x.fitting? types = some t → y.fitting? types = some u → (p t).Logs log a →
      (q u).Logs log' b → AskedFor log log') : AskedFor log log' := by
  cases fits : x.fitting? types with
  | none =>
    rw [fits] at left
    cases left
  | some t =>
    cases fits' : y.fitting? types with
    | none =>
      rw [fits'] at right
      cases right
    | some u =>
      rw [fits] at left
      rw [fits'] at right
      exact fitting t u fits fits' left right

end AskedFor

/-! The members of filter sets -/

namespace Filter

mutual

/-- The members of the filter sets that a filter consists of. -/
def conjuncts : Filter → List Filter
  | .test _ | .anything _ | .equals .. | .counting .. => []
  | .every members _ => allConjuncts members
  | .onSlot _ _ inner => inner.conjuncts

/-- The filters of a set with the members of the filter sets that they consist of. -/
def allConjuncts : List Filter → List Filter
  | [] => []
  | f :: fs => f :: f.conjuncts ++ allConjuncts fs

end

end Filter

/-- The members of the filter sets that a follow consists of. -/
def Follow.conjuncts : Follow → List Filter
  | .map _ | .select _ | .slot .. | .permute .. | .call _ => []
  | .filter f => f.conjuncts
  | .pair inner | .onSlot _ _ inner => inner.conjuncts

/-- The members of the filter sets that an operation consists of. -/
def Operation.conjuncts : Operation → List Filter
  | .filter f => f.conjuncts
  | .follow f => f.conjuncts
  | .count _ => []

/-- The members of filter sets make selections of the filter only. -/
theorem Filter.selections_conjuncts {f g : Filter} (member : g ∈ f.conjuncts) :
    g.selections ⊆ f.selections := by
  induction f with
  | test | anything | equals | counting => cases member
  | every members t ih =>
    rw [conjuncts] at member
    rw [selections]
    induction members with
    | nil => cases member
    | cons f fs rest =>
      rw [allConjuncts, List.mem_append, List.mem_cons] at member
      rw [allSelections]
      obtain (rfl | within) | others := member
      · exact List.subset_append_left _ _
      · exact List.subset_append_of_subset_left _ (ih f List.mem_cons_self within)
      · exact List.subset_append_of_subset_right _
          (rest (fun g member => ih g (List.mem_cons_of_mem f member)) others)
  | onSlot types i inner ih => exact ih member

theorem Follow.selections_conjuncts {f : Follow} {g : Filter} (member : g ∈ f.conjuncts) :
    g.selections ⊆ f.selections := by
  induction f with
  | map | select | slot | permute | call => cases member
  | filter f => exact f.selections_conjuncts member
  | pair inner ih | onSlot types i inner ih => exact ih member

theorem Operation.selections_conjuncts {op : Operation} {g : Filter} (member : g ∈ op.conjuncts) :
    g.selections ⊆ op.selections := by
  cases op with
  | filter f => exact f.selections_conjuncts member
  | follow f => exact f.selections_conjuncts member
  | count => cases member

/-- Every operation of a query, and of the queries nested in it, is pure, and so are the members of its
filter sets, which are operations of their own. -/
def Query.IsPureThroughout (q : Query) : Prop :=
  ∀ r, q.Within r → ∀ op ∈ r.operations, op.IsPure ∧ ∀ f ∈ op.conjuncts, (Operation.filter f).IsPure

theorem Query.IsPureThroughout.isPure {q : Query} (pure : q.IsPureThroughout) : q.IsPure :=
  fun r within op listed => (pure r within op listed).1

/-! Members that decide alike -/

/-- Related items are equal, and where they are tuples that fit, so are their slots. -/
structure Item.Relates (E : Item → Item → Prop) : Prop where
  equal : ∀ ⦃x y⦄, E x y → (x == y) = true
  slots : ∀ ⦃x y⦄, E x y → ∀ ⦃types t u⦄, x.fitting? types = some t → y.fitting? types = some u →
    ∀ i, E (Tuple.valueAt t i) (Tuple.valueAt u i)

theorem Item.relates_beq : Item.Relates fun x y => (x == y) = true where
  equal _ _ := id
  slots _ _ equal _ _ _ fits fits' i :=
    beq_iff.mpr (Tuple.content_valueAt (values_of_fitting equal fits fits') i)

theorem Item.relates_eq : Item.Relates Eq where
  equal _ _ same := same ▸ BEq.rfl
  slots _ _ same _ _ _ fits fits' i := by
    subst same
    rw [Option.some.inj (fits.symm.trans fits')]

/-- On related items a filter comes to one verdict, if it comes to any. -/
def Filter.DecidesAlike (E : Item → Item → Prop) (f : Filter) : Prop :=
  ∀ ⦃x y⦄, E x y → ∀ ⦃v w⦄, (f.accept Inquiry.select x).Results (some (.ok v)) →
    (f.accept Inquiry.select y).Results (some (.ok w)) → v = w

/-- A pure filter decides alike on equal items. -/
theorem Operation.IsPure.decidesAlike {f : Filter} (pure : (Operation.filter f).IsPure) :
    f.DecidesAlike fun x y => (x == y) = true := by
  intro x y equal v w left right
  have outcomes := pure.agree rfl equal (Inquiry.results_bind_pure left) (Inquiry.results_bind_pure right)
  cases outcomes with | some alike
  cases alike with | ok same
  have accepted (c : Content) :
      c ∈ (if v then ItemSet.singleton x f.itemType else .empty f.itemType).contents ↔
        c ∈ (if w then ItemSet.singleton y f.itemType else .empty f.itemType).contents := by
    rw [← ItemSet.mem_essence, ← ItemSet.mem_essence]
    exact Finset.ext_iff.mp same c
  cases v with
  | true =>
    cases w with
    | true => rfl
    | false => exact absurd ((accepted x.content).mp (by simp)) (by simp)
  | false =>
    cases w with
    | true => exact absurd ((accepted y.content).mpr (by simp)) (by simp)
    | false => rfl

/-- Any filter decides alike on one item, if its selections are stable. -/
theorem Filter.decidesAlike_eq {f : Filter} (stable : ∀ s ∈ f.selections, s.IsStable) : f.DecidesAlike Eq := by
  rintro x _ rfl v w left right
  obtain ⟨_, ⟨⟩, same⟩ := accept_sure stable left right
  exact same

/-! What is asked for on related items -/

section

variable {E : Item → Item → Prop} (relates : Item.Relates E) {x y : Item}
  {log log' : List (Selection × Item)}

include relates

/-- On related items a filter asks for the same if its members decide alike. -/
theorem Filter.accept_askedFor {f : Filter} (decides : ∀ g ∈ f.conjuncts, g.DecidesAlike E)
    (related : E x y) {v w : Bool} (left : (f.accept Inquiry.select x).Logs log v)
    (right : (f.accept Inquiry.select y).Logs log' w) : AskedFor log log' := by
  induction f generalizing x y log log' v w with
  | test p =>
    obtain ⟨rfl, -⟩ := Inquiry.logs_ofOutcome.mp right
    exact .nil
  | anything | equals =>
    obtain ⟨rfl, -⟩ := Inquiry.logs_pure.mp right
    exact .nil
  | every members t ih =>
    rw [accept] at left right
    rw [conjuncts] at decides
    induction members generalizing log log' with
    | nil =>
      obtain ⟨rfl, -⟩ := Inquiry.logs_pure.mp right
      exact .nil
    | cons f fs rest =>
      rw [allConjuncts, List.forall_mem_append, List.forall_mem_cons] at decides
      obtain ⟨⟨here, within⟩, others⟩ := decides
      rw [acceptEvery] at left right
      obtain ⟨first, further, v₀, rfl, verdict, left⟩ := Inquiry.logs_bind.mp left
      obtain ⟨first', further', w₀, rfl, verdict', right⟩ := Inquiry.logs_bind.mp right
      refine (ih f List.mem_cons_self within related verdict verdict').append ?_
      -- the member decides alike, so the others are tried for both items or for none
      obtain rfl := here related verdict.results verdict'.results
      cases v₀ with
      | false =>
        obtain ⟨rfl, -⟩ := Inquiry.logs_pure.mp right
        exact .nil
      | true => exact rest (fun g member => ih g (List.mem_cons_of_mem f member)) others left right
  | counting s c k =>
    obtain _ | ⟨_, left⟩ := left
    obtain _ | ⟨_, right⟩ := right
    obtain ⟨rfl, -⟩ := Inquiry.logs_pure.mp left
    obtain ⟨rfl, -⟩ := Inquiry.logs_pure.mp right
    exact .single (relates.equal related)
  | onSlot types i inner ih =>
    rw [accept] at left right
    exact .of_fitting left right fun t u fits fits' => ih decides (relates.slots related fits fits' i)

omit relates in
/-- Making something of what is found asks for nothing more. -/
theorem askedFor_made {α β : Type} {p p' : Inquiry α} {f f' : α → Except Error β} {g g' : β → ItemSet}
    {u v : ItemSet}
    (left : (do let found ← p; let made ← ofOutcome (f found); return g made : Inquiry ItemSet).Logs log u)
    (right : (do let found ← p'; let made ← ofOutcome (f' found); return g' made : Inquiry ItemSet).Logs
      log' v)
    (first : ∀ {log log' : List (Selection × Item)} {a b : α}, p.Logs log a → p'.Logs log' b →
      AskedFor log log') : AskedFor log log' := by
  obtain ⟨part, _, _, rfl, found, -⟩ := Inquiry.logs_bind.mp left
  obtain ⟨part', _, _, rfl, found', rest⟩ := Inquiry.logs_bind.mp right
  obtain ⟨_, _, _, rfl, made, last⟩ := Inquiry.logs_bind.mp rest
  obtain ⟨rfl, -⟩ := Inquiry.logs_ofOutcome.mp made
  obtain ⟨rfl, -⟩ := Inquiry.logs_pure.mp last
  exact (first found found').append .nil

theorem Follow.follow_askedFor {f : Follow} (decides : ∀ g ∈ f.conjuncts, g.DecidesAlike E)
    (related : E x y) {u v : ItemSet} (left : (f.follow Inquiry.select x).Logs log u)
    (right : (f.follow Inquiry.select y).Logs log' v) : AskedFor log log' := by
  induction f generalizing x y log log' u v with
  | map m =>
    obtain ⟨rfl, -⟩ := Inquiry.logs_ofOutcome.mp right
    exact .nil
  | filter g =>
    exact .of_bind_pure left right (g.accept_askedFor relates decides related)
  | select s =>
    obtain _ | ⟨_, left⟩ := left
    obtain _ | ⟨_, right⟩ := right
    obtain ⟨rfl, -⟩ := Inquiry.logs_pure.mp left
    obtain ⟨rfl, -⟩ := Inquiry.logs_pure.mp right
    exact .single (relates.equal related)
  | slot types i | permute types order =>
    rw [follow] at right
    cases fits : y.fitting? types with
    | none =>
      rw [fits] at right
      cases right
    | some t =>
      rw [fits] at right
      obtain ⟨rfl, -⟩ := Inquiry.logs_pure.mp right
      exact .nil
  | pair inner ih =>
    rw [follow] at left right
    exact askedFor_made left right (ih decides related)
  | onSlot types i inner ih =>
    rw [follow] at left right
    exact .of_fitting left right fun t u fits fits' left right =>
      askedFor_made left right (ih decides (relates.slots related fits fits' i))
  | call f =>
    rw [follow] at right
    cases fits : y.fitting? f.types with
    | none =>
      rw [fits] at right
      cases right
    | some t =>
      rw [fits] at right
      obtain ⟨_, _, _, rfl, last, last'⟩ := Inquiry.logs_bind.mp right
      obtain ⟨rfl, -⟩ := Inquiry.logs_ofOutcome.mp last
      obtain ⟨rfl, -⟩ := Inquiry.logs_pure.mp last'
      exact .nil

end

/-- What is done for every item, before something is made of it all, asks for the same for two sets if
it does so for related items. -/
theorem AskedFor.of_related {E : Item → Item → Prop} {β γ : Type} {a b : ItemSet} {f : Item → Inquiry β}
    {g h : List β → γ} {u v : γ} {log log' : List (Selection × Item)}
    (related : ∀ y ∈ b.items, ∃ x ∈ a.items, E x y)
    (left : (a.items.mapM f >>= fun founds => pure (g founds)).Logs log u)
    (right : (b.items.mapM f >>= fun founds => pure (h founds)).Logs log' v)
    (pairs : ∀ {x y : Item}, E x y → ∀ part part' c c', (f x).Logs part c →
      (f y).Logs part' c' → AskedFor part part') : AskedFor log log' := by
  refine .of_bind_pure left right fun each each' => AskedFor.mapM each each' fun y member => ?_
  obtain ⟨x, among, here⟩ := related y member
  exact ⟨x, among, pairs here⟩

namespace Operation

variable {op : Operation} {a b u v : ItemSet} {log log' : List (Selection × Item)}

/-- On sets of related items, an operation asks for the same if the members of its filter sets decide
alike. -/
theorem inquiry_askedFor {E : Item → Item → Prop} (relates : Item.Relates E)
    (decides : ∀ g ∈ op.conjuncts, g.DecidesAlike E) (related : ∀ y ∈ b.items, ∃ x ∈ a.items, E x y)
    (left : (op.inquiry a).Logs log u) (right : (op.inquiry b).Logs log' v) : AskedFor log log' := by
  cases op with
  | filter g =>
    rw [inquiry, apply, g.apply_eq] at left right
    exact .of_related related left right fun here _ _ _ _ => g.accept_askedFor relates decides here
  | follow f =>
    rw [inquiry, apply, f.apply_eq] at left right
    exact .of_related related left right fun here _ _ _ _ => f.follow_askedFor relates decides here
  | count t =>
    obtain ⟨rfl, -⟩ := Inquiry.logs_pure.mp right
    exact .nil

/-! What is needed on equal sets -/

/-- On each of the sets that equal one, an operation asks for a selection for an equal item. -/
def Insists (op : Operation) (items : ItemSet) (s : Selection) (x : Item) : Prop :=
  ∀ items', (items == items') = true → ∃ y, (x == y) = true ∧ op.Asks items' s y

/-- Where an operation passes on a set, it has asked for all that is needed on equal sets. -/
def Heeds (op : Operation) (needs : ItemSet → Selection → Item → Prop) : Prop :=
  ∀ ⦃a b⦄, a.essence = b.essence → ∀ ⦃log t⦄, (op.inquiry a).Logs log t →
    ∀ ⦃s x⦄, needs b s x → ∃ y, (s, y) ∈ log ∧ (y == x) = true

/-- What a stable operation asks for where it has passed on an equal set, it may have asked for when it
passed. -/
theorem exists_logs (stable : op.IsStable) (same : a.essence = b.essence)
    (logs : (op.inquiry a).Logs log u) {s : Selection} {x : Item} (asks : op.Asks b s x) :
    ∃ log' v, (op.inquiry b).Logs log' v ∧ (s, x) ∈ log' :=
  Inquiry.Asks.logs asks fun o results => by
    obtain ⟨t, rfl, -⟩ := stable (ItemSet.essence_eq_iff.mp same) logs.results results
    exact ⟨t, rfl⟩

/-- Pure members ask for the same on all equal sets. -/
theorem heeds_asks (stable : op.IsStable) (conjuncts : ∀ g ∈ op.conjuncts, (Operation.filter g).IsPure) :
    op.Heeds op.Asks := by
  intro a b same log t logs s x asks
  obtain ⟨log', v, logs', asked⟩ := exists_logs stable same logs asks
  refine inquiry_askedFor Item.relates_beq (fun g member => (conjuncts g member).decidesAlike)
    (fun y member => ?_) logs logs' s x asked
  obtain ⟨x, among, equal⟩ := ItemSet.exists_beq_of_mem same.symm member
  exact ⟨x, among, BEq.symm equal⟩

/-- What is insisted on is asked for in any case. -/
theorem heeds_insists (stable : op.IsStable) (selections : ∀ s ∈ op.selections, s.IsStable) :
    op.Heeds op.Insists := by
  intro a b same log t logs s x insists
  obtain ⟨y, equal, asks⟩ := insists a (ItemSet.essence_eq_iff.mp same.symm)
  obtain ⟨log', v, logs', asked⟩ := exists_logs stable rfl logs asks
  obtain ⟨z, listed, equal'⟩ := inquiry_askedFor Item.relates_eq
    (fun g member => g.decidesAlike_eq fun s selects => selections s (selections_conjuncts member selects))
    (fun x member => ⟨x, member, rfl⟩) logs logs' s y asked
  exact ⟨z, listed, BEq.trans equal' (BEq.symm equal)⟩

end Operation

end GraphQuery
