import GraphQuery.Proofs.History
import GraphQuery.Proofs.Itemwise
/-!
# A selection finds the items that can be reached

An evaluator works on sets of items. Where a query does not count, the items might as well be followed
one by one: a selection fails if and only if an operation fails on a single item that can be reached, and
otherwise it finds exactly the items that can be reached at its end. So the selection from a union is
the union of the selections.
-/

namespace GraphQuery

/-- What an operation makes of one item, on an evaluator that has done nothing yet. -/
def Operation.Follows (op : Operation) (x : Item) (r : Except Error ItemSet) : Prop :=
  ∃ f, op.follow? = some f ∧
    ∃ fuel ev, (f.follow (Evaluator.nested fuel) x).Ends (.fresh true) r ev

/-- No operation of a query counts. -/
def Query.Itemwise (q : Query) : Prop :=
  ∀ op ∈ q.operations, ∀ t, op ≠ .count t

namespace Query

/-- An item can be reached at a node from some items at another, if each operation is followed from
one item at a time. -/
inductive Finds (q : Query) (start : Node) (items : ItemSet) : Node → Item → Prop
  | here {x : Item} (member : x ∈ items) : Finds q start items start x
  | along {n : Node} {x y : Item} {a : Arc} {op : Operation} {found : ItemSet}
    (before : Finds q start items n x) (arc : a ∈ q.graph.arcsFrom n) (label : op ∈ q.graph.labels a)
    (follows : op.Follows x (.ok found)) (member : y ∈ found) : Finds q start items a.target y

variable {q : Query} {start n : Node} {items s a b : ItemSet} {x : Item}

/-- Only from some items are items carried. -/
theorem Carries.filled (carries : q.Carries start items n s) (filled : s.isEmpty = false) :
    items.isEmpty = false := by
  rw [← Bool.not_eq_true]
  intro empty
  rw [carries.eq_of_isEmpty empty, empty] at filled
  cases filled

/-- What can be reached from a union can be reached from one of its parts. -/
theorem finds_union : q.Finds start (a.union b) n x ↔ q.Finds start a n x ∨ q.Finds start b n x := by
  constructor
  · intro finds
    induction finds with
    | here member => exact (ItemSet.mem_union.mp member).imp .here .here
    | along _ arc label follows member ih =>
      exact ih.imp (.along · arc label follows member) (.along · arc label follows member)
  · rintro (finds | finds)
    · induction finds with
      | here member => exact .here (ItemSet.mem_union.mpr (.inl member))
      | along _ arc label follows member ih => exact .along ih arc label follows member
    · induction finds with
      | here member => exact .here (ItemSet.mem_union.mpr (.inr member))
      | along _ arc label follows member ih => exact .along ih arc label follows member

/-- The contents that can be reached, each at its node. -/
def located (q : Query) (start : Node) (items : ItemSet) : Set (Node × Content) :=
  {p | ∃ x, q.Finds start items p.1 x ∧ x.content = p.2}

theorem located_union {q : Query} {start : Node} {a b : ItemSet} :
    q.located start (a.union b) = q.located start a ∪ q.located start b := by
  ext p
  simp only [located, finds_union, Set.mem_ofPred_eq, Set.mem_union, or_and_right, exists_or]

/-- The declared types that can be reached are those of operations, or the first one. -/
theorem Reaches.itemType {q : Query} (itemwise : q.Itemwise) {k k' : Spot} (reaches : q.Reaches k k') :
    k'.items.itemType = k.items.itemType ∨
      ∃ op ∈ q.operations, k'.items.itemType = op.outputType := by
  induction reaches with
  | refl => exact .inl rfl
  | tail _ leads ih =>
    obtain ⟨a, op, reached, ⟨step, s, same, -, results⟩, -, rfl⟩ := leads
    have listed := mem_operations_of_mem_steps step
    obtain ⟨f, follow⟩ := Operation.exists_follow? (itemwise op listed)
    rw [Operation.Results, Operation.inquiry_eq_apply follow] at results
    obtain ⟨_, _, ⟨⟩, typed, -⟩ | ⟨_, _, _, _, contra⟩ := Follow.results_apply results
    · obtain kept | changed := f.handsOn_eq s.itemType
      · have type : reached.essence.itemType = s.essence.itemType := typed.trans kept
        simp only [type]
        exact same ▸ ih
      · exact .inr ⟨op, listed, typed.trans (changed.trans (Operation.outputType_eq follow).symm)⟩
    · exact (Inquiry.not_passedOn_ok contra).elim

end Query

namespace Evaluator

open EvalM

variable {known : Set Query} {q : Query} {ev ev' : Evaluator} {op : Operation} {s t : ItemSet}

section

variable (lib : Library known) (member : q ∈ known) (listed : op ∈ q.operations)

include lib member listed

theorem nested_of_mem {s : Selection} (selects : s ∈ op.selections) :
    s.query ∈ known ∧ Understood known s.query := by
  have inside := lib.closed q member s.query ⟨op, listed, s, selects, rfl⟩
  exact ⟨inside, understood lib inside⟩

/-- What an operation makes of an item is one of its outcomes for the item. -/
theorem results_of_follows {f : Follow} (itemwise : op.follow? = some f) {x : Item}
    {r : Except Error ItemSet} (follows : op.Follows x r) :
    (f.follow Inquiry.select x).Results (some r) := by
  obtain ⟨_, same, fuel, ev, ends⟩ := follows
  cases itemwise.symm.trans same
  rw [f.follow_eq_run] at ends
  have asks := Operation.selections_eq itemwise ▸ f.follow_asksOnly x
  obtain ⟨-, -, results⟩ := run_results lib.collection
    (fun s selects => nested_of_mem lib member listed selects) asks
    (coherent_fresh known true).toTruthful (fun s _ => clear_fresh s.query true) ends
  exact results (.inr ⟨lib, rfl⟩)

/-- An operation that comes to an outcome for an item makes an agreeing outcome of every equal item. -/
theorem follows_of_results {f : Follow} (itemwise : op.follow? = some f) {x y : Item}
    (equal : (x == y) = true) {r : Except Error ItemSet}
    (results : (f.follow Inquiry.select x).Results (some r)) :
    ∃ r', op.Follows y r' ∧ Agree r r' := by
  have pure := lib.isPure q member q .refl op listed
  have asks := Operation.selections_eq itemwise ▸ f.follow_asksOnly y
  have resolved : (f.follow Inquiry.select y).Resolved False := by
    refine Inquiry.resolved_of_not_endless fun endless => ?_
    cases pure.agree itemwise equal results endless
  obtain ⟨fuel, r', ev, ends, -⟩ := run_resolves lib.collection
    (fun s selects => nested_of_mem lib member listed selects) (.inr lib) asks
    (coherent_fresh known true) (fun s _ => clear_fresh s.query true) resolved
  have follows : op.Follows y r' := ⟨f, itemwise, fuel, ev, by rwa [f.follow_eq_run]⟩
  refine ⟨r', follows, ?_⟩
  cases pure.agree itemwise equal results (results_of_follows lib member listed itemwise follows) with
  | some agree => exact agree

/-- An operation makes agreeing outcomes of equal items. -/
theorem agree_of_follows {x y : Item} (equal : (x == y) = true) {r r' : Except Error ItemSet}
    (left : op.Follows x r) (right : op.Follows y r') : Agree r r' := by
  obtain ⟨f, itemwise, -⟩ := id left
  cases (lib.isPure q member q .refl op listed).agree itemwise equal
    (results_of_follows lib member listed itemwise left)
    (results_of_follows lib member listed itemwise right) with
  | some agree => exact agree

variable (itemwise : ∀ u, op ≠ .count u)

include itemwise

/-- An operation passes on a set if it passes on each of its items. -/
theorem resolved_of_follows (follows : ∀ x ∈ s.items, ∃ found, op.Follows x (.ok found)) :
    (op.inquiry s).Resolved True := by
  intro o results
  obtain ⟨f, same⟩ := Operation.exists_follow? itemwise
  rw [Operation.inquiry_eq_apply same] at results
  obtain ⟨t, founds, rfl, -⟩ | ⟨x, inside, o', other, passed⟩ := Follow.results_apply results
  · exact ⟨_, rfl, fun _ => rfl⟩
  · obtain ⟨found, follows⟩ := follows x inside
    cases (lib.isPure q member q .refl op listed).agree same BEq.rfl
      (results_of_follows lib member listed same follows) other with
    | some agree =>
      cases agree
      exact (Inquiry.ok_not_passedOn passed).elim

variable (filled : s.isEmpty = false)

include filled

/-- What an operation makes of a set is what it makes of the items. -/
theorem mem_iff_of_gives (gives : op.Gives s (.ok t)) :
    (∀ x ∈ s, ∃ found, op.Follows x (.ok found)) ∧
      ∀ y, y ∈ t ↔ ∃ x ∈ s, ∃ found, op.Follows x (.ok found) ∧ y ∈ found := by
  obtain ⟨f, same⟩ := Operation.exists_follow? itemwise
  have results := results_of_gives lib member listed filled gives
  rw [Operation.Results, Operation.inquiry_eq_apply same] at results
  obtain ⟨_, founds, ⟨⟩, -, all, contents⟩ | ⟨_, _, _, _, contra⟩ := Follow.results_apply results
  · have outcome {x : Item} (inside : x ∈ s) : ∃ found ∈ founds, ∃ found' : ItemSet,
        op.Follows x (.ok found') ∧ found.essence.contents = found'.essence.contents := by
      obtain ⟨y, inside, equal⟩ := ItemSet.mem_iff_exists.mp inside
      obtain ⟨found, among, passed⟩ := exists_of_mem_forall₂ all inside
      obtain ⟨r, follows, agree⟩ := follows_of_results lib member listed same (BEq.symm equal) passed
      cases agree with
      | ok agrees => exact ⟨found, among, _, follows, agrees⟩
    refine ⟨fun x inside => ?_, fun y => ⟨fun inside => ?_, ?_⟩⟩
    · obtain ⟨-, -, found, follows, -⟩ := outcome inside
      exact ⟨found, follows⟩
    · obtain ⟨found, among, content⟩ := (contents _).mp (ItemSet.mem_iff_content_mem.mp inside)
      obtain ⟨x, inside, passed⟩ := exists_of_mem_forall₂ all.flip among
      obtain ⟨r, follows, agree⟩ := follows_of_results lib member listed same BEq.rfl passed
      cases agree with
      | ok agrees =>
        refine ⟨x, ItemSet.mem_of_mem_items inside, _, follows, ?_⟩
        rw [ItemSet.mem_iff_content_mem, ← ItemSet.mem_essence, ← agrees]
        exact ItemSet.mem_essence.mpr content
    · rintro ⟨x, inside, found, follows, further⟩
      obtain ⟨found₀, among, found', follows', agrees⟩ := outcome inside
      cases agree_of_follows lib member listed BEq.rfl follows follows' with
      | ok agrees' =>
        refine ItemSet.mem_iff_content_mem.mpr ((contents _).mpr ⟨found₀, among, ?_⟩)
        rw [← ItemSet.mem_essence, agrees, ← agrees', ItemSet.mem_essence]
        exact ItemSet.mem_iff_content_mem.mp further
  · exact (Inquiry.not_passedOn_ok contra).elim

/-- Where an operation fails on a set, it fails on an item. -/
theorem exists_fails_of_gives {e : Error} (gives : op.Gives s (.error e)) :
    ∃ x ∈ s, ∃ e', op.Follows x (.error e') := by
  obtain ⟨f, same⟩ := Operation.exists_follow? itemwise
  have results := results_of_gives lib member listed filled gives
  rw [Operation.Results, Operation.inquiry_eq_apply same] at results
  obtain ⟨_, _, ⟨⟩, -⟩ | ⟨x, inside, o', failed, passed⟩ := Follow.results_apply results
  cases passed
  obtain ⟨r, follows, agree⟩ := follows_of_results lib member listed same BEq.rfl failed
  cases agree with
  | error => exact ⟨x, ItemSet.mem_of_mem_items inside, _, follows⟩

end

/-- A selection passes, and finds a set. -/
def Passes (q : Query) (start stop : Node) (items : ItemSet) (ev : Evaluator) (found : ItemSet) : Prop :=
  ∃ fuel ev', (select fuel q start stop items).Ends ev (.ok found) ev'

section

variable (lib : Library known) (member : q ∈ known) (itemwise : q.Itemwise)
  {start stop n : Node} {items : ItemSet} {x : Item}

include lib member

/-- Where a selection is safe, every operation comes to a set from what is carried to it. -/
theorem exists_gives_of_safe
    (safe : items.isEmpty = false → q.Safe ⟨q.id, start, stop, items.essence⟩)
    (carries : q.Carries start items n s) (filled : s.isEmpty = false) {a : Arc}
    (arc : a ∈ q.graph.arcsFrom n) (label : op ∈ q.graph.labels a) : ∃ t, op.Gives s (.ok t) := by
  have listed := Query.mem_operations_of_mem_labels label
  obtain ⟨o, results⟩ := Operation.Results.exists op s
  obtain ⟨r, rfl, passes⟩ := (safe (carries.filled filled)).resolved
    (reaches_of_carries lib member stop carries filled) True a op o
    ⟨Query.mem_steps.mpr ⟨arc, label⟩, s, rfl, filled, results⟩
  obtain ⟨r', gives, alike⟩ := gives_of_results lib member listed filled rfl results
  cases alike with
  | @ok t t' same => exact ⟨t', gives⟩
  | error => cases passes trivial

include itemwise

/-- Every item of a set that is carried can be reached on its own. -/
theorem finds_of_carries (carries : q.Carries start items n s) (inside : x ∈ s) :
    q.Finds start items n x := by
  induction carries generalizing x with
  | here => exact .here inside
  | along _ arc label filled gives ih =>
    have listed := Query.mem_operations_of_mem_labels label
    obtain ⟨y, inside, found, follows, further⟩ :=
      ((mem_iff_of_gives lib member listed (itemwise _ listed) filled gives).2 x).mp inside
    exact .along (ih inside) arc label follows further

variable (safe : items.isEmpty = false → q.Safe ⟨q.id, start, stop, items.essence⟩)

include safe

/-- Where a selection is safe, every item that can be reached is carried along with others. -/
theorem carries_of_finds (finds : q.Finds start items n x) :
    ∃ s, q.Carries start items n s ∧ x ∈ s := by
  induction finds with
  | here inside => exact ⟨items, .here, inside⟩
  | along _ arc label follows further ih =>
    obtain ⟨s, carries, inside⟩ := ih
    have filled := ItemSet.isEmpty_eq_false_of_mem inside
    have listed := Query.mem_operations_of_mem_labels label
    obtain ⟨t, gives⟩ := exists_gives_of_safe lib member safe carries filled arc label
    exact ⟨t, .along carries arc label filled gives,
      ((mem_iff_of_gives lib member listed (itemwise _ listed) filled gives).2 _).mpr
        ⟨_, inside, _, follows, further⟩⟩

/-- Where a selection is safe, every operation passes on the items that can be reached. -/
theorem exists_follows_of_safe (finds : q.Finds start items n x) {a : Arc}
    (arc : a ∈ q.graph.arcsFrom n) (label : op ∈ q.graph.labels a) :
    ∃ found, op.Follows x (.ok found) := by
  obtain ⟨s, carries, inside⟩ := carries_of_finds lib member itemwise safe finds
  have filled := ItemSet.isEmpty_eq_false_of_mem inside
  have listed := Query.mem_operations_of_mem_labels label
  obtain ⟨t, gives⟩ := exists_gives_of_safe lib member safe carries filled arc label
  exact (mem_iff_of_gives lib member listed (itemwise _ listed) filled gives).1 x inside

/-- Where a selection is safe, finitely many contents can be reached. -/
theorem finite_located : (q.located start items).Finite := by
  cases empty : items.isEmpty with
  | true =>
    refine Set.finite_empty.subset ?_
    rintro ⟨n, c⟩ ⟨x, finds, rfl⟩
    obtain ⟨s, carries, inside⟩ := carries_of_finds lib member itemwise safe finds
    have filled := carries.filled (ItemSet.isEmpty_eq_false_of_mem inside)
    rw [empty] at filled
    cases filled
  | false =>
    refine ((safe empty).finite.biUnion fun k _ =>
      (Set.finite_singleton k.start).prod k.items.contents.finite_toSet).subset ?_
    rintro ⟨n, c⟩ ⟨x, finds, rfl⟩
    obtain ⟨s, carries, inside⟩ := carries_of_finds lib member itemwise safe finds
    refine Set.mem_biUnion (reaches_of_carries lib member stop carries (ItemSet.isEmpty_eq_false_of_mem inside)) ⟨rfl, ?_⟩
    exact ItemSet.mem_essence.mpr (ItemSet.mem_iff_content_mem.mp inside)

omit safe

/-- Where finitely many contents can be reached, so can finitely many spots. -/
theorem finite_reaches (filled : items.isEmpty = false) (finite : (q.located start items).Finite) :
    {k | q.Reaches ⟨q.id, start, stop, items.essence⟩ k}.Finite := by
  have types : {t | t = items.itemType ∨ ∃ op ∈ q.operations, t = op.outputType}.Finite :=
    (Set.finite_singleton items.itemType).union
      ((q.operations.map Operation.outputType).finite_toSet.subset fun t ⟨op, listed, same⟩ =>
        same ▸ List.mem_map_of_mem listed)
  have contents := (finite.image Prod.snd).toFinset.powerset.finite_toSet
  refine (((finite.image Prod.fst).prod (types.prod contents)).image
    fun p => ⟨q.id, p.1, stop, ⟨p.2.1, p.2.2⟩⟩).subset fun k reaches => ?_
  obtain ⟨s, carries, filled', same⟩ := carries_of_reaches lib member filled reaches
  have among {c : Content} (content : c ∈ k.items.contents) : (k.start, c) ∈ q.located start items := by
    rw [← same, ItemSet.mem_essence] at content
    obtain ⟨x, inside, rfl⟩ := List.mem_map.mp content
    exact ⟨x, finds_of_carries lib member itemwise carries
      (ItemSet.mem_of_mem_items inside), rfl⟩
  refine ⟨⟨k.start, k.items.itemType, k.items.contents⟩, ⟨?_, ?_, ?_⟩, ?_⟩
  · obtain ⟨c, content⟩ := ItemSet.isEmpty_eq_false_iff.mp filled'
    exact ⟨_, among (same ▸ content), rfl⟩
  · exact Query.Reaches.itemType itemwise reaches
  · refine Finset.mem_coe.mpr (Finset.mem_powerset.mpr fun c content => ?_)
    exact (finite.image Prod.snd).mem_toFinset.mpr ⟨_, among content, rfl⟩
  · have query : k.query = q.id := Query.Reaches.query reaches
    have stops : k.stop = stop := Query.Reaches.stop reaches
    rw [← query, ← stops]

/-- A selection that ends finds the items that can be reached at its end, and then it is safe, or an
operation fails on an item that can be reached. -/
theorem select_finds {fuel : Nat} {r : Except Error ItemSet} (coherent : Coherent known ev)
    (clear : Clear q ev) (ends : (select fuel q start stop items).Ends ev r ev') :
    (∃ found, r = .ok found ∧ (items.isEmpty = false → q.Safe ⟨q.id, start, stop, items.essence⟩) ∧
      ∀ x, x ∈ found ↔ q.Finds start items stop x) ∨
    ∃ e, r = .error e ∧ ∃ n x, q.Finds start items n x ∧
      ∃ a ∈ q.graph.arcsFrom n, ∃ op ∈ q.graph.labels a, ∃ e', op.Follows x (.error e') := by
  obtain ⟨found, rfl, -, -, union⟩ | ⟨e, rfl, n, s, carries, filled, a, arc, op, label, e', gives⟩ :=
    select_outcome lib member coherent clear ends
  · have safe : items.isEmpty = false → q.Safe ⟨q.id, start, stop, items.essence⟩ := by
      intro filled
      obtain ⟨r₀, ev₀, walked, same, -⟩ := (selectBy_ends _).mp ends
      have announced := sameBut_announce q start stop items ev
      obtain ⟨-, -, ⟨reach, -, selects⟩ | ⟨e, rfl, -⟩⟩ := visit_clear lib.collection member
        (understood lib member) (f := ⟨q.id, start, stop, items⟩) rfl filled
        (coherent.of_sameBut announced).toTruthful (clear.extends announced.extends) walked
      · exact selects.safe
      · cases same
    refine .inl ⟨found, rfl, safe, fun x => (union x).trans ⟨?_, ?_⟩⟩
    · rintro ⟨s, carries, inside⟩
      exact finds_of_carries lib member itemwise carries inside
    · exact carries_of_finds lib member itemwise safe
  · have listed := Query.mem_operations_of_mem_labels label
    obtain ⟨x, inside, e'', fails⟩ :=
      exists_fails_of_gives lib member listed (itemwise op listed) filled gives
    exact .inr ⟨e, rfl, n, x, finds_of_carries lib member itemwise carries inside, a, arc, op, label,
      e'', fails⟩

/-- A selection passes if finitely many contents can be reached and every operation passes on the items
that can be. -/
theorem passes_of_finds (finite : (q.located start items).Finite)
    (follows : ∀ n x, q.Finds start items n x → ∀ a ∈ q.graph.arcsFrom n, ∀ op ∈ q.graph.labels a,
      ∃ found, op.Follows x (.ok found))
    (coherent : Coherent known ev) (clear : Clear q ev) :
    ∃ found, Passes q start stop items ev found := by
  have announced := sameBut_announce q start stop items ev
  suffices ∃ n, (visit n q start stop items).Resolves True (announce q start stop items ev) by
    obtain ⟨n, r, ev', ends, passes⟩ := this
    cases r with
    | ok reach => exact ⟨_, n, _, (selectBy_ends _).mpr ⟨_, ev', ends, rfl, rfl⟩⟩
    | error => cases passes trivial
  cases empty : items.isEmpty with
  | true => exact ⟨1, _, _, (visitBy_ends _).mpr (.empty empty), fun _ => rfl⟩
  | false =>
    refine visit_resolves_of_finite lib.collection member (understood lib member)
      (f := ⟨q.id, start, stop, items⟩) (.inr lib)
      ((clear.extends announced.extends).able (coherent.of_sameBut announced)) rfl empty
      (finite_reaches lib member itemwise empty finite) fun k reaches => ?_
    rintro a op o ⟨step, s, same, -, results⟩
    obtain ⟨arc, label⟩ := Query.mem_steps.mp step
    have listed := Query.mem_operations_of_mem_steps step
    refine resolved_of_follows lib member listed (itemwise op listed) (fun x inside => ?_) o results
    obtain ⟨s₀, carries, -, same₀⟩ := carries_of_reaches lib member empty reaches
    have inside₀ : x ∈ s₀ := by
      rw [ItemSet.mem_congr (same₀.trans same.symm)]
      exact ItemSet.mem_of_mem_items inside
    exact follows k.start x (finds_of_carries lib member itemwise carries inside₀) a arc op label

/-- A selection passes if and only if finitely many contents can be reached and every operation passes
on the items that can be. -/
theorem passes_iff (coherent : Coherent known ev) (clear : Clear q ev) :
    (∃ found, Passes q start stop items ev found) ↔ (q.located start items).Finite ∧
      ∀ n x, q.Finds start items n x → ∀ a ∈ q.graph.arcsFrom n, ∀ op ∈ q.graph.labels a,
        ∃ found, op.Follows x (.ok found) := by
  constructor
  · rintro ⟨found, fuel, ev', ends⟩
    obtain ⟨_, ⟨⟩, safe, -⟩ | ⟨_, ⟨⟩, -⟩ := select_finds lib member itemwise coherent clear ends
    exact ⟨finite_located lib member itemwise safe, fun n x finds a arc op label =>
      exists_follows_of_safe lib member itemwise safe finds arc label⟩
  · rintro ⟨finite, follows⟩
    exact passes_of_finds lib member itemwise finite follows coherent clear

/-- What a selection that passes finds. -/
theorem Passes.mem_iff (coherent : Coherent known ev) (clear : Clear q ev) {found : ItemSet}
    (passes : Passes q start stop items ev found) : x ∈ found ↔ q.Finds start items stop x := by
  obtain ⟨fuel, ev', ends⟩ := passes
  obtain ⟨_, ⟨⟩, -, finds⟩ | ⟨_, ⟨⟩, -⟩ := select_finds lib member itemwise coherent clear ends
  exact finds x

end

variable {queries : Set Query} {memoize : Bool}

/-- Whatever calls were made before, a selection in a query that does not count passes if and only if no
operation fails on an item that can be reached, and then it finds the items that can be reached at its
end. So the selection from a union passes if and only if those from its parts do, and finds what they
find together. -/
theorem select_iff_finds (numbered : Query.Numbered queries) (pure : ∀ q ∈ queries, q.IsPure)
    (after : After (fun q _ _ => q ∈ queries) memoize ev) (member : q ∈ queries)
    (itemwise : q.Itemwise) (start stop : Node) :
    (∀ items fuel r ev', (select fuel q start stop items).Ends ev r ev' →
      ((∃ found, r = .ok found) ↔ ∀ n x, q.Finds start items n x →
        ∀ a ∈ q.graph.arcsFrom n, ∀ op ∈ q.graph.labels a, ∀ e, ¬ op.Follows x (.error e)) ∧
      ∀ found, r = .ok found → ∀ x, x ∈ found ↔ q.Finds start items stop x) ∧
    ∀ a b ev₁ ev₂, After (fun q _ _ => q ∈ queries) memoize ev₁ →
      After (fun q _ _ => q ∈ queries) memoize ev₂ →
      ((∃ u, Passes q start stop (a.union b) ev u) ↔
        (∃ s, Passes q start stop a ev₁ s) ∧ ∃ t, Passes q start stop b ev₂ t) ∧
      ∀ s t u, Passes q start stop a ev₁ s → Passes q start stop b ev₂ t →
        Passes q start stop (a.union b) ev u → ∀ x, x ∈ u ↔ x ∈ s.union t := by
  have lib := Library.of_queries numbered pure
  have included := Query.subset_within queries
  replace member := included member
  have ready {ev : Evaluator} (after : After (fun q _ _ => q ∈ queries) memoize ev) :
      Coherent {r | ∃ q ∈ queries, q.Within r} ev ∧ Clear q ev :=
    (after.coherent lib included).imp_right (clear_of_closed · q)
  obtain ⟨coherent, clear⟩ := ready after
  constructor
  · intro items fuel r ev' ends
    obtain ⟨found, rfl, safe, finds⟩ | ⟨e, rfl, n, x, reached, a, arc, op, label, e', fails⟩ :=
      select_finds lib member itemwise coherent clear ends
    · refine ⟨iff_of_true ⟨found, rfl⟩ fun n x reached a arc op label e fails => ?_, ?_⟩
      · obtain ⟨t, follows⟩ := exists_follows_of_safe lib member itemwise safe reached arc label
        cases agree_of_follows lib member (Query.mem_operations_of_mem_labels label)
          BEq.rfl follows fails
      · rintro _ ⟨⟩
        exact finds
    · refine ⟨iff_of_false (fun ⟨_, contra⟩ => nomatch contra) fun passes => ?_, nofun⟩
      exact passes n x reached a arc op label e' fails
  · intro a b ev₁ ev₂ after₁ after₂
    obtain ⟨coherent₁, clear₁⟩ := ready after₁
    obtain ⟨coherent₂, clear₂⟩ := ready after₂
    constructor
    · rw [passes_iff lib member itemwise coherent clear, passes_iff lib member itemwise coherent₁ clear₁,
        passes_iff lib member itemwise coherent₂ clear₂, Query.located_union, Set.finite_union]
      simp only [Query.finds_union, or_imp, forall_and]
      exact and_and_and_comm
    · intro s t u passes₁ passes₂ passes x
      rw [passes.mem_iff lib member itemwise coherent clear, Query.finds_union, ItemSet.mem_union,
        passes₁.mem_iff lib member itemwise coherent₁ clear₁,
        passes₂.mem_iff lib member itemwise coherent₂ clear₂]

end Evaluator

/-! A query whose items circle -/

namespace Query

/-- Items circle at one node. -/
def circle : Query where
  id := 0
  graph := Graph.addLabel Graph.empty ⟨tallySource, tallySource⟩ (Operation.filter (.anything .any))

theorem steps_circle : circle.steps tallySource =
    [(⟨tallySource, tallySource⟩, .filter (.anything .any))] :=
  steps_single 0 ⟨tallySource, tallySource⟩ _

theorem mem_operations_circle {op : Operation} :
    op ∈ circle.operations ↔ op = .filter (.anything .any) := by
  change op ∈ [_] ↔ _
  exact List.mem_singleton

theorem flat_circle : circle.Flat := by
  intro op listed
  obtain rfl := mem_operations_circle.mp listed
  rfl

theorem isPure_circle : circle.IsPure := by
  intro q within op listed
  rw [flat_circle.eq_of_within within] at listed
  obtain rfl := mem_operations_circle.mp listed
  exact (Filter.isPure_iff rfl).mpr (Filter.agrees_anything .any)

theorem itemwise_circle : circle.Itemwise := by
  rintro op listed t rfl
  cases mem_operations_circle.mp listed

theorem follows_anything (x : Item) (t : ItemType) {r : Except Error ItemSet} :
    (Operation.filter (.anything t)).Follows x r ↔ r = .ok (.singleton x t) := by
  constructor
  · rintro ⟨_, ⟨⟩, fuel, ev, ends⟩
    exact (EvalM.ends_pure.mp ends).1
  · rintro rfl
    exact ⟨_, rfl, 0, _, EvalM.ends_pure.mpr ⟨rfl, rfl⟩⟩

/-- Nothing changes as it circles. -/
theorem finds_circle {items : ItemSet} {n : Node} {x : Item} :
    circle.Finds tallySource items n x ↔ n = tallySource ∧ x ∈ items := by
  constructor
  · intro finds
    induction finds with
    | here member => exact ⟨rfl, member⟩
    | along _ arc label follows member ih =>
      obtain ⟨rfl, inside⟩ := ih
      have step := mem_steps.mpr ⟨arc, label⟩
      rw [steps_circle, List.mem_singleton] at step
      cases step
      cases (follows_anything _ _).mp follows
      refine ⟨rfl, ?_⟩
      rw [ItemSet.mem_iff_content_mem, Item.beq_iff.mp (ItemSet.mem_singleton.mp member)]
      exact ItemSet.mem_iff_content_mem.mp inside
  · rintro ⟨rfl, member⟩
    exact .here member

end Query

namespace Evaluator

theorem passes_circle (items : ItemSet) : ∃ found,
    Passes Query.circle Query.tallySource Query.tallySource items (.fresh true) found := by
  have lib := Library.of_queries Query.flat_circle.numbered fun q same => same ▸ Query.isPure_circle
  refine (passes_iff lib ⟨_, rfl, .refl⟩ Query.itemwise_circle (coherent_fresh _ true)
    (clear_fresh Query.circle true)).mpr ⟨?_, fun n x _ a _ op label => ?_⟩
  · refine ((Set.finite_singleton Query.tallySource).prod items.contents.finite_toSet).subset ?_
    rintro ⟨n, c⟩ ⟨x, finds, rfl⟩
    obtain ⟨rfl, inside⟩ := Query.finds_circle.mp finds
    exact ⟨rfl, ItemSet.mem_iff_content_mem.mp inside⟩
  · obtain rfl := Query.mem_operations_circle.mp (Query.mem_operations_of_mem_labels label)
    exact ⟨_, (Query.follows_anything x .any).mpr rfl⟩

/-- Two selections in `circle`, and the selection from the union of their items. -/
theorem select_circle : ∃ s t u,
    Passes Query.circle Query.tallySource Query.tallySource (.singleton (.atom (.bool true)) .any)
      (.fresh true) s ∧
    Passes Query.circle Query.tallySource Query.tallySource (.singleton (.atom (.bool false)) .any)
      (.fresh true) t ∧
    Passes Query.circle Query.tallySource Query.tallySource
      ((ItemSet.singleton (.atom (.bool true)) .any).union (.singleton (.atom (.bool false)) .any))
      (.fresh true) u ∧
    (∀ x, x ∈ s ↔ Query.circle.Finds Query.tallySource (.singleton (.atom (.bool true)) .any)
      Query.tallySource x) ∧
    ∀ x, x ∈ u ↔ x ∈ s.union t := by
  obtain ⟨s, passes⟩ := passes_circle (.singleton (.atom (.bool true)) .any)
  obtain ⟨t, passes'⟩ := passes_circle (.singleton (.atom (.bool false)) .any)
  have after : After (fun q _ _ => q ∈ ({Query.circle} : Set Query)) true (.fresh true) := .nothing
  obtain ⟨selects, unions⟩ := select_iff_finds Query.flat_circle.numbered
    (fun q same => same ▸ Query.isPure_circle) after rfl Query.itemwise_circle Query.tallySource
    Query.tallySource
  obtain ⟨joins, found⟩ := unions _ _ _ _ after after
  obtain ⟨u, joined⟩ := joins.mpr ⟨⟨s, passes⟩, ⟨t, passes'⟩⟩
  obtain ⟨fuel, ev, ends⟩ := id passes
  exact ⟨s, t, u, passes, passes', joined, (selects _ fuel _ ev ends).2 s rfl,
    found s t u passes passes' joined⟩

end Evaluator

end GraphQuery
