import GraphQuery.Proofs.Congruence
import GraphQuery.Proofs.Passing
/-!
# Tables of operations

An operation that tells equal items apart may pass on one item and fail on an equal one. Which of them
an evaluator meets is a matter of what it has met before, so what its selections come to is no function
of what they start from. But whatever an operation passes with on some item stands for all equal items.
Looked up in a table of that, an operation is stable, and so are all operations of a query that is
tabulated, from the innermost queries outwards: each table is made from what the tabulated queries
select. A tabulated query has the nodes, the arcs and the number of the query, and it nests no other.
-/

namespace GraphQuery

/-! Looking up -/

section

variable {α : Type} {table : Item → α → Prop} {x y : Item} {a : α}

open Classical in
/-- An entry for some item that equals the one looked up. -/
noncomputable def lookUp (table : Item → α → Prop) (x : Item) : Except Error α :=
  if listed : ∃ a, ∃ y : Item, y.content = x.content ∧ table y a then
    .ok listed.choose
  else
    .error (.depthExceeded 0)

theorem lookUp_congr (equal : (x == y) = true) : lookUp table x = lookUp table y := by
  unfold lookUp
  rw [Item.beq_iff.mp equal]

theorem exists_of_lookUp (listed : lookUp table x = .ok a) :
    ∃ y : Item, y.content = x.content ∧ table y a := by
  unfold lookUp at listed
  split at listed
  · next listed' =>
    rw [← Except.ok.inj listed]
    exact listed'.choose_spec
  · cases listed

theorem exists_lookUp (same : y.content = x.content) (entry : table y a) :
    ∃ b, lookUp table x = .ok b :=
  ⟨_, dif_pos ⟨a, y, same, entry⟩⟩

end

namespace Inquiry

variable {α : Type} {answers answers' : Selection → Item → ItemSet → Prop} {a : α}

/-- What inquiries pass with, looked up. -/
noncomputable def tabulated (answers : Selection → Item → ItemSet → Prop) (p : Item → Inquiry α) :
    Item → Except Error α :=
  lookUp fun x => (p x).Passes answers

/-- What an inquiry passes with rests on the answers to the selections that it asks for. -/
theorem AsksOnly.passes_iff {P : Selection → Prop} {p : Inquiry α} (asks : p.AsksOnly P)
    (same : ∀ s, P s → ∀ x found, answers s x found ↔ answers' s x found) :
    p.Passes answers a ↔ p.Passes answers' a := by
  induction p with
  | done r =>
    constructor <;>
    · rintro ⟨⟩
      exact .done _
  | ask s x next ih =>
    obtain ⟨holds, later⟩ := asks
    constructor
    · rintro (_ | ⟨answer, rest⟩)
      exact .ask ((same s holds x _).mp answer) ((ih _ (later _)).mp rest)
    · rintro (_ | ⟨answer, rest⟩)
      exact .ask ((same s holds x _).mpr answer) ((ih _ (later _)).mpr rest)

theorem tabulated_eq {P : Selection → Prop} {p : Item → Inquiry α} (asks : ∀ x, (p x).AsksOnly P)
    (same : ∀ s, P s → ∀ x found, answers s x found ↔ answers' s x found) :
    tabulated answers p = tabulated answers' p :=
  congrArg lookUp (funext fun x => funext fun _ => propext ((asks x).passes_iff same))

end Inquiry

section

variable (answers : Selection → Item → ItemSet → Prop)

/-- A filter whose verdicts are looked up. -/
noncomputable def Filter.tabulated (f : Filter) : Filter :=
  .test ⟨0, f.text, f.itemType, Inquiry.tabulated answers (f.accept Inquiry.select)⟩

/-- A follow that looks up what it leads to. -/
noncomputable def Follow.tabulated : Follow → Follow
  | .filter f => .filter (f.tabulated answers)
  | f => .map ⟨0, f.text, f.inputType, f.outputType, Inquiry.tabulated answers (f.follow Inquiry.select)⟩

/-- An operation that looks up what it does to single items. -/
noncomputable def Operation.tabulated : Operation → Operation
  | .filter f => .filter (f.tabulated answers)
  | .follow f => .follow (f.tabulated answers)
  | .count t => .count t

end

section

variable {answers answers' : Selection → Item → ItemSet → Prop} {f g : Follow} {op op' : Operation}
  {x y : Item} {found : ItemSet}

namespace Follow

theorem tabulated_of_not_filter (general : ∀ g, f ≠ .filter g) : f.tabulated answers =
    .map ⟨0, f.text, f.inputType, f.outputType,
      Inquiry.tabulated answers (f.follow Inquiry.select)⟩ := by
  unfold tabulated
  split
  · exact absurd rfl (general _)
  · rfl

theorem handsOn_tabulated (t : ItemType) : (f.tabulated answers).handsOn t = f.handsOn t := by
  cases f <;> rfl

/-- What is looked up is what the follow passes with on some equal item. -/
theorem passes_of_tabulated
    (results : ((f.tabulated answers).follow Inquiry.select x).Results (some (.ok found))) :
    ∃ (y : Item) (found' : ItemSet), y.content = x.content ∧
      (f.follow Inquiry.select y).Passes answers found' ∧ found'.Level found := by
  obtain ⟨g, rfl⟩ | general := f.filter_or_not
  · obtain ⟨v, verdict, last⟩ := Inquiry.results_bind_ok.mp results
    obtain ⟨y, same, passes⟩ :=
      exists_of_lookUp (Option.some.inj (Inquiry.results_ofOutcome.mp verdict)).symm
    refine ⟨y, _, same, Inquiry.passes_bind.mpr ⟨v, passes, .done _⟩, ?_⟩
    rw [Except.ok.inj (Option.some.inj (Inquiry.results_pure.mp last))]
    cases v with
    | true => exact .singleton same _ _
    | false => rfl
  · rw [tabulated_of_not_filter general] at results
    obtain ⟨y, same, passes⟩ :=
      exists_of_lookUp (Option.some.inj (Inquiry.results_ofOutcome.mp results)).symm
    exact ⟨y, found, same, passes, rfl⟩

/-- Something is looked up where the follow passes on some equal item. -/
theorem exists_tabulated (same : y.content = x.content)
    (passes : (f.follow Inquiry.select y).Passes answers found) :
    ∃ found', ((f.tabulated answers).follow Inquiry.select x).Results (some (.ok found')) := by
  obtain ⟨g, rfl⟩ | general := f.filter_or_not
  · obtain ⟨v, verdict, -⟩ := Inquiry.passes_bind.mp passes
    have entry : ∃ b, Inquiry.tabulated answers (g.accept Inquiry.select) x = .ok b :=
      exists_lookUp same verdict
    obtain ⟨b, listed⟩ := entry
    exact ⟨_, Inquiry.results_bind_ok.mpr
      ⟨b, Inquiry.results_ofOutcome.mpr (congrArg some listed.symm), .done _⟩⟩
  · rw [tabulated_of_not_filter general]
    have entry : ∃ b, Inquiry.tabulated answers (f.follow Inquiry.select) x = .ok b :=
      exists_lookUp same passes
    obtain ⟨b, listed⟩ := entry
    exact ⟨b, Inquiry.results_ofOutcome.mpr (congrArg some listed.symm)⟩

end Follow

/-! Sets -/

theorem Filter.itemType_of_same {f g : Filter}
    (identifies : Identifies f.closures g.closures f.selections g.selections)
    (equal : f.same g = true) : f.itemType = g.itemType := by
  cases f <;> cases g <;> try cases equal
  case test.test p r =>
    obtain ⟨⟩ := identifies.closures (.test p) (List.mem_singleton_self _) (.test r)
      (List.mem_singleton_self _) equal
    rfl
  case counting.counting s c k s' d l =>
    simp only [Filter.same, Bool.and_eq_true] at equal
    rw [itemType, itemType, identifies.selections s (List.mem_singleton_self s) s'
      (List.mem_singleton_self s') equal.1.1]
  all_goals
    simp only [Filter.same, Bool.and_eq_true, beq_iff_eq] at equal
    simp only [itemType, equal]

namespace Follow

/-- Equal follows are made for the same types of items and lead to the same. -/
theorem types_of_same (identifies : Identifies f.closures g.closures f.selections g.selections)
    (equal : f.same g = true) : f.inputType = g.inputType ∧ f.outputType = g.outputType := by
  have alike := same_iff.mp equal
  clear equal
  induction alike with
  | @map m n equal =>
    obtain ⟨⟩ := identifies.closures (.map m) (List.mem_singleton_self _) (.map n)
      (List.mem_singleton_self _) equal
    exact ⟨rfl, rfl⟩
  | filter equal =>
    have same := Filter.itemType_of_same identifies equal
    exact ⟨same, same⟩
  | @select s s' equal =>
    obtain rfl := identifies.selections s (List.mem_singleton_self s) s'
      (List.mem_singleton_self s') equal
    exact ⟨rfl, rfl⟩
  | slot | permute => exact ⟨rfl, rfl⟩
  | pair _ ih =>
    obtain ⟨input, output⟩ := ih identifies
    exact ⟨input, by rw [outputType, outputType, input, output]⟩
  | onSlot _ _ _ ih =>
    obtain ⟨-, output⟩ := ih identifies
    exact ⟨rfl, by rw [outputType, outputType, output]⟩
  | @call f g equal =>
    obtain ⟨⟩ := identifies.closures (.call f) (List.mem_singleton_self _) (.call g)
      (List.mem_singleton_self _) equal
    exact ⟨rfl, rfl⟩

theorem handsOn_of_same (identifies : Identifies f.closures g.closures f.selections g.selections)
    (equal : f.same g = true) (t : ItemType) : f.handsOn t = g.handsOn t := by
  have types := (types_of_same identifies equal).2
  cases same_iff.mp equal <;> first | rfl | exact types

/-- A set holds what a follow passes with on the items of another, where each may be taken for any item
that equals it. -/
structure Spreads (answers : Selection → Item → ItemSet → Prop) (f : Follow) (s t : ItemSet) :
    Prop where
  itemType : t.itemType = f.handsOn s.itemType
  passes : ∀ x ∈ s.items, ∃ (y : Item) (found : ItemSet), y.content = x.content ∧
    (f.follow Inquiry.select y).Passes answers found
  contents : ∀ c, c ∈ t.contents ↔ ∃ x ∈ s.items, ∃ (y : Item) (found : ItemSet),
    y.content = x.content ∧ (f.follow Inquiry.select y).Passes answers found ∧ c ∈ found.contents

section

variable {s s' t t' : ItemSet} (settles : Settles answers) (lawful : f.Lawful)

include settles lawful

/-- Equal follows spread equal sets to equal sets. -/
theorem Spreads.essence_eq
    (identifies : Identifies f.closures g.closures f.selections g.selections)
    (equal : f.same g = true) (same : s.essence = s'.essence) (spreads : f.Spreads answers s t)
    (spreads' : g.Spreads answers s' t') : t.essence = t'.essence := by
  have level {x x' y y' : Item} {found found' : ItemSet} (equal' : (x == x') = true)
      (here : y.content = x.content) (there : y'.content = x'.content)
      (passes : (f.follow Inquiry.select y).Passes answers found)
      (passes' : (g.follow Inquiry.select y').Passes answers found') {c : Content} :
      c ∈ found.contents ↔ c ∈ found'.contents := by
    have between : (y == y') = true :=
      Item.beq_iff.mpr (here.trans ((Item.beq_iff.mp equal').trans there.symm))
    have level := follow_matches settles lawful identifies equal between passes passes'
    rw [← ItemSet.mem_essence, level, ItemSet.mem_essence]
  refine congrArg₂ ItemSet.Essence.mk ?_ ?_
  · have types : s.itemType = s'.itemType := congrArg ItemSet.Essence.itemType same
    rw [spreads.itemType, spreads'.itemType, types, handsOn_of_same identifies equal]
  · ext c
    rw [List.mem_toFinset, List.mem_toFinset, spreads.contents, spreads'.contents]
    constructor
    · rintro ⟨x, member, y, found, here, passes, content⟩
      obtain ⟨x', member', equal'⟩ := ItemSet.exists_beq_of_mem same member
      obtain ⟨y', found', there, passes'⟩ := spreads'.passes x' member'
      exact ⟨x', member', y', found', there, passes',
        (level equal' here there passes passes').mp content⟩
    · rintro ⟨x', member', y', found', there, passes', content⟩
      obtain ⟨x, member, equal'⟩ := ItemSet.exists_beq_of_mem same.symm member'
      obtain ⟨y, found, here, passes⟩ := spreads.passes x member
      exact ⟨x, member, y, found, here, passes,
        (level (BEq.symm equal') here there passes passes').mpr content⟩

variable (identifies : Identifies f.closures f.closures f.selections f.selections)

include identifies

/-- A set holds what a follow passes with if it holds as much for each item. -/
theorem spreads_of_founds {founds : List ItemSet} (typed : t.itemType = f.handsOn s.itemType)
    (all : List.Forall₂ (fun x found => ∃ (y : Item) (found' : ItemSet), y.content = x.content ∧
      (f.follow Inquiry.select y).Passes answers found' ∧ found'.Level found) s.items founds)
    (contents : ∀ c, c ∈ t.contents ↔ ∃ found ∈ founds, c ∈ found.contents) :
    f.Spreads answers s t where
  itemType := typed
  passes x member := by
    obtain ⟨found, -, y, found', same, passes, -⟩ := exists_of_mem_forall₂ all member
    exact ⟨y, found', same, passes⟩
  contents c := by
    rw [contents]
    constructor
    · rintro ⟨found, listed, content⟩
      obtain ⟨x, member, y, found', same, passes, level⟩ := exists_of_mem_forall₂ all.flip listed
      refine ⟨x, member, y, found', same, passes, ?_⟩
      rwa [← ItemSet.mem_essence, level, ItemSet.mem_essence]
    · rintro ⟨x, member, y, found, same, passes, content⟩
      obtain ⟨found', listed, y', found'', same', passes', level⟩ := exists_of_mem_forall₂ all member
      have level' : found.Level found'' := follow_matches settles lawful identifies (BEq.refl f)
        (Item.beq_iff.mpr (same.trans same'.symm)) passes passes'
      refine ⟨found', listed, ?_⟩
      rwa [← ItemSet.mem_essence, ← level, ← level', ItemSet.mem_essence]

theorem spreads_of_passes (passes : (f.apply Inquiry.select s).Passes answers t) :
    f.Spreads answers s t := by
  obtain ⟨founds, all, typed, contents⟩ := founds_of_passes_apply passes
  exact spreads_of_founds settles lawful identifies typed
    (all.imp fun x found here => ⟨x, found, rfl, here, rfl⟩) contents

theorem spreads_of_tabulated
    (results : ((f.tabulated answers).apply Inquiry.select s).Results (some (.ok t))) :
    f.Spreads answers s t := by
  obtain ⟨_, founds, ⟨⟩, typed, all, contents⟩ | ⟨_, _, _, _, contra⟩ := results_apply results
  · exact spreads_of_founds settles lawful identifies (typed.trans (handsOn_tabulated _))
      (all.imp fun x found => passes_of_tabulated) contents
  · exact (Inquiry.not_passedOn_ok contra).elim

end

/-- All items are looked up where the follow passes on items equal to them. -/
theorem exists_tabulated_apply {s : ItemSet} (passes : ∀ x ∈ s.items, ∃ (y : Item) (found : ItemSet),
    y.content = x.content ∧ (f.follow Inquiry.select y).Passes answers found) :
    ∃ t, ((f.tabulated answers).apply Inquiry.select s).Results (some (.ok t)) := by
  simp only [Inquiry.results_iff_passes]
  refine exists_passes_apply fun x member => ?_
  obtain ⟨y, found, same, passes⟩ := passes x member
  obtain ⟨found', results⟩ := exists_tabulated same passes
  exact ⟨found', Inquiry.results_iff_passes.mp results⟩

end Follow

namespace Operation

theorem selections_tabulated : (op.tabulated answers).selections = [] := by
  cases op with
  | follow f => cases f <;> rfl
  | _ => rfl

/-- Tabulated operations are stable, as equal items have one entry. -/
theorem isStable_tabulated : (op.tabulated answers).IsStable := by
  have filter (f : Filter) : (f.tabulated answers).Lawful :=
    .test fun x y equal => congrArg Except.toOption (lookUp_congr equal)
  have follow (f : Follow) : (f.tabulated answers).Lawful := by
    obtain ⟨g, rfl⟩ | general := f.filter_or_not
    · exact .filter (filter g)
    · rw [f.tabulated_of_not_filter general]
      refine .map fun x y equal => ?_
      change Alike (lookUp _ x) (lookUp _ y)
      rw [lookUp_congr equal]
      exact .refl _
  have lawful : (op.tabulated answers).Lawful := by
    cases op with
    | filter f => exact .filter (filter f)
    | follow f => exact .follow (follow f)
    | count t => exact .count t
  have checks : (op.tabulated answers).checks = [] := by
    cases op with
    | follow f => cases f <;> rfl
    | _ => rfl
  refine isStable_of_lawful lawful (fun t member => ?_) fun s member => ?_
  · rw [checks] at member
    cases member
  · rw [selections_tabulated] at member
    cases member

/-- A table rests on the answers to the selections of the operation. -/
theorem tabulated_eq (same : ∀ s ∈ op.selections, ∀ x found, answers s x found ↔ answers' s x found) :
    op.tabulated answers = op.tabulated answers' := by
  have filter (f : Filter) (selects : f.selections = op.selections) :
      f.tabulated answers = f.tabulated answers' := by
    unfold Filter.tabulated
    rw [Inquiry.tabulated_eq f.accept_asksOnly (selects ▸ same)]
  cases op with
  | filter f => exact congrArg _ (filter f rfl)
  | follow f =>
    refine congrArg Operation.follow ?_
    obtain ⟨g, rfl⟩ | general := f.filter_or_not
    · exact congrArg _ (filter g rfl)
    · rw [f.tabulated_of_not_filter general,
        f.tabulated_of_not_filter general,
        Inquiry.tabulated_eq f.follow_asksOnly same]
  | count t => rfl

theorem exists_of_beq (equal : (op == op') = true) :
    (∃ t, op = .count t ∧ op' = .count t) ∨
      ∃ f g, op.follow? = some f ∧ op'.follow? = some g ∧ f.same g = true := by
  cases op <;> cases op' <;> try cases equal
  case filter.filter f g => exact .inr ⟨_, _, rfl, rfl, equal⟩
  case follow.follow f g => exact .inr ⟨_, _, rfl, rfl, equal⟩
  case count.count t u =>
    have types : (t == u) = true := equal
    exact .inl ⟨t, rfl, by rw [beq_iff_eq.mp types]⟩

theorem closures_eq (itemwise : op.follow? = some f) : op.closures = f.closures := by
  obtain rfl | ⟨g, rfl, rfl⟩ := follow?_eq_some.mp itemwise <;> rfl

theorem follow?_tabulated (itemwise : op.follow? = some f) :
    (op.tabulated answers).follow? = some (f.tabulated answers) := by
  obtain rfl | ⟨g, rfl, rfl⟩ := follow?_eq_some.mp itemwise <;> rfl

theorem Lawful.itemwise (lawful : op.Lawful) (itemwise : op.follow? = some f) : f.Lawful := by
  obtain rfl | ⟨g, rfl, rfl⟩ := follow?_eq_some.mp itemwise
  · cases lawful with | follow lawful
    exact lawful
  · cases lawful with | filter lawful
    exact .filter lawful

section

variable {s s' t t' : ItemSet} (settles : Settles answers) (lawful : op.Lawful)

include settles lawful

/-- What is looked up of equal operations on equal sets is equal. -/
theorem tabulated_essence_eq
    (identified : Identifies op.closures op.closures op.selections op.selections)
    (identified' : Identifies op'.closures op'.closures op'.selections op'.selections)
    (identifies : Identifies op.closures op'.closures op.selections op'.selections)
    (lawful' : op'.Lawful) (equal : (op == op') = true) (same : s.essence = s'.essence)
    (results : (op.tabulated answers).Results s (some (.ok t)))
    (results' : (op'.tabulated answers).Results s' (some (.ok t'))) : t.essence = t'.essence := by
  obtain ⟨u, rfl, rfl⟩ | ⟨f, g, itemwise, itemwise', equal⟩ := exists_of_beq equal
  · have sizes := ItemSet.size_congr same
    cases Inquiry.results_pure.mp results
    cases Inquiry.results_pure.mp results'
    rw [sizes]
  · rw [Results, inquiry_eq_apply (follow?_tabulated itemwise)] at results
    rw [Results, inquiry_eq_apply (follow?_tabulated itemwise')] at results'
    rw [closures_eq itemwise, selections_eq itemwise] at identified identifies
    rw [closures_eq itemwise', selections_eq itemwise'] at identified' identifies
    have lawful := lawful.itemwise itemwise
    exact (Follow.spreads_of_tabulated settles lawful identified results).essence_eq settles lawful
      identifies equal same
      (Follow.spreads_of_tabulated settles (lawful'.itemwise itemwise') identified' results')

/-- Where an operation passes, something equal is looked up. -/
theorem exists_tabulated_of_passes
    (identified : Identifies op.closures op.closures op.selections op.selections)
    (passes : (op.inquiry s).Passes answers t) :
    ∃ t', (op.tabulated answers).Results s (some (.ok t')) ∧ t'.essence = t.essence := by
  by_cases counts : ∃ u, op = .count u
  · obtain ⟨u, rfl⟩ := counts
    cases Inquiry.passes_pure.mp passes
    exact ⟨_, .done _, rfl⟩
  · obtain ⟨f, itemwise⟩ := exists_follow? fun u contra => counts ⟨u, contra⟩
    rw [inquiry_eq_apply itemwise] at passes
    rw [closures_eq itemwise, selections_eq itemwise] at identified
    have lawful := lawful.itemwise itemwise
    have spreads := Follow.spreads_of_passes settles lawful identified passes
    obtain ⟨t', results⟩ := Follow.exists_tabulated_apply spreads.passes
    refine ⟨t', by rwa [Results, inquiry_eq_apply (follow?_tabulated itemwise)], ?_⟩
    exact (Follow.spreads_of_tabulated settles lawful identified results).essence_eq settles lawful
      identified (BEq.refl f) rfl spreads

end

end Operation

end

end GraphQuery
