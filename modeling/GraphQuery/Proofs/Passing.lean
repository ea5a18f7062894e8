import GraphQuery.Proofs.Concurrence
import GraphQuery.Proofs.Conjunctions
/-!
# Equal operations that pass

Two operations that are equal need not fail on the same items: a conjunction tries its members in order,
and equal conjunctions may have them in different orders; and types that are checked may tell equal items
apart. But where both pass they find the same. This takes that what is compared by number is the same
wherever it is equal, that callers' functions respect equality, and that selections from equal items are
answered with equal sets.
-/

namespace GraphQuery

theorem exists_forall₂ {α β : Type} {R : α → β → Prop} {as : List α} (all : ∀ a ∈ as, ∃ b, R a b) :
    ∃ bs, List.Forall₂ R as bs := by
  induction as with
  | nil => exact ⟨[], .nil⟩
  | cons a as ih =>
    obtain ⟨⟨b, here⟩, rest⟩ := List.forall_mem_cons.mp all
    obtain ⟨bs, all⟩ := ih rest
    exact ⟨b :: bs, .cons here all⟩

/-! What inquiries pass with -/

namespace Inquiry

variable {α β γ δ : Type} {answers : Selection → Item → ItemSet → Prop}

/-- With some answers to its selections, an inquiry passes with a value. -/
inductive Passes (answers : Selection → Item → ItemSet → Prop) : Inquiry α → α → Prop where
  | done (a : α) : Passes answers (.done (.ok a)) a
  | ask {s : Selection} {x : Item} {next : ItemSet → Inquiry α} {found : ItemSet} {a : α}
    (answer : answers s x found) (rest : Passes answers (next found) a) :
    Passes answers (.ask s x next) a

theorem passes_pure {a b : α} : (pure a : Inquiry α).Passes answers b ↔ a = b := by
  constructor
  · rintro ⟨⟩
    rfl
  · rintro rfl
    exact .done a

theorem not_passes_throw {e : Error} {a : α} : ¬ (throw e : Inquiry α).Passes answers a := nofun

theorem passes_ofOutcome {r : Except Error α} {a : α} :
    Passes answers (ofOutcome r : Inquiry α) a ↔ r = .ok a := by
  cases r with
  | ok b => exact passes_pure.trans (Except.ok.injEq b a).symm.to_iff
  | error e => exact iff_of_false not_passes_throw nofun

theorem passes_select {s : Selection} {x : Item} {found : ItemSet} :
    (Inquiry.select s x).Passes answers found ↔ answers s x found := by
  constructor
  · rintro (_ | ⟨answer, rest⟩)
    rwa [← passes_pure.mp rest]
  · exact fun answer => .ask answer (.done found)

theorem passes_bind {p : Inquiry α} {f : α → Inquiry β} {b : β} :
    (p >>= f).Passes answers b ↔ ∃ a, p.Passes answers a ∧ (f a).Passes answers b := by
  induction p with
  | done outcome =>
    cases outcome with
    | ok a =>
      constructor
      · exact fun rest => ⟨a, .done a, rest⟩
      · rintro ⟨_, ⟨⟩, rest⟩
        exact rest
    | error e => exact iff_of_false nofun fun ⟨_, contra, _⟩ => nomatch contra
  | ask s x next ih =>
    constructor
    · rintro (_ | ⟨answer, rest⟩)
      obtain ⟨a, first, second⟩ := (ih _).mp rest
      exact ⟨a, .ask answer first, second⟩
    · rintro ⟨a, _ | ⟨answer, first⟩, second⟩
      exact .ask answer ((ih _).mpr ⟨a, first, second⟩)

theorem passes_mapM {f : α → Inquiry β} {as : List α} {bs : List β} :
    (as.mapM f).Passes answers bs ↔ List.Forall₂ (fun a b => (f a).Passes answers b) as bs := by
  induction as generalizing bs with
  | nil =>
    rw [List.mapM_nil, passes_pure, List.forall₂_nil_left_iff, eq_comm]
  | cons a as ih =>
    simp only [List.mapM_cons, passes_bind, passes_pure, ih, List.forall₂_cons_left_iff]
    simp [eq_comm]

/-- An inquiry comes to a value if it passes with it, given what its selections may come to. -/
theorem results_iff_passes {p : Inquiry α} {a : α} : p.Results (some (.ok a)) ↔
    p.Passes (fun s x found => s.Answers x (some (.ok found))) a := by
  induction p with
  | done r =>
    constructor
    · rintro ⟨⟩
      exact .done a
    · rintro ⟨⟩
      exact .done _
  | ask s x next ih =>
    constructor
    · rintro (_ | ⟨answer, rest⟩)
      exact .ask answer ((ih _).mp rest)
    · rintro (_ | ⟨answer, rest⟩)
      exact .found answer ((ih _).mpr rest)

/-- Wherever two inquiries pass, they do with related values. -/
def Matches (answers : Selection → Item → ItemSet → Prop) (R : α → β → Prop) (p : Inquiry α)
    (p' : Inquiry β) : Prop :=
  ∀ ⦃a b⦄, p.Passes answers a → p'.Passes answers b → R a b

namespace Matches

variable {R : α → β → Prop} {S : γ → δ → Prop}

theorem pure {a : α} {b : β} (related : R a b) :
    Matches answers R (pure a : Inquiry α) (pure b : Inquiry β) := by
  intro a' b' passes passes'
  rwa [← passes_pure.mp passes, ← passes_pure.mp passes']

theorem throw_left (e : Error) (p : Inquiry β) : Matches answers R (throw e : Inquiry α) p :=
  fun _ _ passes => (not_passes_throw passes).elim

theorem throw_right (p : Inquiry α) (e : Error) : Matches answers R p (throw e : Inquiry β) :=
  fun _ _ _ passes => (not_passes_throw passes).elim

theorem ofOutcome {r : Except Error α} {r' : Except Error β}
    (related : ∀ a b, r = .ok a → r' = .ok b → R a b) :
    Matches answers R (GraphQuery.ofOutcome r : Inquiry α) (GraphQuery.ofOutcome r' : Inquiry β) :=
  fun a b passes passes' => related a b (passes_ofOutcome.mp passes) (passes_ofOutcome.mp passes')

theorem bind {p : Inquiry α} {p' : Inquiry β} {f : α → Inquiry γ} {g : β → Inquiry δ}
    (first : Matches answers R p p') (second : ∀ a b, R a b → Matches answers S (f a) (g b)) :
    Matches answers S (p >>= f) (p' >>= g) := by
  intro c d passes passes'
  obtain ⟨a, before, after⟩ := passes_bind.mp passes
  obtain ⟨b, before', after'⟩ := passes_bind.mp passes'
  exact second a b (first before before') after after'

end Matches

end Inquiry

/-! What is compared by number -/

/-- A function that a caller supplied. -/
inductive Closure where
  | test (p : Predicate)
  | map (m : Mapping)
  | call (f : BoundFunction)

/-- Whether two functions that callers supplied are equal. -/
def Closure.same : Closure → Closure → Bool
  | .test p, .test r => p == r
  | .map m, .map n => m == n
  | .call f, .call g => f == g
  | _, _ => false

/-- The functions that callers supplied for a filter. -/
def Filter.closures (f : Filter) : List Closure :=
  f.predicates.map .test

/-- The functions that callers supplied for a follow. -/
def Follow.closures : Follow → List Closure
  | .map m => [.map m]
  | .filter f => f.closures
  | .select _ | .slot .. | .permute .. => []
  | .pair inner | .onSlot _ _ inner => inner.closures
  | .call f => [.call f]

/-- The functions that callers supplied for an operation. -/
def Operation.closures : Operation → List Closure
  | .filter f => f.closures
  | .follow f => f.closures
  | .count _ => []

/-- Among functions and selections, those are the same that are equal. -/
structure Identifies (cs cs' : List Closure) (ss ss' : List Selection) : Prop where
  closures : ∀ c ∈ cs, ∀ c' ∈ cs', c.same c' = true → c = c'
  selections : ∀ s ∈ ss, ∀ s' ∈ ss', (s == s') = true → s = s'

theorem Identifies.mono {cs cs' ds ds' : List Closure} {ss ss' ts ts' : List Selection}
    (identifies : Identifies cs cs' ss ss') (closures : ds ⊆ cs) (closures' : ds' ⊆ cs')
    (selections : ts ⊆ ss) (selections' : ts' ⊆ ss') : Identifies ds ds' ts ts' where
  closures c member c' member' := identifies.closures c (closures member) c' (closures' member')
  selections s member s' member' :=
    identifies.selections s (selections member) s' (selections' member')

/-- The answers to a selection from equal items are equal. -/
def Settles (answers : Selection → Item → ItemSet → Prop) : Prop :=
  ∀ ⦃s x y u v⦄, (x == y) = true → answers s x u → answers s y v → u.essence = v.essence

/-! Items that fit -/

/-- Operations on tuples match on equal items if they do on tuples of equal values. -/
theorem Inquiry.matches_fitting {α β : Type} {R : α → β → Prop} {x y : Item} (types : List ItemType)
    {p : { t : Tuple // t.arity = types.length } → Inquiry α}
    {q : { t : Tuple // t.arity = types.length } → Inquiry β} {d e : Error} (same : (x == y) = true)
    (fitting : ∀ t u, t.val.values.map Item.content = u.val.values.map Item.content →
      Inquiry.Matches answers R (p t) (q u)) :
    Inquiry.Matches answers R
      (match x.fitting? types with
        | some t => p t
        | none => throw d)
      (match y.fitting? types with
        | some u => q u
        | none => throw e) := by
  cases fits : x.fitting? types with
  | none => exact .throw_left _ _
  | some t =>
    cases fits' : y.fitting? types with
    | none => exact .throw_right _ _
    | some u => exact fitting t u (Item.values_of_fitting same fits fits')

/-! Filters -/

section

variable {answers : Selection → Item → ItemSet → Prop} {x y : Item}

namespace Filter

theorem passes_of_acceptEvery {fs : List Filter} {accepted : Bool}
    (passes : (acceptEvery Inquiry.select fs x).Passes answers accepted) :
    if accepted then ∀ f ∈ fs, (f.accept Inquiry.select x).Passes answers true
    else ∃ f ∈ fs, (f.accept Inquiry.select x).Passes answers false := by
  induction fs with
  | nil =>
    obtain rfl := Inquiry.passes_pure.mp passes
    exact fun _ => nofun
  | cons f fs ih =>
    obtain ⟨first, here, rest⟩ := Inquiry.passes_bind.mp passes
    cases first with
    | false =>
      obtain rfl := Inquiry.passes_pure.mp rest
      exact ⟨f, List.mem_cons_self, here⟩
    | true =>
      cases accepted with
      | true => exact List.forall_mem_cons.mpr ⟨here, ih rest⟩
      | false =>
        obtain ⟨g, member, rejects⟩ := ih rest
        exact ⟨g, List.mem_cons_of_mem f member, rejects⟩

/-- Conjunctions give the same verdict where both pass, if every member of either has a partner in the
other and partners do. -/
theorem acceptEvery_matches {fs gs : List Filter} {partners : Filter → Filter → Prop}
    (left : ∀ f ∈ fs, ∃ g ∈ gs, partners f g) (right : ∀ g ∈ gs, ∃ f ∈ fs, partners f g)
    (agree : ∀ f ∈ fs, ∀ g ∈ gs, partners f g →
      Inquiry.Matches answers (· = ·) (f.accept Inquiry.select x) (g.accept Inquiry.select y)) :
    Inquiry.Matches answers (· = ·) (acceptEvery Inquiry.select fs x)
      (acceptEvery Inquiry.select gs y) := by
  intro b c passes passes'
  have all := passes_of_acceptEvery passes
  have all' := passes_of_acceptEvery passes'
  cases b with
  | true =>
    cases c with
    | true => rfl
    | false =>
      obtain ⟨g, member', rejects⟩ := all'
      obtain ⟨f, member, partner⟩ := right g member'
      exact agree f member g member' partner (all f member) rejects
  | false =>
    cases c with
    | false => rfl
    | true =>
      obtain ⟨f, member, rejects⟩ := all
      obtain ⟨g, member', partner⟩ := left f member
      exact agree f member g member' partner rejects (all' g member')

variable {f g : Filter}

theorem closures_subset_every {fs : List Filter} (member : f ∈ fs) (t : ItemType) :
    f.closures ⊆ (every fs t).closures :=
  List.map_subset _ fun _ tries => mem_predicates_every.mpr ⟨f, member, tries⟩

theorem selections_subset_every {fs : List Filter} (member : f ∈ fs) (t : ItemType) :
    f.selections ⊆ (every fs t).selections := by
  change f.selections ⊆ allSelections fs
  rw [allSelections_eq]
  exact fun s selects => List.mem_flatMap.mpr ⟨f, member, selects⟩

/-- Equal filters give the same verdict on equal items where both pass. -/
theorem accept_matches (settles : Settles answers) (lawful : f.Lawful)
    (identifies : Identifies f.closures g.closures f.selections g.selections)
    (equal : f.same g = true) (same : (x == y) = true) :
    Inquiry.Matches answers (· = ·) (f.accept Inquiry.select x) (g.accept Inquiry.select y) := by
  induction f generalizing g x y with
  | test p =>
    cases g with
    | test r =>
      cases lawful with | test respects
      obtain ⟨⟩ := identifies.closures (.test p) (List.mem_singleton_self _) (.test r)
        (List.mem_singleton_self _) equal
      refine .ofOutcome fun b c passed passed' => ?_
      have agree := respects x y same
      rw [passed, passed'] at agree
      exact Option.some.inj agree
    | _ => cases equal
  | anything t =>
    cases g with
    | anything => exact .pure rfl
    | _ => cases equal
  | equals value t =>
    cases g with
    | equals value' u =>
      rw [Filter.same, Bool.and_eq_true] at equal
      refine .pure ?_
      rw [BEq.congr_left same, BEq.congr_right equal.1]
    | _ => cases equal
  | every fs t ih =>
    cases g with
    | every gs u =>
      cases lawful with | every lawful
      obtain ⟨left, right⟩ := exists_same_of_mem equal
      refine acceptEvery_matches left right fun f member g member' equal => ?_
      exact ih f member (lawful f member) (identifies.mono (closures_subset_every member t)
        (closures_subset_every member' u) (selections_subset_every member t)
        (selections_subset_every member' u)) equal same
    | _ => cases equal
  | counting s c k =>
    cases g with
    | counting s' d l =>
      simp only [Filter.same, Bool.and_eq_true, beq_iff_eq] at equal
      obtain ⟨⟨equal, rfl⟩, rfl⟩ := equal
      obtain rfl := identifies.selections s (List.mem_singleton_self s) s'
        (List.mem_singleton_self s') equal
      intro b b' passes passes'
      obtain ⟨u, answer, last⟩ := Inquiry.passes_bind.mp passes
      obtain ⟨v, answer', last'⟩ := Inquiry.passes_bind.mp passes'
      have sizes := ItemSet.size_congr
        (settles same (Inquiry.passes_select.mp answer) (Inquiry.passes_select.mp answer'))
      rw [← Inquiry.passes_pure.mp last, ← Inquiry.passes_pure.mp last', sizes]
    | _ => cases equal
  | onSlot types i inner ih =>
    cases g with
    | onSlot types' j inner' =>
      cases lawful with | onSlot _ _ lawful
      simp only [Filter.same, Bool.and_eq_true, beq_iff_eq] at equal
      obtain ⟨⟨rfl, index⟩, equal⟩ := equal
      obtain rfl := Fin.ext index
      rw [accept, accept]
      refine Inquiry.matches_fitting types same fun t u values => ?_
      have slot := Tuple.content_valueAt values i
      exact ih (g := inner') lawful identifies equal (Item.beq_iff.mpr slot)
    | _ => cases equal

end Filter

/-! Follows -/

namespace ItemSet

/-- Two sets hold equal items, whatever their declared types are. -/
def Level (u v : ItemSet) : Prop :=
  u.essence.contents = v.essence.contents

theorem Level.of_essence {u v : ItemSet} (same : u.essence = v.essence) : u.Level v :=
  congrArg Essence.contents same

theorem Level.singleton {x y : Item} (same : x.content = y.content) (t u : ItemType) :
    (ItemSet.singleton x t).Level (.singleton y u) := by
  unfold Level essence
  rw [contents_singleton, contents_singleton, same]

theorem Level.packed {u v : ItemSet} (level : u.Level v) {values values' : Item → List Item}
    {types types' : List ItemType} (fit : ∀ z ∈ u.items, Tuple.Fit (values z) types)
    (fit' : ∀ z ∈ v.items, Tuple.Fit (values' z) types')
    (congr : ∀ z z' : Item, z.content = z'.content →
      (values z).map Item.content = (values' z').map Item.content) :
    (u.packed values types).Level (v.packed values' types') := by
  have members {u v : ItemSet} (level : u.Level v) {z : Item} (member : z ∈ u.items) :
      ∃ z' ∈ v.items, z'.content = z.content := by
    have content : z.content ∈ u.essence.contents := mem_essence.mpr (List.mem_map_of_mem member)
    rw [level, mem_essence] at content
    exact List.mem_map.mp content
  ext c
  rw [mem_essence, mem_essence, mem_contents_packed fit, mem_contents_packed fit']
  constructor
  · rintro ⟨z, member, rfl⟩
    obtain ⟨z', member', same⟩ := members level member
    exact ⟨z', member', by rw [congr z z' same.symm]⟩
  · rintro ⟨z', member', rfl⟩
    obtain ⟨z, member, same⟩ := members level.symm member'
    exact ⟨z, member, by rw [congr z z' same]⟩

end ItemSet

/-- Tuples made of what two sets hold are level where both can be made, if the sets are. -/
theorem Inquiry.matches_tuples {u v : ItemSet} (level : u.Level v) {values values' : Item → List Item}
    {types types' : List ItemType} (congr : ∀ z z' : Item, z.content = z'.content →
      (values z).map Item.content = (values' z').map Item.content) :
    Inquiry.Matches answers ItemSet.Level
      (do
        let made ← ofOutcome (u.items.mapM fun z => Tuple.ofTyped (values z) types)
        return .collect (made.map .tuple) (.tuple types))
      (do
        let made ← ofOutcome (v.items.mapM fun z => Tuple.ofTyped (values' z) types')
        return .collect (made.map .tuple) (.tuple types')) := by
  refine .bind (.ofOutcome (R := fun ts ts' => (∀ z ∈ u.items, Tuple.Fit (values z) types) ∧
    ts = (u.items.map fun z => .under (values z) types) ∧
    (∀ z ∈ v.items, Tuple.Fit (values' z) types') ∧
    ts' = v.items.map fun z => .under (values' z) types') fun ts ts' made made' => ?_) ?_
  · obtain ⟨fit, same⟩ := Tuple.mapM_ofTyped_eq_ok.mp made
    obtain ⟨fit', same'⟩ := Tuple.mapM_ofTyped_eq_ok.mp made'
    exact ⟨fit, same, fit', same'⟩
  · rintro _ _ ⟨fit, rfl, fit', rfl⟩
    rw [List.map_map, List.map_map]
    exact .pure (level.packed fit fit' congr)

namespace BoundFunction

theorem applyTo_cases {f : BoundFunction} {t : Tuple} {x : Item} (passed : f.applyTo t = .ok x) :
    ∃ result, f.call (t.values.drop f.kept) = .ok result ∧ x.content =
      if f.kept = 0 then result.content
      else .tuple ((t.values.take f.kept ++ [result]).map Item.content) := by
  obtain ⟨result, called, rest⟩ := bind_eq_ok.mp passed
  refine ⟨result, called, ?_⟩
  split at rest
  · split at rest
    · next bare =>
      rw [if_pos bare, Except.ok.inj rest]
    · next kept =>
      obtain ⟨made, typed, last⟩ := bind_eq_ok.mp rest
      obtain ⟨fit, rfl⟩ := Tuple.ofTyped_eq_ok.mp typed
      rw [if_neg kept, ← Except.ok.inj last]
      exact Tuple.content_under fit
  · cases rest

/-- Equal values lead a function to equal results where it passes. -/
theorem Respects.content_applyTo {f : BoundFunction} (respects : f.Respects) {t u : Tuple}
    (same : t.values.map Item.content = u.values.map Item.content) {x y : Item}
    (passed : f.applyTo t = .ok x) (passed' : f.applyTo u = .ok y) : x.content = y.content := by
  obtain ⟨result, called, content⟩ := applyTo_cases passed
  obtain ⟨result', called', content'⟩ := applyTo_cases passed'
  have arguments := respects (t.values.drop f.kept) (u.values.drop f.kept)
    (forall₂_beq_iff.mpr (by rw [List.map_drop, List.map_drop, same]))
  rw [called, called'] at arguments
  cases arguments with | some equal
  rw [content, content', List.map_append, List.map_append, List.map_take, List.map_take, same,
    List.map_singleton, List.map_singleton, Item.beq_iff.mp equal]

end BoundFunction

namespace Follow

variable {f g : Follow}

/-- Equal follows lead from equal items to level sets where both pass. -/
theorem follow_matches (settles : Settles answers) (lawful : f.Lawful)
    (identifies : Identifies f.closures g.closures f.selections g.selections)
    (equal : f.same g = true) (same : (x == y) = true) :
    Inquiry.Matches answers ItemSet.Level (f.follow Inquiry.select x) (g.follow Inquiry.select y) := by
  have alike := same_iff.mp equal
  clear equal
  induction alike generalizing x y with
  | @map m n equal =>
    cases lawful with | map respects
    obtain ⟨⟩ := identifies.closures (.map m) (List.mem_singleton_self _) (.map n)
      (List.mem_singleton_self _) equal
    refine .ofOutcome fun u v passed passed' => ?_
    have alike := respects x y same
    rw [passed, passed'] at alike
    cases alike with
    | ok equal => exact .of_essence (ItemSet.essence_eq_iff.mpr equal)
  | @filter f g equal =>
    cases lawful with | filter lawful
    refine (f.accept_matches settles lawful identifies equal same).bind ?_
    rintro accepted _ rfl
    cases accepted with
    | true => exact .pure (.singleton (Item.beq_iff.mp same) _ _)
    | false => exact .pure rfl
  | @select s s' equal =>
    obtain rfl := identifies.selections s (List.mem_singleton_self s) s'
      (List.mem_singleton_self s') equal
    intro u v passes passes'
    exact .of_essence
      (settles same (Inquiry.passes_select.mp passes) (Inquiry.passes_select.mp passes'))
  | slot types i =>
    rw [follow, follow]
    refine Inquiry.matches_fitting types same fun t u values => ?_
    exact .pure (.singleton (Tuple.content_valueAt values i) _ _)
  | permute types order =>
    rw [follow, follow]
    refine Inquiry.matches_fitting types same fun t u values => .pure (.singleton ?_ _ _)
    simp only [Item.content_tuple, Tuple.values_view, List.map_map]
    exact congrArg Content.tuple (List.map_congr_left fun i _ => Tuple.content_valueAt values i)
  | pair _ ih =>
    cases lawful with | pair lawful
    rw [follow, follow]
    refine (ih lawful identifies same).bind fun u v level =>
      Inquiry.matches_tuples level fun z z' same' => ?_
    simp only [List.map_cons, List.map_nil, Item.beq_iff.mp same, same']
  | onSlot types i _ ih =>
    cases lawful with | onSlot _ _ lawful
    rw [follow, follow]
    refine Inquiry.matches_fitting types same fun t u values => ?_
    have slot := Tuple.content_valueAt values i
    refine (ih lawful identifies (Item.beq_iff.mpr slot)).bind
      fun u v level => Inquiry.matches_tuples level fun z z' same' => ?_
    rw [List.map_set, List.map_set, values, same']
  | @call f g equal =>
    cases lawful with | call respects
    obtain ⟨⟩ := identifies.closures (.call f) (List.mem_singleton_self _) (.call g)
      (List.mem_singleton_self _) equal
    rw [follow, follow]
    cases fits : x.fitting? f.types with
    | none => exact .throw_left _ _
    | some t =>
      cases fits' : y.fitting? f.types with
      | none => exact .throw_right _ _
      | some u =>
        have values := Item.values_of_fitting same fits fits'
        exact Inquiry.Matches.bind (.ofOutcome fun _ _ => respects.content_applyTo values)
          fun a b results => .pure (.singleton results _ _)

/-- Where a follow passes on a set, it does on each of its items, and the set that it comes to holds what
it leads to from them. -/
theorem founds_of_passes_apply {s t : ItemSet} (passes : (f.apply Inquiry.select s).Passes answers t) :
    ∃ founds : List ItemSet, List.Forall₂ (fun x found =>
        (f.follow Inquiry.select x).Passes answers found) s.items founds ∧
      t.itemType = f.handsOn s.itemType ∧ ∀ c, c ∈ t.contents ↔ ∃ found ∈ founds, c ∈ found.contents := by
  rw [apply_eq] at passes
  obtain ⟨founds, reached, last⟩ := Inquiry.passes_bind.mp passes
  rw [← Inquiry.passes_pure.mp last]
  refine ⟨founds, Inquiry.passes_mapM.mp reached, rfl, fun c => ?_⟩
  rw [ItemSet.mem_contents_collect, List.map_flatMap, List.mem_flatMap]
  rfl

/-- Where a follow passes on each item of a set, it passes on the set. -/
theorem exists_passes_apply {s : ItemSet} (passes : ∀ x ∈ s.items, ∃ found,
    (f.follow Inquiry.select x).Passes answers found) :
    ∃ t, (f.apply Inquiry.select s).Passes answers t := by
  obtain ⟨founds, all⟩ := exists_forall₂ passes
  rw [apply_eq]
  exact ⟨_, Inquiry.passes_bind.mpr ⟨founds, Inquiry.passes_mapM.mpr all, .done _⟩⟩

end Follow

end

end GraphQuery
