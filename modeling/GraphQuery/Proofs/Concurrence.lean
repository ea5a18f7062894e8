import GraphQuery.Proofs.Congruence
/-!
# Outcomes that concur

The outcomes of an inquiry differ only in which of several equal sets its selections are answered with.
Two inquiries concur if they come to related values, or fail both, or go on without end both, whatever
the answers are. A selection concurs with itself up to equality of sets. A filter concurs with itself, as
it looks at the number of the items found only. A follow puts what it finds into tuples, and checks it
against a type then; unless that type tells equal items apart, the follow concurs with itself up to the
items that it leads to.
-/

namespace GraphQuery

namespace Inquiry

variable {α β γ δ : Type} {R : α → β → Prop} {S : γ → δ → Prop}

/-- Two outcomes are related values, or errors both, or no end both. -/
inductive Concur (R : α → β → Prop) : Option (Except Error α) → Option (Except Error β) → Prop where
  | ok {a : α} {b : β} (related : R a b) : Concur R (some (.ok a)) (some (.ok b))
  | error (d e : Error) : Concur R (some (.error d)) (some (.error e))
  | endless : Concur R none none

/-- Whatever two inquiries come to concurs. -/
def Concurs (R : α → β → Prop) (p : Inquiry α) (p' : Inquiry β) : Prop :=
  ∀ ⦃o o'⦄, p.Results o → p'.Results o' → Concur R o o'

/-- Outcomes that are passed on concur if the outcomes they come from do. -/
theorem Concur.passedOn {o : Option (Except Error α)} {o' : Option (Except Error β)}
    {u : Option (Except Error γ)} {u' : Option (Except Error δ)} (concur : Concur R o o')
    (passed : PassedOn o u) (passed' : PassedOn o' u') : Concur S u u' := by
  cases concur with
  | ok => cases passed
  | error d e =>
    cases passed
    cases passed'
    exact .error d e
  | endless =>
    cases passed
    cases passed'
    exact .endless

namespace Concurs

theorem pure {a : α} {b : β} (related : R a b) :
    Concurs R (pure a : Inquiry α) (pure b : Inquiry β) := by
  intro o o' results results'
  rw [results_pure.mp results, results_pure.mp results']
  exact .ok related

theorem ofOutcome {r : Except Error α} {r' : Except Error β} (concur : Concur R (some r) (some r')) :
    Concurs R (ofOutcome r) (ofOutcome r') := by
  intro o o' results results'
  rwa [results_ofOutcome.mp results, results_ofOutcome.mp results']

/-- An outcome that is known concurs with itself. -/
theorem ofOutcome_self {R : α → α → Prop} (refl : ∀ a, R a a) (r : Except Error α) :
    Concurs R (GraphQuery.ofOutcome r) (GraphQuery.ofOutcome r) := by
  refine ofOutcome ?_
  cases r with
  | ok a => exact .ok (refl a)
  | error e => exact .error e e

theorem throw (d e : Error) : Concurs R (throw d : Inquiry α) (throw e : Inquiry β) := by
  intro o o' results results'
  rw [results_done.mp results, results_done.mp results']
  exact .error d e

theorem select (s : Selection) (x : Item) : Concurs (fun u v : ItemSet => u.essence = v.essence)
    (Inquiry.select s x) (Inquiry.select s x) := by
  have answers {o : Option (Except Error ItemSet)} (results : (Inquiry.select s x).Results o) :
      s.Answers x o := by
    cases results with
    | found answer rest =>
      cases results_pure.mp rest
      exact answer
    | failed answer => exact answer
    | endless answer => exact answer
  intro o o' results results'
  have left := answers results
  have right := answers results'
  match o, o' with
  | none, none => exact .endless
  | none, some r' =>
    obtain ⟨r₀, gives, -⟩ := right
    exact (left r₀ gives).elim
  | some r, none =>
    obtain ⟨r₀, gives, -⟩ := left
    exact (right r₀ gives).elim
  | some r, some r' =>
    obtain ⟨r₀, gives, alike⟩ := left
    obtain ⟨r₁, gives', alike'⟩ := right
    obtain rfl := gives.unique gives'
    cases alike.symm.trans alike' with
    | ok same => exact .ok (ItemSet.essence_eq_iff.mpr same)
    | error d e => exact .error d e

theorem bind {p : Inquiry α} {p' : Inquiry β} {f : α → Inquiry γ} {g : β → Inquiry δ}
    (first : Concurs R p p') (second : ∀ a b, R a b → Concurs S (f a) (g b)) :
    Concurs S (p >>= f) (p' >>= g) := by
  intro o o' results results'
  obtain ⟨a, passed, rest⟩ | ⟨u, failed, passed⟩ := results_bind.mp results <;>
    obtain ⟨b, passed', rest'⟩ | ⟨u', failed', passed'⟩ := results_bind.mp results'
  · cases first passed passed' with
    | ok related => exact second a b related rest rest'
  · cases first passed failed'
    cases passed'
  · cases first failed passed'
    cases passed
  · exact (first failed failed').passedOn passed passed'

theorem mono {R' : α → β → Prop} {p : Inquiry α} {p' : Inquiry β} (concurs : Concurs R p p')
    (imp : ∀ a b, R a b → R' a b) : Concurs R' p p' := by
  intro o o' results results'
  cases concurs results results' with
  | ok related => exact .ok (imp _ _ related)
  | error d e => exact .error d e
  | endless => exact .endless

end Concurs

end Inquiry

/-! Filters -/

theorem Filter.acceptEvery_concurs {fs : List Filter} {x : Item} (concurs : ∀ f ∈ fs,
    Inquiry.Concurs (· = ·) (f.accept Inquiry.select x) (f.accept Inquiry.select x)) :
    Inquiry.Concurs (· = ·) (acceptEvery Inquiry.select fs x) (acceptEvery Inquiry.select fs x) := by
  induction fs with
  | nil => exact .pure rfl
  | cons f fs ih =>
    obtain ⟨first, later⟩ := List.forall_mem_cons.mp concurs
    rw [acceptEvery]
    refine first.bind ?_
    rintro accepted _ rfl
    cases accepted with
    | false => exact .pure rfl
    | true => exact ih later

/-- A filter comes to one verdict, if to any. -/
theorem Filter.accept_concurs (f : Filter) (x : Item) :
    Inquiry.Concurs (· = ·) (f.accept Inquiry.select x) (f.accept Inquiry.select x) := by
  induction f generalizing x with
  | test p => exact .ofOutcome_self (fun _ => rfl) _
  | anything | equals => exact .pure rfl
  | every members t ih =>
    rw [accept]
    exact acceptEvery_concurs fun f member => ih f member x
  | counting s c k =>
    refine (Inquiry.Concurs.select s x).bind fun u v same => .pure ?_
    rw [ItemSet.size_congr same]
  | onSlot types i inner ih =>
    rw [accept]
    cases x.fitting? types with
    | none => exact .throw _ _
    | some t => exact ih _

/-! Tuples of what is found -/

namespace ItemSet

/-- Two sets hold equal items, which a type does not tell apart. -/
structure Likewise (t : ItemType) (u v : ItemSet) : Prop where
  contents : u.essence.contents = v.essence.contents
  admits : ∀ y ∈ u.items, ∀ z ∈ v.items, (y == z) = true → t.admits y = t.admits z

variable {t : ItemType} {u v : ItemSet}

theorem eq_of_beq_of_mem {x y : Item} (member : x ∈ u.items) (member' : y ∈ u.items)
    (equal : (x == y) = true) : x = y :=
  List.inj_on_of_nodup_map u.nodup_contents member member' (Item.beq_iff.mp equal)

theorem Likewise.refl (t : ItemType) (u : ItemSet) : Likewise t u u :=
  ⟨rfl, fun _ member _ member' equal => by rw [eq_of_beq_of_mem member member' equal]⟩

theorem Likewise.of_blind (blind : t.Blind) (same : u.essence = v.essence) : Likewise t u v :=
  ⟨congrArg Essence.contents same, fun y _ z _ equal => blind y z equal⟩

theorem Likewise.of_admits (same : u.essence.contents = v.essence.contents)
    (admits : ∀ y ∈ u.items, t.admits y = true) (admits' : ∀ z ∈ v.items, t.admits z = true) :
    Likewise t u v :=
  ⟨same, fun y member z member' _ => (admits y member).trans (admits' z member').symm⟩

theorem Likewise.symm (likewise : Likewise t u v) : Likewise t v u :=
  ⟨likewise.contents.symm, fun z member y member' equal =>
    (likewise.admits y member' z member (BEq.symm equal)).symm⟩

theorem Likewise.exists_mem (likewise : Likewise t u v) {z : Item} (member : z ∈ v.items) :
    ∃ y ∈ u.items, (y == z) = true := by
  have content : z.content ∈ u.contents := by
    rw [← mem_essence, likewise.contents, mem_essence]
    exact List.mem_map_of_mem member
  obtain ⟨y, listed, same⟩ := List.mem_map.mp content
  exact ⟨y, listed, Item.beq_iff.mpr same⟩

end ItemSet

/-- The set of the tuples that are made of the items of another set. -/
def ItemSet.packed (u : ItemSet) (values : Item → List Item) (types : List ItemType) : ItemSet :=
  .collect (u.items.map fun y => .tuple (.under (values y) types)) (.tuple types)

theorem ItemSet.admits_packed {u : ItemSet} {values : Item → List Item} {types : List ItemType}
    (fit : ∀ y ∈ u.items, Tuple.Fit (values y) types) :
    ∀ x ∈ (u.packed values types).items, (ItemType.tuple types).admits x = true := by
  intro x member
  obtain ⟨y, listed, rfl⟩ := List.mem_map.mp (mem_of_mem_items_collect member)
  exact Tuple.admits_under (fit y listed)

theorem ItemSet.mem_contents_packed {u : ItemSet} {values : Item → List Item} {types : List ItemType}
    (fit : ∀ y ∈ u.items, Tuple.Fit (values y) types) {c : Content} :
    c ∈ (u.packed values types).contents ↔
      ∃ y ∈ u.items, .tuple ((values y).map Item.content) = c := by
  rw [packed, mem_contents_collect, List.map_map, List.mem_map]
  exact exists_congr fun y => and_congr_right fun listed =>
    Eq.congr_left (Tuple.content_under (fit y listed))

/-- Tuples made of what two sets hold concur, if the values that go into them are told apart no more
than the items of the sets. -/
theorem Inquiry.concurs_tuples {t : ItemType} {u v : ItemSet} (likewise : ItemSet.Likewise t u v)
    (values : Item → List Item) {types : List ItemType}
    (fits : ∀ y z : Item, t.admits y = t.admits z → Tuple.Fit (values y) types →
      Tuple.Fit (values z) types)
    (congr : ∀ y z : Item, (y == z) = true →
      (values y).map Item.content = (values z).map Item.content) :
    Inquiry.Concurs (ItemSet.Likewise (.tuple types))
      (do
        let made ← ofOutcome (u.items.mapM fun y => Tuple.ofTyped (values y) types)
        return .collect (made.map .tuple) (.tuple types))
      (do
        let made ← ofOutcome (v.items.mapM fun y => Tuple.ofTyped (values y) types)
        return .collect (made.map .tuple) (.tuple types)) := by
  have across {u v : ItemSet} (likewise : ItemSet.Likewise t u v)
      (fit : ∀ y ∈ u.items, Tuple.Fit (values y) types) :
      ∀ z ∈ v.items, Tuple.Fit (values z) types := by
    intro z member
    obtain ⟨y, listed, equal⟩ := likewise.exists_mem member
    exact fits y z (likewise.admits y listed z member equal) (fit y listed)
  by_cases fit : ∀ y ∈ u.items, Tuple.Fit (values y) types
  · have fit' := across likewise fit
    have included {u v : ItemSet} (likewise : ItemSet.Likewise t u v) {c : Content}
        (content : ∃ z ∈ v.items, .tuple ((values z).map Item.content) = c) :
        ∃ y ∈ u.items, .tuple ((values y).map Item.content) = c := by
      obtain ⟨z, member, rfl⟩ := content
      obtain ⟨y, listed, equal⟩ := likewise.exists_mem member
      exact ⟨y, listed, by rw [congr y z equal]⟩
    have same : (u.packed values types).essence.contents = (v.packed values types).essence.contents := by
      ext c
      rw [ItemSet.mem_essence, ItemSet.mem_essence, ItemSet.mem_contents_packed fit,
        ItemSet.mem_contents_packed fit']
      exact ⟨included likewise.symm, included likewise⟩
    rw [Tuple.mapM_ofTyped_eq_ok.mpr ⟨fit, rfl⟩, Tuple.mapM_ofTyped_eq_ok.mpr ⟨fit', rfl⟩]
    change Inquiry.Concurs _ (Pure.pure (ItemSet.collect _ _)) (Pure.pure (ItemSet.collect _ _))
    rw [List.map_map, List.map_map]
    exact .pure (.of_admits same (ItemSet.admits_packed fit) (ItemSet.admits_packed fit'))
  · have failed {u : ItemSet} (fit : ¬ ∀ y ∈ u.items, Tuple.Fit (values y) types) :
        ∃ e, (u.items.mapM fun y => Tuple.ofTyped (values y) types) = .error e := by
      cases made : u.items.mapM fun y => Tuple.ofTyped (values y) types with
      | ok ts => exact (fit (Tuple.mapM_ofTyped_eq_ok.mp made).1).elim
      | error e => exact ⟨e, rfl⟩
    obtain ⟨d, failed₁⟩ := failed fit
    obtain ⟨e, failed₂⟩ := failed fun fit' => fit (across likewise.symm fit')
    rw [failed₁, failed₂]
    exact .throw d e

/-! Follows -/

namespace Follow

/-- The type of what a follow finds, if this is not known from the item alone. -/
def finds : Follow → List ItemType
  | .select s => [s.outputType]
  | _ => []

/-- The types of the selections whose results a follow puts into tuples. -/
def packs : Follow → List ItemType
  | .pair inner | .onSlot _ _ inner => inner.finds ++ inner.packs
  | _ => []

variable {f : Follow} {x : Item}

theorem fit_set {values : List Item} {types : List ItemType} {t : ItemType} (i : Nat) {y z : Item}
    (inside : i < types.length) (same : t.admits y = t.admits z)
    (fit : Tuple.Fit (values.set i y) (types.set i t)) : Tuple.Fit (values.set i z) (types.set i t) := by
  have length := fit.length_eq
  rw [List.length_set, List.length_set] at length
  have admitted := fit.get (i := i) (by simpa [length] using inside) (by simpa using inside)
  simp only [List.get_eq_getElem, List.getElem_set_self] at admitted
  have fit := forall₂_set fit (same.symm.trans admitted) i
  rwa [List.set_set, List.set_set] at fit

/-- A follow concurs with itself, if the types that it checks what it finds against are blind. -/
theorem follow_concurs_likewise (blind : ∀ t ∈ f.finds ++ f.packs, t.Blind) :
    Inquiry.Concurs (ItemSet.Likewise f.outputType) (f.follow Inquiry.select x)
      (f.follow Inquiry.select x) := by
  have known (t : ItemType) (r : Except Error ItemSet) :
      Inquiry.Concurs (ItemSet.Likewise t) (ofOutcome r) (ofOutcome r) :=
    .ofOutcome_self (ItemSet.Likewise.refl t) r
  induction f generalizing x with
  | map m => exact known _ _
  | filter g =>
    refine (g.accept_concurs x).bind ?_
    rintro accepted _ rfl
    exact .pure (.refl _ _)
  | select s =>
    have blind := blind s.outputType (List.mem_append_left _ (List.mem_singleton.mpr rfl))
    exact (Inquiry.Concurs.select s x).mono fun u v => .of_blind blind
  | slot types i | permute types order =>
    rw [follow]
    cases x.fitting? types with
    | none => exact .throw _ _
    | some t => exact .pure (.refl _ _)
  | pair inner ih =>
    rw [follow]
    refine (ih blind).bind fun u v likewise => Inquiry.concurs_tuples likewise
      (fun y => [x, y]) ?_ ?_
    · rintro y z same (_ | ⟨here, _ | ⟨there, _⟩⟩)
      exact .cons here (.cons (same ▸ there) .nil)
    · intro y z equal
      simp only [List.map_cons, List.map_nil, Item.beq_iff.mp equal]
  | onSlot types i inner ih =>
    rw [follow]
    cases x.fitting? types with
    | none => exact .throw _ _
    | some t =>
      refine (ih blind).bind fun u v likewise => Inquiry.concurs_tuples likewise
        (t.val.values.set i ·) (fun y z => fit_set i i.isLt) ?_
      intro y z equal
      rw [List.map_set, List.map_set, Item.beq_iff.mp equal]
  | call f =>
    rw [follow]
    cases x.fitting? f.types with
    | none => exact .throw _ _
    | some t => 
      refine (Inquiry.Concurs.ofOutcome_self (R := (· = ·)) (fun _ => rfl) _).bind ?_
      rintro result _ rfl
      exact .pure (.refl _ _)

theorem finds_eq_nil (general : ∀ s, f ≠ .select s) : f.finds = [] := by
  unfold finds
  split
  · exact absurd rfl (general _)
  · rfl

/-- A follow concurs with itself up to the items that it leads to. -/
theorem follow_concurs (blind : ∀ t ∈ f.packs, t.Blind) :
    Inquiry.Concurs (fun u v : ItemSet => u.essence.contents = v.essence.contents)
      (f.follow Inquiry.select x) (f.follow Inquiry.select x) := by
  by_cases selects : ∃ s, f = .select s
  · obtain ⟨s, rfl⟩ := selects
    exact (Inquiry.Concurs.select s x).mono fun u v same => by rw [same]
  · have finds : f.finds = [] := finds_eq_nil fun s same => selects ⟨s, same⟩
    have blind : ∀ t ∈ f.finds ++ f.packs, t.Blind := by rwa [finds, List.nil_append]
    exact (follow_concurs_likewise blind).mono fun u v likewise => likewise.contents

end Follow

end GraphQuery
