import GraphQuery.Proofs.Blindness
import GraphQuery.Proofs.Itemwise
import GraphQuery.Proofs.QuietOperations
import GraphQuery.Proofs.WellTyped
/-!
# What operations can tell apart

An operation meets equal items with the functions that callers supplied, with the types that it checks,
and with the selections that it makes. If none of these tells equal items apart, neither does the
operation: it is stable. Following a slot shows that the types matter, as it is stable only if the type
that it checks is blind.
-/

namespace GraphQuery

/-! Functions that respect equality -/

/-- The test comes to the same on equal items: the same verdict, or errors. -/
def Predicate.Respects (p : Predicate) : Prop :=
  ∀ x y : Item, (x == y) = true → (p.test x).toOption = (p.test y).toOption

/-- The mapping comes to equal sets on equal items, or to errors. -/
def Mapping.Respects (m : Mapping) : Prop :=
  ∀ x y : Item, (x == y) = true → Alike (m.map x) (m.map y)

/-- The function comes to equal items on equal arguments, or to errors. -/
def BoundFunction.Respects (f : BoundFunction) : Prop :=
  ∀ xs ys : List Item, List.Forall₂ (fun x y => (x == y) = true) xs ys →
    Option.Rel (fun x y => (x == y) = true) (f.call xs).toOption (f.call ys).toOption

/-- The tests that callers supplied for a filter respect equality. -/
inductive Filter.Lawful : Filter → Prop where
  | test {p : Predicate} (respects : p.Respects) : Lawful (.test p)
  | anything (t : ItemType) : Lawful (.anything t)
  | equals (value : Item) (t : ItemType) : Lawful (.equals value t)
  | every {members : List Filter} (lawful : ∀ f ∈ members, Lawful f) (t : ItemType) :
    Lawful (.every members t)
  | counting (s : Selection) (c : Comparison) (k : Nat) : Lawful (.counting s c k)
  | onSlot (types : List ItemType) (i : Fin types.length) {inner : Filter} (lawful : Lawful inner) :
    Lawful (.onSlot types i inner)

/-- The functions that callers supplied for a follow respect equality. -/
inductive Follow.Lawful : Follow → Prop where
  | map {m : Mapping} (respects : m.Respects) : Lawful (.map m)
  | filter {f : Filter} (lawful : f.Lawful) : Lawful (.filter f)
  | select (s : Selection) : Lawful (.select s)
  | slot (types : List ItemType) (i : Fin types.length) : Lawful (.slot types i)
  | permute (types : List ItemType) (order : List (Fin types.length)) : Lawful (.permute types order)
  | pair {inner : Follow} (lawful : Lawful inner) : Lawful (.pair inner)
  | onSlot (types : List ItemType) (i : Fin types.length) {inner : Follow} (lawful : Lawful inner) :
    Lawful (.onSlot types i inner)
  | call {f : BoundFunction} (respects : f.Respects) : Lawful (.call f)

/-- The functions that callers supplied for an operation respect equality. -/
inductive Operation.Lawful : Operation → Prop where
  | filter {f : Filter} (lawful : f.Lawful) : Lawful (.filter f)
  | follow {f : Follow} (lawful : f.Lawful) : Lawful (.follow f)
  | count (t : ItemType) : Lawful (.count t)

/-! The types that are checked -/

namespace Filter

mutual

/-- The types that a filter checks items against. -/
def checks : Filter → List ItemType
  | .test _ | .anything _ | .equals .. | .counting .. => []
  | .every members _ => allChecks members
  | .onSlot types _ inner => .tuple types :: inner.checks

/-- The types that the filters of a list check items against. -/
def allChecks : List Filter → List ItemType
  | [] => []
  | f :: fs => f.checks ++ allChecks fs

end

theorem allChecks_eq (fs : List Filter) : allChecks fs = fs.flatMap checks := by
  induction fs with
  | nil => rfl
  | cons f fs ih => rw [allChecks, ih, List.flatMap_cons]

end Filter

/-- The types that a follow checks items against: those that it takes apart, and those that it puts
into tuples. -/
def Follow.checks : Follow → List ItemType
  | .map _ | .select _ => []
  | .filter f => f.checks
  | .slot types _ | .permute types _ => [.tuple types]
  | .pair inner => inner.inputType :: inner.outputType :: inner.checks
  | .onSlot types _ inner => .tuple types :: inner.outputType :: inner.checks
  | .call f => [.tuple f.types, f.returns]

/-- The types that an operation checks items against. -/
def Operation.checks : Operation → List ItemType
  | .filter f => f.checks
  | .follow f => f.checks
  | .count _ => []

/-- The types that an operation checks are blind. -/
def Operation.Blind (op : Operation) : Prop :=
  ∀ t ∈ op.checks, t.Blind
/-- A selection comes to equal sets from equal items, if it comes to a set at all. -/
def Selection.IsStable (s : Selection) : Prop :=
  ∀ x y : Item, (x == y) = true →
    Inquiry.Entails (fun u v : ItemSet => u.essence = v.essence) (Inquiry.select s x)
      (Inquiry.select s y)

namespace BoundFunction

variable {f : BoundFunction} (respects : f.Respects) (blind : (ItemType.tuple f.types).Blind)
  (returns : f.returns.Blind)

include respects blind returns

/-- Equal values lead a function to equal results, if it is blind to types. -/
theorem Respects.applyTo_congr {t u : Tuple} (same : t.values.map Item.content = u.values.map Item.content)
    {x : Item} (passed : f.applyTo t = .ok x) :
    ∃ y, f.applyTo u = .ok y ∧ (x == y) = true := by
  obtain ⟨result, called, rest⟩ := bind_eq_ok.mp passed
  have arguments := respects (t.values.drop f.kept) (u.values.drop f.kept)
    (forall₂_beq_iff.mpr (by rw [List.map_drop, List.map_drop, same]))
  rw [called] at arguments
  cases called' : f.call (u.values.drop f.kept) with
  | error e =>
    rw [called'] at arguments
    cases arguments
  | ok result' =>
    rw [called'] at arguments
    cases arguments with | some equal
    split at rest
    · next admitted =>
      have admitted' : f.returns.admits result' = true := (returns _ _ equal).symm.trans admitted
      have begins : f.applyTo u = (if f.kept = 0 then return result' else
          return .tuple (← Tuple.ofTyped (u.values.take f.kept ++ [result']) f.resultTypes)) := by
        rw [applyTo, called']
        exact if_pos admitted'
      rw [begins]
      split at rest
      · next bare =>
        cases rest
        exact ⟨result', if_pos bare, equal⟩
      · next kept =>
        obtain ⟨made, typed, last⟩ := bind_eq_ok.mp rest
        cases last
        have wide : ∀ t ∈ f.resultTypes, t.Blind := by
          intro t member
          obtain old | new := List.mem_append.mp member
          · rw [ItemType.blind_tuple_iff.mp blind t (List.mem_of_mem_take old)]
            exact ItemType.blind_any
          · rwa [List.mem_singleton.mp new]
        have alike : (t.values.take f.kept ++ [result]).map Item.content =
            (u.values.take f.kept ++ [result']).map Item.content := by
          simp only [List.map_append, List.map_take, same, List.map_cons, List.map_nil,
            Item.beq_iff.mp equal]
        obtain ⟨made', typed', equal'⟩ := Tuple.ofTyped_congr wide alike typed
        refine ⟨.tuple made', ?_, equal'⟩
        rw [if_neg kept, typed']
        rfl
    · cases rest

end BoundFunction

/-! What single items lead to -/

namespace Inquiry

/-- What is done with tuples is entailed by what is done with tuples of equal values, if whether items
are such tuples is not told apart. -/
theorem entails_fitting {α : Type} {S : α → α → Prop} {x y : Item} {types : List ItemType}
    {p q : { t : Tuple // t.arity = types.length } → Inquiry α} {d e : Error}
    (wide : (ItemType.tuple types).Blind) (equal : (x == y) = true)
    (fitting : ∀ t u, t.val.values.map Item.content = u.val.values.map Item.content →
      Entails S (p t) (q u)) :
    Entails S
      (match x.fitting? types with
        | some t => p t
        | none => throw d)
      (match y.fitting? types with
        | some u => q u
        | none => throw e) := by
  cases fits : x.fitting? types with
  | none => exact .throw _ _
  | some t =>
    obtain ⟨u, fits', same⟩ := Item.fitting?_congr wide equal fits
    rw [fits']
    exact fitting t u same

/-- Tuples made of equal items are equal, if making them is not told apart. -/
theorem entails_tuples {g g' : Item → Except Error Tuple} {u v : ItemSet}
    (sub : v.contents ⊆ u.contents) (congr : ∀ a b : Item, (a == b) = true → ∀ t, g a = .ok t →
      ∃ t', g' b = .ok t' ∧ (Item.tuple t == Item.tuple t') = true) (type : ItemType) :
    Entails (fun u v : ItemSet => v.contents ⊆ u.contents)
      (do
        let made ← ofOutcome (u.items.mapM g)
        return .collect (made.map .tuple) type)
      (do
        let made ← ofOutcome (v.items.mapM g')
        return .collect (made.map .tuple) type) := by
  have one (g : Item → Except Error Tuple) (items : List Item) :
      (ofOutcome (items.mapM g) : Inquiry (List Tuple)) = items.mapM fun a => ofOutcome (g a) := by
    have done {β : Type} (r : Except Error β) : (ofOutcome r : Inquiry β) = .done r := by
      cases r <;> rfl
    simp only [done]
    exact (Filter.mapM_done g items).symm
  rw [one, one]
  refine (Entails.mapM (S := fun t t' => (Item.tuple t == Item.tuple t') = true)
    fun b member => ?_).bind fun made made' related => .pure fun c content => ?_
  · obtain ⟨a, member', same⟩ := List.mem_map.mp (sub (List.mem_map_of_mem member))
    exact ⟨a, member', .ofOutcome (congr a b (Item.beq_iff.mpr same))⟩
  · rw [ItemSet.mem_contents_collect] at content ⊢
    obtain ⟨_, member, rfl⟩ := List.mem_map.mp content
    obtain ⟨t', listed, rfl⟩ := List.mem_map.mp member
    obtain ⟨t, listed', equal⟩ := related t' listed
    rw [← Item.beq_iff.mp equal]
    exact List.mem_map_of_mem (List.mem_map_of_mem listed')

end Inquiry

section

variable {x y : Item}

theorem Filter.acceptEvery_entails {fs : List Filter} (entails : ∀ f ∈ fs,
    Inquiry.Entails (· = ·) (f.accept Inquiry.select x) (f.accept Inquiry.select y)) :
    Inquiry.Entails (· = ·) (acceptEvery Inquiry.select fs x) (acceptEvery Inquiry.select fs y) := by
  induction fs with
  | nil => exact .pure rfl
  | cons f fs ih =>
    obtain ⟨first, later⟩ := List.forall_mem_cons.mp entails
    rw [acceptEvery, acceptEvery]
    refine first.bind ?_
    rintro accepted _ rfl
    cases accepted with
    | false => exact .pure rfl
    | true => exact ih later

/-- A filter comes to one verdict on an item, if it comes to any and selections are stable. -/
theorem Filter.accept_sure {f : Filter} (stable : ∀ s ∈ f.selections, s.IsStable) :
    Inquiry.Entails (· = ·) (f.accept Inquiry.select x) (f.accept Inquiry.select x) := by
  induction f generalizing x with
  | test p => exact .ofOutcome fun verdict passed => ⟨verdict, passed, rfl⟩
  | anything | equals => exact .pure rfl
  | every members t ih =>
    rw [selections, allSelections_eq] at stable
    rw [accept]
    exact acceptEvery_entails fun f member => ih f member fun s selects =>
      stable s (List.mem_flatMap.mpr ⟨f, member, selects⟩)
  | counting s c k =>
    refine (stable s (List.mem_singleton.mpr rfl) x x BEq.rfl).bind fun u v same => .pure ?_
    rw [ItemSet.size_congr same]
  | onSlot types i inner ih =>
    rw [accept]
    cases x.fitting? types with
    | none => exact .throw _ _
    | some t => exact ih stable

theorem Filter.accept_entails {f : Filter} (lawful : f.Lawful) (blind : ∀ t ∈ f.checks, t.Blind)
    (stable : ∀ s ∈ f.selections, s.IsStable) (equal : (x == y) = true) :
    Inquiry.Entails (· = ·) (f.accept Inquiry.select x) (f.accept Inquiry.select y) := by
  induction f generalizing x y with
  | test p =>
    cases lawful with | test respects
    refine .ofOutcome fun verdict passed => ⟨verdict, ?_, rfl⟩
    have agree := respects x y equal
    rw [passed] at agree
    cases other : p.test y with
    | error e => simp [other, Except.toOption] at agree
    | ok v =>
      rw [other] at agree
      exact congrArg Except.ok (Option.some.inj agree).symm
  | anything t => exact .pure rfl
  | equals value t => exact .pure (BEq.congr_left equal)
  | every members t ih =>
    cases lawful with | every lawful
    rw [selections, allSelections_eq] at stable
    rw [checks, allChecks_eq] at blind
    rw [accept, accept]
    exact acceptEvery_entails fun f member => ih f member (lawful f member)
      (fun t checked => blind t (List.mem_flatMap.mpr ⟨f, member, checked⟩))
      (fun s selects => stable s (List.mem_flatMap.mpr ⟨f, member, selects⟩)) equal
  | counting s c k =>
    refine (stable s (List.mem_singleton.mpr rfl) x y equal).bind fun u v same => .pure ?_
    rw [ItemSet.size_congr same]
  | onSlot types i inner ih =>
    cases lawful with | onSlot _ _ lawful
    obtain ⟨wide, deeper⟩ := List.forall_mem_cons.mp blind
    rw [accept, accept]
    exact Inquiry.entails_fitting wide equal fun t u same =>
      ih lawful deeper stable (Item.beq_iff.mpr (Tuple.content_valueAt same i))

theorem Follow.follow_entails {f : Follow} (lawful : f.Lawful) (blind : ∀ t ∈ f.checks, t.Blind)
    (stable : ∀ s ∈ f.selections, s.IsStable) (equal : (x == y) = true) :
    Inquiry.Entails (fun u v : ItemSet => v.contents ⊆ u.contents) (f.follow Inquiry.select x)
      (f.follow Inquiry.select y) := by
  induction f generalizing x y with
  | map m =>
    cases lawful with | map respects
    refine .ofOutcome fun found passed => ?_
    have alike := respects x y equal
    rw [passed] at alike
    cases other : m.map y with
    | error e =>
      rw [other] at alike
      cases alike
    | ok found' =>
      rw [other] at alike
      cases alike with
      | ok same => exact ⟨found', rfl, (ItemSet.beq_iff.mp same).2.symm.subset⟩
  | filter g =>
    cases lawful with | filter lawful
    refine (g.accept_entails lawful blind stable equal).bind ?_
    rintro accepted _ rfl
    refine .pure ?_
    cases accepted with
    | false => exact fun _ => id
    | true => exact fun c => by simp [Item.beq_iff.mp equal]
  | select s =>
    refine (stable s (List.mem_singleton.mpr rfl) x y equal).mono fun u v same c content => ?_
    rwa [← ItemSet.mem_essence, same, ItemSet.mem_essence]
  | slot types i =>
    rw [follow, follow]
    exact Inquiry.entails_fitting (List.forall_mem_singleton.mp blind) equal fun t u same =>
      .pure fun c => by simp [Tuple.content_valueAt same i]
  | permute types order =>
    rw [follow, follow]
    refine Inquiry.entails_fitting (List.forall_mem_singleton.mp blind) equal fun t u same => ?_
    have viewed : (order.map fun i => (Tuple.valueAt t i).content) =
        order.map fun i => (Tuple.valueAt u i).content :=
      List.map_congr_left fun i _ => Tuple.content_valueAt same i
    refine .pure fun c => ?_
    simp only [ItemSet.contents_singleton, Item.content_tuple, Tuple.values_view, List.map_map]
    change c ∈ [Content.tuple (order.map fun i => (Tuple.valueAt u i).content)] →
      c ∈ [Content.tuple (order.map fun i => (Tuple.valueAt t i).content)]
    rw [viewed]
    exact id
  | pair inner ih =>
    cases lawful with | pair lawful
    obtain ⟨input, rest⟩ := List.forall_mem_cons.mp blind
    obtain ⟨output, deeper⟩ := List.forall_mem_cons.mp rest
    refine (ih lawful deeper stable equal).bind fun u v sub =>
      Inquiry.entails_tuples sub (fun a b equal' t => Tuple.ofTyped_congr ?_ ?_) _
    · rintro t (_ | ⟨_, _ | ⟨_, ⟨⟩⟩⟩)
      · exact input
      · exact output
    · simp only [List.map_cons, List.map_nil, Item.beq_iff.mp equal, Item.beq_iff.mp equal']
  | onSlot types i inner ih =>
    cases lawful with | onSlot _ _ lawful
    obtain ⟨wide, rest⟩ := List.forall_mem_cons.mp blind
    obtain ⟨output, deeper⟩ := List.forall_mem_cons.mp rest
    rw [follow, follow]
    refine Inquiry.entails_fitting wide equal fun t u same => ?_
    refine (ih lawful deeper stable (Item.beq_iff.mpr (Tuple.content_valueAt same i))).bind
      fun v w sub => Inquiry.entails_tuples sub (fun a b equal' t => Tuple.ofTyped_congr ?_ ?_) _
    · -- the slots that stay are of types that were checked, and the new one is of the inner type
      intro t member
      obtain old | rfl := List.mem_or_eq_of_mem_set member
      · rw [ItemType.blind_tuple_iff.mp wide t old]
        exact ItemType.blind_any
      · exact output
    · rw [List.map_set, List.map_set, same, Item.beq_iff.mp equal']
  | call f =>
    cases lawful with | call respects
    obtain ⟨wide, rest⟩ := List.forall_mem_cons.mp blind
    rw [follow, follow]
    cases fits : x.fitting? f.types with
    | none => exact .throw _ _
    | some t =>
      obtain ⟨u, fits', same⟩ := Item.fitting?_congr wide equal fits
      rw [fits']
      refine (Inquiry.Entails.ofOutcome fun result =>
        respects.applyTo_congr wide (List.forall_mem_singleton.mp rest) same).bind
          fun a b equal' => .pure fun c => ?_
      simp [Item.beq_iff.mp equal']

end

/-! What sets lead to -/

theorem Follow.apply_stable {f : Follow} (lawful : f.Lawful) (blind : ∀ t ∈ f.checks, t.Blind)
    (stable : ∀ s ∈ f.selections, s.IsStable) {a b : ItemSet} (same : a.essence = b.essence)
    {s : ItemSet} {o : Option (Except Error ItemSet)}
    (left : (f.apply Inquiry.select a).Results (some (.ok s)))
    (right : (f.apply Inquiry.select b).Results o) :
    ∃ t, o = some (.ok t) ∧ s.essence = t.essence := by
  have entails {x y : Item} (equal : (x == y) = true) := f.follow_entails lawful blind stable equal
  have sub {a b : ItemSet} (same : a.essence = b.essence) {founds founds' : List ItemSet}
      (all : List.Forall₂ (fun x found => (f.follow Inquiry.select x).Results (some (.ok found)))
        a.items founds)
      (all' : List.Forall₂ (fun x found => (f.follow Inquiry.select x).Results (some (.ok found)))
        b.items founds') {c : Content} (content : ∃ found ∈ founds', c ∈ found.contents) :
      ∃ found ∈ founds, c ∈ found.contents := by
    obtain ⟨found', listed', content⟩ := content
    obtain ⟨y, member', passed'⟩ := exists_of_mem_forall₂ all'.flip listed'
    obtain ⟨x, member, equal⟩ := ItemSet.exists_beq_of_mem same.symm member'
    obtain ⟨found, listed, passed⟩ := exists_of_mem_forall₂ all member
    obtain ⟨_, ⟨⟩, included⟩ := entails (BEq.symm equal) passed passed'
    exact ⟨found, listed, included content⟩
  obtain ⟨_, founds, ⟨⟩, typed, all, contents⟩ | ⟨_, _, _, _, contra⟩ := results_apply left
  · obtain ⟨t, founds', rfl, typed', all', contents'⟩ | ⟨y, member', o', other, passed⟩ :=
      results_apply right
    · refine ⟨t, rfl, congrArg₂ ItemSet.Essence.mk ?_ ?_⟩
      · rw [typed, typed']
        exact congrArg (fun e : ItemSet.Essence => f.handsOn e.itemType) same
      · ext c
        rw [List.mem_toFinset, List.mem_toFinset, contents, contents']
        exact ⟨sub same.symm all' all, sub same all all'⟩
    · obtain ⟨x, member, equal⟩ := ItemSet.exists_beq_of_mem same.symm member'
      obtain ⟨found, -, passed'⟩ := exists_of_mem_forall₂ all member
      obtain ⟨_, rfl, -⟩ := entails (BEq.symm equal) passed' other
      exact (Inquiry.ok_not_passedOn passed).elim
  · exact (Inquiry.not_passedOn_ok contra).elim

/-- An operation is stable if it is blind to types, and if the functions that callers supplied respect
equality and its selections do. -/
theorem Operation.isStable_of_lawful {op : Operation} (lawful : op.Lawful) (blind : op.Blind)
    (stable : ∀ s ∈ op.selections, s.IsStable) : op.IsStable := by
  have follow (f : Follow) (itemwise : op.follow? = some f) (lawful : f.Lawful)
      (checks : op.checks = f.checks) : op.IsStable := by
    intro a b equal s o left right
    rw [Results, inquiry_eq_apply itemwise] at left right
    obtain ⟨t, same, essence⟩ := f.apply_stable lawful (fun t member => blind t (checks ▸ member))
      (fun s member => stable s (selections_eq itemwise ▸ member))
      (ItemSet.essence_eq_iff.mpr equal) left right
    exact ⟨t, same, ItemSet.essence_eq_iff.mp essence⟩
  cases lawful with
  | filter lawful => exact follow _ rfl (.filter lawful) rfl
  | follow lawful => exact follow _ rfl lawful rfl
  | count t => exact (isPure_count t).isStable

/-- Following a slot is stable if and only if the type that it checks is blind. -/
theorem Operation.isStable_slot_iff {types : List ItemType} {i : Fin types.length} :
    (Operation.follow (.slot types i)).IsStable ↔ (ItemType.tuple types).Blind := by
  constructor
  · intro stable
    have half {x y : Item} (equal : (x == y) = true)
        (admitted : (ItemType.tuple types).admits x = true) :
        (ItemType.tuple types).admits y = true := by
      by_contra rejected
      cases x with
      | atom => cases admitted
      | tuple t =>
        obtain ⟨u, rfl, -⟩ := Item.exists_tuple_of_beq equal
        have fits : ∃ v, (Item.tuple t).fitting? types = some v := ⟨_, dif_pos admitted⟩
        have misfits : (Item.tuple u).fitting? types = none := dif_neg rejected
        obtain ⟨v, fits⟩ := fits
        have left : ((Follow.slot types i).follow Inquiry.select (.tuple t)).Results
            (some (.ok (.singleton (Tuple.valueAt v i) (types.get i)))) := by
          rw [Follow.follow, fits]
          exact .done _
        have right : ((Follow.slot types i).follow Inquiry.select (.tuple u)).Results
            (some (.error ((Item.tuple u).misfit (Follow.slot types i).text types))) := by
          rw [Follow.follow, misfits]
          exact .done _
        obtain ⟨o, results, agree⟩ := Follow.results_apply_singleton (t := .any) left
        obtain ⟨o', results', agree'⟩ := Follow.results_apply_singleton (t := .any) right
        cases agree with | some agree
        cases agree with | ok
        cases agree' with | some agree'
        cases agree' with | error
        obtain ⟨_, ⟨⟩, -⟩ := stable (ItemSet.essence_eq_iff.mp (ItemSet.essence_singleton equal .any))
          results results'
    exact fun x y equal => Bool.eq_iff_iff.mpr ⟨half equal, half (BEq.symm equal)⟩
  · exact fun blind => isStable_of_lawful (.follow (.slot types i))
      (List.forall_mem_singleton.mpr blind) fun _ => List.not_mem_nil.elim

end GraphQuery
