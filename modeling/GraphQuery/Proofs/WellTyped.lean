import GraphQuery.Proofs.Instances
import GraphQuery.Proofs.Inquiry
import GraphQuery.Operation.Make
/-!
# Well-typed operations

The operations that the checked ways of making them give, out of closures that keep their promise:
they succeed on instances of the types they declare, and lead to such instances only. Applied to
instances of its input type, a well-typed operation succeeds and gives instances of its output type,
as long as the selections that it makes do.
-/

namespace GraphQuery

/-- Every item of the set is an instance of the type. -/
def ItemSet.IsOf (s : ItemSet) (t : ItemType) : Prop :=
  ∀ x ∈ s.items, x.IsA t

/-- The test succeeds on the items that it is for. -/
def Predicate.Succeeds (p : Predicate) : Prop :=
  ∀ x, x.IsA p.itemType → ∃ verdict, p.test x = .ok verdict

/-- The mapping succeeds on the items that it is for, and leads to items as declared. -/
def Mapping.Succeeds (m : Mapping) : Prop :=
  ∀ x, x.IsA m.inputType → ∃ found, m.map x = .ok found ∧ found.IsOf m.outputType

/-- The function succeeds on arguments of the types of its parameters, with a result as declared. -/
def BoundFunction.Succeeds (f : BoundFunction) : Prop :=
  ∀ arguments, List.Forall₂ Item.IsA arguments f.params →
    ∃ result, f.call arguments = .ok result ∧ result.IsA f.returns

/-- The selection is one between nodes of its query. -/
def Selection.Made (s : Selection) : Prop :=
  Selection.within s.query s.start s.stop? = .ok s

/-- The filters that can be made, of tests that succeed and of conjunctions whose members take what
the conjunction is for. -/
inductive Filter.WellTyped : Filter → Prop where
  | test {p : Predicate} (succeeds : p.Succeeds) : WellTyped (.test p)
  | anything (t : ItemType) : WellTyped (.anything t)
  | equals (value : Item) (t : ItemType) : WellTyped (.equals value t)
  | every {members : List Filter} {t : ItemType} (typed : ∀ f ∈ members, WellTyped f)
    (accepts : ∀ f ∈ members, f.itemType.accepts t = true) : WellTyped (.every members t)
  | counting {s : Selection} (made : s.Made) (c : Comparison) (k : Nat) :
    WellTyped (.counting s c k)
  | onSlotOf {types : List ItemType} {index : Nat} {inner f : Filter} (typed : WellTyped inner)
    (made : Filter.onSlotOf types index inner = .ok f) : WellTyped f

/-- The follows that can be made, of mappings and functions that succeed. -/
inductive Follow.WellTyped : Follow → Prop where
  | map {m : Mapping} (succeeds : m.Succeeds) : WellTyped (.map m)
  | filter {f : Filter} (typed : f.WellTyped) : WellTyped (.filter f)
  | select {s : Selection} (made : s.Made) : WellTyped (.select s)
  | slotOf {types : List ItemType} {index : Nat} {f : Follow}
    (made : Follow.slotOf types index = .ok f) : WellTyped f
  | permuteOf {types : List ItemType} {order : List Nat} {f : Follow}
    (made : Follow.permuteOf types order = .ok f) : WellTyped f
  | pair {inner : Follow} (typed : WellTyped inner) : WellTyped (.pair inner)
  | onSlotOf {types : List ItemType} {index : Nat} {inner f : Follow} (typed : WellTyped inner)
    (made : Follow.onSlotOf types index inner = .ok f) : WellTyped f
  | bind {id : Nat} {name : String} {types params : List ItemType} {returns : ItemType}
    {call : List Item → Except Error Item} {f : BoundFunction}
    (made : BoundFunction.bind id name types params returns call = .ok f) (succeeds : f.Succeeds) :
    WellTyped (.call f)

/-- The operations that can be made of well-typed filters and follows. -/
inductive Operation.WellTyped : Operation → Prop where
  | filter {f : Filter} (typed : f.WellTyped) : WellTyped (.filter f)
  | follow {f : Follow} (typed : f.WellTyped) : WellTyped (.follow f)
  | count (t : ItemType) : WellTyped (.count t)

/-! What the checks establish -/

theorem slotIndex_eq_ok {types : List ItemType} {index : Nat} {i : Fin types.length}
    (named : slotIndex types index = .ok i) : i.val = index := by
  unfold slotIndex at named
  split at named
  · exact congrArg Fin.val (Except.ok.inj named).symm
  · cases named

theorem Filter.onSlotOf_eq_ok {types : List ItemType} {index : Nat} {inner f : Filter}
    (made : onSlotOf types index inner = .ok f) :
    ∃ i, f = .onSlot types i inner ∧ inner.itemType.accepts (types.get i) = true := by
  obtain ⟨i, -, rest⟩ := bind_eq_ok.mp made
  split at rest
  · next suits => exact ⟨i, (Except.ok.inj rest).symm, suits⟩
  · cases rest

theorem Follow.onSlotOf_eq_ok {types : List ItemType} {index : Nat} {inner f : Follow}
    (made : onSlotOf types index inner = .ok f) : ∃ i : Fin types.length, i.val = index ∧
      f = .onSlot types i inner ∧ inner.inputType.accepts (types.get i) = true := by
  obtain ⟨i, named, rest⟩ := bind_eq_ok.mp made
  split at rest
  · next suits => exact ⟨i, slotIndex_eq_ok named, (Except.ok.inj rest).symm, suits⟩
  · cases rest

theorem Follow.slotOf_eq_ok {types : List ItemType} {index : Nat} {f : Follow}
    (made : slotOf types index = .ok f) : ∃ i, f = .slot types i := by
  obtain ⟨i, -, rest⟩ := bind_eq_ok.mp made
  exact ⟨i, (Except.ok.inj rest).symm⟩

theorem Follow.permuteOf_eq_ok {types : List ItemType} {order : List Nat} {f : Follow}
    (made : permuteOf types order = .ok f) :
    ∃ picked : List (Fin types.length), picked.map Fin.val = order ∧ f = .permute types picked := by
  obtain ⟨picked, named, rest⟩ := bind_eq_ok.mp made
  have same : List.Forall₂ Eq order (picked.map Fin.val) :=
    List.forall₂_map_right_iff.mpr ((mapM_ok named).imp fun _ _ index => (slotIndex_eq_ok index).symm)
  exact ⟨picked, (List.forall₂_eq_eq_eq ▸ same).symm, (Except.ok.inj rest).symm⟩

theorem BoundFunction.forall₂_of_checkArguments {name : String} {i : Nat}
    {params given : List ItemType} (arity : params.length = given.length)
    (checked : checkArguments name i params given = .ok ()) :
    List.Forall₂ (fun p t => ItemType.accepts p t = true) params given := by
  induction params generalizing i given with
  | nil =>
    cases given with
    | nil => exact .nil
    | cons => cases arity
  | cons p ps ih =>
    cases given with
    | nil => cases arity
    | cons t ts =>
      rw [checkArguments] at checked
      split at checked
      · next suits => exact .cons suits (ih (Nat.succ.inj arity) checked)
      · cases checked

/-- A function is bound to slots that suit its parameters, the last of the tuple. -/
theorem BoundFunction.suits_of_bind {id : Nat} {name : String} {types params : List ItemType}
    {returns : ItemType} {call : List Item → Except Error Item} {f : BoundFunction}
    (made : BoundFunction.bind id name types params returns call = .ok f) :
    f = ⟨id, name, types, params, returns, call⟩ ∧
      List.Forall₂ (fun p t => ItemType.accepts p t = true) params (types.drop f.kept) := by
  unfold BoundFunction.bind at made
  cases none : params.isEmpty with
  | true =>
    rw [none] at made
    cases made
  | false =>
    rw [none] at made
    by_cases few : types.length < params.length
    · simp only [Bool.false_eq_true, if_false, if_pos few] at made
      cases made
    · simp only [Bool.false_eq_true, if_false, if_neg few] at made
      obtain ⟨⟨⟩, checked, rest⟩ := bind_eq_ok.mp made
      obtain rfl := Except.ok.inj rest
      refine ⟨rfl, forall₂_of_checkArguments ?_ checked⟩
      simp only [List.length_drop, kept]
      omega

/-! What well-typed operations give -/

namespace Inquiry

variable {α β : Type} {good : α → Prop}

/-- The inquiry asks for selections from instances of their input types only. If it is given
instances of their output types, it succeeds with a value that has the property. -/
def Yields (good : α → Prop) : Inquiry α → Prop
  | .done outcome => ∃ a, outcome = .ok a ∧ good a
  | .ask s x next => x.IsA s.inputType ∧ ∀ found, found.IsOf s.outputType → (next found).Yields good

theorem yields_pure {a : α} (holds : good a) : (pure a : Inquiry α).Yields good :=
  ⟨a, rfl, holds⟩

theorem yields_ofOutcome {o : Except Error α} {a : α} (passed : o = .ok a) (holds : good a) :
    (ofOutcome o : Inquiry α).Yields good :=
  passed ▸ ⟨a, rfl, holds⟩

theorem yields_select {s : Selection} {x : Item} (isA : x.IsA s.inputType) :
    (Inquiry.select s x).Yields fun found => found.IsOf s.outputType :=
  ⟨isA, fun _ isOf => yields_pure isOf⟩

theorem Yields.bind {good' : β → Prop} {p : Inquiry α} {f : α → Inquiry β} (first : p.Yields good)
    (second : ∀ a, good a → (f a).Yields good') : (p >>= f).Yields good' := by
  induction p with
  | done outcome =>
    obtain ⟨a, rfl, holds⟩ := first
    exact second a holds
  | ask s x next ih => exact ⟨first.1, fun found isOf => ih found (first.2 found isOf)⟩

theorem Yields.mono {good' : α → Prop} {p : Inquiry α} (yields : p.Yields good)
    (imp : ∀ a, good a → good' a) : p.Yields good' := by
  induction p with
  | done outcome =>
    obtain ⟨a, passed, holds⟩ := yields
    exact ⟨a, passed, imp a holds⟩
  | ask s x next ih => exact ⟨yields.1, fun found isOf => ih found (yields.2 found isOf)⟩

theorem yields_mapM {good : β → Prop} {f : α → Inquiry β} {as : List α}
    (each : ∀ a ∈ as, (f a).Yields good) : (as.mapM f).Yields fun bs => ∀ b ∈ bs, good b := by
  induction as with
  | nil =>
    rw [List.mapM_nil]
    exact yields_pure nofun
  | cons a as ih =>
    obtain ⟨first, rest⟩ := List.forall_mem_cons.mp each
    rw [List.mapM_cons]
    refine first.bind fun b holds => (ih rest).bind fun bs all => yields_pure ?_
    exact List.forall_mem_cons.mpr ⟨holds, all⟩

end Inquiry

namespace Filter.WellTyped

variable {f : Filter}

/-- A well-typed filter decides on every instance of its type. -/
theorem accept_yields (typed : f.WellTyped) {x : Item} (isA : x.IsA f.itemType) :
    (f.accept Inquiry.select x).Yields fun _ => True := by
  induction typed generalizing x with
  | test succeeds =>
    obtain ⟨verdict, passed⟩ := succeeds x isA
    exact Inquiry.yields_ofOutcome passed trivial
  | anything | equals => exact Inquiry.yields_pure trivial
  | @every members t typed accepts ih =>
    rw [Filter.accept]
    induction members with
    | nil => exact Inquiry.yields_pure trivial
    | cons f fs rest =>
      obtain ⟨suits, accepts⟩ := List.forall_mem_cons.mp accepts
      rw [Filter.acceptEvery]
      refine (ih f List.mem_cons_self (isA.of_accepts suits)).bind fun accepted _ => ?_
      cases accepted with
      | false => exact Inquiry.yields_pure trivial
      | true =>
        exact rest (fun g member => typed g (List.mem_cons_of_mem f member)) accepts
          (fun g member => ih g (List.mem_cons_of_mem f member)) isA
  | counting made c k =>
    rw [Filter.accept]
    exact (Inquiry.yields_select isA).bind fun _ _ => Inquiry.yields_pure trivial
  | onSlotOf typed made ih =>
    obtain ⟨i, rfl, suits⟩ := Filter.onSlotOf_eq_ok made
    obtain ⟨t, fits, -, values⟩ := isA.fitting
    rw [Filter.accept, fits]
    exact ih ((Tuple.isA_valueAt values i).of_accepts suits)

/-- A well-typed filter keeps some of the items of a set of instances of its type. -/
theorem apply_yields (typed : f.WellTyped) {s : ItemSet} (isOf : s.IsOf f.itemType) :
    (f.apply Inquiry.select s).Yields fun found => found.items ⊆ s.items := by
  rw [Filter.apply_eq]
  have decides := Inquiry.yields_mapM fun x member => typed.accept_yields (isOf x member)
  exact decides.bind fun verdicts _ => Inquiry.yields_pure (s.items_sift_subset verdicts)

theorem follow_yields (typed : f.WellTyped) {x : Item} (isA : x.IsA f.itemType) :
    (f.follow Inquiry.select x).Yields fun found => found.IsOf f.itemType := by
  rw [Filter.follow]
  refine (typed.accept_yields isA).bind fun accepted _ => Inquiry.yields_pure ?_
  cases accepted with
  | false => exact List.forall_mem_nil _
  | true => exact List.forall_mem_singleton.mpr isA

end Filter.WellTyped

theorem ItemSet.isOf_collect {xs : List Item} {t : ItemType} (all : ∀ x ∈ xs, x.IsA t)
    (u : ItemType) : (collect xs u).IsOf t :=
  fun x member => all x (mem_of_mem_items_collect member)

/-- A bound function makes an instance of its output type of a tuple of its type. -/
theorem BoundFunction.exists_applyTo {f : BoundFunction} (succeeds : f.Succeeds)
    (suits : List.Forall₂ (fun p t => ItemType.accepts p t = true) f.params (f.types.drop f.kept))
    {t : Tuple} (values : List.Forall₂ Item.IsA t.values f.types) :
    ∃ result, f.applyTo t = .ok result ∧ result.IsA f.outputType := by
  have arguments := forall₂_of_accepts (List.forall₂_drop f.kept values) suits
  obtain ⟨result, called, isA⟩ := succeeds _ arguments
  unfold applyTo outputType
  rw [called]
  split
  · exact ⟨result, if_pos isA.2, isA⟩
  · obtain ⟨carrier, made, isA'⟩ := Tuple.exists_ofTyped
      (List.rel_append (List.forall₂_take f.kept values) (.cons isA .nil))
    refine ⟨.tuple carrier, ?_, isA'⟩
    refine (if_pos isA.2).trans ?_
    rw [resultTypes, made]
    rfl

namespace Follow.WellTyped

variable {f : Follow}

/-- What is made of every item that is reached makes a set of instances. -/
private theorem exists_rebuilt {reached : ItemSet} {t u : ItemType}
    {rebuild : Item → Except Error Tuple} (isOf : reached.IsOf t)
    (rebuilds : ∀ y, y.IsA t → ∃ tuple, rebuild y = .ok tuple ∧ (Item.tuple tuple).IsA u) :
    ∃ tuples, reached.items.mapM rebuild = .ok tuples ∧
      (ItemSet.collect (tuples.map .tuple) u).IsOf u := by
  suffices ∀ ys : List Item, (∀ y ∈ ys, y.IsA t) → ∃ tuples, ys.mapM rebuild = .ok tuples ∧
      ∀ tuple ∈ tuples, (Item.tuple tuple).IsA u by
    obtain ⟨tuples, passed, all⟩ := this reached.items isOf
    refine ⟨tuples, passed, ItemSet.isOf_collect ?_ u⟩
    exact List.forall_mem_map.mpr all
  intro ys all
  induction ys with
  | nil => exact ⟨[], rfl, nofun⟩
  | cons y ys ih =>
    obtain ⟨first, rest⟩ := List.forall_mem_cons.mp all
    obtain ⟨tuple, made, isA⟩ := rebuilds y first
    obtain ⟨tuples, passed, all'⟩ := ih rest
    refine ⟨tuple :: tuples, ?_, List.forall_mem_cons.mpr ⟨isA, all'⟩⟩
    rw [List.mapM_cons, made, passed]
    rfl

/-- A well-typed follow leads from instances of its input type to instances of its output type. -/
theorem follow_yields (typed : f.WellTyped) {x : Item} (isA : x.IsA f.inputType) :
    (f.follow Inquiry.select x).Yields fun found => found.IsOf f.outputType := by
  induction typed generalizing x with
  | map succeeds =>
    obtain ⟨found, passed, isOf⟩ := succeeds x isA
    exact Inquiry.yields_ofOutcome passed isOf
  | filter typed => exact typed.follow_yields isA
  | select made => exact Inquiry.yields_select isA
  | slotOf made =>
    obtain ⟨i, rfl⟩ := Follow.slotOf_eq_ok made
    obtain ⟨t, fits, -, values⟩ := isA.fitting
    rw [Follow.follow, fits]
    exact Inquiry.yields_pure (List.forall_mem_singleton.mpr (Tuple.isA_valueAt values i))
  | permuteOf made =>
    obtain ⟨picked, -, rfl⟩ := Follow.permuteOf_eq_ok made
    obtain ⟨t, fits, rfl, -⟩ := isA.fitting
    rw [Follow.follow, fits]
    exact Inquiry.yields_pure (List.forall_mem_singleton.mpr (Tuple.isA_view isA picked))
  | @pair inner typed ih =>
    rw [Follow.follow]
    refine (ih isA).bind fun reached isOf => ?_
    obtain ⟨tuples, passed, isOf⟩ := exists_rebuilt isOf fun y isA' =>
      Tuple.exists_ofTyped (.cons isA (.cons isA' .nil))
    exact (Inquiry.yields_ofOutcome passed rfl).bind fun _ same => Inquiry.yields_pure (same ▸ isOf)
  | onSlotOf typed made ih =>
    obtain ⟨i, -, rfl, suits⟩ := Follow.onSlotOf_eq_ok made
    obtain ⟨t, fits, -, values⟩ := isA.fitting
    rw [Follow.follow, fits]
    refine (ih ((Tuple.isA_valueAt values i).of_accepts suits)).bind fun reached isOf => ?_
    obtain ⟨tuples, passed, isOf⟩ := exists_rebuilt isOf fun y isA' =>
      Tuple.exists_ofTyped (forall₂_set values isA' i)
    exact (Inquiry.yields_ofOutcome passed rfl).bind fun _ same => Inquiry.yields_pure (same ▸ isOf)
  | bind made succeeds =>
    obtain ⟨t, fits, -, values⟩ := isA.fitting
    obtain ⟨rfl, suits⟩ := BoundFunction.suits_of_bind made
    obtain ⟨result, passed, isA'⟩ := BoundFunction.exists_applyTo succeeds suits values
    rw [Follow.follow, fits]
    refine (Inquiry.yields_ofOutcome passed rfl).bind fun _ same => Inquiry.yields_pure ?_
    exact List.forall_mem_singleton.mpr (same ▸ isA')

/-- A well-typed follow leads from a set of instances to a set of instances. -/
theorem apply_yields (typed : f.WellTyped) {s : ItemSet} (isOf : s.IsOf f.inputType) :
    (f.apply Inquiry.select s).Yields fun found => found.IsOf f.outputType := by
  rw [Follow.apply_eq]
  have leads := Inquiry.yields_mapM fun x member => typed.follow_yields (isOf x member)
  refine leads.bind fun reached all => Inquiry.yields_pure (ItemSet.isOf_collect ?_ _)
  intro y member
  obtain ⟨found, listed, member⟩ := List.mem_flatMap.mp member
  exact all found listed y member

end Follow.WellTyped

/-- A well-typed operation makes a set of instances of its output type of a set of instances of its
input type. -/
theorem Operation.WellTyped.yields {op : Operation} (typed : op.WellTyped) {s : ItemSet}
    (isOf : s.IsOf op.inputType) : (op.inquiry s).Yields fun found => found.IsOf op.outputType := by
  cases typed with
  | filter typed =>
    exact (typed.apply_yields isOf).mono fun found part x member => isOf x (part member)
  | follow typed => exact typed.apply_yields isOf
  | count t =>
    exact Inquiry.yields_pure (List.forall_mem_singleton.mpr (Item.Made.atom (.size s.size)).isA)

end GraphQuery
