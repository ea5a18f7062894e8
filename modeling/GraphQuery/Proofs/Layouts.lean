import GraphQuery.Proofs.Instances
/-!
# How tuples are laid out

A tuple has a row of values of its own, or it is a view, which looks its slots up in another tuple, a view
again or not. Its slot types stand beside either, and it has as many slots as types. To list its values
passes over a slot without one.

Every way of making a tuple keeps the types aligned with what is looked up, however deep views nest: for each
slot type there is a value, of that type. So no slot is passed over, and a tuple may be taken for the list of
its slots.
-/

namespace GraphQuery

namespace Tuple

theorem fit_typeOf (values : List Item) : Fit values (values.map Item.typeOf) :=
  List.forall₂_map_right_iff.mpr (List.forall₂_same.mpr fun x _ => ItemType.admits_typeOf x)

/-- A tuple is put together again from its values and its slot types. -/
theorem mk_zipWith (t : Tuple) : ⟨t.values.zipWith Slot.mk t.types, t.isView⟩ = t := by
  obtain ⟨slots, b⟩ := t
  have same : slots.map (fun s => ⟨s.value, s.declared⟩) = slots :=
    (List.map_congr_left fun s _ => by cases s; rfl).trans (List.map_id slots)
  rw [Tuple.values, Tuple.types, List.zipWith_map, List.zipWith_self, same]

theorem get?_of_slot (t : Tuple) (i : Fin t.arity) : t.get? i = some (t.slot i).value :=
  congrArg (Option.map Slot.value) (List.getElem?_eq_getElem i.isLt)

theorem getElem?_types (t : Tuple) (i : Fin t.arity) : t.types[i.val]? = some (t.slot i).declared :=
  (List.getElem?_map ..).trans (congrArg (Option.map Slot.declared) (List.getElem?_eq_getElem i.isLt))

theorem permute_of_find? {t : Tuple} {order : List Nat} {bad : Nat}
    (found : order.find? (t.arity ≤ ·) = some bad) :
    t.permute order = .error (.invalidArgument (.viewIndex bad t.arity)) := by
  rw [permute, found]
  rfl

theorem arity_view (t : Tuple) (order : List (Fin t.arity)) : (t.view order).arity = order.length :=
  List.length_map _

theorem slot_view (t : Tuple) (order : List (Fin t.arity)) (i : Fin (t.view order).arity) :
    (t.view order).slot i = t.slot (order.get (i.cast (t.arity_view order))) :=
  List.getElem_map _

/-- A view of a view picks its slots from the tuple that the inner one picks them from. -/
theorem view_view (t : Tuple) (o₁ : List (Fin t.arity)) (o₂ : List (Fin (t.view o₁).arity)) :
    (t.view o₁).view o₂ = t.view (o₂.map fun i => o₁.get (i.cast (t.arity_view o₁))) := by
  refine congrArg (Tuple.mk · true) ?_
  rw [List.map_map]
  exact List.map_congr_left fun i _ => slot_view t o₁ i

/-- Picking slots of a view is picking slots of the tuple. -/
theorem permute_permute {t u : Tuple} {o₁ : List Nat} (picks : t.permute o₁ = .ok u)
    (o₂ : List (Fin o₁.length)) :
    ∃ v, u.permute (o₂.map Fin.val) = .ok v ∧ t.permute (o₂.map o₁.get) = .ok v := by
  obtain ⟨picked, rfl, rfl⟩ := permute_eq_ok.mp picks
  have arity : (picked.map Fin.val).length = (t.view picked).arity := by
    rw [arity_view, List.length_map]
  refine ⟨(t.view picked).view (o₂.map (Fin.cast arity)), ?_, ?_⟩
  · exact permute_eq_ok.mpr ⟨_, by simp [Function.comp_def], rfl⟩
  · exact permute_eq_ok.mpr ⟨_, by simp [Function.comp_def], view_view ..⟩

/-- Picking all slots in their order gives the same slots. -/
theorem permute_range (t : Tuple) : t.permute (List.range t.arity) = .ok ⟨t.slots, true⟩ := by
  refine permute_eq_ok.mpr ⟨List.finRange t.arity, by simp, congrArg (Tuple.mk · true) ?_⟩
  exact (List.map_get_finRange t.slots).symm

end Tuple

/-- What a tuple consists of: values of its own, or another tuple and which of its slots show, in which
order. The slot types stand beside either. -/
inductive Layout where
  | row (values : List Item) (types : List ItemType)
  | view (source : Layout) (order : List Nat) (types : List ItemType)

namespace Layout

/-- The declared slot types. -/
def types : Layout → List ItemType
  | .row _ types | .view _ _ types => types

/-- The number of slots, which the types tell. -/
def arity (l : Layout) : Nat :=
  l.types.length

/-- The value in a slot, looked up through views. -/
def get? : Layout → Nat → Option Item
  | .row values _, i => values[i]?
  | .view source order _, i => order[i]?.bind source.get?

/-- The values, in order. A slot without a value is passed over. -/
def values (l : Layout) : List Item :=
  (List.range l.arity).filterMap l.get?

def isView : Layout → Bool
  | .row .. => false
  | .view .. => true

/-- The tuple that a layout is taken for. -/
def tuple (l : Layout) : Tuple :=
  ⟨l.values.zipWith Slot.mk l.types, l.isView⟩

/-- The layout for some values, each slot typed by its value. -/
def ofValues (values : List Item) : Layout :=
  .row values (values.map Item.typeOf)

/-- The layout for some values under declared slot types, which have to admit them. -/
def ofTyped (values : List Item) (types : List ItemType) : Except Error Layout :=
  if values.length = types.length then do
    let _ ← Tuple.checkSlots 0 values types
    return .row values types
  else
    throw (.invalidArgument (.arity values.length types))

/-- The layout of a view. Once the order is checked the slot types are taken from the source without a
further check, and the program comes to an end with no outcome if one is not there. -/
def permute (source : Layout) (order : List Nat) : Option (Except Error Layout) :=
  match order.find? (source.arity ≤ ·) with
  | some bad => return throw (.invalidArgument (.viewIndex bad source.arity))
  | none => do return pure (.view source order (← order.mapM (source.types[·]?)))

/-- The layouts that can be made. -/
inductive Made : Layout → Prop where
  | ofValues (values : List Item) : Made (ofValues values)
  | ofTyped {values : List Item} {types : List ItemType} {l : Layout}
    (fits : ofTyped values types = .ok l) : Made l
  | permute {source l : Layout} {order : List Nat} (made : Made source)
    (picks : source.permute order = some (.ok l)) : Made l

theorem ofTyped_eq (values : List Item) (types : List ItemType) :
    ofTyped values types = (Tuple.ofTyped values types).map fun _ => .row values types := by
  unfold ofTyped Tuple.ofTyped
  split
  · cases Tuple.checkSlots 0 values types <;> rfl
  · rfl

theorem ofTyped_eq_ok {values : List Item} {types : List ItemType} {l : Layout} :
    ofTyped values types = .ok l ↔ Tuple.Fit values types ∧ l = .row values types := by
  rw [ofTyped_eq, map_eq_ok]
  constructor
  · rintro ⟨t, typed, rfl⟩
    exact ⟨(Tuple.ofTyped_eq_ok.mp typed).1, rfl⟩
  · rintro ⟨fits, rfl⟩
    exact ⟨_, Tuple.ofTyped_eq_ok.mpr ⟨fits, rfl⟩, rfl⟩

/-- A view is made if and only if its order names slots of the source. Either way there is an outcome. -/
theorem permute_cases (l : Layout) (order : List Nat) :
    (∃ picked : List (Fin l.arity), picked.map Fin.val = order ∧
      l.permute order = some (.ok (.view l order (picked.map l.types.get)))) ∨
    ∃ bad, order.find? (l.arity ≤ ·) = some bad ∧
      l.permute order = some (.error (.invalidArgument (.viewIndex bad l.arity))) := by
  unfold permute
  split
  · next bad found => exact .inr ⟨bad, found, rfl⟩
  · next inside =>
    simp only [List.find?_eq_none, decide_eq_true_eq, not_le] at inside
    obtain ⟨picked, rfl⟩ : ∃ picked : List (Fin l.arity), picked.map Fin.val = order :=
      ⟨_, Tuple.map_val_filterMap inside⟩
    have types : (picked.map Fin.val).mapM (l.types[·]?) = some (picked.map l.types.get) := by
      clear inside
      induction picked with
      | nil => rfl
      | cons i picked ih =>
        rw [List.map_cons, List.mapM_cons, ih, List.getElem?_eq_getElem i.isLt]
        rfl
    rw [types]
    exact .inl ⟨picked, rfl, rfl⟩

section made

variable {l : Layout}

/-- What looking up slots finds are the values, if it finds as many as there are slots. -/
theorem values_eq {xs : List Item} (arity : xs.length = l.arity) (reads : ∀ i, l.get? i = xs[i]?) :
    l.values = xs := by
  have all (xs : List Item) : (List.range xs.length).filterMap (xs[·]?) = xs := by
    induction xs with
    | nil => rfl
    | cons x xs ih =>
      rw [List.length_cons, List.range_succ_eq_map, List.filterMap_cons_some List.getElem?_cons_zero,
        List.filterMap_map]
      exact congrArg (x :: ·) ih
  rw [values, funext reads, ← arity, all]

/-- A layout that can be made has a value of each slot type, and looking up a slot finds it. -/
theorem Made.fits (made : l.Made) : Tuple.Fit l.values l.types ∧ ∀ i, l.get? i = l.values[i]? := by
  -- `values` reads slot by slot, so the induction is on a list that what is looked up agrees with
  suffices ∃ xs, Tuple.Fit xs l.types ∧ ∀ i, l.get? i = xs[i]? by
    obtain ⟨xs, fits, reads⟩ := this
    rw [values_eq fits.length_eq reads]
    exact ⟨fits, reads⟩
  induction made with
  | ofValues values => exact ⟨values, Tuple.fit_typeOf values, fun _ => rfl⟩
  | ofTyped typed =>
    obtain ⟨fits, rfl⟩ := ofTyped_eq_ok.mp typed
    exact ⟨_, fits, fun _ => rfl⟩
  | @permute source l order made picks ih =>
    obtain ⟨xs, fits, reads⟩ := ih
    obtain ⟨picked, rfl, views⟩ | ⟨bad, -, fails⟩ := source.permute_cases order
    · obtain rfl : l = _ := by simpa [picks] using views
      have arity : source.arity = xs.length := fits.length_eq.symm
      refine ⟨picked.map fun i => xs.get (i.cast arity), ?_, fun i => ?_⟩
      · refine List.forall₂_map_left_iff.mpr (List.forall₂_map_right_iff.mpr ?_)
        exact List.forall₂_same.mpr fun i _ => fits.get (i.cast arity).isLt i.isLt
      · simp only [get?, List.getElem?_map]
        cases picked[i]? with
        | none => rfl
        | some j => exact (reads j).trans (List.getElem?_eq_getElem (j.cast arity).isLt)
    · simp [picks] at fails

/-- A layout is taken for the tuple that has its values and types. -/
theorem Made.types_tuple (made : l.Made) : l.tuple.types = l.types :=
  Tuple.types_under made.fits.1.length_eq

theorem Made.values_tuple (made : l.Made) : l.tuple.values = l.values :=
  Tuple.values_under made.fits.1.length_eq

theorem Made.arity_tuple (made : l.Made) : l.tuple.arity = l.arity := by
  rw [← Tuple.length_types, made.types_tuple, arity]

theorem Made.get?_tuple (made : l.Made) (i : Nat) : l.tuple.get? i = l.get? i := by
  rw [made.fits.2, ← made.values_tuple, Tuple.get?, Tuple.values, List.getElem?_map]

/-- A layout is taken for a tuple if that has what is read off the layout. -/
theorem tuple_eq {t : Tuple} (reads : ∀ i, l.get? i = t.values[i]?)
    (types : l.types = t.types) (isView : l.isView = t.isView) : l.tuple = t := by
  have values : l.values = t.values :=
    values_eq (by rw [Tuple.length_values, ← Tuple.length_types, ← types, arity]) reads
  rw [tuple, values, types, isView, Tuple.mk_zipWith]

theorem tuple_ofValues (values : List Item) : (ofValues values).tuple = .ofValues values := by
  refine tuple_eq (fun i => ?_) (Tuple.types_ofValues values).symm rfl
  rw [Tuple.values_ofValues]
  rfl

theorem tuple_ofTyped (values : List Item) (types : List ItemType) :
    (ofTyped values types).map tuple = Tuple.ofTyped values types := by
  rw [ofTyped_eq]
  cases typed : Tuple.ofTyped values types with
  | error e => rfl
  | ok t =>
    obtain ⟨fits, rfl⟩ := Tuple.ofTyped_eq_ok.mp typed
    refine congrArg Except.ok (tuple_eq (fun i => ?_) ?_ rfl)
    · rw [Tuple.values_under fits.length_eq]
      rfl
    · exact (Tuple.types_under fits.length_eq).symm

/-- Views are made of layouts as of the tuples that these are taken for. -/
theorem Made.tuple_permute (made : l.Made) (order : List Nat) : ∃ outcome,
    l.permute order = some outcome ∧ outcome.map tuple = l.tuple.permute order := by
  obtain ⟨picked, rfl, views⟩ | ⟨bad, found, fails⟩ := l.permute_cases order
  · refine ⟨_, views, ?_⟩
    have arity := made.arity_tuple.symm
    refine (Tuple.permute_eq_ok.mpr
      ⟨picked.map (Fin.cast arity), by simp [Function.comp_def], ?_⟩).symm
    refine tuple_eq (fun i => ?_) ?_ rfl
    · rw [Tuple.values_view, List.map_map, List.getElem?_map, get?, List.getElem?_map]
      cases picked[i]? with
      | none => rfl
      | some j => exact (made.get?_tuple j).symm.trans (l.tuple.get?_of_slot (j.cast arity))
    · rw [Tuple.types_view, List.map_map]
      refine List.map_congr_left fun j _ => Option.some.inj ?_
      calc some (l.types.get j)
        _ = l.types[j.val]? := (List.getElem?_eq_getElem j.isLt).symm
        _ = l.tuple.types[j.val]? := by rw [made.types_tuple]
        _ = _ := l.tuple.getElem?_types (j.cast arity)
  · exact ⟨_, fails, (made.arity_tuple ▸ Tuple.permute_of_find? (made.arity_tuple ▸ found)).symm⟩

theorem Made.tuple_of_permute (made : l.Made) {order : List Nat} {v : Layout}
    (views : l.permute order = some (.ok v)) : l.tuple.permute order = .ok v.tuple := by
  obtain ⟨outcome, views', agrees⟩ := made.tuple_permute order
  obtain rfl := Option.some.inj (views.symm.trans views')
  exact agrees.symm

theorem Made.permute_of_tuple (made : l.Made) {order : List Nat} {t : Tuple}
    (views : l.tuple.permute order = .ok t) :
    ∃ v : Layout, l.permute order = some (.ok v) ∧ v.Made ∧ v.tuple = t := by
  obtain ⟨outcome, views', agrees⟩ := made.tuple_permute order
  obtain ⟨v, rfl, same⟩ := map_eq_ok.mp (agrees.trans views)
  exact ⟨v, views', .permute made views', same⟩

/-- Every tuple that can be made is what a layout that can be made is taken for. -/
theorem exists_made {t : Tuple} (made : (Item.tuple t).Made) : ∃ l : Layout, l.Made ∧ l.tuple = t := by
  generalize same : Item.tuple t = x at made
  induction made generalizing t with
  | atom => cases same
  | @ofValues values _ =>
    obtain rfl := Item.tuple.inj same
    exact ⟨_, .ofValues values, tuple_ofValues values⟩
  | @ofTyped values types _ _ typed =>
    obtain rfl := Item.tuple.inj same
    obtain ⟨l, kept, rfl⟩ := map_eq_ok.mp ((tuple_ofTyped values types).trans typed)
    exact ⟨l, .ofTyped kept, rfl⟩
  | permute _ picks ih =>
    obtain rfl := Item.tuple.inj same
    obtain ⟨l, made, rfl⟩ := ih rfl
    obtain ⟨v, -, made', rfl⟩ := made.permute_of_tuple picks
    exact ⟨v, made', rfl⟩

/-- What may be relied on in reading a layout and in making views of it. -/
structure Sound (l : Layout) : Prop where
  /-- There is a value in a slot exactly if there is such a slot. -/
  isSome_get? : ∀ i, (l.get? i).isSome = true ↔ i < l.arity
  /-- The value is one of the slot's type. -/
  admits : ∀ i x, l.get? i = some x → ∃ t, l.types[i]? = some t ∧ t.admits x = true
  /-- The values are those of all slots, in their order. -/
  values : l.values.length = l.arity ∧ ∀ i, l.values[i]? = l.get? i
  /-- The layout is taken for the tuple with its values and types. -/
  tuple : l.tuple.values = l.values ∧ l.tuple.types = l.types
  /-- Views are made as of that tuple, or refused as of that tuple. -/
  permute : ∀ order, ∃ outcome,
    l.permute order = some outcome ∧ outcome.map Layout.tuple = l.tuple.permute order
  /-- A view of a view has the slots of the one view that picks them from the layout. -/
  permute_permute : ∀ o₁ u, l.permute o₁ = some (.ok u) → ∀ o₂ : List (Fin o₁.length), ∃ v w,
    u.permute (o₂.map Fin.val) = some (.ok v) ∧ l.permute (o₂.map o₁.get) = some (.ok w) ∧
      v.types = w.types ∧ v.values = w.values
  /-- The view of all slots in their order has the same slots and is an equal tuple. -/
  permute_range : ∃ u, l.permute (List.range l.arity) = some (.ok u) ∧ u.types = l.types ∧
    u.values = l.values ∧ (Item.tuple u.tuple == Item.tuple l.tuple) = true

theorem Made.sound (made : l.Made) : l.Sound where
  isSome_get? i := by
    rw [made.fits.2, arity, ← made.fits.1.length_eq, Option.isSome_iff_ne_none, ne_eq,
      List.getElem?_eq_none_iff, not_le]
  admits i x found := by
    obtain ⟨fits, reads⟩ := made.fits
    rw [reads] at found
    obtain ⟨inside, rfl⟩ := List.getElem?_eq_some_iff.mp found
    have inside' := fits.length_eq ▸ inside
    exact ⟨_, List.getElem?_eq_getElem inside', fits.get inside inside'⟩
  values := ⟨made.fits.1.length_eq, fun i => (made.fits.2 i).symm⟩
  tuple := ⟨made.values_tuple, made.types_tuple⟩
  permute := made.tuple_permute
  permute_permute o₁ u views o₂ := by
    have made' := Made.permute made views
    obtain ⟨t, picks, picks'⟩ := Tuple.permute_permute (made.tuple_of_permute views) o₂
    obtain ⟨v, views₁, made₁, same₁⟩ := made'.permute_of_tuple picks
    obtain ⟨w, views₂, made₂, same₂⟩ := made.permute_of_tuple picks'
    refine ⟨v, w, views₁, views₂, ?_, ?_⟩
    · rw [← made₁.types_tuple, ← made₂.types_tuple, same₁, same₂]
    · rw [← made₁.values_tuple, ← made₂.values_tuple, same₁, same₂]
  permute_range := by
    obtain ⟨u, views, made', same⟩ := made.permute_of_tuple l.tuple.permute_range
    refine ⟨u, made.arity_tuple ▸ views, ?_, ?_, Item.beq_iff.mpr ?_⟩
    · rw [← made'.types_tuple, same, ← made.types_tuple]
      rfl
    · rw [← made'.values_tuple, same, ← made.values_tuple]
      rfl
    · rw [same, Item.content_tuple, Item.content_tuple]
      rfl

end made

end Layout

end GraphQuery
