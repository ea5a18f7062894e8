import GraphQuery.Proofs.ItemTypeOrder
import GraphQuery.Proofs.Outcomes
import GraphQuery.Operation.Apply
import Mathlib.Data.Fin.Basic
import Mathlib.Data.List.Forall2
/-!
# Instances of types

Items are made as atoms or as tuples, and every way of making a tuple sees to it that the slots hold
values of their declared types. So a tuple whose declared types fit a list of types holds instances
of those, which is what operations on tuples rely on.
-/

namespace GraphQuery

/-- The items that can be made. -/
inductive Item.Made : Item → Prop where
  | atom (a : Atom) : Made (.atom a)
  | ofValues {values : List Item} (made : ∀ x ∈ values, Made x) : Made (.tuple (.ofValues values))
  | ofTyped {values : List Item} {types : List ItemType} {t : Tuple} (made : ∀ x ∈ values, Made x)
    (fits : Tuple.ofTyped values types = .ok t) : Made (.tuple t)
  | permute {t view : Tuple} {order : List Nat} (made : Made (.tuple t))
    (picks : t.permute order = .ok view) : Made (.tuple view)

/-- The item can be made and is a value of the type. -/
def Item.IsA (x : Item) (t : ItemType) : Prop :=
  x.Made ∧ t.admits x = true

theorem Item.IsA.of_accepts {x : Item} {t u : ItemType} (instance' : x.IsA u)
    (above : t.accepts u = true) : x.IsA t :=
  ⟨instance'.1, ItemType.admits_of_accepts above instance'.2⟩

theorem Item.Made.isA {x : Item} (made : x.Made) : x.IsA x.typeOf :=
  ⟨made, ItemType.admits_typeOf x⟩

namespace Tuple

/-- Values may stand under some slot types. -/
def Fit (values : List Item) (types : List ItemType) : Prop :=
  List.Forall₂ (fun x t => ItemType.admits t x = true) values types

/-- The tuple of values under slot types. -/
def under (values : List Item) (types : List ItemType) : Tuple :=
  ⟨values.zipWith Slot.mk types, false⟩

theorem checkSlots_of_fits {i : Nat} {values : List Item} {types : List ItemType}
    (fits : Fit values types) :
    checkSlots i values types = .ok (values.zipWith Slot.mk types) := by
  induction fits generalizing i with
  | nil => rfl
  | cons fits _ ih =>
    rw [checkSlots, if_pos fits, ih]
    rfl

theorem fits_of_checkSlots {i : Nat} {values : List Item} {types : List ItemType} {slots : List Slot}
    (arity : values.length = types.length) (checked : checkSlots i values types = .ok slots) :
    Fit values types := by
  induction values generalizing i types slots with
  | nil =>
    cases types with
    | nil => exact .nil
    | cons => cases arity
  | cons x xs ih =>
    cases types with
    | nil => cases arity
    | cons t ts =>
      rw [checkSlots] at checked
      split at checked
      · next fits =>
        cases rest : checkSlots (i + 1) xs ts with
        | error e =>
          rw [rest] at checked
          cases checked
        | ok slots => exact .cons fits (ih (Nat.succ.inj arity) rest)
      · cases checked

/-- Values make a tuple under declared types if and only if each is a value of the type at its
position. -/
theorem ofTyped_eq_ok {values : List Item} {types : List ItemType} {t : Tuple} :
    ofTyped values types = .ok t ↔
      Fit values types ∧
        t = under values types := by
  unfold ofTyped
  constructor
  · intro made
    split at made
    · next arity =>
      cases checked : checkSlots 0 values types with
      | error e =>
        rw [checked] at made
        cases made
      | ok slots =>
        have fits := fits_of_checkSlots arity checked
        obtain rfl := Except.ok.inj (checked.symm.trans (checkSlots_of_fits fits))
        rw [checked] at made
        exact ⟨fits, (Except.ok.inj made).symm⟩
    · cases made
  · rintro ⟨fits, rfl⟩
    rw [if_pos fits.length_eq, checkSlots_of_fits fits]
    rfl

/-- Values make a tuple each, under the same types, if and only if all of them may stand there. -/
theorem mapM_ofTyped_eq_ok {values : Item → List Item} {types : List ItemType} {ys : List Item}
    {ts : List Tuple} : (ys.mapM fun y => ofTyped (values y) types) = .ok ts ↔
      (∀ y ∈ ys, Fit (values y) types) ∧ ts = ys.map fun y => under (values y) types := by
  constructor
  · intro made
    have each := mapM_ok made
    have fits : ∀ y ∈ ys, Fit (values y) types := by
      intro y member
      obtain ⟨t, typed⟩ := mapM_ok_of_mem each member
      exact (ofTyped_eq_ok.mp typed).1
    refine ⟨fits, Except.ok.inj (made.symm.trans (mapM_eq_ok_map fun y member => ?_))⟩
    exact ofTyped_eq_ok.mpr ⟨fits y member, rfl⟩
  · rintro ⟨fits, rfl⟩
    exact mapM_eq_ok_map fun y member => ofTyped_eq_ok.mpr ⟨fits y member, rfl⟩

theorem map_val_filterMap {n : Nat} {order : List Nat} (inside : ∀ i ∈ order, i < n) :
    (order.filterMap fun i => if h : i < n then some (⟨i, h⟩ : Fin n) else none).map Fin.val =
      order := by
  induction order with
  | nil => rfl
  | cons i order ih =>
    obtain ⟨first, rest⟩ := List.forall_mem_cons.mp inside
    rw [List.filterMap_cons_some (dif_pos first), List.map_cons, ih rest]

/-- A view can be made if and only if its order names slots of the tuple. -/
theorem permute_eq_ok {t view : Tuple} {order : List Nat} :
    t.permute order = .ok view ↔ ∃ picked : List (Fin t.arity), picked.map Fin.val = order ∧
      view = t.view picked := by
  unfold permute
  constructor
  · intro made
    split at made
    · cases made
    · next inside =>
      simp only [List.find?_eq_none, decide_eq_true_eq, not_le] at inside
      exact ⟨_, map_val_filterMap inside, (Except.ok.inj made).symm⟩
  · rintro ⟨picked, rfl, rfl⟩
    have inside : ∀ i ∈ picked.map Fin.val, i < t.arity := by
      intro i member
      obtain ⟨j, -, rfl⟩ := List.mem_map.mp member
      exact j.isLt
    have none : (picked.map Fin.val).find? (t.arity ≤ ·) = none := by
      simpa only [List.find?_eq_none, decide_eq_true_eq, not_le] using inside
    rw [none, List.map_injective_iff.mpr Fin.val_injective (map_val_filterMap inside)]
    rfl

/-- Tuples that can be made hold in each slot a value of its declared type. -/
theorem isA_of_mem_slots {t : Tuple} (made : (Item.tuple t).Made) {s : Slot} (member : s ∈ t.slots) :
    s.value.IsA s.declared := by
  generalize same : Item.tuple t = x at made
  induction made generalizing t s with
  | atom => cases same
  | ofValues made =>
    obtain rfl := Item.tuple.inj same
    obtain ⟨x, listed, rfl⟩ := List.mem_map.mp member
    exact (made x listed).isA
  | ofTyped made fits =>
    obtain rfl := Item.tuple.inj same
    obtain ⟨fit, rfl⟩ := ofTyped_eq_ok.mp fits
    rw [under, ← List.map_uncurry_zip_eq_zipWith] at member
    obtain ⟨⟨x, t⟩, pair, rfl⟩ := List.mem_map.mp member
    exact ⟨made x (List.of_mem_zip pair).1, List.forall₂_zip fit pair⟩
  | permute made picks ih =>
    obtain rfl := Item.tuple.inj same
    obtain ⟨picked, -, rfl⟩ := permute_eq_ok.mp picks
    obtain ⟨i, -, rfl⟩ := List.mem_map.mp member
    exact ih (List.get_mem ..) rfl

theorem types_under {values : List Item} {types : List ItemType}
    (arity : values.length = types.length) :
    (under values types).types = types := by
  induction values generalizing types with
  | nil =>
    cases types with
    | nil => rfl
    | cons => cases arity
  | cons x xs ih =>
    cases types with
    | nil => cases arity
    | cons t ts => exact congrArg (t :: ·) (ih (Nat.succ.inj arity))

theorem values_under {values : List Item} {types : List ItemType}
    (arity : values.length = types.length) :
    (under values types).values = values := by
  rw [under, Tuple.values, ← List.map_uncurry_zip_eq_zipWith, List.map_map]
  exact List.map_fst_zip arity.le

theorem admits_under {values : List Item} {types : List ItemType} (fit : Fit values types) :
    (ItemType.tuple types).admits (.tuple (under values types)) = true := by
  rw [ItemType.admits, types_under fit.length_eq]
  exact ItemType.acceptsSlots_iff.mpr (List.forall₂_same.mpr fun t _ => ItemType.accepts_refl t)

theorem content_under {values : List Item} {types : List ItemType} (fit : Fit values types) :
    (Item.tuple (under values types)).content = .tuple (values.map Item.content) := by
  rw [Item.content_tuple, values_under fit.length_eq]

/-- Instances of some types make a tuple under these types. -/
theorem exists_ofTyped {values : List Item} {types : List ItemType}
    (fits : List.Forall₂ Item.IsA values types) :
    ∃ t, ofTyped values types = .ok t ∧ (Item.tuple t).IsA (.tuple types) := by
  obtain ⟨made, fit⟩ := (List.forall₂_and_left (p := Item.Made) _ _).mp fits
  have ok := ofTyped_eq_ok.mpr ⟨fit, rfl⟩
  exact ⟨_, ok, .ofTyped made ok, admits_under fit⟩

theorem made_view {t : Tuple} (made : (Item.tuple t).Made) (order : List (Fin t.arity)) :
    (Item.tuple (t.view order)).Made :=
  .permute made (permute_eq_ok.mpr ⟨order, rfl, rfl⟩)

end Tuple

/-- The items that fit some types are the tuples that the tuple type admits. -/
theorem Item.fitting?_eq_some {x : Item} {types : List ItemType}
    {t : { t : Tuple // t.arity = types.length }} :
    x.fitting? types = some t ↔ x = .tuple t.val ∧ (ItemType.tuple types).admits x = true := by
  constructor
  · intro fits
    cases x with
    | atom => cases fits
    | tuple u =>
      rw [fitting?] at fits
      split at fits
      · next admits =>
        obtain rfl := Option.some.inj fits
        exact ⟨rfl, admits⟩
      · cases fits
  · rintro ⟨rfl, admits⟩
    exact dif_pos admits

/-- An instance of a tuple type is a tuple that fits it and holds instances of its slot types. -/
theorem Item.IsA.fitting {x : Item} {types : List ItemType} (isA : x.IsA (.tuple types)) :
    ∃ t, x.fitting? types = some t ∧ x = .tuple t.val ∧
      List.Forall₂ Item.IsA t.val.values types := by
  obtain ⟨made, admits⟩ := isA
  cases x with
  | atom => cases admits
  | tuple t =>
    refine ⟨_, dif_pos admits, rfl, ?_⟩
    rw [ItemType.admits, ItemType.acceptsSlots_iff, Tuple.types, List.forall₂_map_right_iff] at admits
    rw [Tuple.values, List.forall₂_map_left_iff]
    have above : List.Forall₂ (fun s u => u.accepts s.declared = true) t.slots types := admits.flip
    have slots := (List.forall₂_and_left _ _).mpr
      ⟨fun s => Tuple.isA_of_mem_slots made (s := s), above⟩
    exact slots.imp fun s u fits => fits.1.of_accepts fits.2

section

variable {types : List ItemType} {t : { t : Tuple // t.arity = types.length }}

/-- The slot that an operation on tuples works on holds an instance of its type. -/
theorem Tuple.isA_valueAt (fits : List.Forall₂ Item.IsA t.val.values types) (i : Fin types.length) :
    (Tuple.valueAt t i).IsA (types.get i) := by
  have inside : i.val < t.val.values.length := fits.length_eq.symm ▸ i.isLt
  have slot := fits.get inside i.isLt
  rw [List.get_eq_getElem] at slot
  simp only [Tuple.values, List.getElem_map] at slot
  exact slot

/-- The view of an instance is an instance of the type that picks the same slot types. -/
theorem Tuple.isA_view (isA : (Item.tuple t.val).IsA (.tuple types))
    (order : List (Fin types.length)) :
    (Item.tuple (t.val.view (order.map (Fin.cast t.property.symm)))).IsA
      (.tuple (order.map types.get)) := by
  obtain ⟨made, admits⟩ := isA
  refine ⟨made_view made _, ?_⟩
  rw [ItemType.admits, ItemType.acceptsSlots_iff] at admits ⊢
  rw [types_view, List.map_map, List.forall₂_map_left_iff, List.forall₂_map_right_iff]
  refine List.forall₂_same.mpr fun i _ => ?_
  have inside : i.val < t.val.types.length := admits.length_eq ▸ i.isLt
  have slot := admits.get i.isLt inside
  simp only [Tuple.types, List.get_eq_getElem, List.getElem_map] at slot
  exact slot

end

/-- Instances of some types are instances of types that accept these. -/
theorem forall₂_of_accepts {xs : List Item} {ts ps : List ItemType}
    (fits : List.Forall₂ Item.IsA xs ts)
    (suits : List.Forall₂ (fun p t => ItemType.accepts p t = true) ps ts) :
    List.Forall₂ Item.IsA xs ps := by
  induction suits generalizing xs with
  | nil =>
    cases fits
    exact .nil
  | cons above _ ih =>
    cases fits with
    | cons isA fits => exact .cons (isA.of_accepts above) (ih fits)

/-- Lists that are related one by one stay so when members at one position are replaced by related
ones. -/
theorem forall₂_set {α β : Type} {R : α → β → Prop} {as : List α} {bs : List β}
    (all : List.Forall₂ R as bs) {a : α} {b : β} (related : R a b) (i : Nat) :
    List.Forall₂ R (as.set i a) (bs.set i b) := by
  induction all generalizing i with
  | nil => exact .nil
  | cons first rest ih =>
    cases i with
    | zero => exact .cons related rest
    | succ i => exact .cons first (ih i)

end GraphQuery
