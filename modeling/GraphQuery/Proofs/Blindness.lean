import GraphQuery.Proofs.Instances
import GraphQuery.Proofs.ItemSetLaws
/-!
# Blind types

Equality of items does not see the types that are declared for the slots of a tuple, nor whether the
tuple is a view. A type is blind if it admits equal items alike. Of the tuple types those are blind that
say no more than the number of slots. Where only blind types are checked, equal tuples are taken apart
into equal values, and equal values make equal tuples.
-/

namespace GraphQuery

theorem Item.kind_congr {x y : Item} (equal : (x == y) = true) : x.kind = y.kind := by
  obtain rfl | ⟨t, u, rfl, rfl⟩ := eq_or_tuple_of_content (beq_iff.mp equal) <;> rfl

/-- A tuple that equals an item is matched slot by slot. -/
theorem Item.exists_tuple_of_beq {t : Tuple} {y : Item} (equal : (Item.tuple t == y) = true) :
    ∃ u, y = .tuple u ∧ t.values.map Item.content = u.values.map Item.content := by
  have content := Item.beq_iff.mp equal
  cases y with
  | atom b => simp at content
  | tuple u => exact ⟨u, rfl, by simpa using content⟩

namespace ItemType

/-- The type admits equal items alike. -/
def Blind (t : ItemType) : Prop :=
  ∀ x y : Item, (x == y) = true → t.admits x = t.admits y

theorem blind_any : Blind .any :=
  fun _ _ _ => rfl

theorem blind_kind (k : Kind) : Blind (.kind k) := by
  intro x y equal
  rw [admits, admits, Item.kind_congr equal]

theorem acceptsSlots_of_wide {types : List ItemType} (wide : ∀ t ∈ types, t = .any)
    (us : List ItemType) : acceptsSlots types us = decide (types.length = us.length) := by
  rw [Bool.eq_iff_iff, decide_eq_true_iff]
  refine ⟨acceptsSlots_length, fun arity => acceptsSlots_iff.mpr ?_⟩
  refine List.forall₂_iff_get.mpr ⟨arity, fun i inside _ => ?_⟩
  rw [wide _ (List.get_mem types ⟨i, inside⟩), any_accepts]

/-- A tuple type is blind if and only if any value may stand in each slot. -/
theorem blind_tuple_iff {types : List ItemType} :
    (ItemType.tuple types).Blind ↔ ∀ t ∈ types, t = .any := by
  constructor
  · intro blind
    -- the types themselves, and no types at all, declared for slots of the same values
    let typed : Tuple := ⟨types.map fun t => ⟨.atom .unit, t⟩, false⟩
    let untyped : Tuple := ⟨types.map fun _ => ⟨.atom .unit, .any⟩, false⟩
    have equal : (Item.tuple typed == Item.tuple untyped) = true := by
      rw [Item.beq_iff, Item.content_tuple, Item.content_tuple]
      simp [typed, untyped, Tuple.values, Function.comp_def]
    have admitted := blind _ _ equal
    have own : typed.types = types := by simp [typed, Tuple.types, Function.comp_def]
    have other : untyped.types = types.map fun _ => .any := by
      simp [untyped, Tuple.types]
    rw [admits, admits, own, other] at admitted
    have reflexive : acceptsSlots types types = true :=
      acceptsSlots_iff.mpr (List.forall₂_same.mpr fun t _ => accepts_refl t)
    rw [reflexive, eq_comm, acceptsSlots_iff, List.forall₂_map_right_iff, List.forall₂_same] at admitted
    exact fun t member => eq_any_of_accepts (admitted t member)
  · intro wide x y equal
    cases x with
    | atom a =>
      cases y with
      | atom b => rfl
      | tuple u => simp [Item.beq_iff] at equal
    | tuple t =>
      obtain ⟨u, rfl, same⟩ := Item.exists_tuple_of_beq equal
      have arity := congrArg List.length same
      simp only [List.length_map, Tuple.length_values] at arity
      rw [admits, admits, acceptsSlots_of_wide wide, acceptsSlots_of_wide wide, Tuple.length_types,
        Tuple.length_types, arity]

end ItemType

/-! Equal tuples -/

/-- If one item fits a blind tuple type, then so does every equal one. -/
theorem Item.fitting?_congr {types : List ItemType} (blind : (ItemType.tuple types).Blind) {x y : Item}
    (equal : (x == y) = true) {t : { t : Tuple // t.arity = types.length }}
    (fits : x.fitting? types = some t) : ∃ u, y.fitting? types = some u ∧
      t.val.values.map Item.content = u.val.values.map Item.content := by
  obtain ⟨rfl, admits⟩ := fitting?_eq_some.mp fits
  obtain ⟨u, rfl, same⟩ := exists_tuple_of_beq equal
  rw [blind _ _ equal] at admits
  exact ⟨_, dif_pos admits, same⟩

/-- Equal items that fit hold equal values. -/
theorem Item.values_of_fitting {types : List ItemType} {x y : Item} (equal : (x == y) = true)
    {t u : { t : Tuple // t.arity = types.length }} (fits : x.fitting? types = some t)
    (fits' : y.fitting? types = some u) :
    t.val.values.map Item.content = u.val.values.map Item.content := by
  rw [(fitting?_eq_some.mp fits).1, (fitting?_eq_some.mp fits').1] at equal
  obtain ⟨_, ⟨⟩, same⟩ := exists_tuple_of_beq equal
  exact same

namespace Tuple

variable {types : List ItemType} {t u : { t : Tuple // t.arity = types.length }}

theorem getElem?_values (t : { t : Tuple // t.arity = types.length }) (i : Fin types.length) :
    t.val.values[i.val]? = some (valueAt t i) := by
  have inside : i.val < t.val.slots.length := i.isLt.trans_eq t.property.symm
  rw [values, List.getElem?_map, List.getElem?_eq_getElem inside]
  rfl

theorem content_valueAt (same : t.val.values.map Item.content = u.val.values.map Item.content)
    (i : Fin types.length) : (valueAt t i).content = (valueAt u i).content := by
  have at' := congrArg (·[i.val]?) same
  simpa only [List.getElem?_map, getElem?_values, Option.map_some, Option.some.injEq] using at'

/-- Equal values make equal tuples under blind types. -/
theorem ofTyped_congr {values values' : List Item} {types : List ItemType}
    (blind : ∀ t ∈ types, t.Blind) (same : values.map Item.content = values'.map Item.content)
    {t : Tuple} (made : ofTyped values types = .ok t) :
    ∃ u, ofTyped values' types = .ok u ∧ (Item.tuple t == Item.tuple u) = true := by
  obtain ⟨fits, rfl⟩ := ofTyped_eq_ok.mp made
  have arity := congrArg List.length same
  rw [List.length_map, List.length_map] at arity
  have equal := forall₂_beq_iff.mpr same
  have fits' : Fit values' types := by
    refine List.forall₂_iff_get.mpr ⟨arity.symm.trans fits.length_eq, fun i inside bound => ?_⟩
    have here := fits.get (arity ▸ inside) bound
    rw [← blind _ (List.get_mem types ⟨i, bound⟩) _ _ (equal.get (arity ▸ inside) inside)]
    exact here
  refine ⟨_, ofTyped_eq_ok.mpr ⟨fits', rfl⟩, Item.beq_iff.mpr ?_⟩
  rw [content_under fits, content_under fits', same]

end Tuple

end GraphQuery
