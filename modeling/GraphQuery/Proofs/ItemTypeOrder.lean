import GraphQuery.Item
import Mathlib.Data.List.Forall2
import Mathlib.Order.Bounds.Basic
/-!
# The order of item types

`accepts` orders the types by the values that they have: it is a partial order with `any` on top, and
a type has every value of those that it accepts. The common type of two is the least that accepts
both, although it is found by trying first whether one of the two does. So the types form a
semilattice, and the common type of several does not depend on their order.
-/

namespace GraphQuery

/-- Induction on item types. A tuple type may use the statement for each of its slots. -/
@[elab_as_elim, induction_eliminator]
protected theorem ItemType.induct {motive : ItemType → Prop} (any : motive .any)
    (kind : ∀ k, motive (.kind k)) (tuple : ∀ slots, (∀ t ∈ slots, motive t) → motive (.tuple slots)) :
    ∀ t, motive t
  | .any => any
  | .kind k => kind k
  | .tuple slots => tuple slots fun t _ => ItemType.induct any kind tuple t

namespace ItemType

/-! What a type accepts, by its form -/

theorem acceptsSlots_iff {ts us : List ItemType} :
    acceptsSlots ts us = true ↔ List.Forall₂ (fun t u => t.accepts u = true) ts us := by
  induction ts generalizing us with
  | nil => cases us <;> simp [acceptsSlots]
  | cons t ts ih =>
    cases us with
    | nil => simp [acceptsSlots]
    | cons u us => rw [acceptsSlots, Bool.and_eq_true, ih, List.forall₂_cons]

theorem eq_any_of_accepts {t : ItemType} (accepts : t.accepts .any = true) : t = .any := by
  cases t with
  | any => rfl
  | kind | tuple => simp [ItemType.accepts] at accepts

theorem kind_accepts_iff {k : Kind} {t : ItemType} : (kind k).accepts t = true ↔ t = kind k := by
  cases t with
  | any | tuple => simp [accepts]
  | kind l => rw [accepts, beq_iff_eq, kind.injEq, eq_comm]

theorem tuple_accepts_iff {ts : List ItemType} {t : ItemType} : (tuple ts).accepts t = true ↔
    ∃ us, t = tuple us ∧ List.Forall₂ (fun t u => t.accepts u = true) ts us := by
  cases t with
  | any | kind => simp [accepts]
  | tuple us => rw [accepts, acceptsSlots_iff]; simp

/-! The order -/

@[simp]
theorem accepts_refl (t : ItemType) : t.accepts t = true := by
  induction t with
  | any => rfl
  | kind k => exact kind_accepts_iff.mpr rfl
  | tuple slots ih => exact tuple_accepts_iff.mpr ⟨slots, rfl, List.forall₂_same.mpr ih⟩

/-- A type accepts what a type that it accepts accepts. -/
theorem accepts_trans {t u v : ItemType} (above : t.accepts u = true) (below : u.accepts v = true) :
    t.accepts v = true := by
  induction t generalizing u v with
  | any => exact any_accepts v
  | kind k =>
    obtain rfl := kind_accepts_iff.mp above
    exact below
  | tuple ts ih =>
    obtain ⟨us, rfl, upper⟩ := tuple_accepts_iff.mp above
    obtain ⟨vs, rfl, lower⟩ := tuple_accepts_iff.mp below
    refine tuple_accepts_iff.mpr ⟨vs, rfl, List.forall₂_iff_get.mpr
      ⟨upper.length_eq.trans lower.length_eq, fun i inside inside' => ?_⟩⟩
    have between : i < us.length := upper.length_eq ▸ inside
    exact ih _ (List.get_mem ..) (upper.get inside between) (lower.get between inside')

/-- Types that accept one another are the same. -/
theorem accepts_antisymm {t u : ItemType} (above : t.accepts u = true) (below : u.accepts t = true) :
    t = u := by
  induction t generalizing u with
  | any => exact (eq_any_of_accepts below).symm
  | kind k => exact (kind_accepts_iff.mp above).symm
  | tuple ts ih =>
    obtain ⟨us, rfl, upper⟩ := tuple_accepts_iff.mp above
    obtain ⟨_, ⟨⟩, lower⟩ := tuple_accepts_iff.mp below
    refine congrArg tuple (List.ext_get upper.length_eq fun i inside inside' => ?_)
    exact ih _ (List.get_mem ..) (upper.get inside inside') (lower.get inside' inside)

/-- A type is above those that it accepts. -/
instance : PartialOrder ItemType where
  le t u := u.accepts t = true
  le_refl := accepts_refl
  le_trans _ _ _ below above := accepts_trans above below
  le_antisymm _ _ below above := accepts_antisymm above below

theorem le_iff {t u : ItemType} : t ≤ u ↔ u.accepts t = true :=
  Iff.rfl

/-! The common type -/

theorem commonSlots_eq (ts us : List ItemType) : commonSlots ts us = List.zipWith common ts us := by
  induction ts generalizing us with
  | nil => rw [commonSlots, List.zipWith_nil_left]
  | cons t ts ih =>
    cases us with
    | nil => rw [commonSlots, List.zipWith_nil_right]
    | cons u us => rw [commonSlots, ih, List.zipWith_cons_cons]

theorem common_of_accepts {t u : ItemType} (above : t.accepts u = true) : t.common u = t := by
  rw [common.eq_def, if_pos above]

theorem common_of_accepted {t u : ItemType} (below : u.accepts t = true) : t.common u = u := by
  by_cases above : t.accepts u = true
  · rw [common_of_accepts above, accepts_antisymm above below]
  · rw [common.eq_def, if_neg above, if_pos below]

/-- `c` is the least type that accepts two types. -/
theorem isLUB_iff {t u c : ItemType} : IsLUB {t, u} c ↔
    (c.accepts t = true ∧ c.accepts u = true) ∧
      ∀ v : ItemType, v.accepts t = true → v.accepts u = true → v.accepts c = true := by
  simp [IsLUB, IsLeast, lowerBounds, le_iff]

/-- Tuple types of one arity have the tuple type of their slots' common types as the least above them
if this is so slot by slot. -/
theorem isLUB_tuple {ts us : List ItemType} (arity : ts.length = us.length)
    (slots : ∀ i (inside : i < ts.length) (inside' : i < us.length),
      IsLUB {ts[i], us[i]} (ts[i].common us[i])) :
    IsLUB {tuple ts, tuple us} (tuple (List.zipWith common ts us)) := by
  have width : (List.zipWith common ts us).length = ts.length := by
    rw [List.length_zipWith, arity, min_self]
  refine isLUB_iff.mpr ⟨⟨?_, ?_⟩, fun v left right => ?_⟩
  · refine tuple_accepts_iff.mpr ⟨ts, rfl, List.forall₂_iff_get.mpr ⟨width, fun i _ inside => ?_⟩⟩
    simpa using (isLUB_iff.mp (slots i inside (arity ▸ inside))).1.1
  · refine tuple_accepts_iff.mpr
      ⟨us, rfl, List.forall₂_iff_get.mpr ⟨width.trans arity, fun i _ inside => ?_⟩⟩
    simpa using (isLUB_iff.mp (slots i (arity ▸ inside) inside)).1.2
  · -- a competitor that is not `any` is a tuple type of the same arity, and above both slot by slot
    cases v with
    | any => exact any_accepts _
    | kind k => cases kind_accepts_iff.mp left
    | tuple vs =>
      obtain ⟨_, ⟨⟩, lefts⟩ := tuple_accepts_iff.mp left
      obtain ⟨_, ⟨⟩, rights⟩ := tuple_accepts_iff.mp right
      refine tuple_accepts_iff.mpr ⟨_, rfl, List.forall₂_iff_get.mpr
        ⟨lefts.length_eq.trans width.symm, fun i inside _ => ?_⟩⟩
      have inLeft : i < ts.length := lefts.length_eq ▸ inside
      have inRight : i < us.length := rights.length_eq ▸ inside
      simpa using (isLUB_iff.mp (slots i inLeft inRight)).2 vs[i] (lefts.get inside inLeft)
        (rights.get inside inRight)

/-- Nothing but `any` is above two unrelated types that are not tuples of one arity. -/
theorem eq_any_of_unrelated {t u v : ItemType} (notAbove : ¬ t.accepts u = true)
    (unlike : ∀ ts us, t = tuple ts → u = tuple us → ts.length ≠ us.length)
    (left : v.accepts t = true) (right : v.accepts u = true) : v = any := by
  cases v with
  | any => rfl
  | kind k =>
    -- a kind accepts nothing but itself, so both types are this one
    rw [kind_accepts_iff.mp left, kind_accepts_iff.mp right] at notAbove
    exact absurd (accepts_refl _) notAbove
  | tuple vs =>
    obtain ⟨ts, rfl, lefts⟩ := tuple_accepts_iff.mp left
    obtain ⟨us, rfl, rights⟩ := tuple_accepts_iff.mp right
    exact absurd (lefts.length_eq.symm.trans rights.length_eq) (unlike ts us rfl rfl)

/-- The common type is the least above both types once that is known of the slots of tuples. -/
theorem isLUB_common_of_slots {t u : ItemType}
    (slots : ∀ ts us, t = tuple ts → u = tuple us → ∀ i (inside : i < ts.length)
      (inside' : i < us.length), IsLUB {ts[i], us[i]} (ts[i].common us[i])) :
    IsLUB {t, u} (t.common u) := by
  by_cases above : t.accepts u = true
  · rw [common_of_accepts above]
    exact isLUB_iff.mpr ⟨⟨accepts_refl t, above⟩, fun v left _ => left⟩
  by_cases below : u.accepts t = true
  · rw [common_of_accepted below]
    exact isLUB_iff.mpr ⟨⟨below, accepts_refl u⟩, fun v _ right => right⟩
  by_cases alike : ∃ ts us, t = tuple ts ∧ u = tuple us ∧ ts.length = us.length
  · obtain ⟨ts, us, rfl, rfl, arity⟩ := alike
    rw [common, if_neg above, if_neg below, if_pos arity, commonSlots_eq]
    exact isLUB_tuple arity (slots ts us rfl rfl)
  · have unlike : ∀ ts us, t = tuple ts → u = tuple us → ts.length ≠ us.length :=
      fun ts us left right arity => alike ⟨ts, us, left, right, arity⟩
    have top : t.common u = any := by
      rw [common.eq_def, if_neg above, if_neg below]
      split
      · next ts us => exact if_neg (unlike ts us rfl rfl)
      all_goals rfl
    rw [top]
    refine isLUB_iff.mpr ⟨⟨any_accepts t, any_accepts u⟩, fun v left right => ?_⟩
    rw [eq_any_of_unrelated above unlike left right]
    exact any_accepts _

/-- The common type of two is the least type above both. The induction is on one of the two, for
all others at once, since a slot meets whatever the other has in its place. -/
theorem isLUB_common (t u : ItemType) : IsLUB {t, u} (t.common u) := by
  induction t generalizing u with
  | any | kind => exact isLUB_common_of_slots nofun
  | tuple ts ih =>
    refine isLUB_common_of_slots fun _ us same _ i inside _ => ?_
    obtain rfl := tuple.inj same
    exact ih _ (List.getElem_mem inside) us[i]

example : (tuple [kind .int64, kind .text]).common (tuple [kind .int64, kind .bool]) =
    tuple [kind .int64, any] := by
  decide

/-- The common type of two types accepts either. -/
theorem common_accepts (t u : ItemType) :
    (t.common u).accepts t = true ∧ (t.common u).accepts u = true :=
  (isLUB_iff.mp (isLUB_common t u)).1

/-- What accepts two types accepts their common type. -/
theorem accepts_common {t u v : ItemType} (left : v.accepts t = true) (right : v.accepts u = true) :
    v.accepts (t.common u) = true :=
  (isLUB_iff.mp (isLUB_common t u)).2 v left right

instance : SemilatticeSup ItemType where
  sup := common
  le_sup_left t u := (common_accepts t u).1
  le_sup_right t u := (common_accepts t u).2
  sup_le _ _ _ := accepts_common

theorem common_comm (t u : ItemType) : t.common u = u.common t :=
  sup_comm t u

theorem common_assoc (t u v : ItemType) : (t.common u).common v = t.common (u.common v) :=
  sup_assoc t u v

@[simp]
theorem common_self (t : ItemType) : t.common t = t :=
  sup_idem t

theorem meet_comm (t u : ItemType) : t.meet u = u.meet t := by
  unfold meet
  split
  · next above =>
    split
    · next below => exact accepts_antisymm below above
    · rfl
  · split
    · rfl
    · exact common_comm t u

theorem meet_of_accepts {t u : ItemType} (above : t.accepts u = true) : t.meet u = u :=
  if_pos above

/-- Unless it is the wider one of two related types, a type is accepted by the narrower one of both. -/
theorem meet_accepts {t u : ItemType} (notAbove : ¬t.accepts u = true) :
    (t.meet u).accepts t = true := by
  rw [meet, if_neg notAbove]
  split
  · exact accepts_refl t
  · exact (common_accepts t u).1

/-- The common type of several types accepts each of them. -/
theorem foldl_common_accepts (ts : List ItemType) (t : ItemType) :
    ∀ u ∈ t :: ts, (ts.foldl common t).accepts u = true := by
  induction ts generalizing t with
  | nil =>
    intro u member
    rw [List.mem_singleton.mp member]
    exact accepts_refl t
  | cons t' ts ih =>
    intro u member
    obtain ⟨left, right⟩ := common_accepts t t'
    have above := ih (t.common t') (t.common t') List.mem_cons_self
    obtain rfl | rfl | later : u = t ∨ u = t' ∨ u ∈ ts := by simpa using member
    · exact accepts_trans above left
    · exact accepts_trans above right
    · exact ih (t.common t') u (List.mem_cons_of_mem _ later)

/-! The values of a type -/

/-- A type admits the values of every type that it accepts. -/
theorem admits_of_accepts {t u : ItemType} {x : Item} (above : t.accepts u = true)
    (admits : u.admits x = true) : t.admits x = true := by
  cases t with
  | any => rfl
  | kind k =>
    obtain rfl := kind_accepts_iff.mp above
    exact admits
  | tuple ts =>
    obtain ⟨us, rfl, -⟩ := tuple_accepts_iff.mp above
    cases x with
    | atom => simp [ItemType.admits] at admits
    | tuple t => exact accepts_trans (t := .tuple ts) (v := .tuple t.types) above admits

/-- Every item is a value of its own type. -/
@[simp]
theorem admits_typeOf (x : Item) : x.typeOf.admits x = true := by
  cases x with
  | atom a => exact beq_self_eq_true a.kind
  | tuple t => exact accepts_refl (.tuple t.types)

/-- Item types form a semilattice under `accepts`, with `any` on top and the common type as the least
upper bound of two, and the values of a type are among those of every type above it. -/
theorem accepts_semilattice (t u v : ItemType) (x : Item) :
    -- a partial order with a top
    (t.accepts t = true ∧
      (t.accepts u = true → u.accepts v = true → t.accepts v = true) ∧
      (t.accepts u = true → u.accepts t = true → t = u) ∧
      any.accepts t = true) ∧
    -- the least upper bound
    ((t.common u).accepts t = true ∧ (t.common u).accepts u = true ∧
      (v.accepts t = true → v.accepts u = true → v.accepts (t.common u) = true)) ∧
    (t.common u = u.common t ∧ (t.common u).common v = t.common (u.common v) ∧ t.common t = t) ∧
    -- the values
    ((t.accepts u = true → u.admits x = true → t.admits x = true) ∧ x.typeOf.admits x = true) :=
  ⟨⟨accepts_refl t, accepts_trans, accepts_antisymm, any_accepts t⟩,
    ⟨(common_accepts t u).1, (common_accepts t u).2, accepts_common⟩,
    ⟨common_comm t u, common_assoc t u v, common_self t⟩,
    ⟨admits_of_accepts, admits_typeOf x⟩⟩

/-- Pairs of a number and a text, and of a number and anything, with a pair of the first type. -/
theorem accepts_semilattice_pairs :
    let narrow := tuple [kind .int64, kind .text]
    let wide := tuple [kind .int64, any]
    let pair := Item.tuple ⟨[⟨.atom (.int64 1), kind .int64⟩, ⟨.atom (.text "a"), kind .text⟩], false⟩
    wide.accepts narrow = true ∧ any.accepts narrow = true ∧ narrow = narrow ∧
      wide.accepts (narrow.common (tuple [kind .int64, kind .bool])) = true ∧
      wide.admits pair = true := by
  intro narrow wide pair
  have below : wide.accepts narrow = true := by decide
  have values := accepts_semilattice wide narrow narrow pair
  exact ⟨below, (accepts_semilattice any wide narrow pair).1.2.1 rfl below,
    (accepts_semilattice narrow narrow narrow pair).1.2.2.1 (by decide) (by decide),
    (accepts_semilattice narrow (tuple [kind .int64, kind .bool]) wide pair).2.1.2.2 below
      (by decide),
    values.2.2.2.1 below (by decide)⟩

end ItemType

end GraphQuery
