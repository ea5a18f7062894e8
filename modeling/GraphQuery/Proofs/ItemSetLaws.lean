import GraphQuery.Error
import GraphQuery.ItemSet.Algebra
import GraphQuery.ItemSet.Equality
import GraphQuery.Proofs.ItemTypeOrder
import Mathlib.Data.Finset.Card
/-!
# Laws of item sets

What equality sees of an item set is its declared type and its contents, taken together as its
`Essence`. The essences form a semilattice in which that of a union is the join of those of the two
sets: the contents of a union are those of either, and sets declared alike have a union that is declared
so too. Outcomes are alike if both are equal sets or both are errors.

Equality of sets is extensional, although it looks at sizes and fingerprints first and then at one
inclusion, and equal sets are hashed alike.
-/

namespace GraphQuery

/-! Equality and what is hashed -/

theorem forall₂_beq_iff {xs ys : List Item} :
    List.Forall₂ (fun x y => (x == y) = true) xs ys ↔
      xs.map Item.content = ys.map Item.content := by
  rw [← List.forall₂_eq_eq_eq, List.forall₂_map_left_iff, List.forall₂_map_right_iff]
  simp only [Item.beq_iff]

/-- Tuples are equal if they are slot by slot, whatever types are declared for the slots and whichever
of them are views. -/
theorem Item.tuple_beq_iff {t u : Tuple} : (Item.tuple t == Item.tuple u) = true ↔
    List.Forall₂ (fun x y => (x == y) = true) t.values u.values := by
  rw [forall₂_beq_iff, Item.beq_iff, content_tuple, content_tuple, Content.tuple.injEq]

namespace ItemSet

/-- Sets are equal if their declared types are and each holds the items of the other. This is an
equivalence, no set has a fingerprint other than that of its items, and equal sets give a hash the
same bytes. -/
theorem equality_extensional (a b c : ItemSet) :
    ((a == b) = true ↔
      a.itemType = b.itemType ∧ (∀ x ∈ a.items, x ∈ b) ∧ ∀ x ∈ b.items, x ∈ a) ∧
    (a == a) = true ∧ (a == b) = (b == a) ∧
    ((a == b) = true → (b == c) = true → (a == c) = true) ∧
    a.digest = unorderedFingerprint a.items ∧
    ((a == b) = true → a.digest = b.digest ∧ encode a = encode b ∧ fingerprint a = fingerprint b) := by
  refine ⟨?_, BEq.rfl, BEq.comm, BEq.trans, a.digest_eq, fun equal => ?_⟩
  · rw [beq_iff, ← subset_iff, ← subset_iff, subset_iff_contents, subset_iff_contents,
      List.perm_ext_iff_of_nodup a.nodup_contents b.nodup_contents]
    exact and_congr_right fun _ => forall_congr' (fun _ => iff_def) |>.trans forall_and
  · have encoded := encode_congr equal
    exact ⟨digest_congr equal, encoded, by rw [fingerprint, encoded, fingerprint]⟩

/-- What equality sees of an item set. -/
structure Essence where
  itemType : ItemType
  contents : Finset Content
deriving DecidableEq

namespace Essence

/-- What equality sees of a union. The contents are put together, and an operand without items has a
say in the declared type only where the other has none either. -/
instance : Max Essence where
  max e f :=
    ⟨if e.contents = ∅ ↔ f.contents = ∅ then e.itemType.common f.itemType
      else if e.contents = ∅ then f.itemType else e.itemType,
    e.contents ∪ f.contents⟩

theorem union_def (e f : Essence) : e ⊔ f =
    ⟨if e.contents = ∅ ↔ f.contents = ∅ then e.itemType.common f.itemType
      else if e.contents = ∅ then f.itemType else e.itemType,
    e.contents ∪ f.contents⟩ := rfl

theorem union_comm (e f : Essence) : e ⊔ f = f ⊔ e := by
  rw [union_def, union_def, Finset.union_comm, ItemType.common_comm]
  by_cases none : e.contents = ∅ <;> by_cases none' : f.contents = ∅ <;> simp [none, none']

/-- Those of three without contents drop out of the declared type, unless all three are, and the types
of the others are joined. -/
theorem union_assoc (e f g : Essence) : e ⊔ f ⊔ g = e ⊔ (f ⊔ g) := by
  simp only [union_def, Finset.union_assoc, Finset.union_eq_empty]
  by_cases none : e.contents = ∅ <;> by_cases none' : f.contents = ∅ <;>
    by_cases none'' : g.contents = ∅ <;> simp [none, none', none'', ItemType.common_assoc]

theorem union_self (e : Essence) : e ⊔ e = e := by
  simp [union_def]

instance : SemilatticeSup Essence :=
  .mk' union_comm union_assoc union_self

end Essence

/-- The declared type and the contents of a set. -/
def essence (s : ItemSet) : Essence :=
  ⟨s.itemType, s.contents.toFinset⟩

theorem essence_eq_iff {s t : ItemSet} : s.essence = t.essence ↔ (s == t) = true := by
  rw [beq_iff]
  unfold essence
  rw [Essence.mk.injEq, List.toFinset_eq_iff_perm_dedup, s.nodup_contents.dedup,
    t.nodup_contents.dedup]

@[simp]
theorem mem_essence {s : ItemSet} {c : Content} : c ∈ s.essence.contents ↔ c ∈ s.contents :=
  List.mem_toFinset

@[simp]
theorem essence_itemType (s : ItemSet) : s.essence.itemType = s.itemType := rfl

/-- Equal sets have the same items. -/
theorem mem_congr {s t : ItemSet} (same : s.essence = t.essence) {x : Item} : x ∈ s ↔ x ∈ t := by
  rw [mem_iff_content_mem, mem_iff_content_mem, ← mem_essence, same, mem_essence]

/-- A set counts each of its contents once. -/
theorem card_essence (s : ItemSet) : s.essence.contents.card = s.size := by
  rw [essence, List.toFinset_card_of_nodup s.nodup_contents, length_contents]

/-- Every item of a set has an equal one in every equal set. -/
theorem exists_beq_of_mem {s t : ItemSet} (same : s.essence = t.essence) {x : Item}
    (member : x ∈ s.items) : ∃ y ∈ t.items, (x == y) = true := by
  have content : x.content ∈ t.contents := by
    rw [← mem_essence, ← same, mem_essence]
    exact List.mem_map_of_mem member
  obtain ⟨y, member, equal⟩ := List.mem_map.mp content
  exact ⟨y, member, Item.beq_iff.mpr equal.symm⟩

theorem isEmpty_iff {s : ItemSet} : s.isEmpty = true ↔ s.items = [] := by
  rw [isEmpty_eq, List.isEmpty_iff]

theorem isEmpty_iff_essence {s : ItemSet} : s.isEmpty = true ↔ s.essence.contents = ∅ := by
  rw [isEmpty_iff, essence, List.toFinset_eq_empty_iff, contents, List.map_eq_nil_iff]

theorem isEmpty_eq_false_iff {s : ItemSet} :
    s.isEmpty = false ↔ s.essence.contents.Nonempty := by
  rw [← Bool.not_eq_true, isEmpty_iff_essence, Finset.nonempty_iff_ne_empty]

theorem isEmpty_congr {s t : ItemSet} (same : s.essence = t.essence) : s.isEmpty = t.isEmpty := by
  rw [Bool.eq_iff_iff, isEmpty_iff_essence, isEmpty_iff_essence, same]

theorem contents_eq_nil {s : ItemSet} (empty : s.isEmpty = true) : s.contents = [] := by
  rw [contents, isEmpty_iff.mp empty, List.map_nil]

theorem isEmpty_eq_false_of_mem {s : ItemSet} {x : Item} (inside : x ∈ s) : s.isEmpty = false := by
  rw [← Bool.not_eq_true]
  intro empty
  have content := mem_iff_content_mem.mp inside
  rw [contents_eq_nil empty] at content
  cases content

@[simp]
theorem contents_empty (t : ItemType) : (empty t).contents = [] := rfl

@[simp]
theorem isEmpty_empty (t : ItemType) : (empty t).isEmpty = true := rfl

@[simp]
theorem itemType_empty (t : ItemType) : (empty t).itemType = t := rfl

@[simp]
theorem contents_withType (s : ItemSet) (t : ItemType) : (s.withType t).contents = s.contents := rfl

@[simp]
theorem contents_singleton (x : Item) (t : ItemType) :
    (singleton x t).contents = [x.content] := rfl

@[simp]
theorem itemType_singleton (x : Item) (t : ItemType) : (singleton x t).itemType = t := rfl

theorem essence_singleton {x y : Item} (same : (x == y) = true) (t : ItemType) :
    (singleton x t).essence = (singleton y t).essence := by
  simp only [essence, contents_singleton, itemType_singleton, Item.beq_iff.mp same]

theorem isEmpty_singleton (x : Item) (t : ItemType) : (singleton x t).isEmpty = false := rfl

/-- The contents that one set has or does not have in common with another. -/
theorem mem_map_restrict {s t : ItemSet} {wanted : Bool} {c : Content} :
    c ∈ (restrict wanted s.items t.items).map Item.content ↔
      c ∈ s.contents ∧ decide (c ∈ t.contents) = wanted := by
  have known (x : Item) : t.items.contains x = decide (x.content ∈ t.contents) := by
    rw [Bool.eq_iff_iff, decide_eq_true_iff, ← mem_iff, mem_iff_content_mem]
  rw [restrict_eq_filter, List.mem_map]
  simp only [List.mem_filter, known, beq_iff_eq]
  constructor
  · rintro ⟨x, ⟨member, as⟩, rfl⟩
    exact ⟨List.mem_map_of_mem member, as⟩
  · rintro ⟨content, as⟩
    obtain ⟨x, member, rfl⟩ := List.mem_map.mp content
    exact ⟨x, ⟨member, as⟩, rfl⟩

/-- No content is lost with the items that are equal to earlier ones. -/
theorem mem_map_firsts {xs : List Item} {c : Content} :
    c ∈ (firsts xs).map Item.content ↔ c ∈ xs.map Item.content := by
  refine ⟨fun content => ((firsts_sublist xs).map _).subset content, fun content => ?_⟩
  obtain ⟨x, member, rfl⟩ := List.mem_map.mp content
  have kept : (firsts xs).contains x = true :=
    (contains_firsts xs x).trans (List.contains_iff_exists_mem_beq.mpr ⟨x, member, BEq.rfl⟩)
  obtain ⟨y, listed, equal⟩ := List.contains_iff_exists_mem_beq.mp kept
  rw [Item.beq_iff.mp equal]
  exact List.mem_map_of_mem listed

theorem mem_contents_ofList {xs : List Item} {t : ItemType} {c : Content} :
    c ∈ (ofList xs t).contents ↔ c ∈ xs.map Item.content := by
  rw [contents, items_ofList, List.map_reverse, List.mem_reverse, mem_map_firsts]

theorem mem_contents_collect {xs : List Item} {t : ItemType} {c : Content} :
    c ∈ (collect xs t).contents ↔ c ∈ xs.map Item.content := by
  rw [contents, items_collect, mem_map_firsts]

@[simp]
theorem mem_contents_union {s t : ItemSet} {c : Content} :
    c ∈ (s.union t).contents ↔ c ∈ s.contents ∨ c ∈ t.contents := by
  -- the items of one set, and those of the other that it does not hold
  have joined {s t : ItemSet} : c ∈ (restrict false t.items s.items ++ s.items).map Item.content ↔
      c ∈ s.contents ∨ c ∈ t.contents := by
    rw [List.map_append, List.mem_append, mem_map_restrict, decide_eq_false_iff_not, ← contents]
    tauto
  rw [contents, items_union]
  split
  · next none => rw [← contents, contents_eq_nil none, List.mem_nil_iff, false_or]
  · split
    · next none => rw [← contents, contents_eq_nil none, List.mem_nil_iff, or_false]
    · split
      · exact joined
      · exact joined.trans or_comm

theorem mem_union {s t : ItemSet} {x : Item} : x ∈ s.union t ↔ x ∈ s ∨ x ∈ t := by
  simp only [mem_iff_content_mem, mem_contents_union]

/-- The items of a union are items of its operands. -/
theorem mem_items_of_union {s t : ItemSet} {x : Item} (member : x ∈ (s.union t).items) :
    x ∈ s.items ∨ x ∈ t.items := by
  have kept {xs ys : List Item} (member : x ∈ restrict false xs ys ++ ys) : x ∈ ys ∨ x ∈ xs :=
    (List.mem_append.mp member).symm.imp_right fun fresh => (restrict_sublist false xs ys).subset fresh
  rw [items_union] at member
  split at member
  · exact .inr member
  · split at member
    · exact .inl member
    · split at member
      · exact kept member
      · exact (kept member).symm

theorem itemType_union_self {s t : ItemSet} {type : ItemType} (left : s.itemType = type)
    (right : t.itemType = type) : (s.union t).itemType = type := by
  rw [itemType_union, left, right, ItemType.common_self]
  split
  · rfl
  · split <;> rfl

/-- A type that accepts those of two sets accepts that of their union. -/
theorem accepts_itemType_union {s t : ItemSet} {u : ItemType} (left : u.accepts s.itemType = true)
    (right : u.accepts t.itemType = true) : u.accepts (s.union t).itemType = true := by
  rw [itemType_union]
  split
  · exact ItemType.accepts_common left right
  · split
    · exact right
    · exact left

theorem essence_union (s t : ItemSet) : (s.union t).essence = s.essence ⊔ t.essence := by
  refine congrArg₂ Essence.mk ?_ ?_
  · have alike : s.isEmpty = t.isEmpty ↔
        (s.essence.contents = ∅ ↔ t.essence.contents = ∅) := by
      rw [Bool.eq_iff_iff, isEmpty_iff_essence, isEmpty_iff_essence]
    simp only [itemType_union, alike, isEmpty_iff_essence]
    rfl
  · ext c
    rw [List.mem_toFinset, mem_contents_union, Finset.mem_union, mem_essence, mem_essence]

/-- Equal sets have equal unions. -/
theorem essence_union_congr {s s' t t' : ItemSet} (left : s.essence = s'.essence)
    (right : t.essence = t'.essence) : (s.union t).essence = (s'.union t').essence := by
  rw [essence_union, essence_union, left, right]

@[simp]
theorem mem_contents_intersection {s t : ItemSet} {c : Content} :
    c ∈ (s.intersection t).contents ↔ c ∈ s.contents ∧ c ∈ t.contents := by
  rw [contents, items_intersection]
  split
  · rw [mem_map_restrict, decide_eq_true_iff]
  · rw [mem_map_restrict, decide_eq_true_iff, and_comm]

@[simp]
theorem mem_contents_subtraction {s t : ItemSet} {c : Content} :
    c ∈ (s.subtraction t).contents ↔ c ∈ s.contents ∧ c ∉ t.contents := by
  rw [contents, items_subtraction, mem_map_restrict, decide_eq_false_iff_not]

end ItemSet

/-- Two outcomes are alike if they are equal sets, or errors both. -/
inductive Alike : Except Error ItemSet → Except Error ItemSet → Prop where
  | ok {s t : ItemSet} (same : (s == t) = true) : Alike (.ok s) (.ok t)
  | error (d e : Error) : Alike (.error d) (.error e)

namespace Alike

variable {r r' r'' : Except Error ItemSet}

theorem refl : (r : Except Error ItemSet) → Alike r r
  | .ok _ => .ok BEq.rfl
  | .error _ => .error _ _

theorem symm (alike : Alike r r') : Alike r' r := by
  cases alike with
  | ok same => exact .ok (BEq.symm same)
  | error d e => exact .error e d

theorem trans (first : Alike r r') (second : Alike r' r'') : Alike r r'' := by
  cases first with
  | ok same =>
    cases second with
    | ok same' => exact .ok (BEq.trans same same')
  | error d e =>
    cases second with
    | error _ e' => exact .error d e'

end Alike

end GraphQuery
