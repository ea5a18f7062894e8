import GraphQuery.Proofs.ItemSetLaws
/-!
# Exact set algebra

The stores that the operations can build, in any sequence, are all in normal form, so what is proved of
item sets holds of them: union, intersection and difference are those of sets, in what they contain and
in how many items there are, whichever of their special cases is taken and however the operands came
about. The form in which a store is held, its stored fingerprint and the order of its items say nothing
beyond what it contains.
-/

namespace GraphQuery

namespace ItemSet

variable (a b : ItemSet)

theorem contents_essence_union :
    (a.union b).essence.contents = a.essence.contents ∪ b.essence.contents :=
  congrArg Essence.contents (essence_union a b)

theorem contents_essence_intersection :
    (a.intersection b).essence.contents = a.essence.contents ∩ b.essence.contents := by
  ext c
  simp

theorem contents_essence_subtraction :
    (a.subtraction b).essence.contents = a.essence.contents \ b.essence.contents := by
  ext c
  simp

/-- Every item of a set is in the difference or in the intersection. -/
theorem size_subtraction_add_size_intersection :
    (a.subtraction b).size + (a.intersection b).size = a.size := by
  simp only [← card_essence, contents_essence_subtraction, contents_essence_intersection]
  exact Finset.card_sdiff_add_card_inter _ _

/-- A union counts the items of the intersection once. -/
theorem size_union_add_size_intersection :
    (a.union b).size + (a.intersection b).size = a.size + b.size := by
  simp only [← card_essence, contents_essence_union, contents_essence_intersection]
  exact Finset.card_union_add_card_inter _ _

theorem mem_intersection {x : Item} : x ∈ a.intersection b ↔ x ∈ a ∧ x ∈ b := by
  simp only [mem_iff_content_mem, mem_contents_intersection]

theorem mem_subtraction {x : Item} : x ∈ a.subtraction b ↔ x ∈ a ∧ x ∉ b := by
  simp only [mem_iff_content_mem, mem_contents_subtraction]

/-- An item that is in a set is met once when its items are gone through, and another never. -/
theorem countP_items (x : Item) : (a.items.countP fun y => y == x) = if x ∈ a then 1 else 0 := by
  have counted : (a.items.countP fun y => y == x) = a.contents.count x.content := by
    rw [List.count, contents, List.countP_map]
    refine List.countP_congr fun y _ => ?_
    simp [Item.beq_iff]
  rw [counted]
  split
  · next member => exact List.count_eq_one_of_mem a.nodup_contents (mem_iff_content_mem.mp member)
  · next absent =>
    exact List.count_eq_zero_of_not_mem fun content => absent (mem_iff_content_mem.mpr content)

end ItemSet

namespace Store

/-- The stores that come about by any sequence of operations. -/
inductive Built : Store → Prop where
  | empty (t : ItemType) : Built (empty t)
  /-- One item, under its own type or another. -/
  | singleton (x : Item) (t : ItemType) : Built (singleton x t)
  | ofList (xs : List Item) (t : ItemType) : Built (ofList xs t)
  | ofDistinct {xs : List Item} (distinct : xs.Pairwise fun a b => (a == b) = false) (t : ItemType) :
      Built (ofDistinct xs t)
  | withType {s : Store} (t : ItemType) : Built s → Built (s.withType t)
  /-- A filter that fails gives no store, and one that does not gives a verdict on each item. -/
  | sift {s : Store} (verdicts : List Bool) : Built s → Built (s.sift verdicts)
  | union {a b : Store} : Built a → Built b → Built (a.union b)
  | intersection {a b : Store} : Built a → Built b → Built (a.intersection b)
  | subtraction {a b : Store} : Built a → Built b → Built (a.subtraction b)

/-- Every operation keeps what is held in normal form. -/
theorem Built.normal {s : Store} (built : s.Built) : s.held.Normal := by
  induction built with
  | empty | singleton => trivial
  | ofList xs => exact Held.normal_ofDistinct (ItemSet.pairwise_reverse_firsts xs)
  | ofDistinct distinct => exact Held.normal_ofDistinct distinct
  | withType t _ ih => exact ih
  | sift verdicts _ ih => exact normal_sift ih verdicts
  | union _ _ ih ih' => exact normal_union ih ih'
  | intersection _ _ ih ih' => exact normal_intersection ih ih'
  | @subtraction _ b _ _ ih _ => exact normal_subtraction ih b

/-- The item set that a store is. -/
def Built.toItemSet {s : Store} (built : s.Built) : ItemSet :=
  ⟨s, built.normal⟩

/-- The form of a store is the one for the number of its items, and going through it meets every
contained item once. -/
structure Canonical (s : Store) : Prop where
  none_iff : s.size = 0 ↔ s.held = .none
  one_iff : s.size = 1 ↔ ∃ x, s.held = .one x
  many : s.size ≠ 0 → s.size ≠ 1 → ∃ items digest, s.held = .many items digest ∧
    2 ≤ items.length ∧ (items.Pairwise fun x y => (x == y) = false) ∧
    digest = unorderedFingerprint items
  once (x : Item) : (s.items.countP fun y => y == x) = if s.contains x then 1 else 0

theorem Built.canonical {s : Store} (built : s.Built) : s.Canonical where
  none_iff := ⟨built.normal.eq_none, fun held => by rw [size, held]; rfl⟩
  one_iff := ⟨built.normal.eq_one, fun ⟨x, held⟩ => by rw [size, held]; rfl⟩
  many notNone notOne := by
    have normal := built.normal
    unfold size at notNone notOne
    cases held : s.held with
    | none => exact absurd (by rw [held]; rfl) notNone
    | one x => exact absurd (by rw [held]; rfl) notOne
    | many items digest =>
      rw [held] at normal
      exact ⟨items, digest, rfl, normal⟩
  once := built.toItemSet.countP_items

/-- Union, intersection and difference of built stores are those of sets: they contain what they should
and have as many items as they should, a difference keeps its type, and every built store, these results
among them, has the form for the number of its items. -/
theorem algebra_exact {a b : Store} (left : a.Built) (right : b.Built) (x : Item) :
    ((a.union b).contains x = true ↔ a.contains x = true ∨ b.contains x = true) ∧
    ((a.intersection b).contains x = true ↔ a.contains x = true ∧ b.contains x = true) ∧
    ((a.subtraction b).contains x = true ↔ a.contains x = true ∧ ¬b.contains x = true) ∧
    (a.subtraction b).size + (a.intersection b).size = a.size ∧
    (a.union b).size + (a.intersection b).size = a.size + b.size ∧
    (a.subtraction b).itemType = a.itemType ∧
    a.Canonical ∧ (a.union b).Canonical ∧ (a.intersection b).Canonical ∧
    (a.subtraction b).Canonical :=
  let s := left.toItemSet
  let t := right.toItemSet
  ⟨ItemSet.mem_union (s := s) (t := t), s.mem_intersection t, s.mem_subtraction t,
    s.size_subtraction_add_size_intersection t, s.size_union_add_size_intersection t,
    itemType_subtraction a b, left.canonical, (left.union right).canonical,
    (left.intersection right).canonical, (left.subtraction right).canonical⟩

/-- Two numbers, one of them added twice, under a wider type, and a number left by a difference. -/
theorem algebra_exact_numbers :
    let one := Item.atom (.int64 1)
    let two := Item.atom (.int64 2)
    let a := (ofList [one, two, one] (.kind .int64)).withType .any
    let b := ((singleton two (.kind .int64)).union (empty .any)).subtraction (singleton one .any)
    ((a.intersection b).contains two = true ↔ a.contains two = true ∧ b.contains two = true) ∧
      (a.union b).size + (a.intersection b).size = a.size + b.size ∧ a.Canonical := by
  intro one two a b
  have left : a.Built := .withType _ (.ofList _ _)
  have right : b.Built := .subtraction (.union (.singleton _ _) (.empty _)) (.singleton _ _)
  obtain ⟨-, both, -, -, sizes, -, canonical, -⟩ := algebra_exact left right two
  exact ⟨both, sizes, canonical⟩

end Store

end GraphQuery
