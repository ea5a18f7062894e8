import GraphQuery.Proofs.ItemSetLaws
import Mathlib.Order.Bounds.Basic
/-!
# The order of unions

Sets that are united one after another can be united in any order, and some of them first, without
equality seeing it: what it sees of the result is the least upper bound of what it sees of the sets, in
the semilattice of essences. An intersection does not depend on the order of its operands either,
although its items are the copies of one operand and its declared type may be that of the other.
-/

namespace GraphQuery

namespace ItemSet

/-- The union of some sets, from the first on. -/
def unite : List ItemSet → ItemSet
  | [] => .empty .any
  | first :: rest => rest.foldl union first

/-- A way to unite sets: each union has two parts, which are single sets or unions themselves. -/
inductive Grouping where
  | set (s : ItemSet)
  | join (left right : Grouping)

/-- What unions keep holds of the union of sets of which it holds. -/
theorem unite_induction {P : ItemSet → Prop} {ss : List ItemSet} (none : ss = [] → P (.empty .any))
    (union : ∀ s t, P s → P t → P (s.union t)) (each : ∀ s ∈ ss, P s) : P (unite ss) := by
  cases ss with
  | nil => exact none rfl
  | cons first rest =>
    obtain ⟨holds, later⟩ := List.forall_mem_cons.mp each
    clear each none
    change P (rest.foldl ItemSet.union first)
    induction rest generalizing first with
    | nil => exact holds
    | cons s rest ih =>
      obtain ⟨here, later⟩ := List.forall_mem_cons.mp later
      exact ih (first.union s) (union first s holds here) later

theorem mem_unite {ss : List ItemSet} {x : Item} : x ∈ unite ss ↔ ∃ s ∈ ss, x ∈ s := by
  have further (first : ItemSet) (rest : List ItemSet) :
      x ∈ rest.foldl union first ↔ ∃ s ∈ first :: rest, x ∈ s := by
    induction rest generalizing first with
    | nil => simp
    | cons s rest ih => simp [ih, mem_union, or_assoc]
  cases ss with
  | nil => simp [unite]
  | cons first rest => exact further first rest

namespace Grouping

/-- The sets that are united, from left to right. -/
def sets : Grouping → List ItemSet
  | set s => [s]
  | join left right => left.sets ++ right.sets

/-- What comes of all the unions. -/
def result : Grouping → ItemSet
  | set s => s
  | join left right => left.result.union right.result

/-- To equality, the result is the least that is above all the sets. -/
theorem isLUB_result (g : Grouping) : IsLUB {e | e ∈ g.sets.map essence} g.result.essence := by
  induction g with
  | set s =>
    simp only [sets, List.map_singleton, List.mem_singleton]
    exact isLUB_singleton
  | join left right ih ih' =>
    rw [result, essence_union]
    simp only [sets, List.map_append, List.mem_append]
    exact ih.union ih'

/-- Uniting further sets one after another is a grouping of all of them. -/
theorem exists_foldl (g : Grouping) (ss : List ItemSet) :
    ∃ g' : Grouping, g'.sets = g.sets ++ ss ∧ g'.result = ss.foldl union g.result := by
  induction ss generalizing g with
  | nil => exact ⟨g, (List.append_nil _).symm, rfl⟩
  | cons t ss ih =>
    obtain ⟨g', sets', result'⟩ := ih (join g (set t))
    refine ⟨g', ?_, result'⟩
    rw [sets', sets, sets, List.append_assoc, List.singleton_append]

end Grouping

/-- The union of some sets from the first on, if there are any, is the least above them as well. -/
theorem isLUB_unite {ss : List ItemSet} (filled : ss ≠ []) :
    IsLUB {e | e ∈ ss.map essence} (unite ss).essence := by
  cases ss with
  | nil => exact absurd rfl filled
  | cons s ss =>
    obtain ⟨line, sets, result⟩ := (Grouping.set s).exists_foldl ss
    have bound := line.isLUB_result
    rwa [sets, result] at bound

/-- A grouping gives what uniting its sets one after another gives. -/
theorem Grouping.essence_result (g : Grouping) : g.result.essence = (unite g.sets).essence := by
  have filled : g.sets ≠ [] := by
    induction g with
    | set s => exact List.cons_ne_nil s []
    | join left right ih _ => exact List.append_ne_nil_of_left_ne_nil ih _
  exact g.isLUB_result.unique (isLUB_unite filled)

/-- What uniting gives depends on which sets there are, up to equality, and on nothing else: not on
their order, and not on how often each is named. -/
theorem essence_unite_of_mem_iff {us vs : List ItemSet}
    (same : ∀ e, e ∈ us.map essence ↔ e ∈ vs.map essence) :
    (unite us).essence = (unite vs).essence := by
  cases us with
  | nil =>
    have none : vs.map essence = [] :=
      List.eq_nil_iff_forall_not_mem.mpr fun e member => nomatch (same e).mpr member
    rw [List.map_eq_nil_iff.mp none]
  | cons u us =>
    have bound := isLUB_unite (List.cons_ne_nil u us)
    simp only [same] at bound
    refine bound.unique (isLUB_unite fun none => ?_)
    exact absurd ((same u.essence).mp List.mem_cons_self) (none ▸ List.not_mem_nil)

theorem essence_unite {us vs : List ItemSet}
    (all : List.Forall₂ (fun u v : ItemSet => u.essence = v.essence) us vs) :
    (unite us).essence = (unite vs).essence := by
  have maps : us.map essence = vs.map essence := by
    rwa [← List.forall₂_eq_eq_eq, List.forall₂_map_left_iff, List.forall₂_map_right_iff]
  exact essence_unite_of_mem_iff fun e => by rw [maps]

theorem union_comm (a b : ItemSet) : (a.union b == b.union a) = true := by
  rw [← essence_eq_iff, essence_union, essence_union, sup_comm]

theorem union_assoc (a b c : ItemSet) :
    (a.union (b.union c) == (a.union b).union c) = true := by
  rw [← essence_eq_iff, essence_union, essence_union, essence_union, essence_union, sup_assoc]

theorem union_self (a : ItemSet) : (a.union a == a) = true := by
  rw [← essence_eq_iff, essence_union, sup_idem]

theorem intersection_comm (a b : ItemSet) : (a.intersection b == b.intersection a) = true := by
  refine essence_eq_iff.mp (congrArg₂ Essence.mk ?_ ?_)
  · rw [itemType_intersection, itemType_intersection, ItemType.meet_comm]
    cases a.isEmpty <;> cases b.isEmpty <;> rfl
  · ext c
    simp only [List.mem_toFinset, mem_contents_intersection, and_comm]

/-- The order of unions never matters: not that of two sets, nor which of three are united first, nor,
for sets that are united one after another, their order or any grouping of them. The declared type is
the same as well. Nor does the order of the two sets of an intersection matter. -/
theorem union_order_free (a b c : ItemSet) (ss : List ItemSet) :
    (a.union b == b.union a) = true ∧
    (a.union (b.union c) == (a.union b).union c) = true ∧
    (a.union a == a) = true ∧
    (a.intersection b == b.intersection a) = true ∧
    (∀ ss' : List ItemSet, ss'.Perm ss →
      (unite ss' == unite ss) = true ∧ (unite ss').itemType = (unite ss).itemType) ∧
    ∀ g : Grouping, g.sets.Perm ss →
      (g.result == unite ss) = true ∧ g.result.itemType = (unite ss).itemType := by
  have both {u v : ItemSet} (same : u.essence = v.essence) :
      (u == v) = true ∧ u.itemType = v.itemType :=
    ⟨essence_eq_iff.mp same, congrArg Essence.itemType same⟩
  refine ⟨union_comm a b, union_assoc a b c, union_self a, intersection_comm a b,
    fun ss' order => both ?_, fun g order => both ?_⟩
  · exact essence_unite_of_mem_iff fun e => (order.map essence).mem_iff
  · rw [g.essence_result]
    exact essence_unite_of_mem_iff fun e => (order.map essence).mem_iff

/-- A pair is united with a number and no texts, which are united first, or comes last. -/
theorem union_order_free_three :
    let one := singleton (.atom (.int64 1)) (.kind .int64)
    let none := empty (.kind .text)
    let pair := singleton (.tuple ⟨[⟨.atom (.int64 1), .any⟩, ⟨.atom .unit, .any⟩], false⟩)
      (.tuple [.any, .any])
    (unite [pair, one, none] == unite [one, none, pair]) = true ∧
      ((pair.union (one.union none)) == (one.union none).union pair) = true := by
  intro one none pair
  have order : ([pair] ++ [one, none]).Perm ([one, none] ++ [pair]) := List.perm_append_comm
  obtain ⟨-, -, -, -, orders, groupings⟩ := union_order_free one none pair [one, none, pair]
  exact ⟨(orders _ order).1, (groupings (.join (.set pair) (.join (.set one) (.set none))) order).1⟩

end ItemSet

end GraphQuery
