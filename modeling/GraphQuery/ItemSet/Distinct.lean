import GraphQuery.Item
import Std.Data.HashSet.Lemmas
/-!
# Lists of distinct items

Removing repeated items from a list, and keeping the items of one list that are, or are not, in
another. Long lists go through a hash index; the theorems `firsts_eq_firstsOf` and
`restrict_eq_filter` say that the index never changes an answer.
-/

namespace GraphQuery.ItemSet

/-- The items of a list, each at its first occurrence. -/
def firstsOf : List Item → List Item
  | [] => []
  | x :: xs => x :: (firstsOf xs).filter fun y => !(x == y)

/-- The items of a list that have passed, given one verdict for each. -/
def passed : List Item → List Bool → List Item
  | x :: xs, v :: vs => if v then x :: passed xs vs else passed xs vs
  | [], _ | _ :: _, [] => []

/-- The items of a list that an index of earlier ones does not hold yet, each at its first
occurrence. -/
def firstsBeyond (seen : Std.HashSet Item) : List Item → List Item
  | [] => []
  | x :: xs =>
    if seen.contains x then firstsBeyond seen xs else x :: firstsBeyond (seen.insert x) xs

/-- The length from which on lists are indexed. -/
def indexedFrom : Nat := 16

/-- The items of a list, each at its first occurrence. -/
def firsts (xs : List Item) : List Item :=
  if xs.length < indexedFrom then firstsOf xs else firstsBeyond ∅ xs

/-- The items of `xs` whose being in `ys` is as wanted. -/
def restrict (wanted : Bool) (xs ys : List Item) : List Item :=
  if xs.length < indexedFrom ∨ ys.length < indexedFrom then
    xs.filter fun x => ys.contains x == wanted
  else
    let index := Std.HashSet.ofList ys
    xs.filter fun x => index.contains x == wanted

theorem firstsBeyond_eq (seen : Std.HashSet Item) (xs : List Item) :
    firstsBeyond seen xs = (firstsOf xs).filter fun x => !seen.contains x := by
  induction xs generalizing seen with
  | nil => rfl
  | cons x xs ih =>
    unfold firstsBeyond firstsOf
    cases known : seen.contains x
    · simp only [Bool.false_eq_true, if_false, List.filter_cons, known, Bool.not_false, if_true,
        ih, List.filter_filter, Std.HashSet.contains_insert, Bool.not_or]
      simp only [Bool.and_comm]
    · simp only [if_true, ih, List.filter_cons, known, Bool.not_true, Bool.false_eq_true, if_false,
        List.filter_filter]
      congr 1
      funext y
      cases equal : x == y
      · simp
      · simp [← Std.HashSet.contains_congr equal, known]

/-- The index does not change which items are kept. -/
theorem firsts_eq_firstsOf (xs : List Item) : firsts xs = firstsOf xs := by
  unfold firsts
  split
  · rfl
  · rw [firstsBeyond_eq]
    simp

/-- The index does not change which items are kept. -/
theorem restrict_eq_filter (wanted : Bool) (xs ys : List Item) :
    restrict wanted xs ys = xs.filter fun x => ys.contains x == wanted := by
  unfold restrict
  split
  · rfl
  · simp

theorem passed_sublist (xs : List Item) (vs : List Bool) : (passed xs vs).Sublist xs := by
  induction xs generalizing vs with
  | nil => exact List.Sublist.refl _
  | cons x xs ih =>
    cases vs with
    | nil => exact List.nil_sublist _
    | cons v vs =>
      cases v
      · exact (ih vs).cons x
      · exact (ih vs).cons_cons x

theorem restrict_sublist (wanted : Bool) (xs ys : List Item) :
    (restrict wanted xs ys).Sublist xs := by
  rw [restrict_eq_filter]
  exact List.filter_sublist

/-- No two kept items are equal. -/
theorem pairwise_firsts (xs : List Item) :
    (firsts xs).Pairwise fun a b => (a == b) = false := by
  rw [firsts_eq_firstsOf]
  induction xs with
  | nil => exact .nil
  | cons x xs ih =>
    refine .cons (fun y member => ?_) (ih.filter _)
    simpa using (List.mem_filter.1 member).2

/-- Of items that are different already, each is kept. -/
theorem firsts_eq_self {xs : List Item} (distinct : xs.Pairwise fun a b => (a == b) = false) :
    firsts xs = xs := by
  rw [firsts_eq_firstsOf]
  induction distinct with
  | nil => rfl
  | @cons x xs others _ ih =>
    rw [firstsOf, ih]
    refine congrArg (x :: ·) (List.filter_eq_self.mpr fun y member => ?_)
    rw [others y member]
    rfl

theorem pairwise_reverse_firsts (xs : List Item) :
    (firsts xs).reverse.Pairwise fun a b => (a == b) = false :=
  List.pairwise_reverse.2 ((pairwise_firsts xs).imp fun differ => by rwa [BEq.comm])

theorem firsts_sublist (xs : List Item) : (firsts xs).Sublist xs := by
  rw [firsts_eq_firstsOf]
  induction xs with
  | nil => exact .slnil
  | cons x xs ih => exact (List.filter_sublist.trans ih).cons_cons x

/-- Every item of the list equals one that is kept. -/
@[simp]
theorem contains_firsts (xs : List Item) (y : Item) : (firsts xs).contains y = xs.contains y := by
  rw [firsts_eq_firstsOf]
  induction xs with
  | nil => rfl
  | cons x xs ih =>
    simp only [firstsOf, List.contains_cons, ← ih]
    cases equal : y == x
    · simp only [Bool.false_or]
      rw [Bool.eq_iff_iff]
      simp only [List.contains_iff_exists_mem_beq, List.mem_filter, Bool.not_eq_true']
      constructor
      · exact fun ⟨z, ⟨member, _⟩, same⟩ => ⟨z, member, same⟩
      · refine fun ⟨z, member, same⟩ => ⟨z, ⟨member, ?_⟩, same⟩
        rw [Bool.eq_false_iff]
        intro h
        have : (y == x) = true := BEq.trans same (BEq.symm h)
        simp [equal] at this
    · rfl

end GraphQuery.ItemSet
