import GraphQuery.Operation.Apply
/-!
# The general way to apply a filter or a follow

Sets without items, sets of one item and filters that everything passes have ways of their own through
filters and follows, and a filter applied as a follow has another. All of them come to what the general
way comes to, which looks at one item after the other and puts the results together. Later proofs know
of the general way only.
-/

namespace GraphQuery

variable {m : Type → Type} [Monad m] [LawfulMonad m]

namespace ItemSet

/-- Of a single item that passes, or of none, the general way makes the same set. -/
theorem filterM_eq (s : ItemSet) (test : Item → m Bool) :
    s.filterM test = do return s.sift (← s.items.mapM test) := by
  obtain ⟨⟨t, held⟩, normal⟩ := s
  cases held with
  | none =>
    change _ = (List.mapM test [] >>= _)
    rw [List.mapM_nil, pure_bind]
    rfl
  | one x =>
    change (do return if ← test x then _ else _) = ([x].mapM test >>= _)
    rw [List.mapM_cons, List.mapM_nil, bind_assoc]
    refine congrArg (test x >>= ·) (funext fun passed => ?_)
    rw [pure_bind, pure_bind]
    cases passed <;> rfl
  | many => rfl

/-- A set from which nothing is left out stays as it is. -/
theorem sift_of_all (s : ItemSet) {verdicts : List Bool} (all : passed s.items verdicts = s.items) :
    s.sift verdicts = s :=
  eq_of_items ((s.items_sift verdicts).trans all) (s.itemType_sift verdicts)

theorem passed_replicate (xs : List Item) : passed xs (xs.map fun _ => true) = xs := by
  induction xs with
  | nil => rfl
  | cons x xs ih => exact congrArg (x :: ·) ih

/-- What passes of a set is put together from what passes of each item. -/
theorem collect_passed (s : ItemSet) (verdicts : List Bool) :
    collect (passed s.items verdicts) s.itemType = s.sift verdicts := by
  have distinct := s.distinct.sublist (passed_sublist s.items verdicts)
  exact eq_of_items ((items_collect_of_distinct distinct _).trans (s.items_sift verdicts).symm)
    (s.itemType_sift verdicts).symm

theorem flatMap_items_zipWith (t : ItemType) (xs : List Item) (verdicts : List Bool) :
    (xs.zipWith (fun x v => if v then ItemSet.singleton x t else .empty t) verdicts).flatMap items =
      passed xs verdicts := by
  induction xs generalizing verdicts with
  | nil => rfl
  | cons x xs ih =>
    cases verdicts with
    | nil => rfl
    | cons v verdicts =>
      rw [List.zipWith_cons_cons, List.flatMap_cons, ih, passed]
      cases v <;> rfl

end ItemSet

theorem mapM_bind_pure {α β γ : Type} (p : α → m β) (g : α → β → γ) (xs : List α) :
    (xs.mapM fun x => do return g x (← p x)) = do return xs.zipWith g (← xs.mapM p) := by
  induction xs with
  | nil => simp
  | cons x xs ih => simp only [List.mapM_cons, bind_assoc, pure_bind, ih, List.zipWith_cons_cons]

variable [MonadExceptOf Error m] (select : Selection → Item → m ItemSet)

/-- A filter that everything passes leaves the set that looking at each item leaves. -/
theorem Filter.apply_eq (f : Filter) (items : ItemSet) :
    f.apply select items = do return items.sift (← items.items.mapM (f.accept select)) := by
  unfold Filter.apply
  split
  · next t =>
    have all : items.items.mapM (accept select (.anything t)) =
        pure (items.items.map fun _ => true) := by
      rw [funext fun x => accept.eq_def select (.anything t) x]
      exact List.mapM_pure
    rw [all, pure_bind, items.sift_of_all (ItemSet.passed_replicate _)]
  · exact items.filterM_eq _

namespace Follow

/-- The declared type of what a follow makes of a set. A filter keeps that of the set. -/
def handsOn : Follow → ItemType → ItemType
  | .filter _, t => t
  | f, _ => f.outputType

theorem handsOn_of_not_filter {f : Follow} (general : ∀ g, f ≠ .filter g) (t : ItemType) :
    f.handsOn t = f.outputType := by
  unfold handsOn
  split
  · exact absurd rfl (general _)
  · rfl

theorem handsOn_eq (f : Follow) (t : ItemType) : f.handsOn t = t ∨ f.handsOn t = f.outputType := by
  unfold handsOn
  split
  · exact .inl rfl
  · exact .inr rfl

/-- To pass over results without items makes no difference to what is reached. -/
theorem foldlM_addReached (f : Follow) (xs : List Item) (reached : Array Item) :
    xs.foldlM (f.addReached select) reached = do
      let results ← xs.mapM (f.follow select)
      return reached ++ results.flatMap ItemSet.items := by
  induction xs generalizing reached with
  | nil => simp
  | cons x xs ih =>
    rw [List.foldlM_cons, List.mapM_cons, addReached]
    simp only [bind_assoc, pure_bind, ih, List.flatMap_cons]
    refine congrArg (f.follow select x >>= ·) (funext fun result => ?_)
    refine congrArg (xs.mapM (f.follow select) >>= ·) (funext fun results => congrArg pure ?_)
    split
    · next empty =>
      rw [ItemSet.isEmpty_eq, List.isEmpty_iff] at empty
      rw [empty, List.nil_append]
    · exact Array.toList_inj.mp (by simp)

/-- The result for a single item, declared as it should be, is what is reached from it. -/
theorem retyped_eq (result : ItemSet) (t : ItemType) :
    (if result.itemType = t then result else result.withType t) = .collect result.items t := by
  rw [ItemSet.collect_items]
  split
  · next same => exact same ▸ rfl
  · rfl

/-- A follow leads from a set to what it leads to from each item, on its own and put together. -/
theorem apply_eq (f : Follow) (items : ItemSet) :
    f.apply select items = do
      let results ← items.items.mapM (f.follow select)
      return .collect (results.flatMap ItemSet.items) (f.handsOn items.itemType) := by
  unfold Follow.apply
  split
  · next g =>
    have each : (Follow.filter g).follow select = fun x => do
        return if ← g.accept select x then .singleton x g.itemType else .empty g.itemType := by
      funext x
      rw [Follow.follow, Filter.follow]
    rw [each, mapM_bind_pure, bind_assoc, g.apply_eq]
    refine congrArg (items.items.mapM (g.accept select) >>= ·) (funext fun verdicts => ?_)
    rw [pure_bind, ItemSet.flatMap_items_zipWith]
    exact congrArg pure (items.collect_passed verdicts).symm
  · next general =>
    rw [handsOn_of_not_filter general]
    split
    · next x only =>
      have single : items.items = [x] := Store.items_of_only? only
      rw [single, List.mapM_cons, List.mapM_nil, bind_assoc]
      refine congrArg (f.follow select x >>= ·) (funext fun result => ?_)
      rw [retyped_eq, pure_bind, pure_bind, List.flatMap_cons, List.flatMap_nil, List.append_nil]
    · rw [foldlM_addReached, bind_assoc]
      refine congrArg (items.items.mapM (f.follow select) >>= ·) (funext fun results => ?_)
      rw [pure_bind]
      simp

end Follow

end GraphQuery
