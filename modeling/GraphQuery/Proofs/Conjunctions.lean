import GraphQuery.Proofs.FilterEquality
/-!
# Conjunctions of filters

A conjunction tries its filters on an item in order, up to the first that rejects it. One of filters
that make no selection keeps what all of them keep, one after the other. Its verdict on a content
depends on theirs only, so filters that keep their sets one behind the other may be replaced by their
conjunction, and a filter by another that equals it.
-/

namespace GraphQuery

namespace Filter

variable {f g : Filter} {fs : List Filter} {x : Item} {t : ItemType}

section

variable {m : Type → Type} [Monad m] [MonadExceptOf Error m] [LawfulMonad m]
  (select : Selection → Item → m ItemSet)

theorem acceptEvery_append (fs gs : List Filter) (x : Item) : acceptEvery select (fs ++ gs) x =
    acceptEvery select fs x >>= fun accepted =>
      if accepted then acceptEvery select gs x else pure false := by
  induction fs with
  | nil => rw [List.nil_append, acceptEvery, pure_bind, if_pos rfl]
  | cons f fs ih =>
    rw [List.cons_append, acceptEvery, acceptEvery, bind_assoc]
    refine bind_congr fun accepted => ?_
    cases accepted with
    | true => exact ih
    | false => simp only [Bool.false_eq_true, if_false, pure_bind]

theorem acceptEvery_singleton (f : Filter) (x : Item) :
    acceptEvery select [f] x = f.accept select x := by
  rw [acceptEvery]
  refine (bind_congr fun accepted => ?_).trans (bind_pure _)
  cases accepted <;> rfl

/-- A filter is its members, tried in order. -/
theorem acceptEvery_members (f : Filter) (x : Item) :
    acceptEvery select f.members x = f.accept select x := by
  cases f with
  | every inner t => rfl
  | _ => exact acceptEvery_singleton select _ x

/-- The conjunction of some filters is these filters, tried in order. -/
theorem accept_conjunction (fs : List Filter) (t : ItemType) (x : Item) :
    (conjunction fs t).accept select x = acceptEvery select fs x := by
  change acceptEvery select (fs.flatMap members) x = _
  induction fs with
  | nil => rfl
  | cons f fs ih => rw [List.flatMap_cons, acceptEvery_append, acceptEvery_members, ih, acceptEvery]

end

/-- The verdict of some filters, tried in order up to the first that rejects. -/
def verdicts (fs : List Filter) (x : Item) : Except Error Bool :=
  acceptEvery (fun _ _ => pure (.empty .any)) fs x

theorem verdict_every (fs : List Filter) (t : ItemType) (x : Item) :
    (every fs t).verdict x = verdicts fs x := rfl

theorem verdicts_nil (x : Item) : verdicts [] x = .ok true := rfl

theorem verdicts_cons (f : Filter) (fs : List Filter) (x : Item) : verdicts (f :: fs) x =
    f.verdict x >>= fun accepted => if accepted then verdicts fs x else pure false := rfl

theorem verdicts_cons_eq_ok {b : Bool} : verdicts (f :: fs) x = .ok b ↔
    f.verdict x = .ok true ∧ verdicts fs x = .ok b ∨ f.verdict x = .ok false ∧ b = false := by
  rw [verdicts_cons]
  rcases f.verdict x with e | accepted
  · simp [bind, Except.bind]
  · cases accepted <;> simp [bind, Except.bind, pure, Except.pure, eq_comm]

theorem verdicts_singleton (f : Filter) (x : Item) : verdicts [f] x = f.verdict x :=
  acceptEvery_singleton _ f x

theorem verdict_conjunction (fs : List Filter) (t : ItemType) (x : Item) :
    (conjunction fs t).verdict x = verdicts fs x :=
  accept_conjunction _ fs t x

theorem verdicts_eq_true : verdicts fs x = .ok true ↔ ∀ f ∈ fs, f.verdict x = .ok true := by
  induction fs with
  | nil => simp [verdicts_nil]
  | cons f fs ih => simp [verdicts_cons_eq_ok, ih]

theorem exists_of_verdicts_eq_false (rejected : verdicts fs x = .ok false) :
    ∃ f ∈ fs, f.verdict x = .ok false := by
  induction fs with
  | nil => cases rejected
  | cons f fs ih =>
    rcases verdicts_cons_eq_ok.mp rejected with ⟨-, later⟩ | ⟨here, -⟩
    · obtain ⟨g, member, rejects⟩ := ih later
      exact ⟨g, List.mem_cons_of_mem f member, rejects⟩
    · exact ⟨f, List.mem_cons_self, here⟩

theorem allMergeable_iff : allMergeable fs = true ↔ ∀ f ∈ fs, f.isMergeable = true := by
  induction fs with
  | nil => simp [allMergeable]
  | cons f fs ih => rw [allMergeable, Bool.and_eq_true, ih, List.forall_mem_cons]

theorem isMergeable_conjunction (mergeable : ∀ f ∈ fs, f.isMergeable = true) (t : ItemType) :
    (conjunction fs t).isMergeable = true := by
  change allMergeable (fs.flatMap members) = true
  rw [allMergeable_iff]
  intro g member
  obtain ⟨f, listed, member⟩ := List.mem_flatMap.mp member
  have mergeable := mergeable f listed
  cases f with
  | every inner t => exact allMergeable_iff.mp mergeable g member
  | _ => exact List.mem_singleton.mp member ▸ mergeable

theorem isMergeable_of_same (equal : f.same g = true) (mergeable : f.isMergeable = true) :
    g.isMergeable = true := by
  induction f generalizing g with
  | test | anything | equals => cases g <;> first | rfl | cases equal
  | every fs t ih =>
    cases g with
    | every gs u =>
      refine allMergeable_iff.mpr fun g member => ?_
      obtain ⟨f, listed, equal⟩ := (exists_same_of_mem equal).2 g member
      exact ih f listed equal (allMergeable_iff.mp mergeable f listed)
    | _ => cases equal
  | counting => cases mergeable
  | onSlot types i inner ih =>
    cases g with
    | onSlot types' j inner' =>
      rw [same, Bool.and_eq_true] at equal
      change inner'.isMergeable = true
      exact ih equal.2 mergeable
    | _ => cases equal

theorem selections_eq_nil (mergeable : f.isMergeable = true) : f.selections = [] := by
  induction f with
  | test | anything | equals => rfl
  | every members t ih =>
    rw [selections, allSelections_eq, List.flatMap_eq_nil_iff]
    exact fun f member => ih f member (allMergeable_iff.mp mergeable f member)
  | counting => cases mergeable
  | onSlot types i inner ih => exact ih mergeable

/-- A conjunction makes the selections of its filters. -/
theorem selections_conjunction (fs : List Filter) (t : ItemType) :
    (conjunction fs t).selections = allSelections fs := by
  have one (f : Filter) : f.members.flatMap selections = f.selections := by
    cases f with
    | every inner t => exact (allSelections_eq inner).symm
    | _ => exact List.flatMap_singleton selections _
  change allSelections (fs.flatMap members) = _
  rw [allSelections_eq, allSelections_eq, List.flatMap_assoc]
  exact congrArg (List.flatMap · fs) (funext one)

theorem agrees_conjunction (agree : ∀ f ∈ fs, f.Agrees) (t : ItemType) :
    (conjunction fs t).Agrees := by
  intro x y same
  rw [verdict_conjunction, verdict_conjunction]
  induction fs with
  | nil => rfl
  | cons f fs ih =>
    obtain ⟨here, later⟩ := List.forall_mem_cons.mp agree
    have first := here x y same
    rw [verdicts_cons, verdicts_cons]
    rcases left : f.verdict x with d | accepted
    · rcases right : f.verdict y with e | accepted'
      · rfl
      · simp [left, right, Except.toOption] at first
    · rw [here.eq_ok same left]
      cases accepted with
      | true => exact ih later
      | false => rfl

/-! Predicates -/

mutual

/-- The predicates that a filter tries itself. -/
def predicates : Filter → List Predicate
  | .test p => [p]
  | .anything _ | .equals .. | .counting .. => []
  | .every members _ => allPredicates members
  | .onSlot _ _ inner => inner.predicates

/-- The predicates that the filters of a list try. -/
def allPredicates : List Filter → List Predicate
  | [] => []
  | f :: fs => f.predicates ++ allPredicates fs

end

theorem mem_allPredicates {p : Predicate} :
    p ∈ allPredicates fs ↔ ∃ f ∈ fs, p ∈ f.predicates := by
  induction fs with
  | nil => simp [allPredicates]
  | cons f fs ih => simp [allPredicates, ih]

theorem mem_predicates_every {p : Predicate} :
    p ∈ (every fs t).predicates ↔ ∃ f ∈ fs, p ∈ f.predicates :=
  mem_allPredicates

theorem mem_predicates_conjunction {p : Predicate} :
    p ∈ (conjunction fs t).predicates ↔ ∃ f ∈ fs, p ∈ f.predicates := by
  have members (f : Filter) : (∃ g ∈ f.members, p ∈ g.predicates) ↔ p ∈ f.predicates := by
    cases f with
    | every inner t => exact mem_predicates_every.symm
    | _ => simp [Filter.members]
  rw [conjunction, mem_predicates_every]
  constructor
  · rintro ⟨g, member, tried⟩
    obtain ⟨f, listed, member⟩ := List.mem_flatMap.mp member
    exact ⟨f, listed, (members f).mp ⟨g, member, tried⟩⟩
  · rintro ⟨f, listed, tried⟩
    obtain ⟨g, member, tried⟩ := (members f).mpr tried
    exact ⟨g, List.mem_flatMap.mpr ⟨f, listed, member⟩, tried⟩

/-- Among some predicates, a number stands for one test only. -/
def Identified (tried : Set Predicate) : Prop :=
  ∀ p ∈ tried, ∀ r ∈ tried, p.id = r.id → p.test = r.test

/-- Conjunctions do not give opposite verdicts if every member of either has a partner in the other
and partners do not. -/
theorem verdicts_eq_of_partners {gs : List Filter} (left : ∀ f ∈ fs, ∃ g ∈ gs, f.same g = true)
    (right : ∀ g ∈ gs, ∃ f ∈ fs, f.same g = true)
    (agree : ∀ f ∈ fs, ∀ g ∈ gs, f.same g = true → ∀ b c, f.verdict x = .ok b →
      g.verdict x = .ok c → b = c) {b c : Bool}
    (verdict : verdicts fs x = .ok b) (verdict' : verdicts gs x = .ok c) : b = c := by
  cases b with
  | true =>
    cases c with
    | true => rfl
    | false =>
      obtain ⟨g, member', rejects⟩ := exists_of_verdicts_eq_false verdict'
      obtain ⟨f, member, equal⟩ := right g member'
      exact agree f member g member' equal _ _ (verdicts_eq_true.mp verdict f member) rejects
  | false =>
    cases c with
    | false => rfl
    | true =>
      obtain ⟨f, member, rejects⟩ := exists_of_verdicts_eq_false verdict
      obtain ⟨g, member', equal⟩ := left f member
      exact agree f member g member' equal _ _ rejects (verdicts_eq_true.mp verdict' g member')

/-- Equal filters do not give opposite verdicts. -/
theorem verdict_eq_of_same {tried : Set Predicate} (identified : Identified tried)
    (mergeable : f.isMergeable = true) (equal : f.same g = true) (left : ∀ p ∈ f.predicates, p ∈ tried)
    (right : ∀ p ∈ g.predicates, p ∈ tried) {b c : Bool} (verdict : f.verdict x = .ok b)
    (verdict' : g.verdict x = .ok c) : b = c := by
  induction f generalizing g x b c with
  | test p =>
    cases g with
    | test r =>
      have tests := identified p (left p (List.mem_singleton_self p)) r
        (right r (List.mem_singleton_self r)) (beq_iff_eq.mp equal)
      change ofOutcome (p.test x) = _ at verdict
      change ofOutcome (r.test x) = _ at verdict'
      rw [tests, verdict'] at verdict
      exact (Except.ok.inj verdict).symm
    | _ => cases equal
  | anything t =>
    cases g with
    | anything => exact (Except.ok.inj verdict).symm.trans (Except.ok.inj verdict')
    | _ => cases equal
  | equals y t =>
    cases g with
    | equals z u =>
      rw [same, Bool.and_eq_true] at equal
      rw [← Except.ok.inj verdict, ← Except.ok.inj verdict', Bool.eq_iff_iff]
      exact ⟨fun here => BEq.trans here equal.1, fun here => BEq.trans here (BEq.symm equal.1)⟩
    | _ => cases equal
  | every fs t ih =>
    cases g with
    | every gs u =>
      obtain ⟨partner, partner'⟩ := exists_same_of_mem equal
      refine verdicts_eq_of_partners partner partner' (fun f listed g listed' equal _ _ => ?_) verdict
        verdict'
      exact ih f listed (allMergeable_iff.mp mergeable f listed) equal
        (fun p tries => left p (mem_predicates_every.mpr ⟨f, listed, tries⟩))
        (fun p tries => right p (mem_predicates_every.mpr ⟨g, listed', tries⟩))
    | _ => cases equal
  | counting => cases mergeable
  | onSlot types i inner ih =>
    cases g with
    | onSlot types' j inner' =>
      simp only [same, Bool.and_eq_true, beq_iff_eq] at equal
      obtain ⟨⟨rfl, index⟩, inside⟩ := equal
      obtain rfl := Fin.ext index
      unfold Filter.verdict at verdict verdict'
      rw [accept] at verdict verdict'
      cases fits : x.fitting? types with
      | none =>
        rw [fits] at verdict
        cases verdict
      | some tuple =>
        rw [fits] at verdict verdict'
        exact ih mergeable inside left right verdict verdict'
    | _ => cases equal

end Filter

end GraphQuery
