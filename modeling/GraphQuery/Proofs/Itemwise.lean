import GraphQuery.Proofs.Outcomes
import GraphQuery.Proofs.Purity
/-!
# Operations item by item

Filters and follows treat the items of a set one by one: what they make of a set holds the items that
they lead to from each of its items, and where they come to no set at all, that is for one item.
Counting takes all items together and is the only operation that does not.

The outcomes of a sequence of inquiries come from the outcomes of its parts. One inquiry entails
another if, whenever the first comes to a value, the second comes to related values and to nothing
else; entailment too is put together from parts.
-/

namespace GraphQuery

namespace Inquiry

variable {α β γ δ : Type}

/-- A failure, or going on without end, is the outcome of whatever would have used the value. -/
inductive PassedOn : Option (Except Error α) → Option (Except Error β) → Prop where
  | error (e : Error) : PassedOn (some (.error e)) (some (.error e))
  | endless : PassedOn none none

theorem not_passedOn_ok {o : Option (Except Error α)} {b : β} : ¬ PassedOn o (some (.ok b)) :=
  nofun

theorem ok_not_passedOn {a : α} {o : Option (Except Error β)} : ¬ PassedOn (some (.ok a)) o :=
  nofun

theorem PassedOn.trans {o : Option (Except Error α)} {o' : Option (Except Error β)}
    {o'' : Option (Except Error γ)} (first : PassedOn o o') (second : PassedOn o' o'') :
    PassedOn o o'' := by
  cases first <;> cases second <;> constructor

theorem results_done {r : Except Error α} {o : Option (Except Error α)} :
    (done r).Results o ↔ o = some r := by
  constructor
  · rintro ⟨⟩
    rfl
  · rintro rfl
    exact .done r

theorem results_pure {a : α} {o : Option (Except Error α)} :
    (pure a : Inquiry α).Results o ↔ o = some (.ok a) :=
  results_done

theorem results_ofOutcome {r : Except Error α} {o : Option (Except Error α)} :
    (ofOutcome r : Inquiry α).Results o ↔ o = some r := by
  cases r <;> exact results_done

theorem results_bind {p : Inquiry α} {f : α → Inquiry β} {o : Option (Except Error β)} :
    (p >>= f).Results o ↔
      (∃ a, p.Results (some (.ok a)) ∧ (f a).Results o) ∨ ∃ o', p.Results o' ∧ PassedOn o' o := by
  induction p with
  | done outcome =>
    simp only [results_done]
    cases outcome with
    | ok a =>
      rw [bind_done_ok]
      constructor
      · exact fun rest => .inl ⟨a, rfl, rest⟩
      · rintro (⟨_, ⟨⟩, rest⟩ | ⟨_, rfl, passed⟩)
        · exact rest
        · exact (ok_not_passedOn passed).elim
    | error e =>
      rw [bind_done_error, results_done]
      constructor
      · rintro rfl
        exact .inr ⟨_, rfl, .error e⟩
      · rintro (⟨_, ⟨⟩, -⟩ | ⟨_, rfl, ⟨⟩⟩)
        rfl
  | ask s x next ih =>
    rw [bind_ask]
    constructor
    · intro results
      cases results with
      | found answer rest =>
        obtain ⟨a, first, second⟩ | ⟨o', first, passed⟩ := (ih _).mp rest
        · exact .inl ⟨a, .found answer first, second⟩
        · exact .inr ⟨o', .found answer first, passed⟩
      | failed answer => exact .inr ⟨_, .failed answer, .error _⟩
      | endless answer => exact .inr ⟨_, .endless answer, .endless⟩
    · rintro (⟨a, first, second⟩ | ⟨o', first, passed⟩)
      · cases first with
        | found answer first => exact .found answer ((ih _).mpr (.inl ⟨a, first, second⟩))
      · cases first with
        | found answer first => exact .found answer ((ih _).mpr (.inr ⟨o', first, passed⟩))
        | failed answer =>
          cases passed
          exact .failed answer
        | endless answer =>
          cases passed
          exact .endless answer

theorem results_bind_ok {p : Inquiry α} {f : α → Inquiry β} {b : β} :
    (p >>= f).Results (some (.ok b)) ↔
      ∃ a, p.Results (some (.ok a)) ∧ (f a).Results (some (.ok b)) := by
  rw [results_bind]
  exact or_iff_left fun ⟨_, _, contra⟩ => not_passedOn_ok contra

theorem results_bind_pure {p : Inquiry α} {g : α → β} {o : Option (Except Error α)}
    (results : p.Results o) : (p >>= fun a => pure (g a)).Results (o.map (Except.map g)) := by
  match o with
  | none => exact results_bind.mpr (.inr ⟨none, results, .endless⟩)
  | some (.error e) => exact results_bind.mpr (.inr ⟨_, results, .error e⟩)
  | some (.ok a) => exact results_bind.mpr (.inl ⟨a, results, results_pure.mpr rfl⟩)

theorem exists_of_results_bind_pure {p : Inquiry α} {g : α → β} {o : Option (Except Error β)}
    (results : (p >>= fun a => pure (g a)).Results o) :
    ∃ o', p.Results o' ∧ o = o'.map (Except.map g) := by
  obtain ⟨a, first, last⟩ | ⟨o', first, passed⟩ := results_bind.mp results
  · exact ⟨_, first, results_pure.mp last⟩
  · cases passed <;> exact ⟨_, first, rfl⟩

/-- What is done for each member of a list comes to a list of values, one for each, or else to what
it comes to for one of the members. -/
theorem results_mapM {f : α → Inquiry β} {as : List α} {o : Option (Except Error (List β))}
    (results : (as.mapM f).Results o) :
    (∃ bs, o = some (.ok bs) ∧ List.Forall₂ (fun a b => (f a).Results (some (.ok b))) as bs) ∨
      ∃ a ∈ as, ∃ o', (f a).Results o' ∧ PassedOn o' o := by
  induction as generalizing o with
  | nil =>
    rw [List.mapM_nil] at results
    exact .inl ⟨[], results_pure.mp results, .nil⟩
  | cons a as ih =>
    rw [List.mapM_cons] at results
    obtain ⟨b, first, rest⟩ | ⟨o', first, passed⟩ := results_bind.mp results
    · obtain ⟨bs, further, last⟩ | ⟨o', further, passed⟩ := results_bind.mp rest
      · obtain ⟨_, ⟨⟩, all⟩ | ⟨_, _, _, _, contra⟩ := ih further
        · exact .inl ⟨_, results_pure.mp last, .cons first all⟩
        · exact (not_passedOn_ok contra).elim
      · obtain ⟨bs, rfl, -⟩ | ⟨a', member, o'', failed, passed'⟩ := ih further
        · exact (ok_not_passedOn passed).elim
        · exact .inr ⟨a', List.mem_cons_of_mem a member, o'', failed, passed'.trans passed⟩
    · exact .inr ⟨a, List.mem_cons_self, o', first, passed⟩

theorem results_mapM_ok {f : α → Inquiry β} {as : List α} {bs : List β} :
    (as.mapM f).Results (some (.ok bs)) ↔
      List.Forall₂ (fun a b => (f a).Results (some (.ok b))) as bs := by
  induction as generalizing bs with
  | nil =>
    rw [List.mapM_nil, results_pure, List.forall₂_nil_left_iff]
    simp
  | cons a as ih =>
    simp only [List.mapM_cons, results_bind_ok, results_pure, ih, List.forall₂_cons_left_iff]
    simp

/-- Whenever the first inquiry comes to a value, the second comes to related values only. -/
def Entails (R : α → β → Prop) (p : Inquiry α) (p' : Inquiry β) : Prop :=
  ∀ ⦃a o⦄, p.Results (some (.ok a)) → p'.Results o → ∃ b, o = some (.ok b) ∧ R a b

namespace Entails

variable {R : α → β → Prop} {S : γ → δ → Prop}

theorem pure {a : α} {b : β} (related : R a b) :
    Entails R (pure a : Inquiry α) (pure b : Inquiry β) := by
  intro a' o results results'
  cases results_pure.mp results
  exact ⟨b, results_pure.mp results', related⟩

theorem ofOutcome {r : Except Error α} {r' : Except Error β}
    (related : ∀ a, r = .ok a → ∃ b, r' = .ok b ∧ R a b) :
    Entails R (ofOutcome r) (ofOutcome r') := by
  intro a o results results'
  obtain ⟨b, rfl, holds⟩ := related a (Option.some.inj (results_ofOutcome.mp results)).symm
  exact ⟨b, results_ofOutcome.mp results', holds⟩

theorem throw (e : Error) (p : Inquiry β) : Entails R (throw e : Inquiry α) p :=
  fun _ _ results _ => nomatch results_done.mp results

theorem bind {p : Inquiry α} {p' : Inquiry β} {f : α → Inquiry γ} {g : β → Inquiry δ}
    (first : Entails R p p') (second : ∀ a b, R a b → Entails S (f a) (g b)) :
    Entails S (p >>= f) (p' >>= g) := by
  intro c o results results'
  obtain ⟨a, passed, rest⟩ | ⟨_, _, contra⟩ := results_bind.mp results
  · obtain ⟨b, passed', rest'⟩ | ⟨o', other, passed'⟩ := results_bind.mp results'
    · obtain ⟨_, ⟨⟩, related⟩ := first passed passed'
      exact second a b related rest rest'
    · obtain ⟨b, rfl, -⟩ := first passed other
      exact (ok_not_passedOn passed').elim
  · exact (not_passedOn_ok contra).elim

/-- What is done for each member of one list entails what is done for each member of another, if for
every member of the second there is one of the first. -/
theorem mapM {f : α → Inquiry γ} {g : β → Inquiry δ} {as : List α} {bs : List β}
    (entails : ∀ b ∈ bs, ∃ a ∈ as, Entails S (f a) (g b)) :
    Entails (fun cs ds => ∀ d ∈ ds, ∃ c ∈ cs, S c d) (as.mapM f) (bs.mapM g) := by
  intro cs o results results'
  obtain ⟨_, ⟨⟩, all⟩ | ⟨_, _, _, _, contra⟩ := results_mapM results
  · obtain ⟨ds, rfl, all'⟩ | ⟨b, member, o', other, passed⟩ := results_mapM results'
    · refine ⟨ds, rfl, fun d member => ?_⟩
      obtain ⟨b, member, passed'⟩ := exists_of_mem_forall₂ all'.flip member
      obtain ⟨a, member, here⟩ := entails b member
      obtain ⟨c, among, passed⟩ := exists_of_mem_forall₂ all member
      obtain ⟨_, ⟨⟩, related⟩ := here passed passed'
      exact ⟨c, among, related⟩
    · obtain ⟨a, member', here⟩ := entails b member
      obtain ⟨c, -, passed'⟩ := exists_of_mem_forall₂ all member'
      obtain ⟨d, rfl, -⟩ := here passed' other
      exact (ok_not_passedOn passed).elim
  · exact (not_passedOn_ok contra).elim

/-- What is done for each member of a list entails what else is done for each, if it does for every
member. -/
theorem mapM_same {f : α → Inquiry γ} {g : α → Inquiry δ} {as : List α}
    (entails : ∀ a ∈ as, Entails S (f a) (g a)) :
    Entails (List.Forall₂ S) (as.mapM f) (as.mapM g) := by
  induction as with
  | nil => exact .pure .nil
  | cons a as ih =>
    rw [List.mapM_cons, List.mapM_cons]
    obtain ⟨first, rest⟩ := List.forall_mem_cons.mp entails
    exact first.bind fun c d related => (ih rest).bind fun cs ds all => .pure (.cons related all)

theorem mono {R' : α → β → Prop} {p : Inquiry α} {p' : Inquiry β} (entails : Entails R p p')
    (imp : ∀ a b, R a b → R' a b) : Entails R' p p' := by
  intro a o results results'
  obtain ⟨b, same, related⟩ := entails results results'
  exact ⟨b, same, imp a b related⟩

end Entails

end Inquiry

/-- Two outcomes agree if they are sets of the same items, or errors both. Declared types may differ. -/
inductive Agree : Except Error ItemSet → Except Error ItemSet → Prop where
  | ok {s t : ItemSet} (same : s.essence.contents = t.essence.contents) : Agree (.ok s) (.ok t)
  | error (d e : Error) : Agree (.error d) (.error e)

namespace Follow

variable {f : Follow} {s : ItemSet} {o : Option (Except Error ItemSet)}

/-- A follow leads from a set to what it leads to from each of its items, or else it comes to what it
comes to for one of the items. -/
theorem results_apply (results : (f.apply Inquiry.select s).Results o) :
    (∃ (t : ItemSet) (founds : List ItemSet), o = some (.ok t) ∧ t.itemType = f.handsOn s.itemType ∧
      List.Forall₂ (fun x found => (f.follow Inquiry.select x).Results (some (.ok found)))
        s.items founds ∧ ∀ c, c ∈ t.contents ↔ ∃ found ∈ founds, c ∈ found.contents) ∨
      ∃ x ∈ s.items, ∃ o', (f.follow Inquiry.select x).Results o' ∧ Inquiry.PassedOn o' o := by
  rw [apply_eq] at results
  obtain ⟨founds, reached, last⟩ | ⟨o', failed, passed⟩ := Inquiry.results_bind.mp results
  · obtain ⟨_, ⟨⟩, all⟩ | ⟨_, _, _, _, contra⟩ := Inquiry.results_mapM reached
    · refine .inl ⟨_, founds, Inquiry.results_pure.mp last, rfl, all, fun c => ?_⟩
      rw [ItemSet.mem_contents_collect, List.map_flatMap, List.mem_flatMap]
      rfl
    · exact (Inquiry.not_passedOn_ok contra).elim
  · obtain ⟨vs, rfl, -⟩ | ⟨x, member, o'', failed', passed'⟩ := Inquiry.results_mapM failed
    · exact (Inquiry.ok_not_passedOn passed).elim
    · exact .inr ⟨x, member, o'', failed', passed'.trans passed⟩

/-- From a set of one item a follow leads to what it leads to from the item. -/
theorem results_apply_singleton {x : Item} {t : ItemType}
    (results : (f.follow Inquiry.select x).Results o) :
    ∃ o', (f.apply Inquiry.select (.singleton x t)).Results o' ∧ Option.Rel Agree o o' := by
  refine ⟨o.map (Except.map fun found : ItemSet => .collect found.items (f.handsOn t)), ?_, ?_⟩
  · rw [apply_eq]
    change ([x].mapM (f.follow Inquiry.select) >>= _).Results _
    simp only [List.mapM_cons, List.mapM_nil, bind_assoc, pure_bind, List.flatMap_cons,
      List.flatMap_nil, List.append_nil]
    exact Inquiry.results_bind_pure results
  · obtain _ | e | found := o
    · exact .none
    · exact .some (.error e e)
    · refine .some (.ok ?_)
      ext c
      rw [ItemSet.mem_essence, ItemSet.mem_essence, ItemSet.mem_contents_collect]
      rfl

end Follow

namespace Operation

variable {op : Operation} {f : Follow}

/-- The follow that an operation is for single items. Counting is none. -/
def follow? : Operation → Option Follow
  | .filter f => some (.filter f)
  | .follow f => some f
  | .count _ => none

theorem exists_follow? (itemwise : ∀ t, op ≠ .count t) : ∃ f, op.follow? = some f := by
  cases op with
  | filter f => exact ⟨_, rfl⟩
  | follow f => exact ⟨_, rfl⟩
  | count t => exact absurd rfl (itemwise t)

theorem follow?_eq_some : op.follow? = some f ↔ op = .follow f ∨ ∃ g, op = .filter g ∧ f = .filter g := by
  cases op <;> simp [follow?, eq_comm]

theorem inquiry_eq_apply (itemwise : op.follow? = some f) (s : ItemSet) :
    op.inquiry s = f.apply Inquiry.select s := by
  obtain rfl | ⟨g, rfl, rfl⟩ := follow?_eq_some.mp itemwise <;> rfl

theorem outputType_eq (itemwise : op.follow? = some f) : op.outputType = f.outputType := by
  obtain rfl | ⟨g, rfl, rfl⟩ := follow?_eq_some.mp itemwise <;> rfl

theorem selections_eq (itemwise : op.follow? = some f) : op.selections = f.selections := by
  obtain rfl | ⟨g, rfl, rfl⟩ := follow?_eq_some.mp itemwise <;> rfl

/-- An operation that passes on every item passes on every set. -/
theorem exists_passes (itemwise : op.follow? = some f)
    (passes : ∀ x o, (f.follow Inquiry.select x).Results o → ∃ found, o = some (.ok found)) (s : ItemSet) :
    ∃ t, op.Results s (some (.ok t)) := by
  obtain ⟨o, results⟩ := Results.exists op s
  have applied := results
  rw [Results, inquiry_eq_apply itemwise] at applied
  obtain ⟨t, -, rfl, -⟩ | ⟨x, -, o', alone, passed⟩ := Follow.results_apply applied
  · exact ⟨t, results⟩
  · obtain ⟨found, rfl⟩ := passes x o' alone
    exact (Inquiry.ok_not_passedOn passed).elim

/-- A pure operation comes to agreeing outcomes on equal items. -/
theorem IsPure.agree (pure : op.IsPure) (itemwise : op.follow? = some f) {x y : Item}
    (equal : (x == y) = true) {o o' : Option (Except Error ItemSet)}
    (left : (f.follow Inquiry.select x).Results o) (right : (f.follow Inquiry.select y).Results o') :
    Option.Rel Agree o o' := by
  obtain ⟨u, results, agree⟩ := Follow.results_apply_singleton (t := .any) left
  obtain ⟨u', results', agree'⟩ := Follow.results_apply_singleton (t := .any) right
  rw [← inquiry_eq_apply itemwise] at results results'
  have same := ItemSet.essence_eq_iff.mp (ItemSet.essence_singleton equal .any)
  cases pure same results results' with
  | none =>
    cases agree
    cases agree'
    exact .none
  | some alike =>
    cases agree with | some agree
    cases agree' with | some agree'
    cases alike with
    | error =>
      cases agree
      cases agree'
      exact .some (.error _ _)
    | ok same =>
      cases agree with | ok left
      cases agree' with | ok right
      have contents := congrArg ItemSet.Essence.contents (ItemSet.essence_eq_iff.mpr same)
      exact .some (.ok (left.trans (contents.trans right.symm)))

end Operation

end GraphQuery
