import GraphQuery.Proofs.Computation
import GraphQuery.Proofs.GeneralWay
import GraphQuery.Proofs.Nesting
/-!
# Operations as inquiries

An operation sees nothing of the evaluation but the results of the selections that it makes. What it
does on a set of items is therefore a tree: it is done, or it asks for a selection and goes on with
the items selected. `Operation.apply_eq_run` says that applying an operation is running its tree, so
that later proofs are inductions on trees with two cases and not on operations.
-/

namespace GraphQuery

/-- A computation that is done, or asks for a selection and goes on with its result. A selection
that fails ends it. -/
inductive Inquiry (α : Type) where
  | done (outcome : Except Error α)
  | ask (s : Selection) (x : Item) (next : ItemSet → Inquiry α)

namespace Inquiry

variable {α β : Type}

/-- Goes on with the value of a first inquiry. -/
def bind : Inquiry α → (α → Inquiry β) → Inquiry β
  | .done (.ok a), f => f a
  | .done (.error e), _ => .done (.error e)
  | .ask s x next, f => .ask s x fun found => (next found).bind f

instance : Monad Inquiry where
  pure a := .done (.ok a)
  bind := bind

instance : MonadExceptOf Error Inquiry where
  throw e := .done (.error e)
  tryCatch p handle :=
    let rec go
      | .done (.error e) => handle e
      | .done (.ok a) => .done (.ok a)
      | .ask s x next => .ask s x fun found => go (next found)
    go p

/-- Asks for one selection. -/
def select (s : Selection) (x : Item) : Inquiry ItemSet :=
  .ask s x pure

/-- Carries out an inquiry, given the way to make selections. -/
def run (select : Selection → Item → EvalM ItemSet) : Inquiry α → EvalM α
  | .done outcome => ofOutcome outcome
  | .ask s x next => select s x >>= fun found => (next found).run select

/-- Whether an inquiry asks for selections with a property only. -/
def AsksOnly (P : Selection → Prop) : Inquiry α → Prop
  | .done _ => True
  | .ask s _ next => P s ∧ ∀ found, (next found).AsksOnly P

theorem bind_done_ok (a : α) (f : α → Inquiry β) : done (.ok a) >>= f = f a := rfl

theorem bind_done_error (e : Error) (f : α → Inquiry β) :
    done (.error e) >>= f = .done (.error e) := rfl

theorem bind_ask (s : Selection) (x : Item) (next : ItemSet → Inquiry α) (f : α → Inquiry β) :
    ask s x next >>= f = .ask s x fun found => next found >>= f := rfl

instance : LawfulMonad Inquiry := by
  refine LawfulMonad.mk' Inquiry (fun p => ?_) (fun _ _ => rfl) fun p f g => ?_
  · induction p with
    | done outcome => cases outcome <;> rfl
    | ask s x next ih => exact congrArg (ask s x) (funext ih)
  · induction p with
    | done outcome => cases outcome <;> rfl
    | ask s x next ih => exact congrArg (ask s x) (funext ih)

section run

variable (select : Selection → Item → EvalM ItemSet)

@[simp]
theorem run_pure (a : α) : (pure a : Inquiry α).run select = pure a := rfl

@[simp]
theorem run_throw (e : Error) : (throw e : Inquiry α).run select = throw e := rfl

@[simp]
theorem run_ofOutcome (o : Except Error α) : (ofOutcome o : Inquiry α).run select = ofOutcome o := by
  cases o <;> rfl

@[simp]
theorem run_select (s : Selection) (x : Item) : (Inquiry.select s x).run select = select s x :=
  bind_pure (select s x)

@[simp]
theorem run_bind (p : Inquiry α) (f : α → Inquiry β) :
    (p >>= f).run select = p.run select >>= fun a => (f a).run select := by
  induction p with
  | done outcome =>
    cases outcome with
    | ok a => exact (pure_bind a fun a => (f a).run select).symm
    | error e => rfl
  | ask s x next ih =>
    simp only [bind_ask, run, bind_assoc]
    exact congrArg _ (funext fun found => ih found)

theorem run_mapM (f : α → Inquiry β) (as : List α) :
    (as.mapM f).run select = as.mapM fun a => (f a).run select := by
  induction as with
  | nil => rfl
  | cons a as ih =>
    simp only [List.mapM_cons, run_bind, ih]
    rfl

end run

section AsksOnly

variable {P : Selection → Prop}

theorem asksOnly_pure (a : α) : (pure a : Inquiry α).AsksOnly P := trivial

theorem asksOnly_ofOutcome (o : Except Error α) : (ofOutcome o : Inquiry α).AsksOnly P := by
  cases o <;> trivial

theorem asksOnly_bind {p : Inquiry α} {f : α → Inquiry β} (first : p.AsksOnly P)
    (second : ∀ a, (f a).AsksOnly P) : (p >>= f).AsksOnly P := by
  induction p with
  | done outcome =>
    cases outcome with
    | ok a => exact second a
    | error e => trivial
  | ask s x next ih => exact ⟨first.1, fun found => ih found (first.2 found)⟩

theorem AsksOnly.mono {Q : Selection → Prop} {p : Inquiry α} (asks : p.AsksOnly P)
    (imp : ∀ s, P s → Q s) : p.AsksOnly Q := by
  induction p with
  | done => trivial
  | ask s x next ih => exact ⟨imp s asks.1, fun found => ih found (asks.2 found)⟩

theorem asksOnly_mapM {f : α → Inquiry β} (asks : ∀ a, (f a).AsksOnly P) (as : List α) :
    (as.mapM f).AsksOnly P := by
  induction as with
  | nil => rw [List.mapM_nil]; trivial
  | cons a as ih =>
    rw [List.mapM_cons]
    exact asksOnly_bind (asks a) fun b => asksOnly_bind ih fun bs => asksOnly_pure _

end AsksOnly

end Inquiry

section

variable (select : Selection → Item → EvalM ItemSet)

theorem Filter.accept_eq_run (f : Filter) (x : Item) :
    f.accept select x = (f.accept Inquiry.select x).run select := by
  induction f generalizing x with
  | test p => exact (Inquiry.run_ofOutcome select (p.test x)).symm
  | anything | equals => rfl
  | every members _ ih =>
    rw [Filter.accept, Filter.accept]
    induction members with
    | nil => rfl
    | cons f fs rest =>
      rw [Filter.acceptEvery, Filter.acceptEvery, Inquiry.run_bind, ih f List.mem_cons_self]
      refine congrArg _ (funext fun accepted => ?_)
      cases accepted with
      | false => rfl
      | true => exact rest fun g member => ih g (List.mem_cons_of_mem f member)
  | counting s c k =>
    rw [Filter.accept, Filter.accept, Inquiry.run_bind, Inquiry.run_select]
    rfl
  | onSlot types i inner ih =>
    rw [Filter.accept, Filter.accept]
    cases x.fitting? types with
    | none => rfl
    | some t => exact ih _

theorem Filter.apply_eq_run (f : Filter) (items : ItemSet) :
    f.apply select items = (f.apply Inquiry.select items).run select := by
  rw [Filter.apply_eq, Filter.apply_eq, Inquiry.run_bind, Inquiry.run_mapM,
    funext (f.accept_eq_run select)]
  rfl

theorem Follow.follow_eq_run (f : Follow) (x : Item) :
    f.follow select x = (f.follow Inquiry.select x).run select := by
  induction f generalizing x with
  | map m => exact (Inquiry.run_ofOutcome select (m.map x)).symm
  | filter f =>
    rw [Follow.follow, Follow.follow, Filter.follow, Filter.follow, Inquiry.run_bind,
      f.accept_eq_run select]
    rfl
  | select s =>
    rw [Follow.follow, Follow.follow, Inquiry.run_select]
  | slot types i | permute types order =>
    rw [Follow.follow, Follow.follow]
    cases x.fitting? types <;> rfl
  | pair inner ih =>
    rw [Follow.follow, Follow.follow, Inquiry.run_bind, ih]
    simp only [Inquiry.run_bind, Inquiry.run_ofOutcome]
    rfl
  | onSlot types i inner ih =>
    rw [Follow.follow, Follow.follow]
    cases x.fitting? types with
    | none => rfl
    | some t =>
      simp only [Inquiry.run_bind, Inquiry.run_ofOutcome, ih]
      rfl
  | call f =>
    rw [Follow.follow, Follow.follow]
    cases x.fitting? f.types with
    | none => rfl
    | some t =>
      simp only [Inquiry.run_bind, Inquiry.run_ofOutcome]
      rfl

theorem Follow.filter_or_not (f : Follow) : (∃ g, f = .filter g) ∨ ∀ g, f ≠ .filter g := by
  by_cases isFilter : ∃ g, f = .filter g
  · exact .inl isFilter
  · exact .inr fun g equal => isFilter ⟨g, equal⟩

theorem Follow.apply_eq_run (f : Follow) (items : ItemSet) :
    f.apply select items = (f.apply Inquiry.select items).run select := by
  rw [Follow.apply_eq, Follow.apply_eq, Inquiry.run_bind, Inquiry.run_mapM,
    funext (f.follow_eq_run select)]
  rfl

end

/-- What an operation does on a set of items. -/
def Operation.inquiry (op : Operation) (items : ItemSet) : Inquiry ItemSet :=
  op.apply Inquiry.select items

theorem Filter.accept_asksOnly (f : Filter) (x : Item) :
    (f.accept Inquiry.select x).AsksOnly (· ∈ f.selections) := by
  induction f generalizing x with
  | test p => exact Inquiry.asksOnly_ofOutcome _
  | anything | equals => trivial
  | every members _ ih =>
    rw [Filter.selections, Filter.allSelections_eq, Filter.accept]
    suffices ∀ fs ⊆ members, (Filter.acceptEvery Inquiry.select fs x).AsksOnly
        (· ∈ members.flatMap Filter.selections) from this members fun _ => id
    intro fs sub
    induction fs with
    | nil => trivial
    | cons f fs rest =>
      obtain ⟨member, sub⟩ := List.cons_subset.mp sub
      rw [Filter.acceptEvery]
      refine Inquiry.asksOnly_bind ((ih f member x).mono fun s selects => ?_) fun accepted => ?_
      · exact List.mem_flatMap.mpr ⟨f, member, selects⟩
      · cases accepted with
        | false => trivial
        | true => exact rest sub
  | counting s c k =>
    rw [Filter.accept]
    exact ⟨List.mem_singleton.mpr rfl, fun _ => trivial⟩
  | onSlot types i inner ih =>
    rw [Filter.accept]
    cases x.fitting? types with
    | none => trivial
    | some t => exact ih _

theorem Filter.apply_asksOnly (f : Filter) (items : ItemSet) :
    (f.apply Inquiry.select items).AsksOnly (· ∈ f.selections) := by
  rw [Filter.apply_eq]
  exact Inquiry.asksOnly_bind (Inquiry.asksOnly_mapM f.accept_asksOnly _) fun _ => trivial

theorem Follow.follow_asksOnly (f : Follow) (x : Item) :
    (f.follow Inquiry.select x).AsksOnly (· ∈ f.selections) := by
  induction f generalizing x with
  | map m => exact Inquiry.asksOnly_ofOutcome _
  | filter f =>
    rw [Follow.follow, Filter.follow]
    exact Inquiry.asksOnly_bind (f.accept_asksOnly x) fun _ => trivial
  | select s => exact ⟨List.mem_singleton.mpr rfl, fun _ => trivial⟩
  | slot types i | permute types order =>
    rw [Follow.follow]
    cases x.fitting? types <;> trivial
  | pair inner ih =>
    rw [Follow.follow]
    exact Inquiry.asksOnly_bind (ih x) fun _ =>
      Inquiry.asksOnly_bind (Inquiry.asksOnly_ofOutcome _) fun _ => trivial
  | onSlot types i inner ih =>
    rw [Follow.follow]
    cases x.fitting? types with
    | none => trivial
    | some t =>
      exact Inquiry.asksOnly_bind (ih _) fun _ =>
        Inquiry.asksOnly_bind (Inquiry.asksOnly_ofOutcome _) fun _ => trivial
  | call f =>
    rw [Follow.follow]
    cases x.fitting? f.types with
    | none => trivial
    | some t => exact Inquiry.asksOnly_bind (Inquiry.asksOnly_ofOutcome _) fun _ => trivial

/-- An operation asks for its own selections only. -/
theorem Operation.inquiry_asksOnly (op : Operation) (items : ItemSet) :
    (op.inquiry items).AsksOnly (· ∈ op.selections) := by
  cases op with
  | filter f => exact f.apply_asksOnly items
  | follow f =>
    rw [Operation.inquiry, Operation.apply, Follow.apply_eq]
    exact Inquiry.asksOnly_bind (Inquiry.asksOnly_mapM f.follow_asksOnly _) fun _ => trivial
  | count => trivial

/-- Applying an operation is carrying out what it does. -/
theorem Operation.apply_eq_run (select : Selection → Item → EvalM ItemSet) (op : Operation)
    (items : ItemSet) : op.apply select items = (op.inquiry items).run select := by
  cases op with
  | filter f => exact f.apply_eq_run select items
  | follow f => exact f.apply_eq_run select items
  | count => rfl

end GraphQuery
