import GraphQuery.Proofs.Blame
import GraphQuery.Proofs.QuietOperations
import GraphQuery.Proofs.WellTyped
/-!
# What operations on tuples fail with

Operations on tuples are checked where they are made, so that afterwards they should fail because of an
item only, and not because types do not fit. A filter does. A follow does too but for two ways, which make
tuples of items that nobody has checked: a pair is made of the item that the follow is given, whatever that
is, and of what an inner follow leads to, and a replaced slot is given what an inner follow leads to. Where
such an item is none of its declared type, the types do not fit after all.
-/

namespace GraphQuery

open EvalM

/-- An operation could not be carried out on an item. -/
def Error.IsOperation (e : Error) : Prop :=
  ∃ failure, e.cause = .operation failure

theorem Item.isOperation_misfit (x : Item) (operation : String) (types : List ItemType) :
    (x.misfit operation types).IsOperation := by
  cases x with
  | atom a => exact ⟨_, rfl⟩
  | tuple t => exact ⟨_, rfl⟩

/-- The mapping fails only with errors that have a property. -/
def Mapping.FailsOnly (P : Error → Prop) (m : Mapping) : Prop :=
  ∀ x e, m.map x = .error e → P e

/-- The function fails only with errors that have a property. -/
def BoundFunction.FailsOnly (P : Error → Prop) (f : BoundFunction) : Prop :=
  ∀ xs e, f.call xs = .error e → P e

/-- The functions that callers supplied for a follow fail only with errors that have a property. -/
inductive Follow.FailsOnly (P : Error → Prop) : Follow → Prop where
  | map {m : Mapping} (only : m.FailsOnly P) : FailsOnly P (.map m)
  | filter {f : Filter} (only : f.FailsOnly P) : FailsOnly P (.filter f)
  | select (s : Selection) : FailsOnly P (.select s)
  | slot (types : List ItemType) (i : Fin types.length) : FailsOnly P (.slot types i)
  | permute (types : List ItemType) (order : List (Fin types.length)) :
    FailsOnly P (.permute types order)
  | pair {inner : Follow} (only : FailsOnly P inner) : FailsOnly P (.pair inner)
  | onSlot (types : List ItemType) (i : Fin types.length) {inner : Follow}
    (only : FailsOnly P inner) : FailsOnly P (.onSlot types i inner)
  | call {f : BoundFunction} (only : f.FailsOnly P) : FailsOnly P (.call f)

/-! Where an inquiry fails -/

namespace Inquiry

variable {α β : Type} {select : Selection → Item → EvalM ItemSet} {P : Error → Prop}
  {p : Inquiry α} {ev ev' : Evaluator} {e : Error}

/-- The selections that an inquiry asks for, carried out from a state, fail only with errors that have a
property. -/
def AsksFailOnly (select : Selection → Item → EvalM ItemSet) (P : Error → Prop) (p : Inquiry α)
    (ev : Evaluator) : Prop :=
  ∀ ⦃s x ev₁ e ev₂⦄, p.AsksIn select ev s x ev₁ → (select s x).Ends ev₁ (.error e) ev₂ → P e

theorem asksFailOnly_of_asksNone (none : p.AsksOnly fun _ => False) : p.AsksFailOnly select P ev := by
  intro s x ev₁ e ev₂ asksIn _
  exact (asksIn.of_asksOnly none).elim

/-- An inquiry fails by itself, or because a selection does. -/
theorem raises_or_of_fails (asks : p.AsksFailOnly select P ev)
    (fails : (p.run select).Ends ev (.error e) ev') : p.Raises select ev e ∨ P e := by
  induction p generalizing ev with
  | done outcome =>
    obtain ⟨rfl, rfl⟩ := ends_ofOutcome.mp fails
    exact .inl (.here e _)
  | ask s x next ih =>
    obtain ⟨_, failed, ⟨⟩⟩ | ⟨found, ev₁, passed, fails⟩ := ends_bind.mp fails
    · exact .inr (asks (.here s x next _) failed)
    · exact (ih found (fun _ _ _ _ _ asksIn => asks (.later passed asksIn)) fails).imp_left
        (.later passed)

theorem raises_ofOutcome {o : Except Error α}
    (raises : Raises select (ofOutcome o : Inquiry α) ev e) : o = .error e := by
  cases o with
  | ok a => cases raises
  | error d =>
    cases raises
    rfl

/-- A sequence of two steps fails in the first, or in the second after the first has passed. -/
theorem raises_bind {f : α → Inquiry β} (raises : (p >>= f).Raises select ev e) :
    p.Raises select ev e ∨
      ∃ a ev₁, (p.run select).Ends ev (.ok a) ev₁ ∧ (f a).Raises select ev₁ e := by
  induction p generalizing ev with
  | done outcome =>
    cases outcome with
    | ok a => exact .inr ⟨a, ev, ends_pure.mpr ⟨rfl, rfl⟩, raises⟩
    | error d =>
      cases raises
      exact .inl (.here e ev)
  | ask s x next ih =>
    cases raises with
    | later passed rest =>
      obtain first | ⟨a, ev₁, ended, second⟩ := ih _ rest
      · exact .inl (.later passed first)
      · exact .inr ⟨a, ev₁, ends_bind.mpr (.inr ⟨_, _, passed, ended⟩), second⟩

end Inquiry

/-! Tuples that cannot be made -/

namespace Tuple

theorem checkSlots_set {values : List Item} {types : List ItemType} {y : Item} {u : ItemType}
    (fits : Fit values types)
    (rejects : u.admits y = false) {i : Nat} (inside : i < types.length) (first : Nat) :
    checkSlots first (values.set i y) (types.set i u) =
      .error (.typeMismatch (.tupleSlot (first + i)) u y.typeOf) := by
  induction fits generalizing i first with
  | nil => cases inside
  | cons fit _ ih =>
    cases i with
    | zero =>
      rw [List.set_cons_zero, List.set_cons_zero, checkSlots, rejects]
      rfl
    | succ i =>
      rw [List.set_cons_succ, List.set_cons_succ, checkSlots, if_pos fit,
        ih (Nat.lt_of_succ_lt_succ inside) (first + 1), Nat.add_right_comm]
      rfl

/-- A tuple that fits but for the item put into a slot cannot be made, because of that slot. -/
theorem ofTyped_set {values : List Item} {types : List ItemType} {y : Item} {u : ItemType}
    (fits : Fit values types)
    (rejects : u.admits y = false) (i : Fin types.length) :
    ofTyped (values.set i y) (types.set i u) = .error (.typeMismatch (.tupleSlot i) u y.typeOf) := by
  have arity : (values.set i y).length = (types.set i u).length := by
    rw [List.length_set, List.length_set, fits.length_eq]
  rw [ofTyped, if_pos arity, checkSlots_set fits rejects i.isLt, Nat.zero_add]
  rfl

theorem ofTyped_pair_fst {x y : Item} {t u : ItemType} (rejects : t.admits x = false) :
    ofTyped [x, y] [t, u] = .error (.typeMismatch (.tupleSlot 0) t x.typeOf) := by
  rw [ofTyped, if_pos (by rfl), checkSlots, rejects]
  rfl

theorem ofTyped_pair_snd {x y : Item} {t u : ItemType} (admits : t.admits x = true)
    (rejects : u.admits y = false) :
    ofTyped [x, y] [t, u] = .error (.typeMismatch (.tupleSlot 1) u y.typeOf) := by
  rw [ofTyped, if_pos (by rfl), checkSlots, if_pos admits, checkSlots, rejects]
  rfl

/-- If tuples are made of the items that a type admits only, the first that it rejects is why they are
not all made. -/
theorem mapM_eq_error_of_rejects {make : Item → Except Error Tuple} {t : ItemType}
    {mismatch : Item → Error} {ys : List Item} {e : Error}
    (makes : ∀ y, t.admits y = true → ∃ tuple, make y = .ok tuple)
    (rejects : ∀ y, t.admits y = false → make y = .error (mismatch y)) :
    ys.mapM make = .error e ↔ ∃ before y after, ys = before ++ y :: after ∧
      (∀ z ∈ before, t.admits z = true) ∧ t.admits y = false ∧ e = mismatch y := by
  rw [mapM_eq_error]
  constructor
  · rintro ⟨before, y, after, rfl, passed, failed⟩
    refine ⟨before, y, after, rfl, fun z member => ?_, ?_⟩
    · by_contra unfit
      obtain ⟨tuple, made⟩ := passed z member
      rw [rejects z (Bool.eq_false_iff.mpr unfit)] at made
      cases made
    · cases fit : t.admits y with
      | true =>
        obtain ⟨tuple, made⟩ := makes y fit
        rw [made] at failed
        cases failed
      | false => exact ⟨rfl, Except.error.inj (failed.symm.trans (rejects y fit))⟩
  · rintro ⟨before, y, after, rfl, fine, unfit, rfl⟩
    exact ⟨before, y, after, rfl, fun z member => makes z (fine z member), rejects y unfit⟩

theorem mapM_pair_eq_error {x : Item} {t u : ItemType} (admits : t.admits x = true) {ys : List Item} {e : Error} :
    (ys.mapM fun y => ofTyped [x, y] [t, u]) = .error e ↔
      ∃ before y after, ys = before ++ y :: after ∧ (∀ z ∈ before, u.admits z = true) ∧
        u.admits y = false ∧ e = .typeMismatch (.tupleSlot 1) u y.typeOf :=
  mapM_eq_error_of_rejects
    (fun _ fit => ⟨_, ofTyped_eq_ok.mpr ⟨.cons admits (.cons fit .nil), rfl⟩⟩)
    fun _ unfit => ofTyped_pair_snd admits unfit

theorem mapM_set_eq_error {types : List ItemType} {i : Fin types.length} {u : ItemType}
    {values : List Item} (fits : List.Forall₂ Item.IsA values types) {ys : List Item} {e : Error} :
    (ys.mapM fun y => ofTyped (values.set i y) (types.set i u)) = .error e ↔
      ∃ before y after, ys = before ++ y :: after ∧ (∀ z ∈ before, u.admits z = true) ∧
        u.admits y = false ∧ e = .typeMismatch (.tupleSlot i) u y.typeOf := by
  have admits := fits.imp fun _ _ isA => isA.2
  exact mapM_eq_error_of_rejects
    (fun _ fit => ⟨_, ofTyped_eq_ok.mpr ⟨forall₂_set admits fit i, rfl⟩⟩)
    fun _ unfit => ofTyped_set admits unfit i

end Tuple

/-- A tuple that a bound function is made for fails in it only as the function does, or because of its
result. -/
theorem BoundFunction.FailsOnly.applyTo {f : BoundFunction} (only : f.FailsOnly Error.IsOperation)
    {t : Tuple} (values : List.Forall₂ Item.IsA t.values f.types) {e : Error}
    (failed : f.applyTo t = .error e) : e.IsOperation := by
  obtain called | ⟨result, -, rest⟩ := bind_eq_error failed
  · exact only _ e called
  · split at rest
    · next suits =>
      split at rest
      · cases rest
      · have fits := List.rel_append (List.forall₂_take f.kept (values.imp fun _ _ isA => isA.2))
          (.cons suits .nil)
        rw [resultTypes, Tuple.ofTyped_eq_ok.mpr ⟨fits, rfl⟩] at rest
        cases rest
    · cases rest
      exact ⟨_, rfl⟩

namespace Follow

variable {select : Selection → Item → EvalM ItemSet} {f : Follow} {x : Item} {ev ev' : Evaluator}
  {e : Error}

/-- Carried out from a state, a follow is to make a tuple with an item that the slot type rejects. -/
inductive Mistypes (select : Selection → Item → EvalM ItemSet) :
    Follow → Item → Evaluator → Error → Prop where
  /-- There is something to be paired with an item, but not with that one. -/
  | given {inner : Follow} {x : Item} {found : ItemSet} {ev ev₁ : Evaluator}
    (leads : (inner.follow select x).Ends ev (.ok found) ev₁) (filled : found.items ≠ [])
    (rejects : inner.inputType.admits x = false) :
    Mistypes select (.pair inner) x ev (.typeMismatch (.tupleSlot 0) inner.inputType x.typeOf)
  /-- An item is to be paired with one that the follow should not have led to. -/
  | paired {inner : Follow} {x y : Item} {found : ItemSet} {before after : List Item}
    {ev ev₁ : Evaluator} (leads : (inner.follow select x).Ends ev (.ok found) ev₁)
    (admits : inner.inputType.admits x = true) (listed : found.items = before ++ y :: after)
    (fine : ∀ z ∈ before, inner.outputType.admits z = true)
    (rejects : inner.outputType.admits y = false) :
    Mistypes select (.pair inner) x ev (.typeMismatch (.tupleSlot 1) inner.outputType y.typeOf)
  /-- A slot is to be replaced by an item that the follow should not have led to. -/
  | replaced {types : List ItemType} {i : Fin types.length} {inner : Follow} {x y : Item}
    {t : { t : Tuple // t.arity = types.length }} {found : ItemSet} {before after : List Item}
    {ev ev₁ : Evaluator} (fits : x.fitting? types = some t)
    (leads : (inner.follow select (Tuple.valueAt t i)).Ends ev (.ok found) ev₁)
    (listed : found.items = before ++ y :: after)
    (fine : ∀ z ∈ before, inner.outputType.admits z = true)
    (rejects : inner.outputType.admits y = false) :
    Mistypes select (.onSlot types i inner) x ev
      (.typeMismatch (.tupleSlot i) inner.outputType y.typeOf)
  | pair {inner : Follow} {x : Item} {ev : Evaluator} {e : Error}
    (mistypes : Mistypes select inner x ev e) : Mistypes select (.pair inner) x ev e
  | onSlot {types : List ItemType} {i : Fin types.length} {inner : Follow} {x : Item}
    {t : { t : Tuple // t.arity = types.length }} {ev : Evaluator} {e : Error}
    (fits : x.fitting? types = some t)
    (mistypes : Mistypes select inner (Tuple.valueAt t i) ev e) :
    Mistypes select (.onSlot types i inner) x ev e

theorem Mistypes.eq_typeMismatch (mistypes : f.Mistypes select x ev e) :
    ∃ site expected found, e = .typeMismatch site expected found := by
  induction mistypes with
  | given | paired | replaced => exact ⟨_, _, _, rfl⟩
  | pair _ ih => exact ih
  | onSlot _ _ ih => exact ih

/-- An item that fits some types as a tuple holds values of these types. -/
theorem values_of_fitting (made : x.Made) {types : List ItemType}
    {t : { t : Tuple // t.arity = types.length }} (fits : x.fitting? types = some t) :
    List.Forall₂ Item.IsA t.val.values types := by
  obtain ⟨u, fits', -, values⟩ := Item.IsA.fitting ⟨made, (Item.fitting?_eq_some.mp fits).2⟩
  obtain rfl := Option.some.inj (fits.symm.trans fits')
  exact values

/-- By itself, a follow fails as what callers supplied for it does, or because an item does not fit, or
it mistypes an item. -/
theorem FailsOnly.raises (only : f.FailsOnly Error.IsOperation) (made : x.Made)
    (raises : (f.follow Inquiry.select x).Raises select ev e) :
    e.IsOperation ∨ f.Mistypes select x ev e := by
  have misfit {x : Item} {operation : String} {types : List ItemType} {ev : Evaluator}
      (raises : Inquiry.Raises select (throw (x.misfit operation types) : Inquiry ItemSet) ev e) :
      e.IsOperation := by
    cases raises
    exact x.isOperation_misfit operation types
  induction only generalizing x ev with
  | map only => exact .inl (only x e (Inquiry.raises_ofOutcome raises))
  | filter only =>
    rw [follow, Filter.follow] at raises
    obtain raises | ⟨_, _, -, contra⟩ := Inquiry.raises_bind raises
    · exact .inl (raises.holds (only.accept Item.isOperation_misfit x))
    · cases contra
  | select s => cases raises with | later _ rest => cases rest
  | slot types i | permute types order =>
    rw [follow] at raises
    cases fits : x.fitting? types with
    | none =>
      rw [fits] at raises
      exact .inl (misfit raises)
    | some t =>
      rw [fits] at raises
      cases raises
  | @pair inner only ih =>
    rw [follow] at raises
    obtain raises | ⟨found, ev₁, leads, raises⟩ := Inquiry.raises_bind raises
    · exact (ih made raises).imp_right .pair
    · rw [← follow_eq_run] at leads
      obtain raises | ⟨_, _, -, contra⟩ := Inquiry.raises_bind raises
      · -- the item is in every pair, so if it is refused, then in the first
        have failed := Inquiry.raises_ofOutcome raises
        cases admits : inner.inputType.admits x with
        | true =>
          obtain ⟨_, _, _, listed, fine, rejects, rfl⟩ := (Tuple.mapM_pair_eq_error admits).mp failed
          exact .inr (.paired leads admits listed fine rejects)
        | false =>
          obtain ⟨before, y, after, listed, -, here⟩ := mapM_eq_error.mp failed
          rw [Tuple.ofTyped_pair_fst admits] at here
          obtain rfl := Except.error.inj here
          exact .inr (.given leads (by simp [listed]) admits)
      · cases contra
  | @onSlot types i inner only ih =>
    rw [follow] at raises
    cases fits : x.fitting? types with
    | none =>
      rw [fits] at raises
      exact .inl (misfit raises)
    | some t =>
      rw [fits] at raises
      have values := values_of_fitting made fits
      obtain raises | ⟨found, ev₁, leads, raises⟩ := Inquiry.raises_bind raises
      · exact (ih (Tuple.isA_valueAt values i).1 raises).imp_right (.onSlot fits)
      · rw [← follow_eq_run] at leads
        obtain raises | ⟨_, _, -, contra⟩ := Inquiry.raises_bind raises
        · obtain ⟨_, _, _, listed, fine, rejects, rfl⟩ :=
            (Tuple.mapM_set_eq_error values).mp (Inquiry.raises_ofOutcome raises)
          exact .inr (.replaced fits leads listed fine rejects)
        · cases contra
  | @call f only =>
    rw [follow] at raises
    cases fits : x.fitting? f.types with
    | none =>
      rw [fits] at raises
      exact .inl (misfit raises)
    | some t =>
      rw [fits] at raises
      obtain raises | ⟨_, _, -, contra⟩ := Inquiry.raises_bind raises
      · exact .inl (only.applyTo (values_of_fitting made fits) (Inquiry.raises_ofOutcome raises))
      · cases contra

/-- A follow that mistypes an item fails because of that. -/
theorem Mistypes.fails (mistypes : f.Mistypes select x ev e) (made : x.Made) :
    ∃ ev', (f.follow select x).Ends ev (.error e) ev' := by
  have gathered {p : EvalM ItemSet} {found : ItemSet} {tuples : ItemSet → Except Error (List Tuple)}
      {gather : ItemSet → List Tuple → ItemSet} {ev ev₁ : Evaluator} {e : Error}
      (leads : p.Ends ev (.ok found) ev₁) (failed : tuples found = .error e) :
      ∃ ev', EvalM.Ends (p >>= fun found => ofOutcome (tuples found) >>= fun ts =>
        pure (gather found ts)) ev (.error e) ev' :=
    ⟨ev₁, ends_bind.mpr (.inr ⟨found, ev₁, leads,
      ends_bind.mpr (.inl ⟨e, ends_ofOutcome.mpr ⟨failed.symm, rfl⟩, rfl⟩)⟩)⟩
  induction mistypes with
  | @given inner x found ev ev₁ leads filled rejects =>
    obtain ⟨y, ys, listed⟩ := List.exists_cons_of_ne_nil filled
    exact gathered leads (mapM_eq_error.mpr ⟨[], y, ys, listed, nofun, Tuple.ofTyped_pair_fst rejects⟩)
  | paired leads admits listed fine rejects =>
    exact gathered leads ((Tuple.mapM_pair_eq_error admits).mpr ⟨_, _, _, listed, fine, rejects, rfl⟩)
  | replaced fits leads listed fine rejects =>
    rw [follow, fits]
    exact gathered leads ((Tuple.mapM_set_eq_error (values_of_fitting made fits)).mpr
      ⟨_, _, _, listed, fine, rejects, rfl⟩)
  | pair _ ih =>
    obtain ⟨ev', fails⟩ := ih made
    exact ⟨ev', ends_bind.mpr (.inl ⟨_, fails, rfl⟩)⟩
  | @onSlot types i _ _ _ _ _ fits _ ih =>
    obtain ⟨ev', fails⟩ := ih (Tuple.isA_valueAt (values_of_fitting made fits) i).1
    rw [follow, fits]
    exact ⟨ev', ends_bind.mpr (.inl ⟨_, fails, rfl⟩)⟩

end Follow

/-- Where what callers supplied for it, and the selections that it asks for, fail only with errors of
operations, a filter fails only with such an error too, on every item. So does a follow, unless it
mistypes an item. If it does, it fails with the mismatch of that item. No follow fails because of an
invalid argument. -/
theorem evaluation_fails {select : Selection → Item → EvalM ItemSet} {x : Item} {ev : Evaluator} :
    (∀ f : Filter, f.FailsOnly Error.IsOperation →
      (f.accept Inquiry.select x).AsksFailOnly select Error.IsOperation ev →
      ∀ e ev', (f.accept select x).Ends ev (.error e) ev' → e.IsOperation) ∧
    ∀ f : Follow, f.FailsOnly Error.IsOperation → x.Made →
      (f.follow Inquiry.select x).AsksFailOnly select Error.IsOperation ev →
      ∀ e, (∀ ev', (f.follow select x).Ends ev (.error e) ev' →
          e.IsOperation ∨ f.Mistypes select x ev e) ∧
        (f.Mistypes select x ev e → (∃ ev', (f.follow select x).Ends ev (.error e) ev') ∧
          ∃ site expected found, e = .typeMismatch site expected found) := by
  constructor
  · intro f only asks e ev' fails
    rw [f.accept_eq_run] at fails
    obtain raises | operation := Inquiry.raises_or_of_fails asks fails
    · exact raises.holds (only.accept Item.isOperation_misfit x)
    · exact operation
  · intro f only made asks e
    refine ⟨fun ev' fails => ?_, fun mistypes => ⟨mistypes.fails made, mistypes.eq_typeMismatch⟩⟩
    rw [f.follow_eq_run] at fails
    obtain raises | operation := Inquiry.raises_or_of_fails asks fails
    · exact only.raises made raises
    · exact .inl operation

/-- The follow from a number to the pair of it and itself. -/
def Follow.doubled : Follow :=
  .pair (.filter (.anything (.kind .int64)))

section

open Evaluator

theorem Follow.asksFailOnly_doubled (x : Item) (ev : Evaluator) :
    (Follow.doubled.follow Inquiry.select x).AsksFailOnly (nested 0) Error.IsOperation ev :=
  Inquiry.asksFailOnly_of_asksNone ((Follow.doubled.follow_asksOnly x).mono fun _ => List.not_mem_nil)

/-- A text is no tuple, and no number to be paired with. -/
theorem evaluation_fails_text :
    (∃ e, ((Filter.onSlot [.any] ⟨0, by decide⟩ (.anything .any)).accept (nested 0)
        (.atom (.text "a"))).Ends (.fresh true) (.error e) (.fresh true) ∧ e.IsOperation) ∧
    ∃ ev', (Follow.doubled.follow (nested 0) (.atom (.text "a"))).Ends (.fresh true)
      (.error (.typeMismatch (.tupleSlot 0) (.kind .int64) (.kind .text))) ev' := by
  obtain ⟨filters, follows⟩ := @evaluation_fails (nested 0) (.atom (.text "a")) (.fresh true)
  constructor
  · have asks : ((Filter.onSlot [.any] ⟨0, by decide⟩ (.anything .any)).accept Inquiry.select
        (.atom (.text "a"))).AsksFailOnly (nested 0) Error.IsOperation (.fresh true) :=
      Inquiry.asksFailOnly_of_asksNone
        ((Filter.accept_asksOnly _ _).mono fun _ => List.not_mem_nil)
    exact ⟨_, ends_throw.mpr ⟨rfl, rfl⟩,
      filters _ (.onSlot _ _ (.anything _)) asks _ _ (ends_throw.mpr ⟨rfl, rfl⟩)⟩
  · have leads : ((Follow.filter (.anything (.kind .int64))).follow (nested 0)
        (.atom (.text "a"))).Ends (.fresh true)
        (.ok (.singleton (.atom (.text "a")) (.kind .int64))) (.fresh true) := ends_pure.mpr ⟨rfl, rfl⟩
    have mistypes : Follow.doubled.Mistypes (nested 0) (.atom (.text "a")) (.fresh true)
        (.typeMismatch (.tupleSlot 0) (.kind .int64) (.kind .text)) :=
      .given leads (List.cons_ne_nil _ _) rfl
    exact ((follows _ (.pair (.filter (.anything _))) (.atom _)
      (Follow.asksFailOnly_doubled _ _) _).2 mistypes).1

/-- A filter that takes any number lets a text pass, which then is to be paired with itself as a number.
So the follow fails, but with no error of an operation. -/
theorem doubled_mistypes : Follow.doubled.FailsOnly Error.IsOperation ∧ (Item.atom (.text "a")).Made ∧
    (Follow.doubled.follow Inquiry.select (.atom (.text "a"))).AsksFailOnly (nested 0) Error.IsOperation
      (.fresh true) ∧
    ∃ e ev', (Follow.doubled.follow (nested 0) (.atom (.text "a"))).Ends (.fresh true) (.error e) ev' ∧
      ¬ e.IsOperation := by
  refine ⟨.pair (.filter (.anything _)), .atom _, Follow.asksFailOnly_doubled _ _,
    .typeMismatch (.tupleSlot 0) (.kind .int64) (.kind .text), .fresh true, rfl, ?_⟩
  rintro ⟨failure, contra⟩
  cases contra

end

end GraphQuery
