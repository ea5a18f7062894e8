import GraphQuery.Error
import Mathlib.Data.List.Forall2
/-!
# How sequences of steps come out

Steps that may fail, one after another: they pass if all of them do, and fail as the first that fails.
-/

namespace GraphQuery

variable {α β : Type} {e : Error}

/-- A sequence of two steps passes if both do. -/
theorem bind_eq_ok {x : Except Error α} {f : α → Except Error β} {b : β} :
    x >>= f = .ok b ↔ ∃ a, x = .ok a ∧ f a = .ok b := by
  cases x with
  | error e =>
    constructor
    · exact nofun
    · rintro ⟨a, contra, -⟩
      cases contra
  | ok a =>
    constructor
    · exact fun rest => ⟨a, rfl, rest⟩
    · rintro ⟨_, same, rest⟩
      rwa [Except.ok.inj same]

theorem map_eq_ok {x : Except Error α} {f : α → β} {b : β} :
    x.map f = .ok b ↔ ∃ a, x = .ok a ∧ f a = b := by
  cases x with
  | error e =>
    constructor
    · exact nofun
    · rintro ⟨a, contra, -⟩
      cases contra
  | ok a =>
    constructor
    · exact fun passed => ⟨a, rfl, Except.ok.inj passed⟩
    · rintro ⟨_, same, rfl⟩
      rw [Except.ok.inj same]
      rfl

theorem bind_eq_error {x : Except Error α} {f : α → Except Error β}
    (failed : x >>= f = .error e) : x = .error e ∨ ∃ a, x = .ok a ∧ f a = .error e := by
  cases x with
  | error d =>
    cases failed
    exact .inl rfl
  | ok a => exact .inr ⟨a, rfl, failed⟩

/-- Every member of the first of two lists is related to one of the second, if they are related one by
one. -/
theorem exists_of_mem_forall₂ {R : α → β → Prop} {as : List α} {bs : List β}
    (all : List.Forall₂ R as bs) {a : α} (member : a ∈ as) : ∃ b ∈ bs, R a b := by
  induction all with
  | nil => cases member
  | @cons a' b as bs first _ ih =>
    obtain rfl | member := List.mem_cons.mp member
    · exact ⟨b, List.mem_cons_self, first⟩
    · obtain ⟨b', listed, related⟩ := ih member
      exact ⟨b', List.mem_cons_of_mem b listed, related⟩

variable {v : α → Except Error β} {as : List α} {bs : List β}

theorem mapM_ok (passed : as.mapM v = .ok bs) : List.Forall₂ (fun a b => v a = .ok b) as bs := by
  induction as generalizing bs with
  | nil =>
    obtain rfl := Except.ok.inj passed
    exact .nil
  | cons a as ih =>
    rw [List.mapM_cons] at passed
    cases first : v a with
    | error e => simp [first, bind, Except.bind] at passed
    | ok b =>
      cases rest : as.mapM v with
      | error e => simp [first, rest, bind, Except.bind] at passed
      | ok cs =>
        simp only [first, rest, bind, Except.bind, pure, Except.pure, Except.ok.injEq] at passed
        subst passed
        exact .cons first (ih rest)

theorem mapM_eq_ok_map {g : α → β} (passes : ∀ a ∈ as, v a = .ok (g a)) : as.mapM v = .ok (as.map g) := by
  induction as with
  | nil => rfl
  | cons a as ih =>
    obtain ⟨first, rest⟩ := List.forall_mem_cons.mp passes
    rw [List.mapM_cons, first, ih rest]
    rfl

theorem mapM_ok_of_mem (passed : List.Forall₂ (fun a b => v a = .ok b) as bs) {a : α} (member : a ∈ as) :
    ∃ b, v a = .ok b := by
  obtain ⟨b, -, same⟩ := exists_of_mem_forall₂ passed member
  exact ⟨b, same⟩

/-- A sequence of steps fails at the first that fails. -/
theorem mapM_eq_error :
    as.mapM v = .error e ↔ ∃ before a after, as = before ++ a :: after ∧
      (∀ b ∈ before, ∃ c, v b = .ok c) ∧ v a = .error e := by
  constructor
  · intro failed
    induction as with
    | nil => cases failed
    | cons a as ih =>
      rw [List.mapM_cons] at failed
      obtain first | ⟨c, first, failed⟩ := bind_eq_error failed
      · exact ⟨[], a, as, rfl, nofun, first⟩
      · obtain failed | ⟨_, -, ⟨⟩⟩ := bind_eq_error failed
        obtain ⟨before, b, after, rfl, passed, there⟩ := ih failed
        exact ⟨a :: before, b, after, rfl, List.forall_mem_cons.mpr ⟨⟨c, first⟩, passed⟩, there⟩
  · rintro ⟨before, a, after, rfl, passed, failed⟩
    induction before with
    | nil =>
      rw [List.nil_append, List.mapM_cons, failed]
      rfl
    | cons b before ih =>
      obtain ⟨⟨c, first⟩, passed⟩ := List.forall_mem_cons.mp passed
      rw [List.cons_append, List.mapM_cons, first, ih passed]
      rfl

theorem mapM_error (failed : as.mapM v = .error e) : ∃ a ∈ as, v a = .error e := by
  obtain ⟨before, a, after, rfl, -, there⟩ := mapM_eq_error.mp failed
  exact ⟨a, List.mem_append_right before List.mem_cons_self, there⟩

end GraphQuery
