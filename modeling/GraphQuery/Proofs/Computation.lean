import GraphQuery.Evaluator.Select
/-!
# How computations end

A computation on the state of an evaluator ends with an outcome, failure included, and in a state,
or it does not end. The lemmas here say when each way of building computations ends how. They are
the only place where the definition of `EvalM` is opened.
-/

namespace GraphQuery

namespace EvalM

variable {α β : Type}

/-- From a state, the computation ends with an outcome in another state. -/
def Ends (x : EvalM α) (ev : Evaluator) (r : Except Error α) (ev' : Evaluator) : Prop :=
  x.run ev = some (r, ev')

/-- A computation ends in one way at most. -/
theorem Ends.unique {x : EvalM α} {ev ev₁ ev₂ : Evaluator} {r₁ r₂ : Except Error α}
    (first : x.Ends ev r₁ ev₁) (second : x.Ends ev r₂ ev₂) : r₁ = r₂ ∧ ev₁ = ev₂ := by
  have same := first.symm.trans second
  simpa using same

/-- A run that is seen to pass ends with what it passes with. -/
theorem exists_ends_of_isOk {x : EvalM α} {ev : Evaluator}
    (passes : (x.run ev).map (fun p => p.1.isOk) = some true) : ∃ a ev', x.Ends ev (.ok a) ev' := by
  obtain ⟨⟨r, ev'⟩, ran, passed⟩ := Option.map_eq_some_iff.mp passes
  cases r with
  | error => cases passed
  | ok a => exact ⟨a, ev', ran⟩

/-- A run that is seen to pass ends with a value and in a state of which holds what else is seen. -/
theorem exists_ends_of_seen {γ : Type} (look : α → Evaluator → γ) {x : EvalM α} {ev : Evaluator} {c : γ}
    (seen : (x.run ev).map (fun p => p.1.toOption.map fun a => look a p.2) = some (some c)) :
    ∃ a ev', x.Ends ev (.ok a) ev' ∧ look a ev' = c := by
  obtain ⟨⟨r, ev'⟩, ran, looks⟩ := Option.map_eq_some_iff.mp seen
  cases r with
  | error => cases looks
  | ok a => exact ⟨a, ev', ran, Option.some.inj looks⟩

@[simp]
theorem ends_pure {a : α} {ev ev' : Evaluator} {r : Except Error α} :
    (pure a : EvalM α).Ends ev r ev' ↔ r = .ok a ∧ ev' = ev := by
  change some (Except.ok a, ev) = some (r, ev') ↔ _
  simp [eq_comm]

@[simp]
theorem ends_throw {e : Error} {ev ev' : Evaluator} {r : Except Error α} :
    (throw e : EvalM α).Ends ev r ev' ↔ r = .error e ∧ ev' = ev := by
  change some (Except.error e, ev) = some (r, ev') ↔ _
  simp [eq_comm]

@[simp]
theorem not_ends_exhausted {ev ev' : Evaluator} {r : Except Error α} :
    ¬ (exhausted : EvalM α).Ends ev r ev' := by
  change ¬ none = some (r, ev')
  simp

theorem throw_bind (e : Error) (f : α → EvalM β) : (throw e : EvalM α) >>= f = throw e := rfl

/-- A sequence of two computations ends as the first does if that fails, and as the second does from
where the first ended if not. -/
theorem ends_bind {x : EvalM α} {f : α → EvalM β} {ev ev' : Evaluator} {r : Except Error β} :
    (x >>= f).Ends ev r ev' ↔ (∃ e, x.Ends ev (.error e) ev' ∧ r = .error e) ∨
      ∃ a ev₁, x.Ends ev (.ok a) ev₁ ∧ (f a).Ends ev₁ r ev' := by
  change (x.run ev >>= fun p => (ExceptT.bindCont f p.1) p.2) = some (r, ev') ↔ _
  unfold Ends
  cases first : x.run ev with
  | none => simp
  | some p =>
    obtain ⟨outcome, ev₁⟩ := p
    cases outcome with
    | error e =>
      change some (Except.error e, ev₁) = some (r, ev') ↔ _
      simp only [Option.some.injEq, Prod.mk.injEq, Except.error.injEq, reduceCtorEq, false_and,
        exists_false, or_false]
      constructor
      · rintro ⟨rfl, rfl⟩
        exact ⟨e, ⟨rfl, rfl⟩, rfl⟩
      · rintro ⟨_, ⟨rfl, rfl⟩, rfl⟩
        exact ⟨rfl, rfl⟩
    | ok a =>
      change (f a).run ev₁ = some (r, ev') ↔ _
      constructor
      · exact fun rest => .inr ⟨a, ev₁, rfl, rest⟩
      · rintro (⟨_, first, -⟩ | ⟨_, _, first, rest⟩)
        · simp at first
        · simp only [Option.some.injEq, Prod.mk.injEq, Except.ok.injEq] at first
          obtain ⟨rfl, rfl⟩ := first
          exact rest

/-- A sequence of two computations passes if the first does, and the second from where it ended. -/
theorem Ends.of_bind {x : EvalM α} {f : α → EvalM β} {ev ev' : Evaluator} {b : β}
    (ends : (x >>= f).Ends ev (.ok b) ev') :
    ∃ a ev₁, x.Ends ev (.ok a) ev₁ ∧ (f a).Ends ev₁ (.ok b) ev' := by
  obtain ⟨_, -, contra⟩ | passed := ends_bind.mp ends
  · cases contra
  · exact passed

@[simp]
theorem ends_get {ev ev' : Evaluator} {r : Except Error Evaluator} :
    (get : EvalM Evaluator).Ends ev r ev' ↔ r = .ok ev ∧ ev' = ev := by
  change some (Except.ok ev, ev) = some (r, ev') ↔ _
  simp [eq_comm]

@[simp]
theorem ends_modify {f : Evaluator → Evaluator} {ev ev' : Evaluator} {r : Except Error PUnit} :
    (modify f : EvalM PUnit).Ends ev r ev' ↔ r = .ok ⟨⟩ ∧ ev' = f ev := by
  change some (Except.ok PUnit.unit, f ev) = some (r, ev') ↔ _
  simp [eq_comm]

@[simp]
theorem ends_modifyGet {f : Evaluator → α × Evaluator} {ev ev' : Evaluator} {r : Except Error α} :
    (modifyGet f : EvalM α).Ends ev r ev' ↔ r = .ok (f ev).1 ∧ ev' = (f ev).2 := by
  change some (Except.ok (f ev).1, (f ev).2) = some (r, ev') ↔ _
  simp [eq_comm]

/-- Observing an outcome turns it into a value. -/
theorem ends_observe {x : EvalM α} {ev ev' : Evaluator} {r : Except Error (Except Error α)} :
    x.observe.Ends ev r ev' ↔ ∃ r₀, x.Ends ev r₀ ev' ∧ r = .ok r₀ := by
  change (x.run ev >>= fun p => some (Except.ok p.1, p.2)) = some (r, ev') ↔ _
  unfold Ends
  cases x.run ev with
  | none => simp
  | some p =>
    obtain ⟨outcome, ev₁⟩ := p
    simp only [Option.bind_eq_bind, Option.bind_some, Option.some.injEq, Prod.mk.injEq]
    constructor
    · rintro ⟨rfl, rfl⟩
      exact ⟨outcome, ⟨rfl, rfl⟩, rfl⟩
    · rintro ⟨_, ⟨rfl, rfl⟩, rfl⟩
      exact ⟨rfl, rfl⟩

/-- Noting a place changes the error of a failure only. -/
theorem ends_within {place : Unit → Place} {x : EvalM α} {ev ev' : Evaluator}
    {r : Except Error α} :
    (within place x).Ends ev r ev' ↔
      ∃ r₀, x.Ends ev r₀ ev' ∧ r = r₀.mapError fun e => e.through (place ()) := by
  change (x.run ev >>= fun p => some (p.1.mapError fun e => e.through (place ()), p.2)) =
    some (r, ev') ↔ _
  unfold Ends
  cases x.run ev with
  | none => simp
  | some p =>
    obtain ⟨outcome, ev₁⟩ := p
    simp only [Option.bind_eq_bind, Option.bind_some, Option.some.injEq, Prod.mk.injEq]
    constructor
    · rintro ⟨rfl, rfl⟩
      exact ⟨outcome, ⟨rfl, rfl⟩, rfl⟩
    · rintro ⟨_, ⟨rfl, rfl⟩, rfl⟩
      exact ⟨rfl, rfl⟩

theorem ends_ofOutcome {o r : Except Error α} {ev ev' : Evaluator} :
    (ofOutcome o : EvalM α).Ends ev r ev' ↔ r = o ∧ ev' = ev := by
  cases o <;> simp [ofOutcome]

/-- A relation of computations from one state that holds where both return at once and goes through
sequences. What holds of a single computation is one that does not look at the other. -/
structure Composite (C : ∀ α : Type, EvalM α → EvalM α → Evaluator → Prop) : Prop where
  returns : ∀ {α : Type} (a : α) (ev : Evaluator), C α (pure a) (pure a) ev
  sequence : ∀ {α β : Type} {x y : EvalM α} {f g : α → EvalM β} {ev : Evaluator}, C α x y ev →
    (∀ a ev₁, x.Ends ev (.ok a) ev₁ → C β (f a) (g a) ev₁) → C β (x >>= f) (y >>= g) ev

/-- Of the steps of two folds, it needs to hold where the steps before them lead only. -/
theorem Composite.foldlM {C : ∀ α : Type, EvalM α → EvalM α → Evaluator → Prop} (composite : Composite C)
    {γ : Type} {f g : β → γ → EvalM β} {cs : List γ} {b : β} {ev : Evaluator}
    (step : ∀ before c after b' ev', cs = before ++ c :: after →
      (before.foldlM f b).Ends ev (.ok b') ev' → C β (f b' c) (g b' c) ev') :
    C β (cs.foldlM f b) (cs.foldlM g b) ev := by
  induction cs generalizing b ev with
  | nil => exact composite.returns b ev
  | cons c cs ih =>
    rw [List.foldlM_cons, List.foldlM_cons]
    have first := step [] c cs b ev rfl (ends_pure.mpr ⟨rfl, rfl⟩)
    refine composite.sequence first fun b₁ ev₁ passed => ih ?_
    -- what leads to a later step begins with `c`
    intro before d after b' ev' listed ended
    refine step (c :: before) d after b' ev' (by rw [listed]; rfl) ?_
    rw [List.foldlM_cons]
    exact ends_bind.mpr (.inr ⟨b₁, ev₁, passed, ended⟩)

/-- If each step that starts with an invariant passes with it or fails as it may, then so does their
fold. -/
theorem ends_foldlM_cases {γ : Type} {f : β → γ → EvalM β} {I : β → Evaluator → Prop}
    {F : Error → Evaluator → Prop} {cs : List γ} {b : β} {ev ev' : Evaluator} {r : Except Error β}
    (step : ∀ c ∈ cs, ∀ ⦃b ev r ev'⦄, I b ev → (f b c).Ends ev r ev' →
      (∃ b', r = .ok b' ∧ I b' ev') ∨ ∃ e, r = .error e ∧ F e ev')
    (start : I b ev) (ends : (cs.foldlM f b).Ends ev r ev') :
    (∃ b', r = .ok b' ∧ I b' ev') ∨ ∃ e, r = .error e ∧ F e ev' := by
  induction cs generalizing b ev with
  | nil =>
    obtain ⟨rfl, rfl⟩ := ends_pure.mp ends
    exact .inl ⟨b, rfl, start⟩
  | cons c cs ih =>
    rw [List.foldlM_cons] at ends
    obtain ⟨here, later⟩ := List.forall_mem_cons.mp step
    obtain ⟨e, failed, rfl⟩ | ⟨b₁, ev₁, passed, rest⟩ := ends_bind.mp ends
    · obtain ⟨_, contra, -⟩ | ⟨_, same, fails⟩ := here start failed
      · cases contra
      · exact .inr ⟨_, same, fails⟩
    · obtain ⟨_, same, kept⟩ | ⟨_, contra, -⟩ := here start passed
      · obtain rfl := Except.ok.inj same
        exact ih later kept rest
      · cases contra

/-- From a state, the computation ends. -/
def Halts (x : EvalM α) (ev : Evaluator) : Prop :=
  ∃ r ev', x.Ends ev r ev'

theorem Ends.halts {x : EvalM α} {ev ev' : Evaluator} {r : Except Error α} (ends : x.Ends ev r ev') :
    x.Halts ev :=
  ⟨r, ev', ends⟩

theorem halts_within {place : Unit → Place} {x : EvalM α} {ev : Evaluator} :
    (within place x).Halts ev ↔ x.Halts ev := by
  constructor
  · rintro ⟨r, ev', ends⟩
    obtain ⟨r₀, ended, -⟩ := ends_within.mp ends
    exact ⟨r₀, ev', ended⟩
  · rintro ⟨r, ev', ended⟩
    exact ⟨_, ev', ends_within.mpr ⟨r, ended, rfl⟩⟩

namespace Halts

variable {ev : Evaluator}

theorem bind {x : EvalM α} {f : α → EvalM β} (first : x.Halts ev)
    (second : ∀ a ev₁, x.Ends ev (.ok a) ev₁ → (f a).Halts ev₁) : (x >>= f).Halts ev := by
  obtain ⟨r, ev₁, ended⟩ := first
  cases r with
  | error e => exact (ends_bind.mpr (.inl ⟨e, ended, rfl⟩)).halts
  | ok a =>
    obtain ⟨r, ev', rest⟩ := second a ev₁ ended
    exact (ends_bind.mpr (.inr ⟨a, ev₁, ended, rest⟩)).halts

theorem composite : Composite fun _ x _ ev => x.Halts ev where
  returns _ _ := (ends_pure.mpr ⟨rfl, rfl⟩).halts
  sequence := bind

end Halts

/-- From a state, the computation ends, and passes if that is sure. -/
def Resolves (sure : Prop) (x : EvalM α) (ev : Evaluator) : Prop :=
  ∃ r ev', x.Ends ev r ev' ∧ (sure → r.isOk = true)

theorem Resolves.halts {sure : Prop} {x : EvalM α} {ev : Evaluator} (resolves : x.Resolves sure ev) :
    x.Halts ev := by
  obtain ⟨r, ev', ends, -⟩ := resolves
  exact ⟨r, ev', ends⟩

theorem Halts.resolves {sure : Prop} {x : EvalM α} {ev : Evaluator} (halts : x.Halts ev)
    (unsure : ¬ sure) : x.Resolves sure ev := by
  obtain ⟨r, ev', ends⟩ := halts
  exact ⟨r, ev', ends, fun holds => (unsure holds).elim⟩

/-- A computation that ends alike whenever another does, from one state. -/
def RefinesFrom (ev : Evaluator) (x y : EvalM α) : Prop :=
  ∀ ⦃r ev'⦄, x.Ends ev r ev' → y.Ends ev r ev'

namespace RefinesFrom

variable {ev : Evaluator}

theorem refl (x : EvalM α) : x.RefinesFrom ev x :=
  fun _ _ ends => ends

theorem bind {x y : EvalM α} {f g : α → EvalM β} (first : x.RefinesFrom ev y)
    (second : ∀ a ev₁, x.Ends ev (.ok a) ev₁ → (f a).RefinesFrom ev₁ (g a)) :
    (x >>= f).RefinesFrom ev (y >>= g) := by
  intro r ev' ends
  obtain ⟨e, failed, rfl⟩ | ⟨a, ev₁, passed, rest⟩ := ends_bind.mp ends
  · exact ends_bind.mpr (.inl ⟨e, first failed, rfl⟩)
  · exact ends_bind.mpr (.inr ⟨a, ev₁, first passed, second a ev₁ passed rest⟩)

theorem noting {place : Unit → Place} {x y : EvalM α} (inner : x.RefinesFrom ev y) :
    (within place x).RefinesFrom ev (within place y) := by
  intro r ev' ends
  obtain ⟨r₀, ended, rfl⟩ := ends_within.mp ends
  exact ends_within.mpr ⟨r₀, inner ended, rfl⟩

theorem composite : Composite fun _ x y ev => x.RefinesFrom ev y where
  returns _ _ := refl _
  sequence := bind

end RefinesFrom

/-- A computation that ends alike whenever another does, from every state. -/
def Refines (x y : EvalM α) : Prop :=
  ∀ ⦃ev r ev'⦄, x.Ends ev r ev' → y.Ends ev r ev'

theorem Refines.refl (x : EvalM α) : x.Refines x :=
  fun _ _ _ ends => ends

theorem Refines.refinesFrom {x y : EvalM α} (refines : x.Refines y) (ev : Evaluator) : x.RefinesFrom ev y :=
  fun _ _ ends => refines ends

/-- If more fuel never changes how a computation ends, it ends in one way at most. -/
theorem Ends.unique_of_growing {x : Nat → EvalM α} (growing : ∀ ⦃m n⦄, m ≤ n → (x m).Refines (x n))
    {m n : Nat} {ev ev₁ ev₂ : Evaluator} {r₁ r₂ : Except Error α} (first : (x m).Ends ev r₁ ev₁)
    (second : (x n).Ends ev r₂ ev₂) : r₁ = r₂ ∧ ev₁ = ev₂ :=
  (growing (Nat.le_max_left m n) first).unique (growing (Nat.le_max_right m n) second)

theorem Refines.bind {x y : EvalM α} {f g : α → EvalM β} (first : x.Refines y)
    (second : ∀ a, (f a).Refines (g a)) : (x >>= f).Refines (y >>= g) :=
  fun ev _ _ ends => (first.refinesFrom ev).bind (fun a ev₁ _ => (second a).refinesFrom ev₁) ends

theorem Refines.noting {place : Unit → Place} {x y : EvalM α} (inner : x.Refines y) :
    (within place x).Refines (within place y) :=
  fun ev _ _ ends => (inner.refinesFrom ev).noting ends

theorem Refines.foldlM {γ : Type} {f g : β → γ → EvalM β} (step : ∀ b c, (f b c).Refines (g b c))
    (cs : List γ) (b : β) : (cs.foldlM f b).Refines (cs.foldlM g b) :=
  fun _ _ _ ends => RefinesFrom.composite.foldlM
    (fun _ c _ b' ev' _ _ => (step b' c).refinesFrom ev') ends

end EvalM

end GraphQuery
