import GraphQuery.Proofs.Moments
/-!
# What a call does is decided at its moments

A relation between computations that goes through sequences of them, as `Composite` says, carries over
from the walks at the moments of a call to the whole call. The lemmas say so of one level of each way in
which computations are built: to relate what two ways to walk make of it, the walks need to be related
only where the steps before have passed, and only if they are reached.
-/

namespace GraphQuery

open EvalM

namespace Evaluator

variable {q : Query} {start stop : Node} {items : ItemSet} {ev : Evaluator}
  {walk : Query → Node → Node → ItemSet → EvalM Reach} {fuel : Nat}

theorem passed_of_foldlM {stops : List Node} {b found : ItemSet} {ev' : Evaluator}
    (ended : (stops.foldlM (fun (found : ItemSet) stop =>
      return found.union (← select fuel q start stop items)) b).Ends ev (.ok found) ev') :
    Passed q start items stops ev ev' := by
  induction stops generalizing b ev with
  | nil =>
    obtain ⟨-, rfl⟩ := ends_pure.mp ended
    exact .nil ev'
  | cons stop stops ih =>
    rw [List.foldlM_cons] at ended
    obtain ⟨b₁, ev₁, first, rest⟩ := ended.of_bind
    obtain ⟨found, ev₂, selected, last⟩ := first.of_bind
    obtain ⟨-, rfl⟩ := ends_pure.mp last
    exact .cons selected (ih rest)

/-! What goes through sequences holds of what a call does if it holds of what happens in it. -/

section

variable {C : ∀ α : Type, EvalM α → EvalM α → Evaluator → Prop} (composite : Composite C)
  (walk : Query → Node → Node → ItemSet → EvalM Reach)

include composite

/-- Of the selections at the result nodes, it needs to hold after those before them. -/
theorem selectResultsBy_composite
    (selects : ∀ before stop after ev₁, q.resultNodes = before ++ stop :: after →
      Passed q start items before ev ev₁ →
        C _ (selectBy (visit fuel) q start stop items) (selectBy walk q start stop items) ev₁) :
    C _ (selectResultsBy (visit fuel) q start items) (selectResultsBy walk q start items) ev := by
  unfold selectResultsBy
  cases listed : q.resultNodes with
  | nil => exact composite.returns _ ev
  | cons stop stops =>
    refine composite.sequence (selects [] stop stops ev listed (.nil ev)) fun first ev₁ passed =>
      composite.foldlM fun before next after b ev₂ split ended => ?_
    refine composite.sequence ?_ fun _ _ _ => composite.returns _ _
    exact selects (stop :: before) next after ev₂ (by rw [listed, split]; rfl)
      (.cons passed (passed_of_foldlM ended))

/-- So it does of the selection of an operation, before its place is noted. -/
theorem nestedBy_composite {s : Selection} {x : Item} {D : EvalM ItemSet → EvalM ItemSet → Prop}
    (noting : ∀ {y z : EvalM ItemSet}, C _ y z ev →
      D (within (fun _ => .nested s.text x) y) (within (fun _ => .nested s.text x) z))
    (selects : ∀ before stop after ev₁, s.stops = before ++ stop :: after →
      Passed s.query s.start (.singleton x s.inputType) before ev ev₁ →
        C _ (selectBy (visit fuel) s.query s.start stop (.singleton x s.inputType))
          (selectBy walk s.query s.start stop (.singleton x s.inputType)) ev₁) :
    D (nestedBy (visit fuel) s x) (nestedBy walk s x) := by
  unfold nestedBy
  refine noting ?_
  cases single : s.stop? with
  | some stop =>
    have listed : s.stops = [] ++ stop :: [] := by rw [Selection.stops, single]; rfl
    exact selects [] stop [] ev listed (.nil ev)
  | none =>
    have listed : s.stops = s.query.resultNodes := by rw [Selection.stops, single]
    exact selectResultsBy_composite composite walk fun before stop after ev₁ next =>
      selects before stop after ev₁ (listed.trans next)

/-- Of a step, it needs to hold where the operation is applied and of the walk that may follow. -/
theorem stepBy_composite {found : Reach} {a : Arc} {op : Operation}
    (applies : C _ (within (fun _ => .applying op.text a) (op.apply (nestedBy (visit fuel)) items))
      (within (fun _ => .applying op.text a) (op.apply (nestedBy walk) items)) ev)
    (walks : ∀ reached ev₁, (op.apply (nestedBy (visit fuel)) items).Ends ev (.ok reached) ev₁ →
      reached.isEmpty = false →
        C _ (within (fun _ => .walking a) (visit fuel q a.target stop reached))
          (within (fun _ => .walking a) (walk q a.target stop reached)) ev₁) :
    C _ (stepBy (visit fuel) q stop items found a op) (stepBy walk q stop items found a op) ev := by
  refine composite.sequence applies fun reached ev₁ applied => ?_
  cases filled : reached.isEmpty with
  | true => exact composite.returns _ _
  | false =>
    refine composite.sequence (walks reached ev₁ ?_ filled) fun _ _ _ => composite.returns _ _
    obtain ⟨r₀, ended, same⟩ := ends_within.mp applied
    cases r₀ with
    | error => cases same
    | ok =>
      cases same
      exact ended

/-- Of an expansion, it needs to hold of each step where the steps before it have passed. -/
theorem expandBy_composite (filled : items.isEmpty = false)
    (unknown : (consult ⟨q.id, start, stop, items⟩ ev).1 = none) (unlimited : ev.limitReached? = none)
    (steps : ∀ before a op after found ev₁, Expanding q start stop items ev before ev₁ →
      q.steps start = before ++ (a, op) :: after →
        C _ (stepBy (visit fuel) q stop items found a op) (stepBy walk q stop items found a op) ev₁) :
    C _ (expandBy (visit fuel) q start stop items) (expandBy walk q start stop items)
      (enter ⟨q.id, start, stop, items⟩ ev) := by
  refine composite.sequence (composite.foldlM fun before step after found ev₁ next ended => ?_)
    fun _ _ _ => composite.returns _ _
  exact steps before step.1 step.2 after found ev₁ ⟨filled, unknown, unlimited, fuel, found, ended⟩ next

end

end Evaluator

end GraphQuery
