import GraphQuery.Proofs.Visits
import Mathlib.Data.Set.Card
/-!
# Visits end

A visit that goes on nests frames that were not open before. So if the spots that can be reached are
finitely many and the operations end at all of them, a visit ends when it may nest enough frames: one
for each of the spots that are not open, beyond what the operations themselves take. The number of
frames that the operations take may be capped or not. If the operations are sure to pass, so is the
visit. All this needs that the evaluator does not give up for depth.
-/

namespace GraphQuery

namespace Evaluator

open EvalM

/-- A number of frames exceeds the cap, if there is one, by no more than an excess. -/
def Fits (cap? : Option Nat) (excess n : Nat) : Prop :=
  ∀ cap, cap? = some cap → n ≤ cap + excess

theorem Fits.mono {cap? : Option Nat} {excess excess' n : Nat} (fits : Fits cap? excess n)
    (le : excess ≤ excess') : Fits cap? excess' n := by
  intro cap same
  have := fits cap same
  omega

theorem Fits.max {cap? : Option Nat} {excess m n : Nat} (left : Fits cap? excess m)
    (right : Fits cap? excess n) : Fits cap? excess (max m n) :=
  fun cap same => Nat.max_le.mpr ⟨left cap same, right cap same⟩

theorem Fits.succ {cap? : Option Nat} {excess n : Nat} (fits : Fits cap? excess n) :
    Fits cap? (excess + 1) (n + 1) := by
  intro cap same
  have := fits cap same
  omega

/-- Where the operations of a query are resolved, they end, and pass if that is sure. They nest no more
frames than the cap and an excess. -/
def Ending (known : Set Query) (q : Query) (sure : Prop) (cap? : Option Nat) (excess : Nat) : Prop :=
  ∀ op ∈ q.operations, ∀ ev items, Able known q ev → items.isEmpty = false →
    (op.inquiry items).Resolved sure →
      ∃ n, Fits cap? excess n ∧ (op.apply (nestedBy (visit n)) items).Resolves sure ev

variable {q : Query} {known : Set Query} {ev ev₁ ev₂ ev' : Evaluator} {new : List Frame}
  (col : Collection known) (member : q ∈ known) (applies : ∀ n, Applies known q (visit n))

include col member applies

/-- Visits leave ready states in one of the ways of a visit, if the operations come to one of their
outcomes. -/
theorem walks_visit (n : Nat) : Walks known q (visit n) := by
  induction n with
  | zero => exact fun _ _ _ _ _ _ _ _ ends => (not_ends_exhausted ends).elim
  | succ n ih =>
    intro start stop items ev r ev' ready filled ends
    exact visitBy_visit col member ih (applies n) (f := ⟨q.id, start, stop, items⟩) rfl filled ready ends

section steps

variable {sure : Prop} {cap? : Option Nat} {excess : Nat} {f : Frame} (query : f.query = q.id)
  (filled : f.items.isEmpty = false) (resolved : q.Resolved sure f.spot) (able : Able known q ev)
  (ending : Ending known q sure cap? excess)
  (visits : ∀ g : Frame, g.query = q.id → g.items.isEmpty = false → q.Leads f.spot g.spot →
    ∀ ev₁, Able known q ev₁ → (∀ k ∈ ev.openSpots, k ∈ ev₁.openSpots) →
      ∃ n, Fits cap? excess n ∧ (visit n q g.start g.stop g.items).Resolves sure ev₁)

include query filled resolved able ending visits

/-- A step ends if its operation ends and the visit that it leads to does. -/
theorem stepBy_resolves {steps : List (Arc × Operation)} {reach : Reach} {a : Arc} {op : Operation}
    (between : Truthful known ev₁) (progress : Progress q ev f steps reach ev₁ new)
    (listed : (a, op) ∈ q.steps f.start) :
    ∃ n, Fits cap? excess n ∧ (stepBy (visit n) q f.stop f.items reach a op).Resolves sure ev₁ := by
  have able₁ := able.leaves col member between query progress.leaves
  have listed' := Query.mem_operations_of_mem_steps listed
  obtain ⟨n, fits, r, ev₂, ended, passes⟩ := ending op listed' ev₁ f.items able₁ filled
    fun o results => resolved a op o ⟨listed, f.items, rfl, filled, results⟩
  cases r with
  | error e => exact ⟨n, fits, _, _, (stepBy_ends _).mpr (.inl ⟨e, ended, rfl⟩), passes⟩
  | ok reached =>
    obtain ⟨between', ext, results⟩ := applies n op listed' able₁.toReady filled ended
    cases nowhere : reached.isEmpty with
    | true =>
      refine ⟨n, fits, .ok reach, ev₂, (stepBy_ends _).mpr (.inr ⟨reached, ev₂, ended, ?_⟩), passes⟩
      rw [nowhere, if_pos rfl]
      exact ⟨rfl, rfl⟩
    | false =>
      have leads : q.Leads f.spot (Frame.spot ⟨q.id, a.target, f.stop, reached⟩) :=
        ⟨a, op, reached, ⟨listed, f.items, rfl, filled, results (.inl ⟨reached, rfl⟩)⟩, nowhere, by
          rw [← query]; rfl⟩
      have able₂ := able₁.leaves col member between' query (.of_extends ext f.spot none)
      obtain ⟨m, fits', r, ev₃, walked, passes'⟩ := visits ⟨q.id, a.target, f.stop, reached⟩ rfl nowhere
        leads ev₂ able₂ fun k opened => ext.mem_openSpots (progress.leaves.mem_openSpots opened)
      have applied := apply_refines (visit_refines (Nat.le_max_left n m)) op f.items ended
      have walked' := visit_refines (Nat.le_max_right n m) _ _ _ _ walked
      refine ⟨max n m, fits.max fits', (r.mapError fun e => e.through (.walking a)).map fun next =>
        ⟨reach.items.union next.items, lower reach.low? next.low?⟩, ev₃, ?_, ?_⟩
      · refine (stepBy_ends _).mpr (.inr ⟨reached, ev₂, applied, ?_⟩)
        rw [nowhere, if_neg Bool.false_ne_true]
        exact ⟨r, walked', rfl⟩
      · cases r <;> exact passes'

/-- The steps of a frame end if its operations end and the visits that they lead to do. -/
theorem foldlM_resolves {steps rest : List (Arc × Operation)} {reach : Reach}
    (between : Truthful known ev₁) (progress : Progress q ev f steps reach ev₁ new)
    (listed : ∀ step ∈ rest, step ∈ q.steps f.start) :
    ∃ n, Fits cap? excess n ∧ (rest.foldlM (fun found (a, op) =>
      stepBy (visit n) q f.stop f.items found a op) reach).Resolves sure ev₁ := by
  induction rest generalizing steps reach ev₁ new with
  | nil => exact ⟨0, fun _ _ => Nat.zero_le _, _, _, ends_pure.mpr ⟨rfl, rfl⟩, fun _ => rfl⟩
  | cons step rest ih =>
    obtain ⟨here, later⟩ := List.forall_mem_cons.mp listed
    obtain ⟨n, fits, r, ev₂, ended, passes⟩ := stepBy_resolves col member applies query filled resolved
      able ending visits between progress here
    have stepped := stepBy_stepped col member (walks_visit col member applies n) (applies n) query
      filled able.toReady between progress here ended
    cases stepped with
    | error => exact ⟨n, fits, _, _, steps_failed ended, passes⟩
    | ok after progress' =>
      obtain ⟨m, fits', r, ev', rest', passes'⟩ := ih after progress' later
      exact ⟨max n m, fits.max fits', r, ev', visit_steps_cons ended rest', passes'⟩

end steps

/-- A visit ends if finitely many spots can be reached and the operations are resolved there. What it
nests exceeds what the operations nest by no more than the number of spots that are not open. -/
theorem visit_resolves (sure : Prop) (cap? : Option Nat) {spots : Set Spot} (finite : spots.Finite)
    (closed : ∀ k ∈ spots, ∀ k', q.Leads k k' → k' ∈ spots)
    (resolved : ∀ k ∈ spots, q.Resolved sure k) (ending : Ending known q sure cap? 0)
    {f : Frame} {m : Nat} (able : Able known q ev) (query : f.query = q.id)
    (filled : f.items.isEmpty = false) (inside : f.spot ∈ spots)
    (left : (spots \ {k | k ∈ ev.openSpots}).ncard < m) :
    ∃ n, Fits cap? m n ∧ (visit n q f.start f.stop f.items).Resolves sure ev := by
  induction m generalizing f ev with
  | zero => simp at left
  | succ m ih =>
    cases heard : (consult f ev).1 with
    | some reach =>
      exact ⟨1, fun _ _ => by omega, _, _, visitBy_known _ query filled heard, fun _ => rfl⟩
    | none =>
      obtain ⟨uncached, unopened⟩ := consult_eq_none.mp heard
      have entered := able.enter col member query unopened uncached
      -- the frame is one more that is open, so fewer spots are left for the walks from it
      have fewer {ev₁ : Evaluator} (grown : ∀ k ∈ (enter f ev).openSpots, k ∈ ev₁.openSpots) :
          (spots \ {k | k ∈ ev₁.openSpots}).ncard < m := by
        refine (Set.ncard_lt_ncard ?_ finite.sdiff).trans_le (Nat.le_of_lt_succ left)
        have now : f.spot ∈ ev₁.openSpots := grown f.spot (by simp [openSpots_enter])
        refine Set.ssubset_iff_exists.mpr ⟨?_, f.spot, ⟨inside, ?_⟩, fun contra => contra.2 now⟩
        · refine Set.sdiff_subset_sdiff_right fun k opened => grown k ?_
          rw [openSpots_enter]
          exact List.mem_append_left _ opened
        · exact able.truthful.not_mem_openSpots unopened
      have visits (g : Frame) (queried : g.query = q.id) (nonempty : g.items.isEmpty = false)
          (leads : q.Leads f.spot g.spot) (ev₁ : Evaluator) (able₁ : Able known q ev₁)
          (grown : ∀ k ∈ (enter f ev).openSpots, k ∈ ev₁.openSpots) :
          ∃ n, Fits cap? m n ∧ (visit n q g.start g.stop g.items).Resolves sure ev₁ :=
        ih able₁ queried nonempty (closed f.spot inside g.spot leads) (fewer grown)
      have ending' : Ending known q sure cap? m := by
        intro op listed ev items able nonempty resolved
        obtain ⟨n, fits, resolves⟩ := ending op listed ev items able nonempty resolved
        exact ⟨n, fits.mono (Nat.zero_le m), resolves⟩
      obtain ⟨n, fits, r, ev₂, ended, passes⟩ := foldlM_resolves col member applies query filled
        (resolved f.spot inside) entered ending' visits entered.truthful (.start q _ f) fun _ => id
      have expanded : (expandBy (visit n) q f.start f.stop f.items).Ends (enter f ev) _ ev₂ :=
        (expandBy_ends _).mpr ⟨r, ended, rfl⟩
      have visited := (visitBy_unknown _ query filled heard (limitReached_eq_none able.unlimited)).mpr
        ⟨_, ev₂, expanded, rfl⟩
      refine ⟨n + 1, fits.succ, _, _, visited, fun holds => ?_⟩
      cases r with
      | error => exact passes holds
      | ok reach =>
        simp only [Except.map]
        split <;> rfl

end Evaluator

end GraphQuery
