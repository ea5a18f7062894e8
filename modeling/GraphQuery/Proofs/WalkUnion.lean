import GraphQuery.Proofs.Carrying
/-!
# A selection is the union over all walks

If finitely many frames can be reached, a selection ends, and then it comes to the union of what all
walks carry to its end, declared as the end requires, unless an operation fails on something that is
carried: then it fails.
-/

namespace GraphQuery

namespace Query

/-- From a selection in `tally`, the set at its source and the number of its items can be reached. -/
theorem reachable_tally_subset (items : ItemSet) :
    Call.reachable ⟨tally, tallySource, tallySink, items⟩ ⊆
      {⟨0, tallySource, tallySink, items.essence⟩, ⟨0, tallySink, tallySink,
        (ItemSet.singleton (.atom (.size items.size)) (.kind .size)).essence⟩} := by
  let number := ItemSet.singleton (.atom (.size items.size)) (.kind .size)
  rintro k ⟨d, reaches, rfl⟩
  suffices d.query = tally ∧ d.stop = tallySink ∧ (d.start = tallySource ∧
      d.items.essence = items.essence ∨ d.start = tallySink ∧ d.items.essence = number.essence) by
    obtain ⟨query, stop, ⟨start, same⟩ | ⟨start, same⟩⟩ := this
    · left
      rw [Call.frame, Frame.spot, query, start, stop, same]
      rfl
    · right
      rw [Call.frame, Frame.spot, query, start, stop, same]
      rfl
  induction reaches with
  | refl => exact ⟨rfl, rfl, .inl ⟨rfl, rfl⟩⟩
  | tail _ leads ih =>
    obtain ⟨query, stop, at'⟩ := ih
    cases leads with
    | along arc label filled gives further =>
      obtain ⟨start, ⟨target, rfl⟩ | ⟨target, rfl⟩⟩ := tally_step (query ▸ arc) (query ▸ label)
      · refine ⟨query, stop, .inl ⟨target, ?_⟩⟩
        obtain ⟨-, same⟩ | ⟨contra, -⟩ := at'
        · have passed := (Operation.gives_of_done (Filter.inquiry_eq_done rfl _)).mp gives
          exact (Filter.essence_anything passed.symm).trans same
        · rw [start] at contra
          cases contra
      · refine ⟨query, stop, .inr ⟨target, ?_⟩⟩
        obtain ⟨-, same⟩ | ⟨contra, -⟩ := at'
        · cases (Operation.gives_of_done rfl).mp gives
          rw [ItemSet.size_congr same]
        · rw [start] at contra
          cases contra
    | into arc label filled asks ends =>
      obtain ⟨-, ⟨-, rfl⟩ | ⟨-, rfl⟩⟩ := tally_step (query ▸ arc) (query ▸ label)
      · exact (Operation.not_asks_of_done (Filter.inquiry_eq_done rfl _) _ _ asks).elim
      · exact (Operation.not_asks_of_done rfl _ _ asks).elim

theorem reachable_tally (items : ItemSet) :
    (Call.reachable ⟨tally, tallySource, tallySink, items⟩).Finite :=
  (Set.toFinite _).subset (reachable_tally_subset items)

/-- No operation of `tally` fails. -/
theorem not_fails_tally (start : Node) (items : ItemSet) : ¬ tally.Fails start items := by
  rintro ⟨n, s, -, -, a, arc, op, label, e, gives⟩
  obtain ⟨-, ⟨-, rfl⟩ | ⟨-, rfl⟩⟩ := tally_step arc label
  · have passed := (Operation.gives_of_done (Filter.inquiry_eq_done rfl s)).mp gives
    obtain ⟨x, -, failed⟩ : ∃ x ∈ s.items, (Filter.anything .any).verdict x = .error e := by
      obtain ⟨t, ok, -⟩ | ⟨d, error, x, member, failed⟩ := s.filterM_cases (Filter.anything .any).verdict
      · rw [ok] at passed
        cases passed
      · rw [error] at passed
        cases passed
        exact ⟨x, member, failed⟩
    cases failed
  · cases (Operation.gives_of_done rfl).mp gives

end Query

namespace Evaluator

open EvalM

variable {known : Set Query} {q : Query} {ev : Evaluator}

section

variable (lib : Library known)

include lib

/-- Selections at all result nodes end if each of them does. -/
theorem selectResults_halts (member : q ∈ known) {start : Node} {items : ItemSet}
    (halts : ∀ stop ∈ q.resultNodes, ∀ ev, Coherent known ev → Clear q ev →
      ∃ n, (select n q start stop items).Halts ev)
    (coherent : Coherent known ev) (clear : Clear q ev) :
    ∃ n, (selectResults n q start items).Halts ev := by
  have echoes (stop : Node) : Echoes known q (fun n => select n q start stop items)
      fun n => select n q start stop items :=
    select_echoes lib member (understood lib member) start stop rfl
  have further (stops : List Node) (included : ∀ stop ∈ stops, stop ∈ q.resultNodes)
      (found : ItemSet) (ev : Evaluator) (coherent : Coherent known ev) (clear : Clear q ev) :
      ∃ n, (stops.foldlM (fun (found : ItemSet) stop =>
        return found.union (← selectBy (visit n) q start stop items)) found).Halts ev := by
    induction stops generalizing found ev with
    | nil => exact ⟨0, (ends_pure.mpr ⟨rfl, rfl⟩).halts⟩
    | cons stop stops ih =>
      obtain ⟨here, later⟩ := List.forall_mem_cons.mp included
      simp only [List.foldlM_cons, bind_assoc, pure_bind]
      refine (growing_select q start stop items).bind_halts
        (fun s => growing_stops q start items stops _) (halts stop here ev coherent clear)
        fun n s ev₁ ends => ?_
      obtain ⟨after, ext, -⟩ := echoes stop coherent coherent clear clear ends
      exact ih later _ ev₁ after (clear.extends ext)
  unfold selectResults selectResultsBy
  cases nodes : q.resultNodes with
  | nil => exact ⟨0, (ends_pure.mpr ⟨rfl, rfl⟩).halts⟩
  | cons stop stops =>
    rw [nodes] at halts further
    obtain ⟨here, later⟩ := List.forall_mem_cons.mp halts
    refine (growing_select q start stop items).bind_halts
      (fun s => growing_stops q start items stops s) (here ev coherent clear) fun n s ev₁ ends => ?_
    obtain ⟨after, ext, -⟩ := echoes stop coherent coherent clear clear ends
    exact further stops (fun stop listed => List.mem_cons_of_mem _ listed) s ev₁ after
      (clear.extends ext)

/-- The selection of an operation ends if it ends at each of its nodes. -/
theorem nested_halts_of_stops {s : Selection} (member : s.query ∈ known) {x : Item}
    (halts : ∀ stop ∈ s.stops, ∀ ev, Coherent known ev → Clear s.query ev →
      ∃ n, (select n s.query s.start stop (.singleton x s.inputType)).Halts ev)
    (coherent : Coherent known ev) (clear : Clear s.query ev) :
    ∃ n, (nested n s x).Halts ev := by
  unfold nested nestedBy
  unfold Selection.stops at halts
  cases stop? : s.stop? with
  | none =>
    rw [stop?] at halts
    obtain ⟨n, halts⟩ := selectResults_halts lib member halts coherent clear
    exact ⟨n, halts_within.mpr halts⟩
  | some stop =>
    rw [stop?] at halts
    obtain ⟨n, halts⟩ := halts stop (List.mem_singleton.mpr rfl) ev coherent clear
    exact ⟨n, halts_within.mpr halts⟩

/-- A selection ends if finitely many frames can be reached from it. -/
theorem select_halts (member : q ∈ known) {start stop : Node} {items : ItemSet}
    (finite : (Call.reachable ⟨q, start, stop, items⟩).Finite) (coherent : Coherent known ev)
    (clear : Clear q ev) : ∃ n, (select n q start stop items).Halts ev := by
  induction q using Query.nests_wf.induction generalizing start stop items ev with
  | _ q ih =>
    have announced := sameBut_announce q start stop items ev
    suffices ∃ n, (visit n q start stop items).Halts (announce q start stop items ev) by
      obtain ⟨n, r, ev', ends⟩ := this
      exact ⟨n, ((selectBy_ends _).mpr ⟨r, ev', ends, rfl, rfl⟩).halts⟩
    cases empty : items.isEmpty with
    | true => exact ⟨1, ((visitBy_ends _).mpr (.empty empty)).halts⟩
    | false =>
      refine (visit_resolves_of_finite lib.collection member (understood lib member)
        (f := ⟨q.id, start, stop, items⟩) (.inr lib)
        ((clear.extends announced.extends).able (coherent.of_sameBut announced)) rfl empty ?_
        fun k reaches => Query.resolved_of_not_stalls ?_ False.elim).imp fun _ => Resolves.halts
      · exact finite.subset fun k => mem_reachable_of_reaches lib member empty
      · rintro ⟨a, op, listed, t, same', -, endless⟩
        obtain ⟨s, carries, filled, same⟩ := carries_of_reaches lib member empty reaches
        obtain ⟨arc, label⟩ := Query.mem_steps.mp listed
        have listed' := Query.mem_operations_of_mem_steps listed
        have pure := lib.isPure q member q .refl op listed'
        obtain ⟨s', x, asks, unanswered⟩ := Inquiry.exists_endless (p := op.inquiry s) fun o results => by
          cases pure (ItemSet.essence_eq_iff.mp (same'.trans same.symm)) endless results with
          | none => rfl
        have nests : q.Nests s'.query :=
          ⟨op, listed', s', asks.holds (op.inquiry_asksOnly s), rfl⟩
        have inside := lib.closed q member s'.query nests
        obtain ⟨n, r, ev', ends⟩ := nested_halts_of_stops lib inside (x := x)
          (fun stop' ends ev coherent clear => ih s'.query nests inside
            (finite.subset (Call.reachable_subset
              ((carries.leads filled).tail (.into arc label filled asks ends)))) coherent clear)
          (coherent_fresh known true) (clear_fresh s'.query true)
        exact unanswered r ⟨n, ev', ends⟩

/-- A selection that ends comes to the union of what is carried to its end, or an operation fails. -/
theorem select_outcome (member : q ∈ known) {start stop : Node} {items : ItemSet} {n : Nat}
    {r : Except Error ItemSet} {ev' : Evaluator} (coherent : Coherent known ev) (clear : Clear q ev)
    (ends : (select n q start stop items).Ends ev r ev') :
    (∃ found, r = .ok found ∧ ¬ q.Fails start items ∧ found.itemType = stop.inputType ∧
      ∀ x, x ∈ found ↔ ∃ s, q.Carries start items stop s ∧ x ∈ s) ∨
    ∃ e, r = .error e ∧ q.Fails start items := by
  obtain ⟨-, -, ⟨found, rfl, selects⟩ | ⟨e, rfl, filled, dooms⟩⟩ :=
    select_clear lib.collection member (understood lib member) coherent.toTruthful clear ends
  · exact .inl ⟨found, rfl, carries_of_selects lib member rfl selects⟩
  · exact .inr ⟨e, rfl, (dooms_iff lib member filled).mp (dooms ⟨lib, coherent.unlimited⟩)⟩

end

/-- On an evaluator that has done nothing before, a selection from which finitely many frames can be
reached comes to the union of what all walks carry to its end, unless an operation fails on a set that
is carried; then it fails. The number of frames that it may nest does not matter beyond a bound. -/
theorem select_eq_walk_union (numbered : Query.Numbered {q}) (pure : q.IsPure) (start stop : Node)
    (items : ItemSet) (finite : (Call.reachable ⟨q, start, stop, items⟩).Finite) (memoize : Bool) :
    (¬ q.Fails start items → ∃ found bound ev,
      (∀ fuel ≥ bound, (select fuel q start stop items).Ends (.fresh memoize) (.ok found) ev) ∧
        found.itemType = stop.inputType ∧
        ∀ x, x ∈ found ↔ ∃ s, q.Carries start items stop s ∧ x ∈ s) ∧
    (q.Fails start items → ∃ e bound ev,
      ∀ fuel ≥ bound, (select fuel q start stop items).Ends (.fresh memoize) (.error e) ev) := by
  have lib := Library.of_queries numbered (by rintro _ rfl; exact pure)
  have member : q ∈ {r | ∃ p ∈ ({q} : Set Query), p.Within r} := ⟨q, rfl, .refl⟩
  have coherent := coherent_fresh {r | ∃ p ∈ ({q} : Set Query), p.Within r} memoize
  obtain ⟨bound, r, ev, ends⟩ := select_halts lib member finite coherent (clear_fresh q memoize)
  have always : ∀ fuel ≥ bound, (select fuel q start stop items).Ends (.fresh memoize) r ev :=
    fun fuel le => growing_select q start stop items le ends
  obtain ⟨found, rfl, passes, union⟩ | ⟨e, rfl, fails⟩ :=
    select_outcome lib member coherent (clear_fresh q memoize) ends
  · exact ⟨fun _ => ⟨found, bound, ev, always, union⟩, fun fails => (passes fails).elim⟩
  · exact ⟨fun passes => (passes fails).elim, fun _ => ⟨e, bound, ev, always⟩⟩

theorem select_tally : ∃ found bound ev,
    (∀ fuel ≥ bound, (select fuel Query.tally Query.tallySource Query.tallySink
      (.singleton (.atom .unit) .any)).Ends (.fresh true) (.ok found) ev) ∧
      found.itemType = .kind .size ∧ Item.atom (.size 1) ∈ found := by
  obtain ⟨passes, -⟩ := select_eq_walk_union Query.numbered_tally Query.isPure_tally
    Query.tallySource Query.tallySink (.singleton (.atom .unit) .any) (Query.reachable_tally _) true
  obtain ⟨found, bound, ev, ends, typed, union⟩ := passes (Query.not_fails_tally _ _)
  refine ⟨found, bound, ev, ends, typed, (union _).mpr
    ⟨.singleton (.atom (.size 1)) (.kind .size), ?_, ItemSet.mem_singleton.mpr BEq.rfl⟩⟩
  have arc : ⟨Query.tallySource, Query.tallySink⟩ ∈ Query.tally.graph.arcsFrom Query.tallySource :=
    Query.consistent_tally.mem_arcsFrom.mpr ⟨.tail _ (.head _), rfl⟩
  exact .along .here arc (List.mem_singleton.mpr rfl) rfl ((Operation.gives_of_done rfl).mpr rfl)

end Evaluator

end GraphQuery
