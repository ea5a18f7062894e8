import Mathlib
import GraphQuery.Proofs.Conjunctions
import GraphQuery.Proofs.Congruence
/-!
# Filters in stages

A conjunction tries its filters on one item after the other, each item up to the first filter that
rejects it. Filters may also be applied in stages, each to the set that the one before it leaves. Both
come to a set under the same condition, that every item is accepted by all filters or is rejected by
one after all before it have accepted it, and then to the same set.

Which verdicts an item may get is a relation here, as selections are known up to equality only. Both
ways of applying filters then sieve the items by verdicts, and sieving by several filters in stages is
sieving by their conjunction.
-/

namespace GraphQuery

/-! Sieving lists -/

/-- Every member of a list gets a verdict, and those are kept that are accepted. -/
inductive Sieved {α : Type} (verdict : α → Bool → Prop) : List α → List α → Prop where
  | nil : Sieved verdict [] []
  | keep {a : α} {as kept : List α} (accepted : verdict a true) (rest : Sieved verdict as kept) :
    Sieved verdict (a :: as) (a :: kept)
  | drop {a : α} {as kept : List α} (rejected : verdict a false) (rest : Sieved verdict as kept) :
    Sieved verdict (a :: as) kept

namespace Sieved

variable {α : Type} {verdict first second : α → Bool → Prop} {as kept : List α}

theorem sublist (sieved : Sieved verdict as kept) : kept.Sublist as := by
  induction sieved with
  | nil => exact .slnil
  | keep _ _ ih => exact ih.cons_cons _
  | drop _ _ ih => exact ih.cons _

/-- The items that are left of a set form a set under the same type. -/
theorem exists_set {s : ItemSet} {kept : List Item} {verdict : Item → Bool → Prop}
    (sieved : Sieved verdict s.items kept) :
    ∃ t : ItemSet, t.items = kept ∧ t.itemType = s.itemType :=
  ⟨s.part kept sieved.sublist s.itemType, s.items_part .., s.itemType_part ..⟩

theorem iff_passed {xs kept : List Item} {verdict : Item → Bool → Prop} :
    Sieved verdict xs kept ↔ ∃ vs, List.Forall₂ verdict xs vs ∧ ItemSet.passed xs vs = kept := by
  constructor
  · intro sieved
    induction sieved with
    | nil => exact ⟨[], .nil, rfl⟩
    | keep accepted _ ih =>
      obtain ⟨vs, all, rfl⟩ := ih
      exact ⟨true :: vs, .cons accepted all, rfl⟩
    | drop rejected _ ih =>
      obtain ⟨vs, all, rfl⟩ := ih
      exact ⟨false :: vs, .cons rejected all, rfl⟩
  · rintro ⟨vs, all, rfl⟩
    induction all with
    | nil => exact .nil
    | @cons x v xs vs verdict _ ih =>
      cases v with
      | true => exact .keep verdict ih
      | false => exact .drop verdict ih

/-- Where the members are accepted without exception, all are kept. -/
theorem iff_eq : Sieved (fun _ accepted => accepted = true) as kept ↔ kept = as := by
  constructor
  · intro sieved
    induction sieved with
    | nil => rfl
    | keep _ _ ih => rw [ih]
    | drop rejected => cases rejected
  · rintro rfl
    induction kept with
    | nil => exact .nil
    | cons a as ih => exact .keep rfl ih

/-- Sieving twice is sieving once, by a second verdict on what the first accepts. -/
theorem iff_twice : Sieved (fun a b => first a true ∧ second a b ∨ first a false ∧ b = false) as kept ↔
    ∃ left, Sieved first as left ∧ Sieved second left kept := by
  constructor
  · intro sieved
    induction sieved with
    | nil => exact ⟨[], .nil, .nil⟩
    | keep accepted _ ih =>
      obtain ⟨left, before, after⟩ := ih
      obtain ⟨here, further⟩ | ⟨-, contra⟩ := accepted
      · exact ⟨_, .keep here before, .keep further after⟩
      · cases contra
    | drop rejected _ ih =>
      obtain ⟨left, before, after⟩ := ih
      obtain ⟨here, further⟩ | ⟨here, -⟩ := rejected
      · exact ⟨_, .keep here before, .drop further after⟩
      · exact ⟨left, .drop here before, after⟩
  · rintro ⟨left, before, after⟩
    induction before generalizing kept with
    | nil =>
      cases after
      exact .nil
    | keep here _ ih =>
      cases after with
      | keep further after => exact .keep (.inl ⟨here, further⟩) (ih after)
      | drop further after => exact .drop (.inl ⟨here, further⟩) (ih after)
    | drop here _ ih => exact .drop (.inr ⟨here, rfl⟩) (ih after)

theorem exists_iff : (∃ kept, Sieved verdict as kept) ↔ ∀ a ∈ as, ∃ accepted, verdict a accepted := by
  induction as with
  | nil => exact iff_of_true ⟨[], .nil⟩ fun _ => nofun
  | cons a as ih =>
    rw [List.forall_mem_cons, ← ih]
    constructor
    · rintro ⟨_, accepted | rejected⟩
      · exact ⟨⟨true, ‹_›⟩, _, ‹_›⟩
      · exact ⟨⟨false, ‹_›⟩, _, ‹_›⟩
    · rintro ⟨⟨accepted, verdict⟩, kept, rest⟩
      cases accepted with
      | true => exact ⟨a :: kept, .keep verdict rest⟩
      | false => exact ⟨kept, .drop verdict rest⟩

/-- If no member gets both verdicts, those that are kept are those that are accepted. -/
theorem mem_iff (sieved : Sieved verdict as kept) (sure : ∀ a ∈ as, verdict a true → ¬ verdict a false)
    {a : α} : a ∈ kept ↔ a ∈ as ∧ verdict a true := by
  induction sieved with
  | nil => simp
  | @keep b as kept accepted _ ih =>
    rw [List.mem_cons, List.mem_cons, ih fun c member => sure c (List.mem_cons_of_mem b member)]
    constructor
    · rintro (rfl | ⟨member, verdict⟩)
      · exact ⟨.inl rfl, accepted⟩
      · exact ⟨.inr member, verdict⟩
    · rintro ⟨rfl | member, verdict⟩
      · exact .inl rfl
      · exact .inr ⟨member, verdict⟩
  | @drop b as kept rejected _ ih =>
    rw [List.mem_cons, ih fun c member => sure c (List.mem_cons_of_mem b member)]
    constructor
    · exact fun ⟨member, verdict⟩ => ⟨.inr member, verdict⟩
    · rintro ⟨rfl | member, verdict⟩
      · exact (sure a List.mem_cons_self verdict rejected).elim
      · exact ⟨member, verdict⟩

end Sieved

namespace Filter

/-! The two ways to apply filters -/

section

variable {m : Type → Type} [Monad m] [MonadExceptOf Error m] (select : Selection → Item → m ItemSet)

/-- Filters applied in stages, each to the set that the one before it leaves. -/
def applyEach (fs : List Filter) (items : ItemSet) : m ItemSet :=
  fs.foldlM (fun left f => f.apply select left) items

theorem applyEach_cons (f : Filter) (fs : List Filter) (items : ItemSet) :
    applyEach select (f :: fs) items = f.apply select items >>= applyEach select fs :=
  List.foldlM_cons

end

variable {f : Filter} {fs : List Filter} {x : Item} {s u : ItemSet}

theorem applyEach_eq_run (select : Selection → Item → EvalM ItemSet) (fs : List Filter) (s : ItemSet) :
    applyEach select fs s = (applyEach Inquiry.select fs s).run select := by
  induction fs generalizing s with
  | nil => rfl
  | cons f fs ih => rw [applyEach_cons, applyEach_cons, Inquiry.run_bind, f.apply_eq_run, funext ih]

theorem applyEach_asksOnly (fs : List Filter) (s : ItemSet) :
    (applyEach Inquiry.select fs s).AsksOnly (· ∈ allSelections fs) := by
  induction fs generalizing s with
  | nil => trivial
  | cons f fs ih =>
    rw [applyEach_cons]
    exact Inquiry.asksOnly_bind ((f.apply_asksOnly s).mono fun _ => List.mem_append_left _)
      fun left => (ih left).mono fun _ => List.mem_append_right _

/-! What they come to -/

/-- With some answers to its selections, a filter comes to a verdict on an item. -/
def Judges (f : Filter) (x : Item) (accepted : Bool) : Prop :=
  (f.accept Inquiry.select x).Results (some (.ok accepted))

/-- With some answers to their selections, filters that are tried in order come to a verdict. -/
def JudgeInTurn (fs : List Filter) (x : Item) (accepted : Bool) : Prop :=
  (acceptEvery Inquiry.select fs x).Results (some (.ok accepted))

theorem judgeInTurn_nil {accepted : Bool} : JudgeInTurn [] x accepted ↔ accepted = true := by
  rw [JudgeInTurn, acceptEvery, Inquiry.results_pure]
  simp

theorem sieved_judgeInTurn_nil {xs kept : List Item} :
    Sieved (JudgeInTurn []) xs kept ↔ kept = xs := by
  have turns : JudgeInTurn [] = fun _ accepted => accepted = true :=
    funext fun x => funext fun accepted => propext judgeInTurn_nil
  rw [turns, Sieved.iff_eq]

theorem judgeInTurn_cons {accepted : Bool} : JudgeInTurn (f :: fs) x accepted ↔
    f.Judges x true ∧ JudgeInTurn fs x accepted ∨ f.Judges x false ∧ accepted = false := by
  unfold JudgeInTurn Judges
  rw [acceptEvery, Inquiry.results_bind_ok, Bool.exists_bool, or_comm, if_pos rfl,
    if_neg Bool.false_ne_true, Inquiry.results_pure]
  simp

/-- All of the filters accept. -/
theorem judgeInTurn_true : JudgeInTurn fs x true ↔ ∀ f ∈ fs, f.Judges x true := by
  induction fs with
  | nil => simp [judgeInTurn_nil]
  | cons f fs ih => simp [judgeInTurn_cons, ih]

/-- One of the filters rejects, and all before it accept. -/
theorem judgeInTurn_false : JudgeInTurn fs x false ↔ ∃ before f after,
    fs = before ++ f :: after ∧ (∀ g ∈ before, g.Judges x true) ∧ f.Judges x false := by
  induction fs with
  | nil => simp [judgeInTurn_nil]
  | cons f fs ih =>
    rw [judgeInTurn_cons, ih]
    constructor
    · rintro (⟨here, before, g, after, rfl, accepted, rejected⟩ | ⟨rejected, -⟩)
      · exact ⟨f :: before, g, after, rfl, List.forall_mem_cons.mpr ⟨here, accepted⟩, rejected⟩
      · exact ⟨[], f, fs, rfl, fun _ => nofun, rejected⟩
    · rintro ⟨_ | ⟨h, before⟩, g, after, same, accepted, rejected⟩
      · obtain ⟨rfl, rfl⟩ := List.cons.inj same
        exact .inr ⟨rejected, rfl⟩
      · obtain ⟨rfl, rfl⟩ := List.cons.inj same
        obtain ⟨here, accepted⟩ := List.forall_mem_cons.mp accepted
        exact .inl ⟨here, before, g, after, rfl, accepted, rejected⟩

theorem results_apply_ok : (f.apply Inquiry.select s).Results (some (.ok u)) ↔
    Sieved f.Judges s.items u.items ∧ u.itemType = s.itemType := by
  rw [apply_eq, Inquiry.results_bind_ok, Sieved.iff_passed]
  simp only [Inquiry.results_mapM_ok, Inquiry.results_pure, Option.some.injEq, Except.ok.injEq]
  constructor
  · rintro ⟨vs, all, rfl⟩
    exact ⟨⟨vs, all, (s.items_sift vs).symm⟩, s.itemType_sift vs⟩
  · rintro ⟨⟨vs, all, items⟩, typed⟩
    rw [← s.items_sift vs] at items
    exact ⟨vs, all, ItemSet.eq_of_items items.symm (typed.trans (s.itemType_sift vs).symm)⟩

/-- Filters that are applied in stages sieve the items by their verdicts in turn. -/
theorem results_applyEach_ok : (applyEach Inquiry.select fs s).Results (some (.ok u)) ↔
    Sieved (JudgeInTurn fs) s.items u.items ∧ u.itemType = s.itemType := by
  induction fs generalizing s with
  | nil =>
    change (pure s : Inquiry ItemSet).Results _ ↔ _
    simp only [Inquiry.results_pure, sieved_judgeInTurn_nil, Option.some.injEq, Except.ok.injEq]
    exact ⟨fun same => same ▸ ⟨rfl, rfl⟩, fun ⟨items, typed⟩ => ItemSet.eq_of_items items typed⟩
  | cons f fs ih =>
    have turns : JudgeInTurn (f :: fs) = fun x b =>
        f.Judges x true ∧ JudgeInTurn fs x b ∨ f.Judges x false ∧ b = false :=
      funext fun x => funext fun b => propext judgeInTurn_cons
    rw [applyEach_cons, Inquiry.results_bind_ok, turns, Sieved.iff_twice]
    constructor
    · rintro ⟨left, first, rest⟩
      obtain ⟨sieved, typed⟩ := results_apply_ok.mp first
      obtain ⟨sieved', typed'⟩ := ih.mp rest
      exact ⟨⟨left.items, sieved, sieved'⟩, typed'.trans typed⟩
    · rintro ⟨⟨left, sieved, sieved'⟩, typed⟩
      obtain ⟨reached, rfl, same⟩ := sieved.exists_set
      exact ⟨reached, results_apply_ok.mpr ⟨sieved, same⟩, ih.mpr ⟨sieved', typed.trans same.symm⟩⟩

/-- A conjunction sieves the items by the verdicts of its filters in turn. -/
theorem results_apply_conjunction_ok {t : ItemType} :
    ((conjunction fs t).apply Inquiry.select s).Results (some (.ok u)) ↔
      Sieved (JudgeInTurn fs) s.items u.items ∧ u.itemType = s.itemType := by
  have same : (conjunction fs t).Judges = JudgeInTurn fs := by
    unfold Judges JudgeInTurn
    simp only [accept_conjunction]
  rw [results_apply_ok, same]

/-! That they come to one thing only -/

theorem apply_sure (stable : ∀ s ∈ f.selections, s.IsStable) :
    Inquiry.Entails (· = ·) (f.apply Inquiry.select s) (f.apply Inquiry.select s) := by
  rw [apply_eq]
  refine (Inquiry.Entails.mapM_same (S := (· = ·)) fun x _ => accept_sure stable).bind ?_
  intro vs vs' same
  rw [List.forall₂_eq_eq_eq] at same
  exact .pure (by rw [same])

theorem applyEach_sure (stable : ∀ s ∈ allSelections fs, s.IsStable) :
    Inquiry.Entails (· = ·) (applyEach Inquiry.select fs s) (applyEach Inquiry.select fs s) := by
  induction fs generalizing s with
  | nil => exact .pure rfl
  | cons f fs ih =>
    rw [applyEach_cons]
    refine (apply_sure fun s selects => stable s (List.mem_append_left _ selects)).bind ?_
    rintro left _ rfl
    exact ih fun s selects => stable s (List.mem_append_right _ selects)

end Filter

namespace Evaluator

open EvalM

variable {queries : Set Query} {config config' : Config} {asked : Selection → Prop}
  {ev ev' : Evaluator}

/-- From a state, work that makes selections comes to an outcome, however deep these nest. -/
def ComesTo {α : Type} (ev : Evaluator) (work : (Selection → Item → EvalM ItemSet) → EvalM α)
    (r : Except Error α) : Prop :=
  ∃ fuel ev', (work (nested fuel)).Ends ev r ev'

theorem ComesTo.unique {α : Type} {p : Inquiry α} {r r' : Except Error α}
    (left : ev.ComesTo (p.run ·) r) (right : ev.ComesTo (p.run ·) r') : r = r' := by
  obtain ⟨n, ev₁, ends⟩ := left
  obtain ⟨m, ev₂, ends'⟩ := right
  exact (Ends.unique_of_growing
    (fun _ _ le => run_refines (nestedBy_refines (visit_refines le)) p) ends ends').1

/-- An evaluator that is handed to operations: between calls, whatever they were, or in the middle of
a call, when some of the steps from a frame have been taken and an operation of its query is next. -/
inductive Handed (queries : Set Query) (config : Config) (asked : Selection → Prop) :
    Evaluator → Prop where
  | between {ev : Evaluator} (serves : Serves queries config ev)
    (known : ∀ s, asked s → s.query ∈ queries) : Handed queries config asked ev
  | during {ev ev₁ ev₂ : Evaluator} {q : Query} {start stop : Node} {items : ItemSet}
    {steps rest : List (Arc × Operation)} (serves : Serves queries config ev)
    (happens : Happens queries ev ⟨.walk q start stop items, ev₁⟩)
    (expanding : Expanding q start stop items ev₁ steps ev₂)
    (next : q.steps start = steps ++ rest) (nested : ∀ s, asked s → q.Nests s.query) :
    Handed queries config asked ev₂

section

variable (numbered : Query.Numbered queries) (pure : ∀ q ∈ queries, q.IsPure)
  (handed : Handed queries config asked ev) (unlimited : config.maxDepth? = none)

include numbered pure handed unlimited

/-- The evaluator is coherent, and the queries that may be selected in have no open frame. -/
theorem Handed.coherent : Coherent {r | ∃ q ∈ queries, q.Within r} ev ∧
    ∀ s, asked s → s.query ∈ {r | ∃ q ∈ queries, q.Within r} ∧ Clear s.query ev := by
  have col := (Library.of_queries numbered pure).collection
  have included := Query.subset_within queries
  cases handed with
  | between serves known =>
    have clear := clear_of_closed (serves.resting col.toShelf included).1.openSpots
    exact ⟨serves.coherent col included unlimited, fun s asks =>
      ⟨included (known s asks), clear s.query⟩⟩
  | @during ev ev₁ _ q start stop items steps rest serves happens expanding next nested =>
    obtain ⟨resting, same⟩ := serves.resting col.toShelf included
    obtain ⟨first, begins, follows⟩ := happens
    obtain ⟨member, settings, orderly, clear⟩ := (begins.poised col.toShelf included resting.orderly
      resting.openSpots).follows col.toShelf follows
    obtain ⟨-, ready⟩ := (begins.honest col included (serves.truthful col included)
      resting.openSpots).follows col follows
    have ready := expanding.ready col member next ready
    obtain ⟨-, _, _, piles⟩ := expanding.piles col.toShelf member next orderly clear
    refine ⟨⟨ready.truthful, ?_⟩, fun s asks =>
      ⟨col.closed q member _ (nested s asks), ready.clear _ (nested s asks)⟩⟩
    rw [piles.ext.config]
    exact (congrArg Config.maxDepth? (settings.trans same)).trans unlimited

theorem Handed.isStable {s : Selection} (asks : asked s) : s.IsStable :=
  Selection.isStable_of_collection (Library.of_queries numbered pure).collection
    ((handed.coherent numbered pure unlimited).2 s asks).1

/-- The queries that may be selected in are understood. -/
theorem Handed.understood {s : Selection} (asks : asked s) :
    s.query ∈ {r | ∃ q ∈ queries, q.Within r} ∧
      Understood {r | ∃ q ∈ queries, q.Within r} s.query := by
  obtain ⟨member, -⟩ := (handed.coherent numbered pure unlimited).2 s asks
  exact ⟨member, Evaluator.understood (Library.of_queries numbered pure) member⟩

/-- An inquiry comes to one of its outcomes, on every evaluator it may be carried out on. -/
theorem Handed.results {α : Type} {p : Inquiry α} (asks : p.AsksOnly asked) {r : Except Error α}
    (comes : ev.ComesTo (p.run ·) r) : p.Results (some r) := by
  have lib := Library.of_queries numbered pure
  obtain ⟨coherent, known⟩ := handed.coherent numbered pure unlimited
  obtain ⟨fuel, ev₁, ends⟩ := comes
  obtain ⟨-, -, results⟩ := run_results lib.collection
    (fun s asks => handed.understood numbered pure unlimited asks) asks coherent.toTruthful
    (fun s asks => (known s asks).2) ends
  exact results (.inr ⟨lib, coherent.unlimited⟩)

/-- An inquiry that is resolved comes to an end, on every evaluator it may be carried out on. -/
theorem Handed.exists_comesTo {α : Type} {p : Inquiry α} (asks : p.AsksOnly asked) {sure : Prop}
    (resolved : p.Resolved sure) : ∃ r, ev.ComesTo (p.run ·) r ∧ (sure → r.isOk = true) := by
  have lib := Library.of_queries numbered pure
  obtain ⟨coherent, known⟩ := handed.coherent numbered pure unlimited
  obtain ⟨fuel, r, ev₁, ends, passes⟩ := run_resolves lib.collection
    (fun s asks => handed.understood numbered pure unlimited asks) (.inr lib) asks coherent
    (fun s asks => (known s asks).2) resolved
  exact ⟨r, ⟨fuel, ev₁, ends⟩, passes⟩

/-- An inquiry that comes to one value only comes to it on every evaluator it may be carried out on. -/
theorem Handed.comesTo_iff {α : Type} {p : Inquiry α} (asks : p.AsksOnly asked)
    (sure : Inquiry.Entails (· = ·) p p) {a : α} :
    ev.ComesTo (p.run ·) (.ok a) ↔ p.Results (some (.ok a)) := by
  refine ⟨handed.results numbered pure unlimited asks, fun passed => ?_⟩
  have resolved : p.Resolved True := by
    intro o other
    obtain ⟨b, rfl, -⟩ := sure passed other
    exact ⟨_, rfl, fun _ => rfl⟩
  obtain ⟨r, comes, passes⟩ := handed.exists_comesTo numbered pure unlimited asks resolved
  cases r with
  | error => cases passes trivial
  | ok b =>
    obtain ⟨_, ⟨⟩, rfl⟩ := sure passed (handed.results numbered pure unlimited asks comes)
    exact comes

end

/-- Work that comes to a value comes to nothing else. -/
theorem ComesTo.iff_eq {α : Type} {p : Inquiry α} {r : Except Error α} (comes : ev.ComesTo (p.run ·) r)
    {r' : Except Error α} : ev.ComesTo (p.run ·) r' ↔ r' = r :=
  ⟨fun other => other.unique comes, fun same => same ▸ comes⟩

section

variable (numbered : Query.Numbered queries) (pure : ∀ q ∈ queries, q.IsPure) {fs : List Filter}
  (handed : Handed queries config (· ∈ Filter.allSelections fs) ev)
  (unlimited : config.maxDepth? = none) {items s : ItemSet}

include numbered pure handed unlimited

theorem Handed.accept_iff {f : Filter} (listed : f ∈ fs) {x : Item} {accepted : Bool} :
    ev.ComesTo (f.accept · x) (.ok accepted) ↔ f.Judges x accepted := by
  have known (s : Selection) (selects : s ∈ f.selections) : s ∈ Filter.allSelections fs := by
    rw [Filter.allSelections_eq]
    exact List.mem_flatMap.mpr ⟨f, listed, selects⟩
  simp only [f.accept_eq_run]
  exact handed.comesTo_iff numbered pure unlimited ((f.accept_asksOnly x).mono known)
    (Filter.accept_sure fun s selects => handed.isStable numbered pure unlimited (known s selects))

theorem Handed.accept_all_iff {x : Item} :
    (∀ f ∈ fs, ev.ComesTo (f.accept · x) (.ok true)) ↔ Filter.JudgeInTurn fs x true :=
  (forall₂_congr fun _ listed => handed.accept_iff numbered pure unlimited listed).trans
    Filter.judgeInTurn_true.symm

theorem Handed.reject_iff {x : Item} : (∃ before f after, fs = before ++ f :: after ∧
    (∀ g ∈ before, ev.ComesTo (g.accept · x) (.ok true)) ∧ ev.ComesTo (f.accept · x) (.ok false)) ↔
      Filter.JudgeInTurn fs x false := by
  rw [Filter.judgeInTurn_false]
  refine exists₃_congr fun before f after => and_congr_right fun same => and_congr
    (forall₂_congr fun g listed => ?_) ?_
  · exact handed.accept_iff numbered pure unlimited (same ▸ List.mem_append_left _ listed)
  · exact handed.accept_iff numbered pure unlimited (same ▸ List.mem_append_right _ List.mem_cons_self)

theorem Handed.apply_iff {t : ItemType} : ev.ComesTo ((Filter.conjunction fs t).apply · items) (.ok s) ↔
    Sieved (Filter.JudgeInTurn fs) items.items s.items ∧ s.itemType = items.itemType := by
  have known : (Filter.conjunction fs t).selections = Filter.allSelections fs :=
    Filter.selections_conjunction fs t
  simp only [(Filter.conjunction fs t).apply_eq_run]
  rw [← Filter.results_apply_conjunction_ok (t := t)]
  exact handed.comesTo_iff numbered pure unlimited
    (((Filter.conjunction fs t).apply_asksOnly items).mono fun s => (known ▸ ·))
    (Filter.apply_sure fun s selects => handed.isStable numbered pure unlimited (known ▸ selects))

theorem Handed.applyEach_iff : ev.ComesTo (Filter.applyEach · fs items) (.ok s) ↔
    Sieved (Filter.JudgeInTurn fs) items.items s.items ∧ s.itemType = items.itemType := by
  simp only [Filter.applyEach_eq_run]
  rw [← Filter.results_applyEach_ok]
  exact handed.comesTo_iff numbered pure unlimited (Filter.applyEach_asksOnly fs items)
    (Filter.applyEach_sure fun s => handed.isStable numbered pure unlimited)

/-- No item is both accepted and rejected. -/
theorem Handed.not_judged_both {x : Item} (accepted : Filter.JudgeInTurn fs x true) :
    ¬ Filter.JudgeInTurn fs x false := by
  intro rejected
  have sure := Filter.acceptEvery_entails fun f listed => Filter.accept_sure (f := f) (x := x)
    fun s selects => handed.isStable numbered pure unlimited
      (Filter.allSelections_eq fs ▸ List.mem_flatMap.mpr ⟨f, listed, selects⟩)
  obtain ⟨_, ⟨⟩, contra⟩ := sure accepted rejected
  cases contra

end

/-- On evaluators without limit a conjunction comes to a set if and only if its filters do in stages.
Then both come to that set and to nothing else, and it has the declared type of the set given and the
items that all filters accept. They come to a set if and only if every item is accepted by all filters,
or is rejected by one after all before it have accepted it, whatever those after it make of it. An item
that is so rejected leads to no failure in either form, and without filters a set is left as it is. -/
theorem conjunction_eq_stages (numbered : Query.Numbered queries) (pure : ∀ q ∈ queries, q.IsPure)
    {fs : List Filter} (handed : Handed queries config (· ∈ Filter.allSelections fs) ev)
    (handed' : Handed queries config' (· ∈ Filter.allSelections fs) ev')
    (unlimited : config.maxDepth? = none) (unlimited' : config'.maxDepth? = none) (t : ItemType)
    (items : ItemSet) :
    ((∃ s, ev.ComesTo ((Filter.conjunction fs t).apply · items) (.ok s)) ↔
      ∃ s, ev'.ComesTo (Filter.applyEach · fs items) (.ok s)) ∧
    (∀ s, ev.ComesTo ((Filter.conjunction fs t).apply · items) (.ok s) →
      (∀ r, (ev.ComesTo ((Filter.conjunction fs t).apply · items) r ↔ r = .ok s) ∧
        (ev'.ComesTo (Filter.applyEach · fs items) r ↔ r = .ok s)) ∧
      s.itemType = items.itemType ∧
      ∀ x, x ∈ s.items ↔ x ∈ items.items ∧ ∀ f ∈ fs, ev.ComesTo (f.accept · x) (.ok true)) ∧
    ((∃ s, ev.ComesTo ((Filter.conjunction fs t).apply · items) (.ok s)) ↔
      ∀ x ∈ items.items, (∀ f ∈ fs, ev.ComesTo (f.accept · x) (.ok true)) ∨
        ∃ before f after, fs = before ++ f :: after ∧
          (∀ g ∈ before, ev.ComesTo (g.accept · x) (.ok true)) ∧
          ev.ComesTo (f.accept · x) (.ok false)) ∧
    (∀ before f after x type, fs = before ++ f :: after →
      (∀ g ∈ before, ev.ComesTo (g.accept · x) (.ok true)) → ev.ComesTo (f.accept · x) (.ok false) →
      ∀ r, (ev.ComesTo ((Filter.conjunction fs t).apply · (.singleton x type)) r ↔
          r = .ok (.empty type)) ∧
        (ev'.ComesTo (Filter.applyEach · fs (.singleton x type)) r ↔ r = .ok (.empty type))) ∧
    (fs = [] → ∀ r, (ev.ComesTo ((Filter.conjunction fs t).apply · items) r ↔ r = .ok items) ∧
      (ev'.ComesTo (Filter.applyEach · fs items) r ↔ r = .ok items)) := by
  have fused {items s : ItemSet} : ev.ComesTo ((Filter.conjunction fs t).apply · items) (.ok s) ↔
      Sieved (Filter.JudgeInTurn fs) items.items s.items ∧ s.itemType = items.itemType :=
    handed.apply_iff numbered pure unlimited
  have staged {items s : ItemSet} : ev'.ComesTo (Filter.applyEach · fs items) (.ok s) ↔
      Sieved (Filter.JudgeInTurn fs) items.items s.items ∧ s.itemType = items.itemType :=
    handed'.applyEach_iff numbered pure unlimited'
  have accepted_iff {x : Item} := handed.accept_all_iff numbered pure unlimited (x := x)
  have rejected_iff {x : Item} := handed.reject_iff numbered pure unlimited (x := x)
  -- both forms come to a set to which the items are sieved, and to nothing else
  have only {items s : ItemSet} (sieved : Sieved (Filter.JudgeInTurn fs) items.items s.items)
      (typed : s.itemType = items.itemType) (r : Except Error ItemSet) :
      (ev.ComesTo ((Filter.conjunction fs t).apply · items) r ↔ r = .ok s) ∧
        (ev'.ComesTo (Filter.applyEach · fs items) r ↔ r = .ok s) := by
    have left := fused.mpr ⟨sieved, typed⟩
    have right := staged.mpr ⟨sieved, typed⟩
    simp only [Filter.apply_eq_run, Filter.applyEach_eq_run] at left right ⊢
    exact ⟨left.iff_eq, right.iff_eq⟩
  have passes_iff : (∃ s, ev.ComesTo ((Filter.conjunction fs t).apply · items) (.ok s)) ↔
      ∃ kept, Sieved (Filter.JudgeInTurn fs) items.items kept := by
    constructor
    · rintro ⟨s, comes⟩
      exact ⟨_, (fused.mp comes).1⟩
    · rintro ⟨kept, sieved⟩
      obtain ⟨s, rfl, typed⟩ := sieved.exists_set
      exact ⟨s, fused.mpr ⟨sieved, typed⟩⟩
  refine ⟨exists_congr fun s => fused.trans staged.symm, fun s comes => ?_, ?_, ?_, ?_⟩
  · obtain ⟨sieved, typed⟩ := fused.mp comes
    refine ⟨only sieved typed, typed, fun x => ?_⟩
    rw [accepted_iff]
    exact sieved.mem_iff fun a _ => handed.not_judged_both numbered pure unlimited
  · rw [passes_iff, Sieved.exists_iff]
    refine forall₂_congr fun x member => ?_
    rw [accepted_iff, rejected_iff, Bool.exists_bool, or_comm]
  · intro before f after x type same accepted rejected
    exact only (.drop (rejected_iff.mp ⟨before, f, after, same, accepted, rejected⟩) .nil) rfl
  · rintro rfl
    exact only (Filter.sieved_judgeInTurn_nil.mpr rfl) rfl

end Evaluator

/-- The filter for items from which `tally` counts more than one. -/
def Filter.crowded : Filter :=
  .counting Query.counted .gt 1

/-- The filter whose test fails on all but truth values. -/
def Filter.strict : Filter :=
  .test (.constant 0 "strict" .bool true)

namespace Evaluator

open EvalM

theorem accept_crowded : ((Filter.crowded.accept (nested 3) (.atom .unit)).run (.started {})).map
    (fun p => p.1.toOption) = some (some false) := by
  cbv

/-- An item that is rejected by a selection does not come to a test that fails on it. -/
theorem conjunction_eq_stages_tally : (∃ e, (Filter.strict.accept (nested 0) (.atom .unit)).Ends
      (.started {}) (.error e) (.started {})) ∧
    ∀ r, ((Evaluator.started {}).ComesTo
        ((Filter.conjunction [Filter.crowded, Filter.strict] .any).apply ·
          (.singleton (.atom .unit) .any)) r ↔ r = .ok (.empty .any)) ∧
      ((Evaluator.started {}).ComesTo (Filter.applyEach · [Filter.crowded, Filter.strict]
          (.singleton (.atom .unit) .any)) r ↔ r = .ok (.empty .any)) := by
  have handed : Handed {Query.tally} {} (· ∈ Filter.allSelections [Filter.crowded, Filter.strict])
      (.started {}) := by
    refine .between .nothing fun s asks => ?_
    obtain rfl : s = Query.counted := List.mem_singleton.mp asks
    rfl
  have rejected :
      (Evaluator.started {}).ComesTo (Filter.crowded.accept · (.atom .unit)) (.ok false) := by
    obtain ⟨⟨r, ev⟩, ended, same⟩ := Option.map_eq_some_iff.mp accept_crowded
    cases r with
    | error => cases same
    | ok accepted =>
      cases same
      exact ⟨3, ev, ended⟩
  obtain ⟨-, -, -, alone, -⟩ := conjunction_eq_stages Query.numbered_tally
    (fun q same => same ▸ Query.isPure_tally) handed handed rfl rfl .any (.empty .any)
  exact ⟨⟨_, ends_throw.mpr ⟨rfl, rfl⟩⟩,
    alone [] Filter.crowded [Filter.strict] (.atom .unit) .any rfl
      (fun _ => List.not_mem_nil.elim) rejected⟩

end Evaluator

end GraphQuery
