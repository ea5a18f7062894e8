import GraphQuery.Operation.Make
import GraphQuery.Proofs.Itemwise
import GraphQuery.Proofs.QuietOperations
import Mathlib.Data.Fin.Basic
import Mathlib.Data.List.Count
/-!
# Equality of operations

Equality of filters is an equivalence, although conjunctions are compared by counting: conjunctions
are equal if their members fall into the same classes equally often. Equal filters that make no
selection agree wherever both have a verdict, so long as a number stands for one test only. The order
of their members may differ, and with it which of them fails.

Equality of the other operations rests on that of the filters in them, and is an equivalence too.
-/

namespace GraphQuery

theorem Selection.beq_iff {s t : Selection} : (s == t) = true ↔ s.query.id = t.query.id ∧
    s.start = t.start ∧ s.stop? = t.stop? ∧ s.outputType = t.outputType := by
  change (s.query.id == t.query.id && s.start == t.start && s.stop? == t.stop? &&
    s.outputType == t.outputType) = true ↔ _
  simp only [Bool.and_eq_true, beq_iff_eq, and_assoc]

namespace Filter

theorem sameCounts_iff {rest fs gs : List Filter} : sameCounts rest fs gs = true ↔
    ∀ f ∈ rest, fs.countP f.same = gs.countP f.same := by
  induction rest with
  | nil => simp [sameCounts]
  | cons f rest ih => rw [sameCounts, Bool.and_eq_true, ih, List.forall_mem_cons, beq_iff_eq]

theorem same_refl (f : Filter) : f.same f = true := by
  induction f with
  | test p => exact beq_self_eq_true p.id
  | anything t => exact beq_self_eq_true t
  | equals x t => simp [same]
  | every members t ih => simp [same, sameCounts_iff]
  | counting s c k => simp [same, Selection.beq_iff]
  | onSlot types i inner ih => simp [same, ih]

section classes

open Classical

/-- The filters equal to one are those of its class, if equality with it is an equivalence. -/
theorem countP_same {f : Filter} (class' : ∀ g, f.same g = true → f.same = g.same)
    (gs : List Filter) : gs.countP f.same = (gs.map same).count f.same := by
  rw [List.count, List.countP_map]
  refine List.countP_congr fun g _ => ?_
  rw [Function.comp_apply, beq_iff_eq]
  exact ⟨fun equal => (class' g equal).symm, fun equal => equal ▸ same_refl g⟩

theorem forall_countP_same {fs : List Filter}
    (classes : ∀ f ∈ fs, ∀ g, f.same g = true → f.same = g.same) (gs : List Filter) :
    (∀ f ∈ fs, fs.countP f.same = gs.countP f.same) ↔
      ∀ c ∈ fs.map same, (fs.map same).count c = (gs.map same).count c := by
  rw [List.forall_mem_map]
  refine forall₂_congr fun f member => ?_
  rw [countP_same (classes f member), countP_same (classes f member)]

/-- Lists of equal length have the same classes if one has those of the other as often. -/
theorem map_same_perm {fs gs : List Filter}
    (classes : ∀ f ∈ fs, ∀ g, f.same g = true → f.same = g.same) (length : fs.length = gs.length)
    (counts : ∀ f ∈ fs, fs.countP f.same = gs.countP f.same) :
    (fs.map same).Perm (gs.map same) := by
  have counts := (forall_countP_same classes gs).mp counts
  refine (List.subperm_ext_iff.mpr fun c member => (counts c member).le).perm_of_length_le ?_
  rw [List.length_map, List.length_map, length]

/-- Conjunctions that are equal are equal to the same filters, if this holds for the members of one. -/
theorem every_same_eq {fs gs : List Filter} {t u : ItemType}
    (classes : ∀ f ∈ fs, ∀ g, f.same g = true → f.same = g.same)
    (equal : (every fs t).same (every gs u) = true) : (every fs t).same = (every gs u).same := by
  simp only [same, Bool.and_eq_true, beq_iff_eq, sameCounts_iff] at equal
  obtain ⟨⟨rfl, length⟩, counts⟩ := equal
  have perm := map_same_perm classes length counts
  have classes' : ∀ g ∈ gs, ∀ h, g.same h = true → g.same = h.same := by
    intro g member h equal
    obtain ⟨f, listed, known⟩ := List.mem_map.mp (perm.mem_iff.mpr (List.mem_map_of_mem member))
    rw [← known] at equal ⊢
    exact classes f listed h equal
  funext h
  cases h with
  | every hs v =>
    rw [Bool.eq_iff_iff]
    simp only [same, Bool.and_eq_true, beq_iff_eq, sameCounts_iff, length]
    rw [forall_countP_same classes, forall_countP_same classes']
    simp only [perm.mem_iff, perm.count_eq]
  | _ => rfl

/-- Equal filters are equal to the same filters. -/
theorem same_eq {f g : Filter} (equal : f.same g = true) : f.same = g.same := by
  induction f generalizing g with
  | every fs t ih =>
    cases g with
    | every gs u => exact every_same_eq (fun f member _ => ih f member) equal
    | _ => cases equal
  | test p =>
    cases g with
    | test r =>
      have ids : p.id = r.id := beq_iff_eq.mp equal
      funext h
      cases h with
      | test p' => exact congrArg (fun id => id == p'.id) ids
      | _ => rfl
    | _ => cases equal
  | anything t =>
    cases g with
    | anything u =>
      obtain rfl : t = u := beq_iff_eq.mp equal
      rfl
    | _ => cases equal
  | equals x t =>
    cases g with
    | equals y u =>
      simp only [same, Bool.and_eq_true, beq_iff_eq, Item.beq_iff] at equal
      obtain ⟨content, rfl⟩ := equal
      funext h
      cases h with
      | equals =>
        rw [Bool.eq_iff_iff]
        simp only [same, Bool.and_eq_true, Item.beq_iff, content]
      | _ => rfl
    | _ => cases equal
  | counting s c k =>
    cases g with
    | counting t d l =>
      simp only [same, Bool.and_eq_true, beq_iff_eq, Selection.beq_iff] at equal
      obtain ⟨⟨⟨query, start, stop, outputType⟩, rfl⟩, rfl⟩ := equal
      funext h
      cases h with
      | counting =>
        rw [Bool.eq_iff_iff]
        simp only [same, Bool.and_eq_true, Selection.beq_iff, query, start, stop, outputType]
      | _ => rfl
    | _ => cases equal
  | onSlot types i inner ih =>
    cases g with
    | onSlot types' j inner' =>
      simp only [same, Bool.and_eq_true, beq_iff_eq] at equal
      obtain ⟨⟨rfl, index⟩, inside⟩ := equal
      funext h
      cases h with
      | onSlot => simp only [same, index, ih inside]
      | _ => rfl
    | _ => cases equal

theorem same_symm {f g : Filter} (equal : f.same g = true) : g.same f = true :=
  (congrFun (same_eq equal) f).symm.trans (same_refl f)

/-- Members that are equal one by one fall into the same classes equally often. -/
theorem countP_eq_of_forall₂ {fs gs : List Filter}
    (all : List.Forall₂ (fun f g => f.same g = true) fs gs) (h : Filter) :
    fs.countP h.same = gs.countP h.same := by
  induction all with
  | nil => rfl
  | @cons f g _ _ here _ ih =>
    have class' : h.same f = h.same g := by
      rw [Bool.eq_iff_iff]
      exact ⟨fun equal => (congrFun (same_eq equal) g).trans here,
        fun equal => (congrFun (same_eq equal) f).trans (same_symm here)⟩
    rw [List.countP_cons, List.countP_cons, ih, class']

/-- Conjunctions are equal if and only if they are for the same type and the members of one are those of
the other in some order, up to equality. -/
theorem every_same_iff {fs gs : List Filter} {t u : ItemType} :
    (every fs t).same (every gs u) = true ↔
      t = u ∧ ∃ gs', gs'.Perm gs ∧ List.Forall₂ (fun f g => f.same g = true) fs gs' := by
  simp only [same, Bool.and_eq_true, beq_iff_eq, sameCounts_iff, and_assoc]
  refine and_congr_right fun _ => ⟨fun ⟨length, counts⟩ => ?_, fun ⟨gs', perm, all⟩ => ⟨?_, ?_⟩⟩
  · have perm := map_same_perm (fun _ _ _ => same_eq) length counts
    have classes : List.Forall₂ (fun g c => g.same = c) gs (gs.map same) :=
      List.forall₂_map_right_iff.mpr (List.forall₂_same.mpr fun _ _ => rfl)
    obtain ⟨gs', perm', classes'⟩ := List.forall₂_comp_perm_eq_perm_comp_forall₂.le _ _
      ⟨gs.map same, classes, perm.symm⟩
    refine ⟨gs', perm'.symm, (List.forall₂_map_right_iff.mp classes').flip.imp fun f g known => ?_⟩
    exact known ▸ same_refl g
  · rw [all.length_eq, perm.length_eq]
  · exact fun f _ => (countP_eq_of_forall₂ all f).trans (perm.countP_eq f.same)

/-- Every member of one of two equal conjunctions equals a member of the other. -/
theorem exists_same_of_mem {fs gs : List Filter} {t u : ItemType}
    (equal : (every fs t).same (every gs u) = true) :
    (∀ f ∈ fs, ∃ g ∈ gs, f.same g = true) ∧ ∀ g ∈ gs, ∃ f ∈ fs, f.same g = true := by
  obtain ⟨-, gs', perm, all⟩ := every_same_iff.mp equal
  constructor
  · intro f member
    obtain ⟨g, listed, here⟩ := exists_of_mem_forall₂ all member
    exact ⟨g, perm.mem_iff.mp listed, here⟩
  · intro g member
    exact exists_of_mem_forall₂ all.flip (perm.mem_iff.mpr member)

end classes

instance : EquivBEq Filter where
  rfl := same_refl _
  symm equal := same_symm equal
  trans {_ _ h} equal equal' := (congrFun (same_eq equal) h).trans equal'

end Filter

instance : EquivBEq Selection where
  rfl := Selection.beq_iff.mpr ⟨rfl, rfl, rfl, rfl⟩
  symm equal := by
    obtain ⟨query, start, stop, outputType⟩ := Selection.beq_iff.mp equal
    exact Selection.beq_iff.mpr ⟨query.symm, start.symm, stop.symm, outputType.symm⟩
  trans equal equal' := by
    obtain ⟨query, start, stop, outputType⟩ := Selection.beq_iff.mp equal
    obtain ⟨query', start', stop', outputType'⟩ := Selection.beq_iff.mp equal'
    exact Selection.beq_iff.mpr ⟨query.trans query', start.trans start', stop.trans stop',
      outputType.trans outputType'⟩

instance : EquivBEq Mapping where
  rfl := BEq.refl (α := Nat) _
  symm := BEq.symm (α := Nat)
  trans := BEq.trans (α := Nat)

instance : EquivBEq BoundFunction where
  rfl {f} := Bool.and_eq_true_iff.mpr ⟨beq_self_eq_true f.id, beq_self_eq_true f.types⟩
  symm equal := by
    obtain ⟨id, types⟩ := Bool.and_eq_true_iff.mp equal
    exact Bool.and_eq_true_iff.mpr ⟨BEq.symm id, BEq.symm types⟩
  trans equal equal' := by
    obtain ⟨id, types⟩ := Bool.and_eq_true_iff.mp equal
    obtain ⟨id', types'⟩ := Bool.and_eq_true_iff.mp equal'
    exact Bool.and_eq_true_iff.mpr ⟨BEq.trans id id', BEq.trans types types'⟩

/-- Follows that are made alike from equal parts. -/
inductive Follow.Same : Follow → Follow → Prop where
  | map {m n : Mapping} (equal : (m == n) = true) : Same (.map m) (.map n)
  | filter {f g : Filter} (equal : (f == g) = true) : Same (.filter f) (.filter g)
  | select {s t : Selection} (equal : (s == t) = true) : Same (.select s) (.select t)
  | slot (types : List ItemType) (i : Fin types.length) : Same (.slot types i) (.slot types i)
  | permute (types : List ItemType) (order : List (Fin types.length)) :
    Same (.permute types order) (.permute types order)
  | pair {f g : Follow} (same : Same f g) : Same (.pair f) (.pair g)
  | onSlot (types : List ItemType) (i : Fin types.length) {f g : Follow} (same : Same f g) :
    Same (.onSlot types i f) (.onSlot types i g)
  | call {f g : BoundFunction} (equal : (f == g) = true) : Same (.call f) (.call g)

namespace Follow

theorem same_iff {f g : Follow} : f.same g = true ↔ f.Same g := by
  constructor
  · intro equal
    induction f generalizing g with
    | map => cases g with | map => exact .map equal | _ => cases equal
    | filter => cases g with | filter => exact .filter equal | _ => cases equal
    | select => cases g with | select => exact .select equal | _ => cases equal
    | slot types i =>
      cases g with
      | slot types' j =>
        simp only [same, Bool.and_eq_true, beq_iff_eq] at equal
        obtain ⟨rfl, index⟩ := equal
        obtain rfl := Fin.ext index
        exact .slot types i
      | _ => cases equal
    | permute types order =>
      cases g with
      | permute types' order' =>
        simp only [same, Bool.and_eq_true, beq_iff_eq] at equal
        obtain ⟨rfl, orders⟩ := equal
        obtain rfl := List.map_injective_iff.mpr Fin.val_injective orders
        exact .permute types order
      | _ => cases equal
    | pair inner ih => cases g with | pair => exact .pair (ih equal) | _ => cases equal
    | onSlot types i inner ih =>
      cases g with
      | onSlot types' j inner' =>
        simp only [same, Bool.and_eq_true, beq_iff_eq] at equal
        obtain ⟨⟨rfl, index⟩, equal⟩ := equal
        obtain rfl := Fin.ext index
        exact .onSlot types i (ih equal)
      | _ => cases equal
    | call => cases g with | call => exact .call equal | _ => cases equal
  · intro alike
    induction alike with
    | map equal | filter equal | select equal | call equal => exact equal
    | slot types i | permute types order => simp [same]
    | pair _ ih => exact ih
    | onSlot types i _ ih => simp [same, ih]

namespace Same

theorem refl (f : Follow) : f.Same f := by
  induction f with
  | map => exact .map BEq.rfl
  | filter => exact .filter BEq.rfl
  | select => exact .select BEq.rfl
  | slot types i => exact .slot types i
  | permute types order => exact .permute types order
  | pair _ ih => exact .pair ih
  | onSlot types i _ ih => exact .onSlot types i ih
  | call => exact .call BEq.rfl

theorem symm {f g : Follow} (alike : f.Same g) : g.Same f := by
  induction alike with
  | map equal => exact .map (BEq.symm equal)
  | filter equal => exact .filter (BEq.symm equal)
  | select equal => exact .select (BEq.symm equal)
  | slot types i => exact .slot types i
  | permute types order => exact .permute types order
  | pair _ ih => exact .pair ih
  | onSlot types i _ ih => exact .onSlot types i ih
  | call equal => exact .call (BEq.symm equal)

theorem trans {f g h : Follow} (alike : f.Same g) (alike' : g.Same h) : f.Same h := by
  induction alike generalizing h with
  | map equal => cases alike' with | map equal' => exact .map (BEq.trans equal equal')
  | filter equal => cases alike' with | filter equal' => exact .filter (BEq.trans equal equal')
  | select equal => cases alike' with | select equal' => exact .select (BEq.trans equal equal')
  | slot types i | permute types order => exact alike'
  | pair _ ih => cases alike' with | pair alike' => exact .pair (ih alike')
  | onSlot types i _ ih => cases alike' with | onSlot _ _ alike' => exact .onSlot types i (ih alike')
  | call equal => cases alike' with | call equal' => exact .call (BEq.trans equal equal')

end Same

end Follow

instance : EquivBEq Follow where
  rfl := Follow.same_iff.mpr (.refl _)
  symm equal := Follow.same_iff.mpr (Follow.same_iff.mp equal).symm
  trans equal equal' := Follow.same_iff.mpr ((Follow.same_iff.mp equal).trans (Follow.same_iff.mp equal'))

namespace Operation

theorem same_refl (op : Operation) : op.same op = true := by
  cases op with
  | filter f => exact BEq.refl f
  | follow f => exact BEq.refl f
  | count t => exact beq_self_eq_true t

/-- Equal operations are equal to the same operations. -/
theorem same_eq {op op' : Operation} (equal : op.same op' = true) : op.same = op'.same := by
  cases op with
  | filter f =>
    cases op' with
    | filter g =>
      funext h
      cases h with
      | filter f' => exact BEq.congr_left equal
      | _ => rfl
    | _ => cases equal
  | follow f =>
    cases op' with
    | follow g =>
      funext h
      cases h with
      | follow f' => exact BEq.congr_left equal
      | _ => rfl
    | _ => cases equal
  | count t =>
    cases op' with
    | count u =>
      obtain rfl : t = u := beq_iff_eq.mp equal
      rfl
    | _ => cases equal

end Operation

instance : EquivBEq Operation where
  rfl := Operation.same_refl _
  symm {op _} equal := (congrFun (Operation.same_eq equal) op).symm.trans (Operation.same_refl op)
  trans {_ _ op} equal equal' := (congrFun (Operation.same_eq equal) op).trans equal'

theorem Operation.beq_symm {op op' : Operation} (equal : (op == op') = true) :
    (op' == op) = true :=
  BEq.symm equal

end GraphQuery
