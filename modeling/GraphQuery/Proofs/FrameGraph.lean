import GraphQuery.Proofs.Purity
import Mathlib.Data.Set.Finite.Lattice
/-!
# The graph of frames

Frames up to equality are spots. The operations of a query lead from spot to spot, so that its spots
form a graph of their own, and what a frame selects is what arrives at spots of its end along the
paths of that graph. Spots are safe if finitely many others can be reached and no operation fails or
goes on without end on the way.
-/

namespace GraphQuery

/-- A frame up to equality. -/
structure Spot where
  query : QueryId
  start : Node
  stop : Node
  items : ItemSet.Essence
deriving DecidableEq

/-- What equality sees of a frame. -/
def Frame.spot (f : Frame) : Spot :=
  ⟨f.query, f.start, f.stop, f.items.essence⟩

theorem Frame.spot_eq_iff {f g : Frame} : f.spot = g.spot ↔ (f == g) = true := by
  rw [Frame.beq_iff, ← ItemSet.essence_eq_iff]
  unfold Frame.spot
  rw [Spot.mk.injEq]

namespace Query

/-- An operation of the query comes to an outcome on the items of a spot. -/
def Takes (q : Query) (k : Spot) (a : Arc) (op : Operation) (o : Option (Except Error ItemSet)) :
    Prop :=
  (a, op) ∈ q.steps k.start ∧
    ∃ items : ItemSet, items.essence = k.items ∧ items.isEmpty = false ∧ op.Results items o

/-- An operation leads from a spot to another. -/
def Leads (q : Query) (k k' : Spot) : Prop :=
  ∃ a op reached, q.Takes k a op (some (.ok reached)) ∧ reached.isEmpty = false ∧
    k' = { k with start := a.target, items := reached.essence }

/-- An operation fails at a spot. -/
def Breaks (q : Query) (k : Spot) : Prop :=
  ∃ a op e, q.Takes k a op (some (.error e))

/-- An operation goes on without end at a spot. -/
def Stalls (q : Query) (k : Spot) : Prop :=
  ∃ a op, q.Takes k a op none

/-- The operations come to some end at a spot, and pass if that is sure. -/
def Resolved (q : Query) (sure : Prop) (k : Spot) : Prop :=
  ∀ a op o, q.Takes k a op o → ∃ r, o = some r ∧ (sure → r.isOk = true)

/-- A spot can be reached from another. -/
def Reaches (q : Query) : Spot → Spot → Prop :=
  Relation.ReflTransGen q.Leads

/-- A content arrives at the end. -/
def Gathers (q : Query) (k : Spot) (c : Content) : Prop :=
  ∃ k', q.Reaches k k' ∧ k'.start = k'.stop ∧ c ∈ k'.items.contents

/-- Some operation fails that is met on the way. -/
def Dooms (q : Query) (k : Spot) : Prop :=
  ∃ k', q.Reaches k k' ∧ q.Breaks k'

/-- Finitely many spots are met on the way, and every operation leads on from them. -/
structure Safe (q : Query) (k : Spot) : Prop where
  finite : {k' | q.Reaches k k'}.Finite
  sound : ∀ k', q.Reaches k k' → ¬ q.Breaks k'
  lively : ∀ k', q.Reaches k k' → ¬ q.Stalls k'

/-- A set of items is what a frame selects, without failure. -/
structure Selects (q : Query) (f : Frame) (found : ItemSet) : Prop where
  itemType : found.itemType = f.stop.inputType
  contents : ∀ c, c ∈ found.contents ↔ q.Gathers f.spot c
  safe : q.Safe f.spot

variable {q : Query} {k k' : Spot}

theorem Leads.query (leads : q.Leads k k') : k'.query = k.query := by
  obtain ⟨a, op, reached, -, -, rfl⟩ := leads
  rfl

theorem Leads.stop (leads : q.Leads k k') : k'.stop = k.stop := by
  obtain ⟨a, op, reached, -, -, rfl⟩ := leads
  rfl

theorem Reaches.refl (q : Query) (k : Spot) : q.Reaches k k := Relation.ReflTransGen.refl

theorem Reaches.query (reaches : q.Reaches k k') : k'.query = k.query := by
  induction reaches with
  | refl => rfl
  | tail _ leads ih => exact leads.query.trans ih

theorem Reaches.stop (reaches : q.Reaches k k') : k'.stop = k.stop := by
  induction reaches with
  | refl => rfl
  | tail _ leads ih => exact leads.stop.trans ih

theorem Gathers.of_reaches {c : Content} (reaches : q.Reaches k k') (gathers : q.Gathers k' c) :
    q.Gathers k c := by
  obtain ⟨k'', further, rest⟩ := gathers
  exact ⟨k'', reaches.trans further, rest⟩

theorem Dooms.of_reaches (reaches : q.Reaches k k') (dooms : q.Dooms k') : q.Dooms k := by
  obtain ⟨k'', further, breaks⟩ := dooms
  exact ⟨k'', reaches.trans further, breaks⟩

theorem Safe.of_reaches (safe : q.Safe k) (reaches : q.Reaches k k') : q.Safe k' where
  finite := safe.finite.subset fun _ further => reaches.trans further
  sound k'' further := safe.sound k'' (reaches.trans further)
  lively k'' further := safe.lively k'' (reaches.trans further)

/-- Where no operation goes on without end, and none fails if that is sure, all are resolved. -/
theorem resolved_of_not_stalls {sure : Prop} (lively : ¬ q.Stalls k) (sound : sure → ¬ q.Breaks k) :
    q.Resolved sure k := by
  intro a op o takes
  match o with
  | none => exact (lively ⟨a, op, takes⟩).elim
  | some (.ok t) => exact ⟨.ok t, rfl, fun _ => rfl⟩
  | some (.error e) => exact ⟨.error e, rfl, fun holds => (sound holds ⟨a, op, e, takes⟩).elim⟩

theorem Safe.resolved (safe : q.Safe k) (reaches : q.Reaches k k') (sure : Prop) :
    q.Resolved sure k' :=
  resolved_of_not_stalls (safe.lively k' reaches) fun _ => safe.sound k' reaches

theorem Safe.not_dooms (safe : q.Safe k) : ¬ q.Dooms k :=
  fun ⟨k', reaches, breaks⟩ => safe.sound k' reaches breaks

/-- Equal frames select the same. -/
theorem Selects.congr {f g : Frame} {found : ItemSet} (selects : q.Selects f found)
    (same : f.spot = g.spot) : q.Selects g found where
  itemType := selects.itemType.trans (congrArg (fun k : Spot => k.stop.inputType) same)
  contents c := same ▸ selects.contents c
  safe := same ▸ selects.safe

/-- From no items none are selected. -/
theorem Selects.of_isEmpty {f : Frame} (empty : f.items.isEmpty = true) :
    q.Selects f (.empty f.stop.inputType) := by
  have alone {k : Spot} (reaches : q.Reaches f.spot k) : k = f.spot := by
    obtain rfl | ⟨_, ⟨_, _, _, ⟨-, s, same, filled, -⟩, -, -⟩, -⟩ := reaches.cases_head
    · rfl
    · rw [ItemSet.isEmpty_congr same, empty] at filled
      cases filled
  have idle {a : Arc} {op : Operation} {o : Option (Except Error ItemSet)} {k : Spot}
      (reaches : q.Reaches f.spot k) : ¬ q.Takes k a op o := by
    rintro ⟨-, s, same, filled, -⟩
    rw [alone reaches] at same
    rw [ItemSet.isEmpty_congr same, empty] at filled
    cases filled
  refine ⟨rfl, fun c => ?_, (Set.finite_singleton f.spot).subset fun k => alone, ?_, ?_⟩
  · refine iff_of_false (by simp) ?_
    rintro ⟨k, reaches, -, content⟩
    rw [alone reaches] at content
    have content : c ∈ f.items.contents := ItemSet.mem_essence.mp content
    simp [ItemSet.contents_eq_nil empty] at content
  · rintro k reaches ⟨a, op, e, takes⟩
    exact idle reaches takes
  · rintro k reaches ⟨a, op, takes⟩
    exact idle reaches takes

/-- All sets that equal frames select are equal. -/
theorem Selects.unique {f g : Frame} {found found' : ItemSet} (selects : q.Selects f found)
    (selects' : q.Selects g found') (same : f.spot = g.spot) : found.essence = found'.essence := by
  have selects' := selects'.congr same.symm
  refine congrArg₂ ItemSet.Essence.mk (selects.itemType.trans selects'.itemType.symm) ?_
  ext c
  rw [List.mem_toFinset, List.mem_toFinset, selects.contents, selects'.contents]

section stable

variable (stable : q.IsStable)

include stable

/-- An operation that comes to a set of items neither fails nor goes on without end, and comes to
equal sets only. -/
theorem Takes.only {a : Arc} {op : Operation} {reached : ItemSet} {o : Option (Except Error ItemSet)}
    (takes : q.Takes k a op (some (.ok reached))) (other : q.Takes k a op o) :
    ∃ t : ItemSet, o = some (.ok t) ∧ t.essence = reached.essence := by
  obtain ⟨listed, s, same, -, results⟩ := takes
  obtain ⟨-, s', same', -, results'⟩ := other
  obtain ⟨t, rfl, equal⟩ := stable op (mem_operations_of_mem_steps listed)
    (ItemSet.essence_eq_iff.mp (same.trans same'.symm)) results results'
  exact ⟨t, rfl, (ItemSet.essence_eq_iff.mpr equal).symm⟩

/-- Finitely many spots are one step away. -/
theorem finite_leads (k : Spot) : {k' | q.Leads k k'}.Finite := by
  classical
  refine ((q.steps k.start).finite_toSet.biUnion fun step _ => ?_ :
    (⋃ step ∈ {step | step ∈ q.steps k.start}, {k' | ∃ reached,
      q.Takes k step.1 step.2 (some (.ok reached)) ∧
        k' = { k with start := step.1.target, items := reached.essence }}).Finite).subset ?_
  · refine Set.Subsingleton.finite ?_
    rintro _ ⟨reached, takes, rfl⟩ _ ⟨reached', takes', rfl⟩
    obtain ⟨t, equal, same⟩ := takes.only stable takes'
    cases equal
    rw [same]
  · rintro k' ⟨a, op, reached, takes, -, rfl⟩
    exact Set.mem_biUnion (show (a, op) ∈ {step | step ∈ q.steps k.start} from takes.1)
      ⟨reached, takes, rfl⟩

end stable

/-! Regions -/

section region

variable {members : Set Spot}

/-- What can be reached from a set of spots is in the set or lies behind a step that leaves it. -/
theorem Reaches.mem_or_leaves (within : k ∈ members) (reaches : q.Reaches k k') :
    k' ∈ members ∨ ∃ m ∈ members, ∃ next, q.Leads m next ∧ next ∉ members ∧ q.Reaches next k' := by
  induction reaches with
  | refl => exact .inl within
  | @tail m k' _ leads ih =>
    obtain within | ⟨m', within, next, leaves, outside, reaches⟩ := ih
    · by_cases inside : k' ∈ members
      · exact .inl inside
      · exact .inr ⟨m, within, k', leads, inside, .refl q k'⟩
    · exact .inr ⟨m', within, next, leaves, outside, reaches.tail leads⟩

variable (stable : q.IsStable) (finite : members.Finite)
  (passes : ∀ m ∈ members, ∀ step ∈ q.steps m.start,
    ∃ reached, q.Takes m step.1 step.2 (some (.ok reached)))
  (leads : ∀ m ∈ members, ∀ next, q.Leads m next → next ∉ members → q.Safe next)

include stable finite passes leads

/-- The spots of a finite set are safe if every operation leads on from them and all steps that leave
the set lead to safe spots. -/
theorem Safe.of_region (within : k ∈ members) : q.Safe k where
  finite := by
    refine (finite.union (finite.biUnion fun m inside =>
      ((finite_leads stable m).subset (Set.inter_subset_left (t := {next | next ∉ members}))).biUnion
        fun next leaves => (leads m inside next leaves.1 leaves.2).finite)).subset ?_
    intro k' reaches
    obtain inside | ⟨m, inside, next, leaves, outside, further⟩ := reaches.mem_or_leaves within
    · exact .inl inside
    · exact .inr (Set.mem_biUnion inside (Set.mem_biUnion ⟨leaves, outside⟩ further))
  sound k' reaches := by
    obtain inside | ⟨m, inside, next, leaves, outside, further⟩ := reaches.mem_or_leaves within
    · rintro ⟨a, op, e, takes⟩
      obtain ⟨reached, takes'⟩ := passes k' inside (a, op) takes.1
      obtain ⟨t, contra, -⟩ := takes'.only stable takes
      cases contra
    · exact (leads m inside next leaves outside).sound k' further
  lively k' reaches := by
    obtain inside | ⟨m, inside, next, leaves, outside, further⟩ := reaches.mem_or_leaves within
    · rintro ⟨a, op, takes⟩
      obtain ⟨reached, takes'⟩ := passes k' inside (a, op) takes.1
      obtain ⟨t, contra, -⟩ := takes'.only stable takes
      cases contra
    · exact (leads m inside next leaves outside).lively k' further

end region

end Query

end GraphQuery
