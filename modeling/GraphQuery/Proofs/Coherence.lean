import GraphQuery.Proofs.OpenFrames
/-!
# Coherent evaluators

An evaluator is orderly if its open frames are those of the component stack and none of them is
cached. It is truthful if moreover every cached frame is mapped to what it selects, and the cached
frames are closed under the steps of their queries. The queries come from a collection, in which every
query has a number of its own. Entering a frame and leaving it in any way keep an evaluator orderly
and truthful, whatever the settings are. A truthful evaluator is coherent if it never gives up for
depth.
-/

namespace GraphQuery

/-- A set of queries with different numbers that holds the queries nested in its members. -/
structure Shelf (known : Set Query) : Prop where
  closed : ∀ q ∈ known, ∀ r, q.Nests r → r ∈ known
  numbered : ∀ q ∈ known, ∀ r ∈ known, q.id = r.id → q = r

/-- A shelf of queries all of whose operations are stable. -/
structure Collection (known : Set Query) : Prop extends Shelf known where
  isStable : ∀ q ∈ known, q.IsStable

/-- A shelf of queries all of whose operations are pure. -/
structure Library (known : Set Query) : Prop extends Shelf known where
  isPure : ∀ q ∈ known, q.IsPure

namespace Shelf

variable {known : Set Query}

theorem within (shelf : Shelf known) {q r : Query} (member : q ∈ known) (within : q.Within r) :
    r ∈ known := by
  induction within with
  | refl => exact member
  | tail _ nests ih => exact shelf.closed _ ih _ nests

/-- A query and the queries nested in it have different numbers. -/
theorem id_ne (shelf : Shelf known) {q r s : Query} (member : q ∈ known) (nests : q.Nests r)
    (within : r.Within s) : q.id ≠ s.id :=
  fun same => nests.ne_of_within within
    (shelf.numbered q member s (shelf.within member (within.head nests)) same)

/-- Some queries and the queries nested in them are a shelf, if they are numbered. -/
theorem of_queries {queries : Set Query} (numbered : Query.Numbered queries) :
    Shelf {r | ∃ q ∈ queries, q.Within r} where
  closed := by
    rintro r ⟨q, member, within⟩ s nests
    exact ⟨q, member, within.tail nests⟩
  numbered := by
    rintro q' ⟨q, member, within⟩ r' ⟨r, member', within'⟩ same
    exact numbered q member r member' q' r' within within' same

end Shelf

theorem Library.collection {known : Set Query} (lib : Library known) : Collection known where
  toShelf := lib.toShelf
  isStable q member := (lib.isPure q member).isStable

theorem Library.of_queries {queries : Set Query} (numbered : Query.Numbered queries)
    (pure : ∀ q ∈ queries, q.IsPure) : Library {r | ∃ q ∈ queries, q.Within r} where
  toShelf := .of_queries numbered
  isPure := by
    rintro r ⟨q, member, within⟩
    exact (pure q member).within within

namespace Evaluator

/-- The open frames of an evaluator are those of its component stack. -/
structure Orderly (ev : Evaluator) : Prop where
  opened : ∀ k, k ∈ ev.openSpots ↔ ∃ i, ev.OpenAt k i
  index_lt : ∀ k i, ev.OpenAt k i → i < ev.nextIndex
  disjoint : ∀ k, ev.Cached k → k ∉ ev.openSpots

/-- What an evaluator has cached is right. -/
structure Truthful (known : Set Query) (ev : Evaluator) : Prop extends Orderly ev where
  cached : ∀ (f : Frame) (found : ItemSet), ev.cache[f]? = some found →
    ∃ r ∈ known, r.id = f.query ∧ r.Selects f found
  closed : ∀ r ∈ known, ∀ k k', ev.Cached k → k.query = r.id → r.Leads k k' → ev.Cached k'

/-- A truthful evaluator that never gives up for depth. -/
structure Coherent (known : Set Query) (ev : Evaluator) : Prop extends Truthful known ev where
  unlimited : ev.config.maxDepth? = none

variable {known : Set Query} {ev ev₂ ev' : Evaluator} {new : List Frame} {k : Spot} {i : Nat}

theorem orderly_started (config : Config) : Orderly (.started config) where
  opened k := by simp [openSpots, OpenAt, started]
  index_lt k i opened := by simp [OpenAt, started] at opened
  disjoint k cached := by simp [Cached, started] at cached

theorem truthful_started (known : Set Query) (config : Config) :
    Truthful known (.started config) where
  toOrderly := orderly_started config
  cached f found hit := by simp [started] at hit
  closed r _ k k' cached := by simp [Cached, started] at cached

theorem coherent_fresh (known : Set Query) (memoize : Bool) :
    Coherent known (.fresh memoize) where
  toTruthful := truthful_started known { memoize }
  unlimited := rfl

theorem limitReached_eq_none (unlimited : ev.config.maxDepth? = none) : ev.limitReached? = none := by
  rw [limitReached?, unlimited]
  rfl

namespace Orderly

/-- A state with the open frames of one orderly state and the cache of another is orderly, if the
second has all the open frames of the first. -/
theorem restore (before : Orderly ev) (after : Orderly ev₂) (ext : ev.Extends ev' [])
    (cache : ev'.cache = ev₂.cache) (still : ∀ k ∈ ev.openSpots, k ∈ ev₂.openSpots) :
    Orderly ev' where
  opened k := by
    rw [ext.openSpots, List.map_nil, List.append_nil, before.opened]
    exact exists_congr fun i => (ext.openAt_iff List.not_mem_nil).symm
  index_lt k i opened :=
    (before.index_lt k i ((ext.openAt_iff List.not_mem_nil).mp opened)).trans_le ext.nextIndex
  disjoint k cached open' := by
    unfold Cached at cached
    rw [cache] at cached
    rw [ext.openSpots, List.map_nil, List.append_nil] at open'
    exact after.disjoint k cached (still k open')

theorem clearCache (orderly : Orderly ev) : Orderly ev.clearCache where
  opened := orderly.opened
  index_lt := orderly.index_lt
  disjoint k cached := by simp [Cached, Evaluator.clearCache] at cached

theorem of_sameBut (orderly : Orderly ev) (same : ev.SameBut ev') : Orderly ev' :=
  orderly.restore orderly same.extends same.cache fun _ => id

section

variable {f : Frame} (orderly : Orderly ev) (unopened : ∀ i, ¬ ev.OpenAt f.spot i)

include orderly unopened

theorem not_mem_openSpots : f.spot ∉ ev.openSpots := by
  intro member
  obtain ⟨i, opened⟩ := (orderly.opened _).mp member
  exact unopened i opened

theorem enter (uncached : ¬ ev.Cached f.spot) : Orderly (enter f ev) where
  opened k := by
    rw [openSpots_enter, List.mem_append, List.mem_singleton, orderly.opened]
    simp only [openAt_enter unopened, exists_or, exists_and_left, exists_eq, and_true]
  index_lt k i opened := by
    obtain opened | ⟨-, rfl⟩ := (openAt_enter unopened).mp opened
    · exact (orderly.index_lt k i opened).trans (Nat.lt_succ_self _)
    · exact Nat.lt_succ_self _
  disjoint k cached open' := by
    rw [openSpots_enter, List.mem_append, List.mem_singleton] at open'
    obtain open' | rfl := open'
    · exact orderly.disjoint k cached open'
    · exact uncached cached

variable (ext : (Evaluator.enter f ev).Extends ev₂ new) (after : Orderly ev₂)

include ext after

theorem abandon : Orderly (abandon ev.component.size (exit f ev₂)) := by
  refine orderly.restore after (abandon_extends unopened ext) rfl fun k open' => ?_
  rw [ext.openSpots, openSpots_enter]
  exact List.mem_append_left _ (List.mem_append_left _ open')

omit orderly in
theorem suspend (found : ItemSet) :
    Orderly (suspend f ⟨ev.nextIndex, found⟩ (exit f ev₂)) where
  opened k := by
    simp only [openAt_suspend unopened ext]
    exact after.opened k
  index_lt k i opened := after.index_lt k i ((openAt_suspend unopened ext found).mp opened)
  disjoint := after.disjoint

omit orderly unopened after in
/-- What a closed component caches are its members. -/
theorem hit_close (found : ItemSet) {g : Frame} {items : ItemSet}
    (hit : (Evaluator.close ev.component.size found (exit f ev₂)).2.cache[g]? = some items) :
    (ev.config.memoize = true ∧ g.spot ∈ (f :: new).map Frame.spot) ∧
        items = (Evaluator.close ev.component.size found (exit f ev₂)).1 ∨
      ev₂.cache[g]? = some items := by
  rw [cache_close found ext] at hit
  split at hit
  · next closed => exact .inl ⟨closed, (Option.some.inj hit).symm⟩
  · exact .inr hit

omit orderly unopened after in
theorem cached_close (found : ItemSet) :
    (Evaluator.close ev.component.size found (exit f ev₂)).2.Cached k ↔
      (ev.config.memoize = true ∧ k ∈ (f :: new).map Frame.spot) ∨ ev₂.Cached k := by
  constructor
  · rintro ⟨g, items, rfl, hit⟩
    obtain ⟨closed, -⟩ | hit := hit_close ext found hit
    · exact .inl closed
    · exact .inr ⟨g, items, rfl, hit⟩
  · intro known
    by_cases closed : ev.config.memoize = true ∧ k ∈ (f :: new).map Frame.spot
    · obtain ⟨g, -, rfl⟩ := List.mem_map.mp closed.2
      exact ⟨g, _, rfl, by rw [cache_close found ext, if_pos closed]⟩
    · obtain closed' | ⟨g, items, rfl, hit⟩ := known
      · exact absurd closed' closed
      · exact ⟨g, items, rfl, by rw [cache_close found ext, if_neg closed, hit]⟩

/-- Closing a component leaves an evaluator orderly. -/
theorem close (found : ItemSet) :
    Orderly (Evaluator.close ev.component.size found (exit f ev₂)).2 := by
  have ext' := close_extends found ext unopened after.disjoint
  have stack : (Evaluator.close ev.component.size found (exit f ev₂)).2.openSpots =
      ev.openSpots := by
    rw [ext'.openSpots, List.map_nil, List.append_nil]
  exact {
    opened k := by
      rw [stack, orderly.opened]
      exact exists_congr fun i => (ext'.openAt_iff List.not_mem_nil).symm
    index_lt k i opened :=
      (orderly.index_lt k i ((ext'.openAt_iff List.not_mem_nil).mp opened)).trans_le
        ext'.nextIndex
    disjoint k cached open' := by
      rw [stack] at open'
      obtain ⟨-, listed⟩ | cached := (cached_close ext found).mp cached
      · obtain ⟨g, among, rfl⟩ := List.mem_map.mp listed
        obtain ⟨i, opened⟩ := (orderly.opened _).mp open'
        exact unopened_of_mem unopened ext among i opened
      · refine after.disjoint k cached ?_
        rw [ext.openSpots, openSpots_enter]
        exact List.mem_append_left _ (List.mem_append_left _ open') }

end

end Orderly

namespace Truthful

/-- Something is known of an open frame. -/
theorem consult_of_mem (truthful : Truthful known ev) {f : Frame} (opened : f.spot ∈ ev.openSpots) :
    ∃ reach, (consult f ev).1 = some reach := by
  cases heard : (consult f ev).1 with
  | some reach => exact ⟨reach, rfl⟩
  | none =>
    obtain ⟨i, opened⟩ := (truthful.opened f.spot).mp opened
    exact ((consult_eq_none.mp heard).2 i opened).elim

/-- A state with the open frames of one truthful state and the cache of another is truthful, if the
second has all the open frames of the first. -/
theorem restore (before : Truthful known ev) (after : Truthful known ev₂)
    (ext : ev.Extends ev' []) (cache : ev'.cache = ev₂.cache)
    (still : ∀ k ∈ ev.openSpots, k ∈ ev₂.openSpots) : Truthful known ev' where
  toOrderly := before.toOrderly.restore after.toOrderly ext cache still
  cached f found hit := after.cached f found (cache ▸ hit)
  closed r member k k' cached := by
    unfold Cached at cached ⊢
    rw [cache] at cached ⊢
    exact after.closed r member k k' cached

theorem of_sameBut (truthful : Truthful known ev) (same : ev.SameBut ev') : Truthful known ev' :=
  truthful.restore truthful same.extends same.cache fun _ => id

section

variable {f : Frame} (truthful : Truthful known ev) (unopened : ∀ i, ¬ ev.OpenAt f.spot i)

include truthful unopened

theorem enter (uncached : ¬ ev.Cached f.spot) : Truthful known (enter f ev) where
  toOrderly := truthful.toOrderly.enter unopened uncached
  cached := truthful.cached
  closed := truthful.closed

variable (ext : (Evaluator.enter f ev).Extends ev₂ new) (after : Truthful known ev₂)

include ext after

theorem abandon : Truthful known (abandon ev.component.size (exit f ev₂)) := by
  refine truthful.restore after (abandon_extends unopened ext) rfl fun k open' => ?_
  rw [ext.openSpots, openSpots_enter]
  exact List.mem_append_left _ (List.mem_append_left _ open')

omit truthful in
theorem suspend (found : ItemSet) :
    Truthful known (suspend f ⟨ev.nextIndex, found⟩ (exit f ev₂)) where
  toOrderly := Orderly.suspend unopened ext after.toOrderly found
  cached := after.cached
  closed := after.closed

/-- Closing a component keeps the evaluator truthful if the component has found what each member
selects and its steps lead to members and cached frames only. -/
theorem close {q : Query} (col : Collection known) (member : q ∈ known) (found : ItemSet)
    (query : ∀ g ∈ f :: new, g.query = q.id)
    (selects : ∀ g ∈ f :: new,
      q.Selects g (close ev.component.size found (exit f ev₂)).1)
    (leads : ev.config.memoize = true → ∀ g ∈ f :: new, ∀ k, q.Leads g.spot k →
      k ∈ (f :: new).map Frame.spot ∨ ev₂.Cached k) :
    Truthful known (close ev.component.size found (exit f ev₂)).2 where
  toOrderly := truthful.toOrderly.close unopened ext after.toOrderly found
  cached g items hit := by
    obtain ⟨closed, rfl⟩ | hit := Orderly.hit_close ext found hit
    · obtain ⟨h, listed, same⟩ := List.mem_map.mp closed.2
      refine ⟨q, member, ?_, (selects h listed).congr same⟩
      rw [← query h listed]
      exact congrArg Spot.query same
    · exact after.cached g items hit
  closed r known' k k' cached equal step := by
    obtain ⟨memoize, listed⟩ | cached := (Orderly.cached_close ext found).mp cached
    · obtain ⟨g, among, rfl⟩ := List.mem_map.mp listed
      obtain rfl : q = r := col.numbered q member r known' ((query g among).symm.trans equal)
      refine (Orderly.cached_close ext found).mpr ?_
      obtain next | cached := leads memoize g among k' step
      · exact .inl ⟨memoize, next⟩
      · exact .inr cached
    · exact (Orderly.cached_close ext found).mpr
        (.inr (after.closed r known' k k' cached equal step))

end

end Truthful

/-- What keeps an evaluator truthful keeps it coherent, as it keeps the settings. -/
theorem Coherent.of_extends (before : Coherent known ev) (ext : ev.Extends ev' new)
    (after : Truthful known ev') : Coherent known ev' :=
  ⟨after, by rw [ext.config, before.unlimited]⟩

theorem Coherent.of_sameBut (coherent : Coherent known ev) (same : ev.SameBut ev') :
    Coherent known ev' :=
  coherent.of_extends same.extends (coherent.toTruthful.of_sameBut same)

/-- The least index that was come upon is not above the given one. -/
def Below (low? : Option Nat) (i : Nat) : Prop :=
  ∃ l, low? = some l ∧ l ≤ i

theorem below_lower {left? right? : Option Nat} {i : Nat} :
    Below (lower left? right?) i ↔ Below left? i ∨ Below right? i := by
  cases left? <;> cases right? <;> simp [Below, lower]

theorem lower_eq_some {left? right? : Option Nat} {l : Nat} (low : lower left? right? = some l) :
    left? = some l ∨ right? = some l := by
  revert low
  cases left? <;> cases right? <;> simp [lower]
  omega

/-- No query within the given one has an open frame. -/
def Clear (q : Query) (ev : Evaluator) : Prop :=
  ∀ r, q.Within r → ∀ k ∈ ev.openSpots, k.query ≠ r.id

theorem Clear.extends {q : Query} (clear : Clear q ev) (ext : ev.Extends ev' []) : Clear q ev' := by
  intro r within k opened
  rw [ext.openSpots, List.map_nil, List.append_nil] at opened
  exact clear r within k opened

/-- Entering a frame of a query opens none of the queries nested in it. -/
theorem Clear.enter {q r : Query} {f : Frame} (clear : Clear r ev) (shelf : Shelf known)
    (member : q ∈ known) (nests : q.Nests r) (query : f.query = q.id) : Clear r (enter f ev) := by
  intro s within k opened
  rw [openSpots_enter, List.mem_append, List.mem_singleton] at opened
  obtain old | rfl := opened
  · exact clear s within k old
  · exact fun contra => shelf.id_ne member nests within (query.symm.trans contra)

/-- Nor does leaving frames of the query open. -/
theorem Clear.grow {q r : Query} (clear : Clear r ev) (shelf : Shelf known) (member : q ∈ known)
    (nests : q.Nests r) (ext : ev.Extends ev' new) (queries : ∀ f ∈ new, f.query = q.id) :
    Clear r ev' := by
  intro s within k opened
  rw [ext.openSpots, List.mem_append] at opened
  obtain old | recent := opened
  · exact clear s within k old
  · obtain ⟨f, inNew, rfl⟩ := List.mem_map.mp recent
    exact fun contra => shelf.id_ne member nests within ((queries f inNew).symm.trans contra)

theorem clear_of_closed (closed : ev.openSpots = []) (q : Query) : Clear q ev := by
  intro r _ k opened
  rw [closed] at opened
  cases opened

theorem clear_fresh (q : Query) (memoize : Bool) : Clear q (.fresh memoize) :=
  clear_of_closed rfl q

end Evaluator

end GraphQuery
