import GraphQuery.Proofs.Coherence
/-!
# Explorations

While the frames of a query are expanded, what was found at a frame accounts for each spot that its
steps lead to: either the spot is settled, and what it gathers was found, or it is open, and the
least index that was come upon tells so. Frames that are left pending account for all of their
steps and lead back to a frame that was open before. So when nothing below the index of a frame was
come upon, the frame and those left pending above it lead to each other and to settled spots only:
they are a component, and all of its members select what they found together.
-/

namespace GraphQuery

namespace Evaluator

section

variable (q : Query)

/-- Nothing that can be reached from a spot is open or goes wrong. -/
structure Settled (ev : Evaluator) (k : Spot) : Prop where
  safe : q.Safe k
  apart : ∀ k', q.Reaches k k' → k' ∉ ev.openSpots
  cached : ev.config.memoize = true → ev.Cached k

/-- What was found, and the least index that was come upon, account for a spot. -/
inductive Covers (ev : Evaluator) (low? : Option Nat) (found : ItemSet) (k : Spot) : Prop where
  | settled (settled : Settled q ev k) (gathered : ∀ c, q.Gathers k c → c ∈ found.contents)
  | opened {i : Nat} (opened : ev.OpenAt k i) (below : Below low? i)

/-- What was found at a frame accounts for the frame itself and for some steps that leave it. -/
structure Accounts (ev : Evaluator) (low? : Option Nat) (f : Frame)
    (steps : List (Arc × Operation)) (found : ItemSet) : Prop where
  own : f.start = f.stop → ∀ c ∈ f.items.contents, c ∈ found.contents
  sound : ∀ c ∈ found.contents, q.Gathers f.spot c
  passes : ∀ step ∈ steps, ∃ reached, q.Takes f.spot step.1 step.2 (some (.ok reached))
  covers : ∀ step ∈ steps, ∀ reached, q.Takes f.spot step.1 step.2 (some (.ok reached)) →
    reached.isEmpty = false →
    Covers q ev low? found { f.spot with start := step.1.target, items := reached.essence }

/-- A frame that can be reached from a spot was left pending after some state, accounts for its
steps and leads back to a frame that was open in that state. -/
structure Pends (ev ev' : Evaluator) (k : Spot) (low? : Option Nat) (f : Frame) : Prop where
  reached : q.Reaches k f.spot
  pending : ∃ p, ev'.pending[f]? = some p ∧ ev.nextIndex ≤ p.index ∧
    p.found.itemType = f.stop.inputType ∧ Accounts q ev' low? f (q.steps f.start) p.found
  anchored : ∃ k' i, ev.OpenAt k' i ∧ q.Reaches f.spot k' ∧ Below low? i

/-- The later state extends the earlier one, and what it leaves pending can be reached from a
spot. -/
structure Leaves (ev ev' : Evaluator) (k : Spot) (low? : Option Nat) (new : List Frame) : Prop
    extends ev.Extends ev' new where
  pends : ∀ f ∈ new, Pends q ev ev' k low? f

end

variable {q : Query} {known : Set Query} {ev ev₁ ev₂ : Evaluator} {new new' : List Frame}
  {f : Frame} {k k' : Spot} {low? low'? : Option Nat} {found found' : ItemSet}
  {steps : List (Arc × Operation)}

theorem Leaves.of_extends (ext : ev.Extends ev₁ []) (k : Spot) (low? : Option Nat) :
    Leaves q ev ev₁ k low? [] :=
  ⟨ext, by simp⟩

/-- A later state keeps what was settled settled and what was open open. -/
structure Keeps (q : Query) (ev ev' : Evaluator) : Prop where
  settled : ∀ k, Settled q ev k → Settled q ev' k
  opened : ∀ k i, ev.OpenAt k i → ev'.OpenAt k i

theorem Keeps.refl (q : Query) (ev : Evaluator) : Keeps q ev ev :=
  ⟨fun _ => id, fun _ _ => id⟩

theorem Leaves.keeps (before : Truthful known ev) (leaves : Leaves q ev ev₁ k low? new) :
    Keeps q ev ev₁ where
  settled k' settled := {
    safe := settled.safe
    apart := fun k'' reaches opened => by
      rw [leaves.openSpots, List.mem_append] at opened
      obtain old | recent := opened
      · exact settled.apart k'' reaches old
      · obtain ⟨f, member, rfl⟩ := List.mem_map.mp recent
        obtain ⟨anchor, i, open', back, -⟩ := (leaves.pends f member).anchored
        exact settled.apart anchor (reaches.trans back) ((before.opened anchor).mpr ⟨i, open'⟩)
    cached := fun memoize => leaves.toExtends.cached (settled.cached (leaves.config ▸ memoize)) }
  opened _ _ := leaves.toExtends.openAt

theorem Covers.mono (keeps : Keeps q ev ev₁) (lower : ∀ i, Below low? i → Below low'? i)
    (grown : ∀ c ∈ found.contents, c ∈ found'.contents) (covers : Covers q ev low? found k) :
    Covers q ev₁ low'? found' k := by
  cases covers with
  | settled settled gathered =>
    exact .settled (keeps.settled k settled) fun c gathers => grown c (gathered c gathers)
  | opened opened below => exact .opened (keeps.opened k _ opened) (lower _ below)

theorem Accounts.grow (keeps : Keeps q ev ev₁) (lower : ∀ i, Below low? i → Below low'? i)
    (accounts : Accounts q ev low? f steps found)
    (grown : ∀ c ∈ found.contents, c ∈ found'.contents)
    (sound : ∀ c ∈ found'.contents, q.Gathers f.spot c) : Accounts q ev₁ low'? f steps found' where
  own same c member := grown c (accounts.own same c member)
  sound := sound
  passes := accounts.passes
  covers step member reached takes filled :=
    (accounts.covers step member reached takes filled).mono keeps lower grown

theorem Accounts.mono (keeps : Keeps q ev ev₁) (lower : ∀ i, Below low? i → Below low'? i)
    (accounts : Accounts q ev low? f steps found) : Accounts q ev₁ low'? f steps found :=
  accounts.grow keeps lower (fun _ => id) accounts.sound

/-- One more step is accounted for if the spot that it leads to is. -/
theorem Accounts.snoc {a : Arc} {op : Operation} {reached : ItemSet} (stable : q.IsStable)
    (accounts : Accounts q ev low? f steps found)
    (takes : q.Takes f.spot a op (some (.ok reached)))
    (covers : reached.isEmpty = false →
      Covers q ev low? found { f.spot with start := a.target, items := reached.essence }) :
    Accounts q ev low? f (steps ++ [(a, op)]) found where
  own := accounts.own
  sound := accounts.sound
  passes step member := by
    obtain member | member := List.mem_append.mp member
    · exact accounts.passes step member
    · obtain rfl := List.mem_singleton.mp member
      exact ⟨reached, takes⟩
  covers step member reached' takes' filled := by
    obtain member | member := List.mem_append.mp member
    · exact accounts.covers step member reached' takes' filled
    · obtain rfl := List.mem_singleton.mp member
      obtain ⟨t, equal, same⟩ := takes.only stable takes'
      cases equal
      rw [same]
      exact covers ((ItemSet.isEmpty_congr same).symm.trans filled)

theorem Pends.weaken (lower : ∀ i, Below low? i → Below low'? i)
    (pends : Pends q ev ev₁ k low? f) : Pends q ev ev₁ k low'? f where
  reached := pends.reached
  pending := by
    obtain ⟨p, hit, index, typed, accounts⟩ := pends.pending
    exact ⟨p, hit, index, typed, accounts.mono (.refl q ev₁) lower⟩
  anchored := by
    obtain ⟨anchor, i, opened, back, below⟩ := pends.anchored
    exact ⟨anchor, i, opened, back, lower i below⟩

theorem Leaves.weaken (lower : ∀ i, Below low? i → Below low'? i)
    (leaves : Leaves q ev ev₁ k low? new) : Leaves q ev ev₁ k low'? new :=
  ⟨leaves.toExtends, fun f member => (leaves.pends f member).weaken lower⟩

/-- What two computations leave pending one after the other is left pending by both together. -/
theorem Leaves.trans (between : Truthful known ev₁) (first : Leaves q ev ev₁ k low? new)
    (second : Leaves q ev₁ ev₂ k' low? new') (reaches : q.Reaches k k') :
    Leaves q ev ev₂ k low? (new ++ new') where
  toExtends := first.toExtends.trans second.toExtends
  pends f member := by
    obtain old | recent := List.mem_append.mp member
    · obtain ⟨reached, ⟨p, hit, index, typed, accounts⟩, anchored⟩ := first.pends f old
      refine ⟨reached, ⟨p, ?_, index, typed, accounts.mono (second.keeps between) fun _ => id⟩,
        anchored⟩
      rw [second.pending f fun recent => ?_, hit]
      obtain ⟨g, member, same⟩ := List.mem_map.mp recent
      exact second.unopened g member p.index (same ▸ .of_pending hit)
    · obtain ⟨reached, ⟨p, hit, index, typed, accounts⟩, anchor, i, opened, back, below⟩ :=
        second.pends f recent
      refine ⟨reaches.trans reached, ⟨p, hit, first.nextIndex.trans index, typed, accounts⟩, ?_⟩
      by_cases inFirst : anchor ∈ new.map Frame.spot
      · obtain ⟨g, member, rfl⟩ := List.mem_map.mp inFirst
        obtain ⟨anchor', i', opened', back', below'⟩ := (first.pends g member).anchored
        exact ⟨anchor', i', opened', back.trans back', below'⟩
      · exact ⟨anchor, i, (first.openAt_iff inFirst).mp opened, back, below⟩

/-- A frame that was left pending has the index of a later visit. -/
theorem Pends.index_le {i : Nat} (ext : ev.Extends ev₁ new) (member : f ∈ new)
    (pends : Pends q ev ev₁ k low? f) (opened : ev₁.OpenAt f.spot i) : ev.nextIndex ≤ i := by
  obtain ⟨p, hit, index, -⟩ := pends.pending
  obtain ⟨g, same, progress | ⟨found, pending⟩⟩ := opened
  · rw [ext.inProgress, getElem?_of_spot _ same] at progress
    exact (ext.unopened f member i (.of_inProgress progress)).elim
  · rw [getElem?_of_spot _ same, hit] at pending
    cases pending
    exact index

theorem Accounts.covers_of_leads (accounts : Accounts q ev low? f (q.steps f.start) found)
    (leads : q.Leads f.spot k) : Covers q ev low? found k := by
  obtain ⟨a, op, reached, takes, filled, rfl⟩ := leads
  exact accounts.covers (a, op) takes.1 reached takes filled

/-! Expanding a frame -/

/-- Some steps were taken at a frame that was entered in a state. -/
structure Progress (q : Query) (ev : Evaluator) (f : Frame) (steps : List (Arc × Operation))
    (reach : Reach) (ev' : Evaluator) (new : List Frame) : Prop where
  leaves : Leaves q ev ev' f.spot reach.low? new
  accounts : Accounts q ev' reach.low? f steps reach.items
  hits : ∀ l, reach.low? = some l → ∃ k, ev'.OpenAt k l ∧ q.Reaches f.spot k

/-- A visit to a frame has ended in a set of items. -/
structure Arrives (q : Query) (ev : Evaluator) (f : Frame) (reach : Reach) (ev' : Evaluator)
    (new : List Frame) : Prop where
  leaves : Leaves q ev ev' f.spot reach.low? new
  typed : reach.items.itemType = f.stop.inputType
  sound : ∀ c ∈ reach.items.contents, q.Gathers f.spot c
  covers : Covers q ev' reach.low? reach.items f.spot
  hits : ∀ l, reach.low? = some l → ∃ k, ev.OpenAt k l ∧ q.Reaches f.spot k

namespace Progress

variable {reach : Reach}

theorem start (q : Query) (ev : Evaluator) (f : Frame) :
    Progress q ev f [] ⟨if f.start = f.stop then f.items else .empty f.stop.inputType, none⟩ ev
      [] where
  leaves := .of_extends (.refl ev) _ _
  accounts := {
    own := fun same c member => by rwa [if_pos same]
    sound := fun c member => by
      split at member
      · rename_i same
        exact ⟨f.spot, .refl q _, same, ItemSet.mem_essence.mpr member⟩
      · simp at member
    passes := by simp
    covers := by simp }
  hits l contra := by cases contra

variable {a : Arc} {op : Operation} {reached : ItemSet}

/-- An operation that led nowhere. -/
theorem skip (stable : q.IsStable) (between : Truthful known ev₁)
    (progress : Progress q ev f steps reach ev₁ new) (ext : ev₁.Extends ev₂ [])
    (takes : q.Takes f.spot a op (some (.ok reached))) (nowhere : reached.isEmpty = true) :
    Progress q ev f (steps ++ [(a, op)]) reach ev₂ new where
  leaves := by
    have joined := progress.leaves.trans between (.of_extends ext f.spot reach.low?) (.refl q _)
    rwa [List.append_nil] at joined
  accounts := by
    have before := progress.accounts.mono
      ((Leaves.of_extends ext f.spot none).keeps between) fun _ => id
    exact before.snoc stable takes fun filled => by simp [nowhere] at filled
  hits l low := by
    obtain ⟨k, opened, reaches⟩ := progress.hits l low
    exact ⟨k, ext.openAt opened, reaches⟩

/-- An operation that led to a frame, which was visited. -/
theorem step {ev₃ : Evaluator} {next : Reach} (stable : q.IsStable) (between : Truthful known ev₁)
    (between' : Truthful known ev₂) (progress : Progress q ev f steps reach ev₁ new)
    (ext : ev₁.Extends ev₂ []) (takes : q.Takes f.spot a op (some (.ok reached)))
    (filled : reached.isEmpty = false)
    (arrives : Arrives q ev₂ { f with start := a.target, items := reached } next ev₃ new') :
    Progress q ev f (steps ++ [(a, op)])
      ⟨reach.items.union next.items, lower reach.low? next.low?⟩ ev₃ (new ++ new') := by
  have reaches : q.Reaches f.spot (Frame.spot { f with start := a.target, items := reached }) :=
    .single ⟨a, op, reached, takes, filled, rfl⟩
  have onLeft (i : Nat) (below : Below reach.low? i) : Below (lower reach.low? next.low?) i :=
    below_lower.mpr (.inl below)
  have onRight (i : Nat) (below : Below next.low? i) : Below (lower reach.low? next.low?) i :=
    below_lower.mpr (.inr below)
  have leaves : Leaves q ev₁ ev₃ f.spot (lower reach.low? next.low?) new' :=
    .trans between' (.of_extends ext f.spot _) (arrives.leaves.weaken onRight) reaches
  have accounts : Accounts q ev₃ (lower reach.low? next.low?) f steps
      (reach.items.union next.items) := by
    refine progress.accounts.grow (leaves.keeps between) onLeft
      (fun c member => ItemSet.mem_contents_union.mpr (.inl member)) fun c member => ?_
    obtain member | member := ItemSet.mem_contents_union.mp member
    · exact progress.accounts.sound c member
    · exact (arrives.sound c member).of_reaches reaches
  refine ⟨(progress.leaves.weaken onLeft).trans between leaves (.refl q _),
    accounts.snoc stable takes fun _ => ?_, fun l low => ?_⟩
  · exact arrives.covers.mono (.refl q ev₃) onRight fun c member =>
      ItemSet.mem_contents_union.mpr (.inr member)
  · rcases lower_eq_some low with low | low
    · obtain ⟨k, opened, further⟩ := progress.hits l low
      exact ⟨k, leaves.toExtends.openAt opened, further⟩
    · obtain ⟨k, opened, further⟩ := arrives.hits l low
      exact ⟨k, arrives.leaves.toExtends.openAt opened, reaches.trans further⟩

end Progress

end Evaluator

end GraphQuery
