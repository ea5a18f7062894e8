import GraphQuery.Proofs.FrameGraph
/-!
# Open frames

The frames of the component stack are open: in progress or pending, each with the index of its
visit. A computation may leave new open frames on top of the stack but touches no other, and forgets
no cached frame: the later state extends the earlier one. The lemmas here say so for each way in
which the expansion of a frame is left.
-/

namespace GraphQuery

namespace Evaluator

/-- The frames of the component stack, from the bottom, up to equality. -/
def openSpots (ev : Evaluator) : List Spot :=
  ev.component.toList.map Frame.spot

/-- A frame in progress or pending has the index of a visit. -/
def OpenAt (ev : Evaluator) (k : Spot) (i : Nat) : Prop :=
  ∃ f : Frame, f.spot = k ∧ (ev.inProgress[f]? = some i ∨ ∃ found, ev.pending[f]? = some ⟨i, found⟩)

/-- The result of a frame is cached. -/
def Cached (ev : Evaluator) (k : Spot) : Prop :=
  ∃ (f : Frame) (found : ItemSet), f.spot = k ∧ ev.cache[f]? = some found

/-- The later state differs by frames left pending on top of the stack, by the cache having grown,
and by counts and events. -/
structure Extends (ev ev' : Evaluator) (new : List Frame) : Prop where
  config : ev'.config = ev.config
  depth : ev'.depth = ev.depth
  component : ev'.component.toList = ev.component.toList ++ new
  inProgress : ∀ f : Frame, ev'.inProgress[f]? = ev.inProgress[f]?
  pending : ∀ f : Frame, f.spot ∉ new.map Frame.spot → ev'.pending[f]? = ev.pending[f]?
  cache : ∀ (f : Frame) (found : ItemSet), ev.cache[f]? = some found → ev'.cache[f]? = some found
  nextIndex : ev.nextIndex ≤ ev'.nextIndex
  unopened : ∀ f ∈ new, ∀ i, ¬ ev.OpenAt f.spot i

section lookups

variable {α : Type} (m : Std.HashMap Frame α)

theorem getElem?_of_spot {f g : Frame} (same : f.spot = g.spot) : m[f]? = m[g]? :=
  Std.HashMap.getElem?_congr (Frame.spot_eq_iff.mp same)

theorem getElem?_insert_spot (f g : Frame) (a : α) :
    (m.insert f a)[g]? = if f.spot = g.spot then some a else m[g]? := by
  rw [Std.HashMap.getElem?_insert]
  simp only [← Frame.spot_eq_iff]

theorem getElem?_erase_spot (f g : Frame) :
    (m.erase f)[g]? = if f.spot = g.spot then none else m[g]? := by
  rw [Std.HashMap.getElem?_erase]
  simp only [← Frame.spot_eq_iff]

theorem getElem?_erase_all (fs : List Frame) (g : Frame) :
    (fs.foldl (fun m f => m.erase f) m)[g]? =
      if g.spot ∈ fs.map Frame.spot then none else m[g]? := by
  induction fs generalizing m with
  | nil => simp
  | cons f fs ih =>
    rw [List.foldl_cons, ih, getElem?_erase_spot, List.map_cons]
    by_cases later : g.spot ∈ fs.map Frame.spot
    · simp [later]
    · by_cases same : f.spot = g.spot
      · simp [same]
      · simp [later, same, Ne.symm same]

theorem getElem?_insert_all (fs : List Frame) (a : α) (g : Frame) :
    (fs.foldl (fun m f => m.insert f a) m)[g]? =
      if g.spot ∈ fs.map Frame.spot then some a else m[g]? := by
  induction fs generalizing m with
  | nil => simp
  | cons f fs ih =>
    rw [List.foldl_cons, ih, getElem?_insert_spot, List.map_cons]
    by_cases later : g.spot ∈ fs.map Frame.spot
    · simp [later]
    · by_cases same : f.spot = g.spot
      · simp [same]
      · simp [later, same, Ne.symm same]

end lookups

variable {ev ev₁ ev₂ ev' : Evaluator} {new new' : List Frame} {k : Spot} {i : Nat}

theorem OpenAt.of_inProgress {f : Frame} (hit : ev.inProgress[f]? = some i) :
    ev.OpenAt f.spot i :=
  ⟨f, rfl, .inl hit⟩

theorem OpenAt.of_pending {f : Frame} {p : Pending} (hit : ev.pending[f]? = some p) :
    ev.OpenAt f.spot p.index :=
  ⟨f, rfl, .inr ⟨p.found, hit⟩⟩

namespace Extends

theorem refl (ev : Evaluator) : ev.Extends ev [] :=
  ⟨rfl, rfl, by simp, fun _ => rfl, fun _ _ => rfl, fun _ _ => id, Nat.le_refl _, by simp⟩

theorem openAt_iff (ext : ev.Extends ev' new) (old : k ∉ new.map Frame.spot) :
    ev'.OpenAt k i ↔ ev.OpenAt k i := by
  refine exists_congr fun f => and_congr_right fun same => ?_
  rw [ext.inProgress, ext.pending f (same ▸ old)]

theorem openAt (ext : ev.Extends ev' new) (opened : ev.OpenAt k i) : ev'.OpenAt k i := by
  refine (ext.openAt_iff fun recent => ?_).mpr opened
  obtain ⟨f, member, rfl⟩ := List.mem_map.mp recent
  exact ext.unopened f member i opened

theorem openSpots (ext : ev.Extends ev' new) :
    ev'.openSpots = ev.openSpots ++ new.map Frame.spot := by
  rw [Evaluator.openSpots, ext.component, List.map_append]
  rfl

theorem mem_openSpots (ext : ev.Extends ev' new) (member : k ∈ ev.openSpots) :
    k ∈ ev'.openSpots := by
  rw [ext.openSpots]
  exact List.mem_append_left _ member

theorem cached (ext : ev.Extends ev' new) (cached : ev.Cached k) : ev'.Cached k := by
  obtain ⟨f, found, same, hit⟩ := cached
  exact ⟨f, found, same, ext.cache f found hit⟩

theorem trans (first : ev.Extends ev₁ new) (second : ev₁.Extends ev₂ new') :
    ev.Extends ev₂ (new ++ new') where
  config := second.config.trans first.config
  depth := second.depth.trans first.depth
  component := by rw [second.component, first.component, List.append_assoc]
  inProgress f := (second.inProgress f).trans (first.inProgress f)
  pending f old := by
    rw [List.map_append, List.mem_append, not_or] at old
    exact (second.pending f old.2).trans (first.pending f old.1)
  cache f found hit := second.cache f found (first.cache f found hit)
  nextIndex := first.nextIndex.trans second.nextIndex
  unopened f member i opened := by
    obtain member | member := List.mem_append.mp member
    · exact first.unopened f member i opened
    · exact second.unopened f member i (first.openAt opened)

end Extends

/-- Counts and events apart, two states are the same. -/
structure SameBut (ev ev' : Evaluator) : Prop where
  config : ev'.config = ev.config
  depth : ev'.depth = ev.depth
  component : ev'.component = ev.component
  inProgress : ev'.inProgress = ev.inProgress
  pending : ev'.pending = ev.pending
  cache : ev'.cache = ev.cache
  nextIndex : ev'.nextIndex = ev.nextIndex

theorem SameBut.extends (same : ev.SameBut ev') : ev.Extends ev' [] where
  config := same.config
  depth := same.depth
  component := by rw [same.component, List.append_nil]
  inProgress _ := by rw [same.inProgress]
  pending _ _ := by rw [same.pending]
  cache _ _ hit := by rwa [same.cache]
  nextIndex := same.nextIndex.ge
  unopened := by simp

theorem sameBut_consult (f : Frame) (ev : Evaluator) : ev.SameBut (consult f ev).2 := by
  unfold consult
  repeat' split
  all_goals exact ⟨rfl, rfl, rfl, rfl, rfl, rfl, rfl⟩

theorem sameBut_announce (q : Query) (start stop : Node) (items : ItemSet) (ev : Evaluator) :
    ev.SameBut (announce q start stop items ev) := by
  unfold announce
  split <;> exact ⟨rfl, rfl, rfl, rfl, rfl, rfl, rfl⟩

theorem sameBut_conclude (q : Query) (before : Evaluator) (r : Except Error Reach)
    (ev : Evaluator) : ev.SameBut (conclude q before r ev) := by
  unfold conclude
  repeat' split
  all_goals exact ⟨rfl, rfl, rfl, rfl, rfl, rfl, rfl⟩

/-- What is known of a frame comes from the cache, from its being in progress or from its being
pending. -/
theorem consult_eq_some {f : Frame} {reach : Reach} (known : (consult f ev).1 = some reach) :
    (∃ found, ev.cache[f]? = some found ∧ reach = ⟨found, none⟩) ∨
    (∃ i, ev.inProgress[f]? = some i ∧ reach = ⟨.empty f.stop.inputType, some i⟩) ∨
    ∃ p, ev.pending[f]? = some p ∧ reach = ⟨p.found, some p.index⟩ := by
  unfold consult at known
  split at known
  · rename_i found hit
    exact .inl ⟨found, hit, (Option.some.inj known).symm⟩
  · split at known
    · rename_i i hit
      exact .inr (.inl ⟨i, hit, (Option.some.inj known).symm⟩)
    · split at known
      · rename_i p hit
        exact .inr (.inr ⟨p, hit, (Option.some.inj known).symm⟩)
      · simp at known

/-- Nothing is known of a frame that is neither cached nor open. -/
theorem consult_eq_none {f : Frame} :
    (consult f ev).1 = none ↔ ¬ ev.Cached f.spot ∧ ∀ i, ¬ ev.OpenAt f.spot i := by
  constructor
  · intro unknown
    cases cached : ev.cache[f]? with
    | some found => simp [consult, cached] at unknown
    | none =>
      cases progress : ev.inProgress[f]? with
      | some i => simp [consult, cached, progress] at unknown
      | none =>
        cases pending : ev.pending[f]? with
        | some p => simp [consult, cached, progress, pending] at unknown
        | none =>
          constructor
          · rintro ⟨g, found, same, hit⟩
            simp [getElem?_of_spot _ same, cached] at hit
          · rintro i ⟨g, same, hit | ⟨found, hit⟩⟩
            · simp [getElem?_of_spot _ same, progress] at hit
            · simp [getElem?_of_spot _ same, pending] at hit
  · rintro ⟨uncached, unopened⟩
    cases known : (consult f ev).1 with
    | none => rfl
    | some reach =>
      obtain ⟨found, hit, -⟩ | ⟨i, hit, -⟩ | ⟨p, hit, -⟩ := consult_eq_some known
      · exact (uncached ⟨f, found, rfl, hit⟩).elim
      · exact (unopened i (.of_inProgress hit)).elim
      · exact (unopened p.index (.of_pending hit)).elim

/-! Leaving the expansion of a frame -/

section

variable {f : Frame}

theorem openSpots_enter : (enter f ev).openSpots = ev.openSpots ++ [f.spot] := by
  unfold openSpots
  change ((ev.component.push f).toList).map _ = _
  rw [Array.toList_push, List.map_append]
  rfl

theorem inProgress_enter (g : Frame) : (enter f ev).inProgress[g]? =
    if f.spot = g.spot then some ev.nextIndex else ev.inProgress[g]? :=
  getElem?_insert_spot _ _ _ _

variable (unopened : ∀ i, ¬ ev.OpenAt f.spot i)

include unopened

theorem inProgress_enter_of_some {g : Frame} (hit : ev.inProgress[g]? = some i) :
    (enter f ev).inProgress[g]? = some i := by
  rw [inProgress_enter, if_neg fun same => unopened i ⟨g, same.symm, .inl hit⟩, hit]

theorem openAt_enter :
    (enter f ev).OpenAt k i ↔ ev.OpenAt k i ∨ k = f.spot ∧ i = ev.nextIndex := by
  constructor
  · rintro ⟨g, rfl, hit | ⟨found, hit⟩⟩
    · rw [inProgress_enter] at hit
      split at hit
      · rename_i same
        exact .inr ⟨same.symm, (Option.some.inj hit).symm⟩
      · exact .inl ⟨g, rfl, .inl hit⟩
    · exact .inl ⟨g, rfl, .inr ⟨found, hit⟩⟩
  · rintro (⟨g, rfl, hit | ⟨found, hit⟩⟩ | ⟨rfl, rfl⟩)
    · exact ⟨g, rfl, .inl (inProgress_enter_of_some unopened hit)⟩
    · exact ⟨g, rfl, .inr ⟨found, hit⟩⟩
    · exact ⟨f, rfl, .inl (by rw [inProgress_enter, if_pos rfl])⟩

variable (ext : (enter f ev).Extends ev₂ new)

include ext

omit unopened in
theorem inProgress_entered (g : Frame) : ev₂.inProgress[g]? =
    if f.spot = g.spot then some ev.nextIndex else ev.inProgress[g]? :=
  (ext.inProgress g).trans (inProgress_enter g)

theorem inProgress_exit (g : Frame) : (exit f ev₂).inProgress[g]? = ev.inProgress[g]? := by
  change (ev₂.inProgress.erase f)[g]? = _
  rw [getElem?_erase_spot, inProgress_entered ext]
  split
  · rename_i same
    cases hit : ev.inProgress[g]? with
    | none => rfl
    | some i => exact (unopened i ⟨g, same.symm, .inl hit⟩).elim
  · rfl

omit unopened in
theorem component_exit :
    (exit f ev₂).component.toList = ev.component.toList ++ f :: new := by
  change ev₂.component.toList = _
  rw [ext.component]
  change (ev.component.push f).toList ++ new = _
  rw [Array.toList_push, List.append_assoc]
  rfl

omit unopened in
theorem depth_exit : (exit f ev₂).depth = ev.depth := by
  change ev₂.depth - 1 = _
  rw [ext.depth]
  rfl

theorem unopened_of_mem {g : Frame} (member : g ∈ f :: new) : ∀ i, ¬ ev.OpenAt g.spot i := by
  intro i opened
  obtain rfl | member := List.mem_cons.mp member
  · exact unopened i opened
  · exact ext.unopened g member i ((openAt_enter unopened).mpr (.inl opened))

theorem pending_erased {g : Frame} (member : g.spot ∈ (f :: new).map Frame.spot) :
    ev.pending[g]? = none := by
  obtain ⟨h, member, same⟩ := List.mem_map.mp member
  cases hit : ev.pending[g]? with
  | none => rfl
  | some p => exact (unopened_of_mem unopened ext member p.index (same ▸ .of_pending hit)).elim

theorem spot_not_mem_new : f.spot ∉ new.map Frame.spot := by
  intro member
  obtain ⟨g, member, same⟩ := List.mem_map.mp member
  refine ext.unopened g member ev.nextIndex ?_
  exact (openAt_enter unopened).mpr (.inr ⟨same, rfl⟩)

theorem pending_entered {g : Frame} (same : f.spot = g.spot) : ev₂.pending[g]? = none := by
  rw [ext.pending g (same ▸ spot_not_mem_new unopened ext)]
  exact pending_erased unopened ext (same ▸ List.mem_cons_self)

omit unopened in
theorem pending_exit {g : Frame} (old : g.spot ∉ new.map Frame.spot) :
    (exit f ev₂).pending[g]? = ev.pending[g]? :=
  ext.pending g old

/-- Dropping the frames that were opened leaves those pending that were before. -/
theorem pending_dropped (g : Frame) :
    (if g.spot ∈ (f :: new).map Frame.spot then none else (exit f ev₂).pending[g]?) =
      ev.pending[g]? := by
  split
  · next member => exact (pending_erased unopened ext member).symm
  · next old => exact pending_exit ext fun recent => old (List.mem_cons_of_mem _ recent)

omit unopened in
theorem members_exit :
    ((exit f ev₂).component.extract ev.component.size).toList = f :: new := by
  have size : (exit f ev₂).component.size = ev.component.toList.length + (f :: new).length := by
    rw [← Array.length_toList, component_exit ext, List.length_append]
  rw [Array.toList_extract, component_exit ext, List.extract_eq_take_drop, size,
    ← Array.length_toList, List.drop_left, Nat.add_sub_cancel_left, List.take_length]

omit unopened in
theorem shrink_exit :
    ((exit f ev₂).component.shrink ev.component.size).toList = ev.component.toList := by
  rw [Array.toList_shrink, component_exit ext, ← Array.length_toList, List.take_left]

/-- When the expansion has failed, the stack is as it was before. -/
theorem abandon_extends : ev.Extends (abandon ev.component.size (exit f ev₂)) [] where
  config := ext.config
  depth := depth_exit ext
  component := (shrink_exit ext).trans (List.append_nil _).symm
  inProgress := inProgress_exit unopened ext
  pending g _ := by
    change (((exit f ev₂).component.extract ev.component.size).foldl (fun pending f => pending.erase f)
      (exit f ev₂).pending)[g]? = _
    rw [← Array.foldl_toList, members_exit ext, getElem?_erase_all, pending_dropped unopened ext]
  cache g found hit := ext.cache g found hit
  nextIndex := (Nat.le_succ _).trans ext.nextIndex
  unopened := by simp

/-- When the frame is left pending, it is on the stack with the new frames above it. -/
theorem suspend_extends (p : Pending) : ev.Extends (suspend f p (exit f ev₂)) (f :: new) where
  config := ext.config
  depth := depth_exit ext
  component := by
    change (exit f ev₂).component.toList = _
    exact component_exit ext
  inProgress := inProgress_exit unopened ext
  pending g old := by
    rw [List.map_cons, List.mem_cons, not_or] at old
    change ((exit f ev₂).pending.insert f p)[g]? = _
    rw [getElem?_insert_spot, if_neg (Ne.symm old.1)]
    exact pending_exit ext old.2
  cache g found hit := ext.cache g found hit
  nextIndex := (Nat.le_succ _).trans ext.nextIndex
  unopened g member i := unopened_of_mem unopened ext member i

omit unopened ext in
theorem pending_suspend (p : Pending) (g : Frame) :
    (suspend f p (exit f ev₂)).pending[g]? = if f.spot = g.spot then some p else ev₂.pending[g]? :=
  getElem?_insert_spot _ _ _ _

/-- A frame that is left pending keeps the index of its visit. -/
theorem openAt_suspend (found : ItemSet) :
    (suspend f ⟨ev.nextIndex, found⟩ (exit f ev₂)).OpenAt k i ↔ ev₂.OpenAt k i := by
  have progress (g : Frame) : (suspend f ⟨ev.nextIndex, found⟩ (exit f ev₂)).inProgress[g]? =
      ev.inProgress[g]? := inProgress_exit unopened ext g
  refine exists_congr fun g => and_congr_right fun _ => ?_
  rw [progress, pending_suspend, inProgress_entered ext]
  by_cases same : f.spot = g.spot
  · have left : ev.inProgress[g]? = none := by
      cases hit : ev.inProgress[g]? with
      | none => rfl
      | some j => exact (unopened j ⟨g, same.symm, .inl hit⟩).elim
    simp [same, left, pending_entered unopened ext same, eq_comm]
  · simp [same]

end

/-- Collects what pending frames have found and drops them. -/
def gather : ItemSet × Std.HashMap Frame Pending → Frame → ItemSet × Std.HashMap Frame Pending :=
  fun (items, pending) f =>
    match pending[f]? with
    | some p => (items.union p.found, pending.erase f)
    | none => (items, pending)

section gather

variable {s : ItemSet × Std.HashMap Frame Pending} {f : Frame}

theorem gather_pending {p : Pending} (hit : s.2[f]? = some p) :
    gather s f = (s.1.union p.found, s.2.erase f) := by
  simp [gather, hit]

theorem gather_none (hit : s.2[f]? = none) : gather s f = s := by
  simp [gather, hit]

theorem lookup_gather (g : Frame) :
    (gather s f).2[g]? = if f.spot = g.spot then none else s.2[g]? := by
  cases hit : s.2[f]? with
  | some p => rw [gather_pending hit, getElem?_erase_spot]
  | none =>
    rw [gather_none hit]
    split
    · rename_i same
      rw [← getElem?_of_spot _ same, hit]
    · rfl

theorem lookup_gather_all (fs : List Frame) (s : ItemSet × Std.HashMap Frame Pending) (g : Frame) :
    (fs.foldl gather s).2[g]? = if g.spot ∈ fs.map Frame.spot then none else s.2[g]? := by
  induction fs generalizing s with
  | nil => simp
  | cons f fs ih =>
    rw [List.foldl_cons, ih, lookup_gather, List.map_cons]
    by_cases later : g.spot ∈ fs.map Frame.spot
    · simp [later]
    · by_cases same : f.spot = g.spot
      · simp [same]
      · simp [later, same, Ne.symm same]

/-- What is collected is what was there and what the frames have found. -/
theorem contents_gather_all (fs : List Frame) (s : ItemSet × Std.HashMap Frame Pending)
    (c : Content) : c ∈ (fs.foldl gather s).1.contents ↔
      c ∈ s.1.contents ∨ ∃ f ∈ fs, ∃ p, s.2[f]? = some p ∧ c ∈ p.found.contents := by
  induction fs generalizing s with
  | nil => simp
  | cons f fs ih =>
    rw [List.foldl_cons, ih]
    constructor
    · rintro (found | ⟨g, member, p, hit, found⟩)
      · cases pending : s.2[f]? with
        | none => exact .inl (by rwa [gather_none pending] at found)
        | some p =>
          rw [gather_pending pending, ItemSet.mem_contents_union] at found
          obtain found | found := found
          · exact .inl found
          · exact .inr ⟨f, List.mem_cons_self, p, pending, found⟩
      · rw [lookup_gather] at hit
        split at hit
        · cases hit
        · exact .inr ⟨g, List.mem_cons_of_mem f member, p, hit, found⟩
    · rintro (found | ⟨g, member, p, hit, found⟩)
      · left
        cases pending : s.2[f]? with
        | none => rwa [gather_none pending]
        | some p =>
          rw [gather_pending pending]
          exact ItemSet.mem_contents_union.mpr (.inl found)
      · by_cases same : f.spot = g.spot
        · rw [← getElem?_of_spot _ same] at hit
          rw [gather_pending hit]
          exact .inl (ItemSet.mem_contents_union.mpr (.inr found))
        · obtain rfl | member := List.mem_cons.mp member
          · exact absurd rfl same
          · exact .inr ⟨g, member, p, by rw [lookup_gather, if_neg same, hit], found⟩

/-- What is collected has what unions keep if what was there and what the frames have found do. -/
theorem gather_all_induction {P : ItemSet → Prop} (union : ∀ u v, P u → P v → P (u.union v))
    (fs : List Frame) (s : ItemSet × Std.HashMap Frame Pending) (there : P s.1)
    (pending : ∀ f ∈ fs, ∀ p, s.2[f]? = some p → P p.found) : P (fs.foldl gather s).1 := by
  induction fs generalizing s with
  | nil => exact there
  | cons f fs ih =>
    rw [List.foldl_cons]
    refine ih (gather s f) ?_ fun g member p hit => ?_
    · cases hit : s.2[f]? with
      | none => rwa [gather_none hit]
      | some p =>
        rw [gather_pending hit]
        exact union _ _ there (pending f List.mem_cons_self p hit)
    · rw [lookup_gather] at hit
      split at hit
      · cases hit
      · exact pending g (List.mem_cons_of_mem f member) p hit

end gather

theorem close_eq (mark : Nat) (found : ItemSet) (ev : Evaluator) :
    close mark found ev =
      let members := (ev.component.extract mark).toList
      let gathered := members.foldl gather (found, ev.pending)
      (gathered.1, { ev with
        component := ev.component.shrink mark
        pending := gathered.2
        cache := if ev.config.memoize then
            members.foldl (fun cache f => cache.insert f gathered.1) ev.cache
          else ev.cache }) := by
  simp only [close, Array.foldl_toList]
  rfl

section

variable {f : Frame} (found : ItemSet) (ext : (enter f ev).Extends ev₂ new)

include ext

/-- What a closed component has found. -/
theorem contents_close (c : Content) :
    c ∈ (close ev.component.size found (exit f ev₂)).1.contents ↔
      c ∈ found.contents ∨ ∃ g ∈ f :: new, ∃ p, ev₂.pending[g]? = some p ∧ c ∈ p.found.contents := by
  rw [close_eq, members_exit ext]
  exact contents_gather_all _ _ _

theorem itemType_close {t : ItemType} (typed : found.itemType = t)
    (pending : ∀ g ∈ f :: new, ∀ p, ev₂.pending[g]? = some p → p.found.itemType = t) :
    (close ev.component.size found (exit f ev₂)).1.itemType = t := by
  rw [close_eq, members_exit ext]
  exact gather_all_induction (P := fun u => u.itemType = t) (fun _ _ => ItemSet.itemType_union_self) _ _
    typed pending

theorem cache_close (g : Frame) :
    (close ev.component.size found (exit f ev₂)).2.cache[g]? =
      if ev.config.memoize = true ∧ g.spot ∈ (f :: new).map Frame.spot then
        some (close ev.component.size found (exit f ev₂)).1
      else ev₂.cache[g]? := by
  rw [close_eq, members_exit ext]
  have config : (exit f ev₂).config.memoize = ev.config.memoize := congrArg _ ext.config
  cases memoize : ev.config.memoize with
  | false =>
    simp only [config, memoize, Bool.false_eq_true, if_false, false_and]
    rfl
  | true =>
    simp only [config, memoize, if_true, true_and]
    rw [getElem?_insert_all]
    rfl

/-- When the component is closed, the stack is as it was before. -/
theorem close_extends (unopened : ∀ i, ¬ ev.OpenAt f.spot i)
    (disjoint : ∀ k, ev₂.Cached k → k ∉ ev₂.openSpots) :
    ev.Extends (close ev.component.size found (exit f ev₂)).2 [] where
  config := by
    rw [close_eq]
    exact ext.config
  depth := by
    rw [close_eq]
    exact depth_exit ext
  component := by
    rw [close_eq]
    exact (shrink_exit ext).trans (List.append_nil _).symm
  inProgress g := by
    rw [close_eq]
    exact inProgress_exit unopened ext g
  pending g _ := by
    rw [close_eq, members_exit ext]
    change ((f :: new).foldl gather (found, (exit f ev₂).pending)).2[g]? = _
    rw [lookup_gather_all, pending_dropped unopened ext]
  cache g cached hit := by
    have kept := ext.cache g cached hit
    rw [cache_close found ext, if_neg fun closed => ?_]
    · exact kept
    · refine disjoint g.spot ⟨g, cached, rfl, kept⟩ ?_
      rw [ext.openSpots, openSpots_enter, List.append_assoc, List.mem_append]
      exact .inr closed.2
  nextIndex := by
    rw [close_eq]
    exact (Nat.le_succ _).trans ext.nextIndex
  unopened := by simp

end

end Evaluator

end GraphQuery
