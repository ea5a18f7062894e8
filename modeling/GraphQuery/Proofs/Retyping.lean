import GraphQuery.Proofs.Straying
import GraphQuery.Proofs.Termination
/-!
# Declared types are advice

The declared type of a set is part of the frames that are visited, and filters hand it on. But no
operation looks at it: under another declared type an operation comes to the same items. So frames that
differ in declared types only lead to frames that differ so. All of them together are finitely many if
those of one type are, as the types come from the operations, and a selection that passes under one
declared type passes under every other, with an equal result.

Which frames are open, however, depends on their types. A selection that fails under one declared type
may go on without end under another, because it comes upon an open frame at another place.
-/

namespace GraphQuery

open EvalM

/-! Other declared types -/

/-- The same contents under another declared type. -/
def ItemSet.Essence.typed (e : ItemSet.Essence) (t : ItemType) : ItemSet.Essence :=
  { e with itemType := t }

/-- The same spot under another declared type. -/
def Spot.typed (k : Spot) (t : ItemType) : Spot :=
  { k with items := k.items.typed t }

theorem ItemSet.withType_withType (s : ItemSet) (t u : ItemType) :
    (s.withType t).withType u = s.withType u := rfl

theorem ItemSet.sift_withType (s : ItemSet) (t : ItemType) (verdicts : List Bool) :
    (s.withType t).sift verdicts = (s.sift verdicts).withType t :=
  eq_of_items (by rw [items_sift, items_withType, items_withType, items_sift]) (itemType_sift ..)

/-- An operation makes of a set under another declared type what it makes of the set, declared as the
set is or as the operation says. -/
theorem Operation.inquiry_withType (op : Operation) (s : ItemSet) (t : ItemType) :
    ∃ u, (u = t ∨ u = op.outputType) ∧
      op.inquiry (s.withType t) = op.inquiry s >>= fun reached => pure (reached.withType u) := by
  cases op with
  | filter f =>
    refine ⟨t, .inl rfl, ?_⟩
    rw [inquiry, inquiry, apply, apply, f.apply_eq, f.apply_eq]
    simp only [bind_assoc, pure_bind, ItemSet.items_withType, ItemSet.sift_withType]
  | follow f =>
    refine ⟨f.handsOn t, f.handsOn_eq t, ?_⟩
    rw [inquiry, inquiry, apply, apply, f.apply_eq, f.apply_eq, bind_assoc]
    simp only [pure_bind]
    rfl
  | count t => exact ⟨.kind .size, .inr rfl, rfl⟩

namespace Query

/-- What is declared as one type may come to be declared as the other: it stays so declared, or some
operation declares what it comes to. -/
def Declares (q : Query) (t u : ItemType) : Prop :=
  u = t ∨ ∃ op ∈ q.operations, u = op.outputType

variable {q : Query} {k k' : Spot} {t u : ItemType}

theorem finite_declares (q : Query) (t : ItemType) : {u | q.Declares t u}.Finite := by
  refine (((List.finite_toSet (q.operations.map Operation.outputType)).insert t).subset ?_)
  rintro u (rfl | ⟨op, listed, rfl⟩)
  · exact Set.mem_insert u _
  · exact Set.mem_insert_of_mem _ (List.mem_map_of_mem listed)

theorem Declares.trans {v : ItemType} (first : q.Declares t u) (second : q.Declares u v) :
    q.Declares t v := by
  obtain rfl | given := second
  · exact first
  · exact .inr given

theorem Takes.of_typed {a : Arc} {op : Operation} {o : Option (Except Error ItemSet)}
    (takes : q.Takes (k.typed t) a op o) : ∃ o' u, q.Declares t u ∧ q.Takes k a op o' ∧
      o = o'.map (Except.map (·.withType u)) := by
  obtain ⟨listed, s, same, filled, results⟩ := takes
  have declared : s.itemType = t := congrArg ItemSet.Essence.itemType same
  obtain ⟨u, given, retyped⟩ := op.inquiry_withType (s.withType k.items.itemType) t
  rw [ItemSet.withType_withType, ← declared] at retyped
  rw [Operation.Results, show op.inquiry s = _ from retyped] at results
  obtain ⟨o', before, rfl⟩ := Inquiry.exists_of_results_bind_pure results
  refine ⟨o', u, given.imp_right fun given => ⟨op, mem_operations_of_mem_steps listed, given⟩,
    ⟨listed, s.withType k.items.itemType, ?_, filled, before⟩, rfl⟩
  exact congrArg (·.typed k.items.itemType) same

theorem Leads.of_typed (leads : q.Leads (k.typed t) k') :
    ∃ k'' u, q.Leads k k'' ∧ q.Declares t u ∧ k' = k''.typed u := by
  obtain ⟨a, op, reached, takes, filled, rfl⟩ := leads
  obtain ⟨_ | _ | reached', u, declares, before, same⟩ := takes.of_typed <;> cases same
  exact ⟨_, u, ⟨a, op, reached', before, filled, rfl⟩, declares, rfl⟩

/-- Whatever is reached under another declared type is reached, save for its declared type. -/
theorem Reaches.of_typed (reaches : q.Reaches (k.typed t) k') :
    ∃ k'' u, q.Reaches k k'' ∧ q.Declares t u ∧ k' = k''.typed u := by
  induction reaches with
  | refl => exact ⟨k, t, .refl q k, .inl rfl, rfl⟩
  | tail _ leads ih =>
    obtain ⟨k'', u, reaches, declares, rfl⟩ := ih
    obtain ⟨k₂, v, before, declares', rfl⟩ := leads.of_typed
    exact ⟨k₂, v, reaches.tail before, declares.trans declares', rfl⟩

theorem Breaks.of_typed (breaks : q.Breaks (k.typed t)) : q.Breaks k := by
  obtain ⟨a, op, e, takes⟩ := breaks
  obtain ⟨_ | _ | _, u, -, before, same⟩ := takes.of_typed <;> cases same
  exact ⟨a, op, e, before⟩

theorem Stalls.of_typed (stalls : q.Stalls (k.typed t)) : q.Stalls k := by
  obtain ⟨a, op, takes⟩ := stalls
  obtain ⟨_ | _, u, -, before, same⟩ := takes.of_typed <;> cases same
  exact ⟨a, op, before⟩

theorem Gathers.of_typed {c : Content} (gathers : q.Gathers (k.typed t) c) : q.Gathers k c := by
  obtain ⟨k', reaches, arrived, content⟩ := gathers
  obtain ⟨k'', u, before, -, rfl⟩ := reaches.of_typed
  exact ⟨k'', before, arrived, content⟩

/-- A spot is safe under every declared type if it is so under one. -/
theorem Safe.typed (safe : q.Safe k) (t : ItemType) : q.Safe (k.typed t) where
  finite := by
    refine (safe.finite.image2 Spot.typed (finite_declares q t)).subset fun k' reaches => ?_
    obtain ⟨k'', u, before, declares, rfl⟩ := reaches.of_typed
    exact ⟨k'', before, u, declares, rfl⟩
  sound k' reaches breaks := by
    obtain ⟨k'', u, before, -, rfl⟩ := reaches.of_typed
    exact safe.sound k'' before breaks.of_typed
  lively k' reaches stalls := by
    obtain ⟨k'', u, before, -, rfl⟩ := reaches.of_typed
    exact safe.lively k'' before stalls.of_typed

/-- A set that is selected under one declared type is so under every other. -/
theorem Selects.typed {f : Frame} {found : ItemSet} (selects : q.Selects f found) (t : ItemType) :
    q.Selects { f with items := f.items.withType t } found where
  itemType := selects.itemType
  contents c := (selects.contents c).trans
    ⟨fun gathers => Gathers.of_typed (k := f.spot.typed t) (t := f.items.itemType) gathers,
      Gathers.of_typed (k := f.spot) (t := t)⟩
  safe := selects.safe.typed t

end Query

/-! Calls -/

theorem Inquiry.AsksIn.of_bind_pure {α β : Type} {select : Selection → Item → EvalM ItemSet}
    {p : Inquiry α} {g : α → β} {ev ev' : Evaluator} {s : Selection} {x : Item}
    (asks : (p >>= fun a => pure (g a)).AsksIn select ev s x ev') : p.AsksIn select ev s x ev' := by
  induction p generalizing ev with
  | done r =>
    cases r with
    | ok => cases asks
    | error => cases asks
  | ask t y next ih =>
    cases asks with
    | here => exact .here ..
    | later passed rest => exact .later passed (ih _ rest)

/-- The same selection under another declared type. -/
def Call.typed (c : Call) (t : ItemType) : Call :=
  { c with items := c.items.withType t }

namespace Call

variable {queries : Set Query} {config : Config} {c d : Call} {t : ItemType}

/-- What a selection may lead to under another declared type it may lead to, save for the declared type
where this is handed on. -/
theorem MayLead.of_typed (leads : MayLead queries config (c.typed t) d) :
    (∃ d' u, MayLead queries config c d' ∧ d'.query = c.query ∧ c.query.Declares t u ∧
      d = d'.typed u) ∨ MayLead queries config c d := by
  cases leads with
  | @along a op reached fuel ev ev' arc label filled working applied further =>
    obtain ⟨u, given, retyped⟩ := op.inquiry_withType c.items t
    rw [op.apply_eq_run, typed, retyped, Inquiry.run_bind] at applied
    obtain ⟨_, -, ⟨⟩⟩ | ⟨reached', _, before, ends⟩ := ends_bind.mp applied
    obtain ⟨⟨⟩, rfl⟩ := ends_pure.mp ends
    refine .inl ⟨⟨c.query, a.target, c.stop, reached'⟩, u, ?_, rfl, ?_, rfl⟩
    · exact .along arc label filled working (by rwa [op.apply_eq_run]) further
    · exact given.imp_right fun given => ⟨op, Query.mem_operations_of_mem_labels label, given⟩
  | @into a op s x stop fuel ev ev' arc label filled working asks ends =>
    obtain ⟨u, -, retyped⟩ := op.inquiry_withType c.items t
    rw [typed, retyped] at asks
    -- the selections of operations start from single items, declared as the selection says
    exact .inr (.into arc label filled working asks.of_bind_pure ends)

/-- If finitely many frames may be reached under one declared type, then so under every other. -/
theorem finite_mayReach_typed (finite : (c.mayReach queries config).Finite) (t : ItemType) :
    ((c.typed t).mayReach queries config).Finite := by
  refine (finite.union (finite.image2 Spot.typed (Query.finite_declares c.query t))).subset ?_
  rintro k ⟨d, reaches, rfl⟩
  suffices (∃ d' u, Relation.ReflTransGen (MayLead queries config) c d' ∧ d'.query = c.query ∧
      c.query.Declares t u ∧ d = d'.typed u) ∨ Relation.ReflTransGen (MayLead queries config) c d by
    obtain ⟨d', u, reached, -, declares, rfl⟩ | reached := this
    · exact .inr ⟨d'.frame.spot, ⟨d', reached, rfl⟩, u, declares, rfl⟩
    · exact .inl ⟨d, reached, rfl⟩
  induction reaches with
  | refl => exact .inl ⟨c, t, .refl, rfl, .inl rfl, rfl⟩
  | tail _ leads ih =>
    obtain ⟨d', u, reached, same, declares, rfl⟩ | reached := ih
    · obtain ⟨e, v, before, same', declares', rfl⟩ | before := leads.of_typed
      · exact .inl ⟨e, v, reached.tail before, same'.trans same,
          declares.trans (same ▸ declares'), rfl⟩
      · exact .inr (reached.tail before)
    · exact .inr (reached.tail leads)

end Call

namespace Evaluator

variable {known queries : Set Query} {config config' : Config} {q : Query} {start stop : Node}
  {items found : ItemSet} {fuel : Nat} {ev ev' ev₁ : Evaluator}

/-- A selection that passes under one declared type passes under every other, on any evaluator, with an
equal result. -/
theorem select_typed (col : Collection known) (member : q ∈ known) (truthful : Truthful known ev)
    (coherent : Coherent known ev') (clear : Clear q ev) (clear' : Clear q ev') (t : ItemType)
    (ends : (select fuel q start stop items).Ends ev (.ok found) ev₁) :
    found.itemType = stop.inputType ∧ ∃ fuel' found' ev₁',
      (select fuel' q start stop (items.withType t)).Ends ev' (.ok found') ev₁' ∧
        (found == found') = true := by
  have understood := understood_of_stable col member
  obtain ⟨r₀, ev₀, walked, same, -⟩ := (selectBy_ends _).mp ends
  have announced := sameBut_announce q start stop items ev
  have announced' := sameBut_announce q start stop (items.withType t) ev'
  cases empty : items.isEmpty with
  | true =>
    cases fuel with
    | zero => exact (not_ends_exhausted walked).elim
    | succ n =>
      obtain ⟨rfl, -⟩ := walked.unique ((visitBy_ends _).mpr (.empty empty))
      cases same
      exact ⟨rfl, 1, _, _, (selectBy_ends _).mpr ⟨_, _, (visitBy_ends _).mpr (.empty empty), rfl, rfl⟩,
        BEq.rfl⟩
  | false =>
    obtain ⟨-, -, ⟨reach, rfl, selects⟩ | ⟨e, rfl, -⟩⟩ := visit_clear col member understood
      (f := ⟨q.id, start, stop, items⟩) rfl empty (truthful.of_sameBut announced)
      (clear.extends announced.extends) walked
    · cases same
      obtain ⟨n, reach', ev₁', walked', equal⟩ := visit_of_selects col member understood
        (f := ⟨q.id, start, stop, items.withType t⟩) rfl empty rfl (selects.typed t)
        (coherent.of_sameBut announced') (clear'.extends announced'.extends)
      exact ⟨selects.itemType, n, _, _, (selectBy_ends _).mpr ⟨_, ev₁', walked', rfl, rfl⟩,
        ItemSet.essence_eq_iff.mp equal⟩
    · cases same

/-- A selection ends if finitely many frames may be reached. -/
theorem select_halts_of_finite (numbered : Query.Numbered queries) (serves : Serves queries config ev)
    (member : q ∈ queries)
    (finite : (Call.mayReach queries config ⟨q, start, stop, items⟩).Finite) :
    ∃ fuel, (select fuel q start stop items).Halts ev := by
  have shelf := Shelf.of_queries numbered
  have included := Query.subset_within queries
  have resting := (serves.resting shelf included).1
  have begins : Begins queries ev ⟨.walk q start stop items, announce q start stop items ev⟩ :=
    .select member start stop items
  have depth : (announce q start stop items ev).depth = 0 :=
    (sameBut_announce q start stop items ev).depth.trans resting.depth
  refine ⟨_, selectBy_halts (visit_halts_of_walked shelf
    (begins.poised shelf included resting.orderly resting.openSpots) ⟨[], .nil, depth.symm, nofun⟩ ?_
    finite .refl (by rw [depth]; exact Nat.lt_succ_self _))⟩
  rintro k ⟨q', start', stop', items', ev', follows, rfl⟩
  exact ⟨_, Moment.Reached.follows serves begins (c := ⟨q, start, stop, items⟩) .refl follows, rfl⟩

/-- If callers' functions respect equality and the types that are checked are blind, then on evaluators
without limit a selection passes under one declared type of its items if and only if it passes under every
other. Two selections that end under different declared types both fail, or come to equal sets, declared as
the end takes them. And both end if finitely many frames may be reached under one of the types. -/
theorem select_withType (numbered : Query.Numbered queries) (lawful : ∀ q ∈ queries, q.Lawful)
    (blind : ∀ q ∈ queries, q.Blind) (serves : Serves queries config ev)
    (serves' : Serves queries config' ev') (unlimited : config.maxDepth? = none)
    (unlimited' : config'.maxDepth? = none) (member : q ∈ queries) (start stop : Node) (items : ItemSet)
    (t u : ItemType) :
    ((∃ fuel s ev₁, (select fuel q start stop (items.withType t)).Ends ev (.ok s) ev₁) ↔
      ∃ fuel s ev₁, (select fuel q start stop (items.withType u)).Ends ev' (.ok s) ev₁) ∧
    (∀ fuel fuel' r r' ev₁ ev₁', (select fuel q start stop (items.withType t)).Ends ev r ev₁ →
      (select fuel' q start stop (items.withType u)).Ends ev' r' ev₁' →
        Alike r r' ∧ ∀ s, r = .ok s ∨ r' = .ok s → s.itemType = stop.inputType) ∧
    ((Call.mayReach queries config ⟨q, start, stop, items.withType t⟩).Finite →
      (Call.mayReach queries config' ⟨q, start, stop, items.withType t⟩).Finite →
        (∃ fuel, (select fuel q start stop (items.withType t)).Halts ev) ∧
          ∃ fuel, (select fuel q start stop (items.withType u)).Halts ev') := by
  have col := Query.collection_of_lawful numbered lawful blind
  have included := Query.subset_within queries
  have retyped {config config' : Config} {ev ev' ev₁ : Evaluator} {fuel : Nat} {s : ItemSet}
      {t : ItemType} (serves : Serves queries config ev) (serves' : Serves queries config' ev')
      (unlimited' : config'.maxDepth? = none) (u : ItemType)
      (ends : (select fuel q start stop (items.withType t)).Ends ev (.ok s) ev₁) :
      s.itemType = stop.inputType ∧ ∃ fuel' s' ev₁',
        (select fuel' q start stop (items.withType u)).Ends ev' (.ok s') ev₁' ∧ (s == s') = true := by
    have passed := select_typed col (included member) (serves.truthful col included)
      (serves'.coherent col included unlimited')
      (clear_of_closed (serves.resting col.toShelf included).1.openSpots q)
      (clear_of_closed (serves'.resting col.toShelf included).1.openSpots q) u ends
    rwa [ItemSet.withType_withType] at passed
  have only {ev ev₁ ev₂ : Evaluator} {items : ItemSet} {n m : Nat} {r r' : Except Error ItemSet}
      (ends : (select n q start stop items).Ends ev r ev₁)
      (ends' : (select m q start stop items).Ends ev r' ev₂) : r = r' :=
    (Ends.unique_of_growing (growing_select q start stop items) ends ends').1
  -- that a run passes carries over both ways, so of two runs that end both pass or both fail
  refine ⟨⟨?_, ?_⟩, fun fuel fuel' r r' ev₁ ev₁' ends ends' => ?_, fun finite finite' =>
    ⟨select_halts_of_finite numbered serves member finite,
      select_halts_of_finite numbered serves' member (Call.finite_mayReach_typed finite' u)⟩⟩
  · rintro ⟨fuel, s, ev₁, ends⟩
    obtain ⟨-, fuel', s', ev₁', ends', -⟩ := retyped serves serves' unlimited' u ends
    exact ⟨fuel', s', ev₁', ends'⟩
  · rintro ⟨fuel, s, ev₁, ends⟩
    obtain ⟨-, fuel', s', ev₁', ends', -⟩ := retyped serves' serves unlimited t ends
    exact ⟨fuel', s', ev₁', ends'⟩
  · cases r with
    | ok s =>
      obtain ⟨typed, _, s', _, passed, equal⟩ := retyped serves serves' unlimited' u ends
      obtain rfl := only passed ends'
      refine ⟨.ok equal, fun v same => ?_⟩
      obtain same | same := same
      · exact Except.ok.inj same ▸ typed
      · exact Except.ok.inj same ▸ (ItemSet.beq_iff.mp equal).1.symm.trans typed
    | error e =>
      cases r' with
      | ok s =>
        obtain ⟨-, _, s', _, passed, -⟩ := retyped serves' serves unlimited t ends'
        exact nomatch only passed ends
      | error e' => exact ⟨.error e e', fun s same => same.elim nofun nofun⟩

/-- The unit is counted under two declared types, with and without a cache. -/
theorem select_withType_tally : ∃ s ev₁ fuel t ev₁',
    (select 3 Query.tally Query.tallySource Query.tallySink
      ((ItemSet.singleton (.atom .unit) .any).withType .any)).Ends (.started {}) (.ok s) ev₁ ∧
    (select fuel Query.tally Query.tallySource Query.tallySink
      ((ItemSet.singleton (.atom .unit) .any).withType (.kind .unit))).Ends (.started ⟨false, none⟩)
        (.ok t) ev₁' ∧ (s == t) = true ∧ t.itemType = .kind .size := by
  obtain ⟨passes, equal, ends⟩ := select_withType Query.numbered_tally
    (fun q same => same ▸ Query.lawful_tally) (fun q same => same ▸ Query.blind_tally)
    (.nothing : Serves _ {} (.started {})) (.nothing : Serves _ ⟨false, none⟩ (.started ⟨false, none⟩))
    rfl rfl (Set.mem_singleton Query.tally) Query.tallySource Query.tallySink
    (.singleton (.atom .unit) .any) .any (.kind .unit)
  have passed : ((select 3 Query.tally Query.tallySource Query.tallySink
      ((ItemSet.singleton (.atom .unit) .any).withType .any)).run (.started {})).map
        (fun p => p.1.isOk) = some true := by cbv
  obtain ⟨⟨r, ev₁⟩, ran, isOk⟩ := Option.map_eq_some_iff.mp passed
  obtain _ | s := r
  · cases isOk
  · obtain ⟨fuel, t, ev₁', ran'⟩ := passes.mp ⟨3, s, ev₁, ran⟩
    obtain ⟨⟨same⟩, typed⟩ := equal _ _ _ _ _ _ ran ran'
    exact ⟨s, ev₁, fuel, t, ev₁', ran, ran', same, typed t (.inr rfl)⟩

/-- The unit that is declared open to any value is refused on its second way through the entry of `snare`.
Declared as its kind it gets into the pit, as there is no second way through an open frame. -/
theorem select_tells_types_apart :
    Query.snare.Lawful ∧ Query.snare.Blind ∧
    (∃ e ev', (select 5 Query.snare Query.snareEntry Query.snarePit
      ((ItemSet.singleton (.atom .unit) .any).withType .any)).Ends (.started {}) (.error e) ev') ∧
    ∀ fuel, ¬ (select fuel Query.snare Query.snareEntry Query.snarePit
      ((ItemSet.singleton (.atom .unit) .any).withType (.kind .unit))).Halts (.started {}) := by
  refine ⟨Query.lawful_snare, Query.blind_snare, ?_, select_snare_strays⟩
  have fails : ((select 5 Query.snare Query.snareEntry Query.snarePit
      ((ItemSet.singleton (.atom .unit) .any).withType .any)).run (.started {})).map
        (fun p => p.1.isOk) = some false := by cbv
  obtain ⟨⟨r, ev'⟩, ran, isOk⟩ := Option.map_eq_some_iff.mp fails
  obtain e | _ := r
  · exact ⟨e, ev', ran⟩
  · cases isOk

end Evaluator

end GraphQuery
