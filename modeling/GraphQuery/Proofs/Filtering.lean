import GraphQuery.Proofs.Conjunctions
import GraphQuery.Proofs.FrameGraph
/-!
# Filters at spots

What a filter that makes no selection does to a set of items, up to equality: it keeps the contents
that it accepts, if it decides on all of them. In the graph of frames such a filter leads from a spot
to the part of its items that is accepted.
-/

namespace GraphQuery

namespace Filter

variable {f g : Filter} {fs : List Filter} {t u : ItemType} {c : Content}

/-- A filter accepts the items of a content. -/
def Accepts (f : Filter) (c : Content) : Prop :=
  ∃ x : Item, x.content = c ∧ f.verdict x = .ok true

/-- A filter accepts or rejects the items of a content, and does not fail. -/
def Decides (f : Filter) (c : Content) : Prop :=
  ∃ (x : Item) (b : Bool), x.content = c ∧ f.verdict x = .ok b

theorem Agrees.verdict (agrees : f.Agrees) {x y : Item} (same : x.content = y.content) {b : Bool}
    (verdict : f.verdict x = .ok b) : f.verdict y = .ok b :=
  agrees.eq_ok (Item.beq_iff.mpr same) verdict

theorem Agrees.accepts_iff (agrees : f.Agrees) {x : Item} :
    f.Accepts x.content ↔ f.verdict x = .ok true :=
  ⟨fun ⟨_, same, verdict⟩ => agrees.verdict same verdict, fun verdict => ⟨x, rfl, verdict⟩⟩

theorem Agrees.decides_iff (agrees : f.Agrees) {x : Item} :
    f.Decides x.content ↔ ∃ b, f.verdict x = .ok b :=
  ⟨fun ⟨_, b, same, verdict⟩ => ⟨b, agrees.verdict same verdict⟩, fun ⟨b, verdict⟩ => ⟨x, b, rfl, verdict⟩⟩

theorem accepts_conjunction (fs : List Filter) (t u : ItemType) (c : Content) :
    (conjunction fs t).Accepts c ↔ (every fs u).Accepts c := by
  simp only [Accepts, verdict_conjunction, verdict_every]

theorem decides_conjunction (fs : List Filter) (t u : ItemType) (c : Content) :
    (conjunction fs t).Decides c ↔ (every fs u).Decides c := by
  simp only [Decides, verdict_conjunction, verdict_every]

theorem accepts_every_singleton (f : Filter) (t : ItemType) (c : Content) :
    (every [f] t).Accepts c ↔ f.Accepts c := by
  simp only [Accepts, verdict_every, verdicts_singleton]

theorem accepts_every_cons (agrees : f.Agrees) :
    (every (f :: fs) t).Accepts c ↔ f.Accepts c ∧ (every fs t).Accepts c := by
  constructor
  · rintro ⟨x, same, accepted⟩
    rcases verdicts_cons_eq_ok.mp accepted with ⟨here, later⟩ | ⟨-, contra⟩
    · exact ⟨⟨x, same, here⟩, x, same, later⟩
    · cases contra
  · rintro ⟨⟨x, same, here⟩, y, same', later⟩
    have here := agrees.verdict (same.trans same'.symm) here
    exact ⟨y, same', verdicts_cons_eq_ok.mpr (.inl ⟨here, later⟩)⟩

/-- A conjunction decides if its first member does and, on what that accepts, the others do. -/
theorem decides_every_cons (agrees : f.Agrees) (first : f.Decides c)
    (rest : f.Accepts c → (every fs t).Decides c) : (every (f :: fs) t).Decides c := by
  obtain ⟨x, b, same, here⟩ := first
  cases b with
  | true =>
    obtain ⟨y, b, same', later⟩ := rest ⟨x, same, here⟩
    have here := agrees.verdict (same.trans same'.symm) here
    exact ⟨y, b, same', verdicts_cons_eq_ok.mpr (.inl ⟨here, later⟩)⟩
  | false => exact ⟨x, false, same, verdicts_cons_eq_ok.mpr (.inr ⟨here, rfl⟩)⟩

/-- Equal filters accept the same of what both decide on. -/
theorem accepts_iff_of_same {tried : Set Predicate} (identified : Identified tried)
    (mergeable : f.isMergeable = true) (equal : f.same g = true) (left : ∀ p ∈ f.predicates, p ∈ tried)
    (right : ∀ p ∈ g.predicates, p ∈ tried) (agrees : f.Agrees) (agrees' : g.Agrees)
    (decides : f.Decides c) (decides' : g.Decides c) : f.Accepts c ↔ g.Accepts c := by
  obtain ⟨x, b, rfl, verdict⟩ := decides
  obtain ⟨b', verdict'⟩ := agrees'.decides_iff.mp decides'
  obtain rfl := verdict_eq_of_same identified mergeable equal left right verdict verdict'
  rw [agrees.accepts_iff, agrees'.accepts_iff, verdict, verdict']

end Filter

namespace ItemSet

open Classical

/-- The part of a set whose contents satisfy a condition, up to equality. -/
noncomputable def Essence.filter (i : Essence) (keep : Content → Prop) : Essence :=
  ⟨i.itemType, i.contents.filter keep⟩

theorem Essence.mem_filter {i : Essence} {keep : Content → Prop} {c : Content} :
    c ∈ (i.filter keep).contents ↔ c ∈ i.contents ∧ keep c :=
  Finset.mem_filter

theorem Essence.filter_filter (i : Essence) (keep keep' : Content → Prop) :
    (i.filter keep).filter keep' = i.filter fun c => keep c ∧ keep' c := by
  refine congrArg (Essence.mk i.itemType) (Finset.ext fun c => ?_)
  simp only [Essence.filter, Finset.mem_filter, and_assoc]

theorem Essence.filter_congr {i : Essence} {keep keep' : Content → Prop}
    (same : ∀ c ∈ i.contents, keep c ↔ keep' c) : i.filter keep = i.filter keep' :=
  congrArg (Essence.mk i.itemType) (Finset.filter_congr same)

/-- Filtering comes to the part that is accepted, if the filter decides on all contents. -/
theorem filterM_eq_ok {f : Filter} (agrees : f.Agrees) {s : ItemSet}
    (decides : ∀ c ∈ s.essence.contents, f.Decides c) :
    ∃ t : ItemSet, s.filterM f.verdict = .ok t ∧ t.essence = s.essence.filter f.Accepts := by
  rcases s.filterM_cases f.verdict with ⟨t, passed, -, typed, kept⟩ | ⟨e, -, x, member, failed⟩
  · refine ⟨t, passed, congrArg₂ Essence.mk typed (Finset.ext fun c => ?_)⟩
    rw [Finset.mem_filter, List.mem_toFinset, mem_essence, contents, contents, List.mem_map, List.mem_map]
    constructor
    · rintro ⟨x, member, rfl⟩
      obtain ⟨inside, accepted⟩ := (kept x).mp member
      exact ⟨⟨x, inside, rfl⟩, agrees.accepts_iff.mpr accepted⟩
    · rintro ⟨⟨x, inside, rfl⟩, accepted⟩
      exact ⟨x, (kept x).mpr ⟨inside, agrees.accepts_iff.mp accepted⟩, rfl⟩
  · obtain ⟨b, verdict⟩ :=
      agrees.decides_iff.mp (decides x.content (mem_essence.mpr (List.mem_map_of_mem member)))
    rw [failed] at verdict
    cases verdict

/-- A filter that comes to a set has decided on all contents. -/
theorem decides_of_filterM {f : Filter} {s t : ItemSet} (passed : s.filterM f.verdict = .ok t)
    {c : Content} (member : c ∈ s.essence.contents) : f.Decides c := by
  rcases s.filterM_cases f.verdict with ⟨t, -, verdicts, -⟩ | ⟨e, failed, -⟩
  · obtain ⟨x, inside, rfl⟩ := List.mem_map.mp (mem_essence.mp member)
    obtain ⟨b, verdict⟩ := verdicts x inside
    exact ⟨x, b, rfl, verdict⟩
  · rw [passed] at failed
    cases failed

end ItemSet

/-- Some items are at the spot. -/
def Spot.Filled (k : Spot) : Prop :=
  ∃ s : ItemSet, s.essence = k.items ∧ s.isEmpty = false

namespace Query

variable {q : Query} {k k' : Spot} {a : Arc} {f : Filter}

theorem Takes.filled {op : Operation} {o : Option (Except Error ItemSet)} (takes : q.Takes k a op o) :
    k.Filled := by
  obtain ⟨-, s, same, filled, -⟩ := takes
  exact ⟨s, same, filled⟩

theorem Leads.filled (leads : q.Leads k k') : k.Filled ∧ k'.Filled := by
  obtain ⟨a, op, reached, takes, further, rfl⟩ := leads
  exact ⟨takes.filled, reached, rfl, further⟩

section filter

variable (mergeable : f.isMergeable = true) (agrees : f.Agrees)

include mergeable agrees

/-- A filter that decides on everything at a spot comes to the part that it accepts. -/
theorem Takes.filter_eq_ok {o : Option (Except Error ItemSet)} (takes : q.Takes k a (.filter f) o)
    (decides : ∀ c ∈ k.items.contents, f.Decides c) :
    ∃ reached : ItemSet, o = some (.ok reached) ∧ reached.essence = k.items.filter f.Accepts := by
  obtain ⟨-, s, same, -, results⟩ := takes
  obtain rfl := (Operation.results_of_done (Filter.inquiry_eq_done mergeable s)).mp results
  obtain ⟨reached, passed, kept⟩ := ItemSet.filterM_eq_ok agrees (same ▸ decides)
  exact ⟨reached, congrArg some passed, same ▸ kept⟩

omit agrees in
theorem Takes.decides {reached : ItemSet} (takes : q.Takes k a (.filter f) (some (.ok reached))) :
    ∀ c ∈ k.items.contents, f.Decides c := by
  obtain ⟨-, s, same, -, results⟩ := takes
  have passed := (Operation.results_of_done (Filter.inquiry_eq_done mergeable s)).mp results
  intro c member
  exact ItemSet.decides_of_filterM (Option.some.inj passed).symm (same.symm ▸ member)

/-- A filter leads to the part of the items that it accepts, if there is any. -/
theorem leads_filter (listed : (a, .filter f) ∈ q.steps k.start) (filled : k.Filled)
    (decides : ∀ c ∈ k.items.contents, f.Decides c)
    (further : (k.items.filter f.Accepts).contents.Nonempty) :
    q.Leads k { k with start := a.target, items := k.items.filter f.Accepts } := by
  obtain ⟨s, same, nonempty⟩ := filled
  obtain ⟨o, results⟩ := Operation.Results.exists (.filter f) s
  have takes : q.Takes k a (.filter f) o := ⟨listed, s, same, nonempty, results⟩
  obtain ⟨reached, rfl, kept⟩ := takes.filter_eq_ok mergeable agrees decides
  exact ⟨a, .filter f, reached, takes, ItemSet.isEmpty_eq_false_iff.mpr (kept ▸ further), by rw [kept]⟩

omit agrees in
/-- At a safe spot, a filter decides on everything. -/
theorem Safe.decides (safe : q.Safe k) (listed : (a, .filter f) ∈ q.steps k.start)
    (filled : k.Filled) : ∀ c ∈ k.items.contents, f.Decides c := by
  obtain ⟨s, same, nonempty⟩ := filled
  obtain ⟨o, results⟩ := Operation.Results.exists (.filter f) s
  have takes : q.Takes k a (.filter f) o := ⟨listed, s, same, nonempty, results⟩
  rcases o with _ | e | reached
  · exact (safe.lively k (.refl q k) ⟨a, _, takes⟩).elim
  · exact (safe.sound k (.refl q k) ⟨a, _, e, takes⟩).elim
  · exact takes.decides mergeable

end filter

end Query

end GraphQuery
