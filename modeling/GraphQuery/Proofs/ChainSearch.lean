import GraphQuery.Proofs.Links
/-!
# Looking for a chain

Seeds are tried one after the other: a walk back from a seed ends on a ring, which is left alone from
then on, or at the first link of a chain, and from there a walk leads along it. Here a search is a
relation like the walks, with a rule for each thing that can become of a seed. It always ends, in one
way. The nodes left alone besides are on rings, the chain that is found starts at a link and touches no
node left alone, and when none is found, each link tried is on a ring or in a chain that touches one.
-/

namespace GraphQuery

namespace Chain

open Query

section loops

variable (q : Query) (link : Node → Bool)

/-- Trying seeds, with some nodes to be left alone, ends. -/
inductive Searches : List Node → List Node → Option Chain → List Node → Prop where
  | done {stuck : List Node} : Searches [] stuck none stuck
  | pass {seed : Node} {seeds stuck stuck' : List Node} {found : Option Chain}
    (passed : link seed = true → seed ∈ stuck) (rest : Searches seeds stuck found stuck') :
    Searches (seed :: seeds) stuck found stuck'
  | ring {seed : Node} {seeds stuck stuck' links : List Node} {found : Option Chain}
    (among : link seed = true) (fresh : seed ∉ stuck)
    (goes : GoesBack q link [seed] seed (.ring links))
    (rest : Searches seeds (links ++ stuck) found stuck') :
    Searches (seed :: seeds) stuck found stuck'
  | touch {seed n : Node} {seeds stuck stuck' : List Node} {c : Chain} {found : Option Chain}
    (among : link seed = true) (fresh : seed ∉ stuck)
    (goes : GoesBack q link [seed] seed (.first n)) (along : GoesAlong q link n c)
    (touches : ∃ m ∈ c.interior, m ∈ stuck) (rest : Searches seeds stuck found stuck') :
    Searches (seed :: seeds) stuck found stuck'
  | find {seed n : Node} {seeds stuck : List Node} {c : Chain}
    (among : link seed = true) (fresh : seed ∉ stuck)
    (goes : GoesBack q link [seed] seed (.first n)) (along : GoesAlong q link n c)
    (apart : ¬ ∃ m ∈ c.interior, m ∈ stuck) : Searches (seed :: seeds) stuck (some c) stuck

variable {q link} {seed : Node} {seeds stuck : List Node}

/-! One seed -/

theorem findFrom_of_passed (passed : link seed = true → seed ∈ stuck) :
    findFrom q link (seed :: seeds) stuck = findFrom q link seeds stuck := by
  have passes : (stuck.contains seed || !link seed) = true := by
    cases among : link seed with
    | false => simp
    | true => simpa using passed among
  rw [findFrom, if_pos passes]

theorem findFrom_of_ring {links : List Node} (among : link seed = true) (fresh : seed ∉ stuck)
    (goes : origin q link (q.nodes.length + 1) [seed] seed = .ring links) :
    findFrom q link (seed :: seeds) stuck = findFrom q link seeds (links ++ stuck) := by
  have tried : ¬ (stuck.contains seed || !link seed) = true := by simp [among, fresh]
  rw [findFrom, if_neg tried, goes]

theorem findFrom_of_first {n : Node} {c : Chain} (among : link seed = true) (fresh : seed ∉ stuck)
    (goes : origin q link (q.nodes.length + 1) [seed] seed = .first n)
    (starts : startingAt? q link n = some c) : findFrom q link (seed :: seeds) stuck =
      if c.interior.any stuck.contains then findFrom q link seeds stuck else (some c, stuck) := by
  have tried : ¬ (stuck.contains seed || !link seed) = true := by simp [among, fresh]
  rw [findFrom, if_neg tried, goes]
  dsimp only
  rw [starts]

end loops

section search

variable {q : Query} {start stop : Node} (consistent : q.graph.Consistent)

include consistent

/-- Whatever way a search ends is the way that the search ends. -/
theorem Searches.eq_findFrom {seeds stuck stuck' : List Node} {found : Option Chain}
    (searches : Searches q (q.isLink start stop) seeds stuck found stuck') :
    findFrom q (q.isLink start stop) seeds stuck = (found, stuck') := by
  induction searches with
  | done => rfl
  | pass passed _ ih => rwa [findFrom_of_passed passed]
  | ring among fresh goes _ ih =>
    rwa [findFrom_of_ring among fresh ((goesBack_seed_iff consistent among).mp goes)]
  | touch among fresh goes along touches _ ih =>
    have back := (goesBack_seed_iff consistent among).mp goes
    have link := (goes.before?_eq_none among).1
    rw [findFrom_of_first among fresh back ((goesAlong_iff consistent link).mp along), if_pos, ih]
    simpa using touches
  | find among fresh goes along apart =>
    have back := (goesBack_seed_iff consistent among).mp goes
    have link := (goes.before?_eq_none among).1
    rw [findFrom_of_first among fresh back ((goesAlong_iff consistent link).mp along), if_neg]
    simpa using apart

/-- The search ends. -/
theorem searches_findFrom (seeds stuck : List Node) :
    Searches q (q.isLink start stop) seeds stuck
      (findFrom q (q.isLink start stop) seeds stuck).1
      (findFrom q (q.isLink start stop) seeds stuck).2 := by
  induction seeds generalizing stuck with
  | nil => exact .done
  | cons seed seeds ih =>
    by_cases passed : q.isLink start stop seed = true → seed ∈ stuck
    · rw [findFrom_of_passed passed]
      exact .pass passed (ih stuck)
    · obtain ⟨among, fresh⟩ := Classical.not_imp.mp passed
      cases back : origin q (q.isLink start stop) (q.nodes.length + 1) [seed] seed with
      | ring links =>
        have goes := (goesBack_seed_iff consistent among).mpr back
        rw [findFrom_of_ring among fresh back]
        exact .ring among fresh goes (ih (links ++ stuck))
      | first n =>
        have goes := (goesBack_seed_iff consistent among).mpr back
        have link := (goes.before?_eq_none among).1
        obtain ⟨c, along⟩ := exists_goesAlong consistent link
        rw [findFrom_of_first among fresh back ((goesAlong_iff consistent link).mp along)]
        split
        · next touches =>
          exact .touch among fresh goes along (by simpa using touches) (ih stuck)
        · next apart => exact .find among fresh goes along (by simpa using apart)

/-- The search is the way in which trying the seeds ends, and the only one. -/
theorem searches_iff {seeds stuck stuck' : List Node} {found : Option Chain} :
    Searches q (q.isLink start stop) seeds stuck found stuck' ↔
      findFrom q (q.isLink start stop) seeds stuck = (found, stuck') := by
  refine ⟨Searches.eq_findFrom consistent, fun same => ?_⟩
  have ends : Searches q (q.isLink start stop) seeds stuck _ _ :=
    searches_findFrom consistent seeds stuck
  rwa [same] at ends

/-- The nodes left alone besides are on rings. -/
theorem Searches.left {seeds stuck stuck' : List Node} {found : Option Chain}
    (searches : Searches q (q.isLink start stop) seeds stuck found stuck') :
    stuck ⊆ stuck' ∧ ∀ n ∈ stuck', n ∈ stuck ∨ q.OnRing start stop n := by
  induction searches with
  | done => exact ⟨List.Subset.refl _, fun _ => .inl⟩
  | pass _ _ ih => exact ih
  | ring among _ goes _ ih =>
    obtain ⟨kept, rings⟩ := ih
    obtain ⟨-, closed⟩ := goes.ring_of_isLink consistent among
    refine ⟨fun n member => kept (List.mem_append_right _ member), fun n member => ?_⟩
    rcases rings n member with old | new
    · exact (List.mem_append.mp old).symm.imp_right (closed n)
    · exact .inr new
  | touch _ _ _ _ _ _ ih => exact ih
  | find => exact ⟨List.Subset.refl _, fun _ => .inl⟩

/-- A chain that is found starts at a link and touches no node left alone. -/
theorem Searches.startsAt {seeds stuck stuck' : List Node} {c : Chain}
    (searches : Searches q (q.isLink start stop) seeds stuck (some c) stuck') :
    (∃ n, StartsAt q start stop n c) ∧ ∀ n ∈ c.interior, n ∉ stuck' := by
  generalize same : some c = found at searches
  induction searches with
  | done => cases same
  | pass _ _ ih => exact ih same
  | ring _ _ _ _ ih => exact ih same
  | touch _ _ _ _ _ _ ih => exact ih same
  | @find _ first _ _ _ among _ goes along apart =>
    obtain rfl := Option.some.inj same
    have startsAt := (goes.startsAt consistent among along).1
    exact ⟨⟨first, startsAt⟩, fun n inside left => apart ⟨n, inside, left⟩⟩

/-- If no chain is found, every link that was tried is on a ring or in a chain that touches a node left
alone. -/
theorem Searches.of_none {seeds stuck stuck' : List Node}
    (searches : Searches q (q.isLink start stop) seeds stuck none stuck') :
    ∀ n ∈ seeds, q.isLink start stop n = true → q.OnRing start stop n ∨
      ∃ first c, StartsAt q start stop first c ∧ n ∈ c.interior ∧ ∃ m ∈ c.interior, m ∈ stuck' := by
  generalize none : Option.none = found at searches
  induction searches with
  | done => simp
  | @pass seed seeds stuck stuck' found passed rest ih =>
    refine List.forall_mem_cons.mpr ⟨fun link => ?_, ih none⟩
    refine (onRing_or_startsAt consistent link).imp_right ?_
    rintro ⟨first, c, startsAt, inside⟩
    exact ⟨first, c, startsAt, inside, seed, inside, (rest.left consistent).1 (passed link)⟩
  | @ring seed _ _ _ _ _ among _ goes _ ih =>
    obtain ⟨inside, closed⟩ := goes.ring_of_isLink consistent among
    exact List.forall_mem_cons.mpr ⟨fun _ => .inl (closed seed inside), ih none⟩
  | @touch seed first _ _ _ c _ among _ goes along touches rest ih =>
    obtain ⟨startsAt, inside⟩ := goes.startsAt consistent among along
    obtain ⟨m, member, left⟩ := touches
    refine List.forall_mem_cons.mpr ⟨fun _ => .inr ?_, ih none⟩
    exact ⟨first, c, startsAt, inside, m, member, (rest.left consistent).1 left⟩
  | find => cases none

end search

end Chain

end GraphQuery
