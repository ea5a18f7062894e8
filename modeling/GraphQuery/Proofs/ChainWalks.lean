import GraphQuery.Proofs.Chains
/-!
# Walks along links

The walks by which a chain is looked for, back to its first link and on from there, go on while there
is a link to go to; the number of steps that they are allowed is not meant to end them. Here they are
relations without such a bound, with a rule for each way in which a walk ends or goes on, so that a
derivation is a walk that ends by itself. No walk meets a link twice, so one step more than there are
nodes is enough for each, and more make no difference.
-/

namespace GraphQuery

namespace Chain

open Query

section loops

variable (q : Query) (link : Node → Bool)

/-- The link that the only arc into a node comes from. -/
def before? (n : Node) : Option Node :=
  ((q.soleIn? n).map Arc.source).filter link

/-- Going back from a node, with those visited so far, ends. -/
inductive GoesBack : List Node → Node → Origin → Prop where
  | first {visited : List Node} {n : Node} (none : before? q link n = none) :
    GoesBack visited n (.first n)
  | ring {visited : List Node} {n m : Node} (before : before? q link n = some m)
    (met : m ∈ visited) : GoesBack visited n (.ring visited)
  | back {visited : List Node} {n m : Node} {o : Origin} (before : before? q link n = some m)
    (fresh : m ∉ visited) (rest : GoesBack (m :: visited) m o) : GoesBack visited n o

/-- Going on from a node, with the links behind it, ends at an exit: over arcs, from links. -/
inductive GoesOn : List Node → Node → List Arc → List Node → Node → Prop where
  | stop {behind : List Node} {n : Node} (none : q.soleOut? n = none) : GoesOn behind n [] [] n
  | last {behind : List Node} {n : Node} {a : Arc} (after : q.soleOut? n = some a)
    (ends : link a.target = true → a.target ∈ n :: behind) : GoesOn behind n [a] [n] a.target
  | further {behind : List Node} {n exit : Node} {a : Arc} {arcs : List Arc} {links : List Node}
    (after : q.soleOut? n = some a) (next : link a.target = true) (fresh : a.target ∉ n :: behind)
    (rest : GoesOn (n :: behind) a.target arcs links exit) :
    GoesOn behind n (a :: arcs) (n :: links) exit

/-- From the arc into a node, going on leads along the chain. -/
def GoesAlong (n : Node) (c : Chain) : Prop :=
  ∃ a arcs, q.soleIn? n = some a ∧ GoesOn q link [] n arcs c.interior c.exit ∧
    c.entry = a.source ∧ c.arcs = a :: arcs ∧ c.filters = (a :: arcs).filterMap q.soleFilter?

end loops

section

variable {q : Query} {link : Node → Bool} {visited behind : List Node} {n m exit : Node} {a : Arc}
  {o : Origin} {arcs : List Arc} {links : List Node}

/-! One step of each walk -/

theorem goesBack_of_none (first : before? q link n = none) :
    GoesBack q link visited n o ↔ o = .first n := by
  constructor
  · intro goes
    cases goes with
    | first => rfl
    | ring before => cases first.symm.trans before
    | back before => cases first.symm.trans before
  · rintro rfl
    exact .first first

theorem goesBack_of_mem (before : before? q link n = some m) (met : m ∈ visited) :
    GoesBack q link visited n o ↔ o = .ring visited := by
  constructor
  · intro goes
    cases goes with
    | first none => cases none.symm.trans before
    | ring => rfl
    | back before' fresh =>
      obtain rfl := Option.some.inj (before.symm.trans before')
      exact absurd met fresh
  · rintro rfl
    exact .ring before met

theorem goesBack_of_not_mem (before : before? q link n = some m) (fresh : m ∉ visited) :
    GoesBack q link visited n o ↔ GoesBack q link (m :: visited) m o := by
  constructor
  · intro goes
    cases goes with
    | first none => cases none.symm.trans before
    | ring before' met =>
      obtain rfl := Option.some.inj (before.symm.trans before')
      exact absurd met fresh
    | back before' _ rest =>
      obtain rfl := Option.some.inj (before.symm.trans before')
      exact rest
  · exact .back before fresh

theorem goesOn_of_none (stops : q.soleOut? n = none) :
    GoesOn q link behind n arcs links exit ↔ (arcs, links, exit) = ([], [], n) := by
  constructor
  · intro goes
    cases goes with
    | stop => rfl
    | last after => cases stops.symm.trans after
    | further after => cases stops.symm.trans after
  · rintro ⟨⟩
    exact .stop stops

theorem goesOn_of_ends (after : q.soleOut? n = some a)
    (ends : link a.target = true → a.target ∈ n :: behind) :
    GoesOn q link behind n arcs links exit ↔ (arcs, links, exit) = ([a], [n], a.target) := by
  constructor
  · intro goes
    cases goes with
    | stop none => cases none.symm.trans after
    | last after' =>
      obtain rfl := Option.some.inj (after.symm.trans after')
      rfl
    | further after' next fresh =>
      obtain rfl := Option.some.inj (after.symm.trans after')
      exact absurd (ends next) fresh
  · rintro ⟨⟩
    exact .last after ends

theorem goesOn_of_further (after : q.soleOut? n = some a) (next : link a.target = true)
    (fresh : a.target ∉ n :: behind) : GoesOn q link behind n arcs links exit ↔
      ∃ arcs' links', GoesOn q link (n :: behind) a.target arcs' links' exit ∧
        arcs = a :: arcs' ∧ links = n :: links' := by
  constructor
  · intro goes
    cases goes with
    | stop none => cases none.symm.trans after
    | last after' ends =>
      obtain rfl := Option.some.inj (after.symm.trans after')
      exact absurd (ends next) fresh
    | further after' _ _ rest =>
      obtain rfl := Option.some.inj (after.symm.trans after')
      exact ⟨_, _, rest, rfl, rfl⟩
  · rintro ⟨arcs', links', rest, rfl, rfl⟩
    exact .further after next fresh rest

/-- Going back from a link ends at one that no link is before, if not on a ring. -/
theorem GoesBack.before?_eq_none (goes : GoesBack q link visited n (.first m))
    (among : link n = true) : link m = true ∧ before? q link m = none := by
  generalize first : Origin.first m = o at goes
  induction goes with
  | first none =>
    cases first
    exact ⟨among, none⟩
  | ring => cases first
  | back before _ _ ih => exact ih (Option.filter_eq_some_iff.mp before).2 first

theorem GoesOn.mem_links {start stop : Node}
    (goes : GoesOn q (q.isLink start stop) behind n arcs links exit)
    (among : q.isLink start stop n = true) : n ∈ links := by
  cases goes with
  | stop none => exact absurd none (soleOut?_ne_none among)
  | last => exact List.mem_singleton_self n
  | further => exact List.mem_cons_self

end

section walks

variable {q : Query} {start stop n : Node} (consistent : q.graph.Consistent)

include consistent

/-- No more links can be met than there are nodes. -/
theorem length_le_of_links {links : List Node} (among : ∀ n ∈ links, q.isLink start stop n = true)
    (nodup : links.Nodup) : links.length ≤ q.nodes.length :=
  nodup.length_le_of_subset fun n member => mem_nodes_of_isLink consistent (among n member)

/-- Going back from a link ends, and as the walk with sufficient steps. -/
theorem goesBack_iff {fuel : Nat} {visited : List Node} {o : Origin}
    (among : ∀ m ∈ visited, q.isLink start stop m = true) (nodup : visited.Nodup)
    (enough : q.nodes.length < fuel + visited.length) :
    GoesBack q (q.isLink start stop) visited n o ↔
      o = origin q (q.isLink start stop) fuel visited n := by
  have few := length_le_of_links consistent among nodup
  induction fuel generalizing visited n with
  | zero => omega
  | succ fuel ih =>
    unfold origin
    split
    · next first => exact goesBack_of_none first
    · next m before =>
      obtain ⟨-, link⟩ := Option.filter_eq_some_iff.mp before
      split
      · next met => exact goesBack_of_mem before (List.contains_iff_mem.mp met)
      · next unmet =>
        have fresh : m ∉ visited := by simpa using unmet
        have among' : ∀ m' ∈ m :: visited, q.isLink start stop m' = true :=
          List.forall_mem_cons.mpr ⟨link, among⟩
        have nodup' := List.nodup_cons.mpr ⟨fresh, nodup⟩
        have enough' : q.nodes.length < fuel + (m :: visited).length := by
          rw [List.length_cons]
          omega
        rw [goesBack_of_not_mem before fresh]
        exact ih among' nodup' enough' (length_le_of_links consistent among' nodup')

/-- Going on from a link ends, and as the walk with sufficient steps. -/
theorem goesOn_iff {fuel : Nat} {behind : List Node} {arcs : List Arc} {links : List Node}
    {exit : Node} (among : ∀ m ∈ n :: behind, q.isLink start stop m = true)
    (nodup : (n :: behind).Nodup) (enough : q.nodes.length < fuel + behind.length) :
    GoesOn q (q.isLink start stop) behind n arcs links exit ↔
      (arcs, links, exit) = onward q (q.isLink start stop) fuel behind n := by
  have few := length_le_of_links consistent among nodup
  rw [List.length_cons] at few
  induction fuel generalizing behind n arcs links exit with
  | zero => omega
  | succ fuel ih =>
    unfold onward
    split
    · next stops => exact goesOn_of_none stops
    · next a after =>
      split
      · next further =>
        rw [Bool.and_eq_true] at further
        obtain ⟨next, unmet⟩ := further
        have fresh : a.target ∉ n :: behind := by simpa using unmet
        have among' : ∀ m ∈ a.target :: n :: behind, q.isLink start stop m = true :=
          List.forall_mem_cons.mpr ⟨next, among⟩
        have nodup' := List.nodup_cons.mpr ⟨fresh, nodup⟩
        have few' := length_le_of_links consistent among' nodup'
        have enough' : q.nodes.length < fuel + (n :: behind).length := by
          rw [List.length_cons]
          omega
        rw [goesOn_of_further after next fresh]
        simp only [ih among' nodup' enough' (by simpa using few'), Prod.ext_iff]
        constructor
        · rintro ⟨arcs', links', ⟨rfl, rfl, rfl⟩, rfl, rfl⟩
          exact ⟨rfl, rfl, rfl⟩
        · rintro ⟨rfl, rfl, rfl⟩
          exact ⟨_, _, ⟨rfl, rfl, rfl⟩, rfl, rfl⟩
      · next ends =>
        refine goesOn_of_ends after fun next => ?_
        by_contra fresh
        exact ends (by simpa [next] using fresh)

/-- It makes no difference how many steps back more are allowed than there are nodes. -/
theorem origin_eq_of_lt {fuel fuel' : Nat} {visited : List Node}
    (among : ∀ m ∈ visited, q.isLink start stop m = true) (nodup : visited.Nodup)
    (enough : q.nodes.length < fuel + visited.length)
    (enough' : q.nodes.length < fuel' + visited.length) :
    origin q (q.isLink start stop) fuel visited n =
      origin q (q.isLink start stop) fuel' visited n :=
  have goes := (goesBack_iff consistent among nodup enough).mpr rfl
  (goesBack_iff consistent among nodup enough').mp goes

/-- Nor how many steps on. -/
theorem onward_eq_of_lt {fuel fuel' : Nat} {behind : List Node}
    (among : ∀ m ∈ n :: behind, q.isLink start stop m = true) (nodup : (n :: behind).Nodup)
    (enough : q.nodes.length < fuel + behind.length)
    (enough' : q.nodes.length < fuel' + behind.length) :
    onward q (q.isLink start stop) fuel behind n =
      onward q (q.isLink start stop) fuel' behind n :=
  have goes := (goesOn_iff consistent among nodup enough).mpr rfl
  (goesOn_iff consistent among nodup enough').mp goes

/-- Going back from a link ends, and as when a chain is looked for. -/
theorem goesBack_seed_iff {seed : Node} {o : Origin} (link : q.isLink start stop seed = true) :
    GoesBack q (q.isLink start stop) [seed] seed o ↔
      origin q (q.isLink start stop) (q.nodes.length + 1) [seed] seed = o := by
  rw [eq_comm (b := o)]
  refine goesBack_iff consistent (List.forall_mem_singleton.mpr link) (by simp) ?_
  rw [List.length_singleton]
  omega

/-- Going on from a link leads along the chain that starts from it. -/
theorem goesAlong_iff {n : Node} {c : Chain} (link : q.isLink start stop n = true) :
    GoesAlong q (q.isLink start stop) n c ↔
      startingAt? q (q.isLink start stop) n = some c := by
  obtain ⟨-, -, a, -, -, -, before, -⟩ := isLink_iff.mp link
  have enough : q.nodes.length < (q.nodes.length + 1) + ([] : List Node).length := by simp
  unfold GoesAlong startingAt?
  simp only [goesOn_iff consistent (List.forall_mem_singleton.mpr link) (by simp) enough]
  rw [before]
  constructor
  · rintro ⟨a', arcs, sole, goes, entry, all, filters⟩
    obtain rfl := Option.some.inj sole
    obtain ⟨entry, exit, all, interior, filters⟩ := c
    rw [Option.bind_eq_bind, Option.bind_some, ← goes]
    simp_all
  · rintro ⟨⟩
    exact ⟨a, _, rfl, rfl, rfl, rfl, rfl⟩

theorem exists_goesAlong (link : q.isLink start stop n = true) :
    ∃ c, GoesAlong q (q.isLink start stop) n c := by
  obtain ⟨-, -, a, -, -, -, before, -⟩ := isLink_iff.mp link
  refine (exists_congr fun c => goesAlong_iff consistent link).mpr ?_
  rw [startingAt?, before]
  exact ⟨_, rfl⟩

/-! What a walk on leads along -/

/-- The arcs of a walk on join its links head to tail up to the exit. No link is met twice, and a
single filter that may be fused is on each arc. -/
theorem GoesOn.joins {behind : List Node} {arcs : List Arc} {links : List Node} {exit : Node}
    (goes : GoesOn q (q.isLink start stop) behind n arcs links exit)
    (among : q.isLink start stop n = true) (fresh : n ∉ behind) :
    arcs.map Arc.source = links ∧ n :: arcs.map Arc.target = links ++ [exit] ∧ links.Nodup ∧
      (∀ m ∈ links, m ∉ behind) ∧ ∀ a ∈ arcs, a ∈ q.graph.arcs ∧ (q.soleFilter? a).isSome := by
  induction goes with
  | stop none => exact absurd none (soleOut?_ne_none among)
  | @last behind n a after =>
    obtain ⟨g, filter⟩ := exists_filter_out among after
    obtain ⟨known, source, -⟩ := soleOut?_eq_some consistent after
    refine ⟨by simp [source], rfl, by simp, by simpa using fresh, ?_⟩
    exact List.forall_mem_singleton.mpr ⟨known, by simp [filter]⟩
  | @further behind n exit a arcs links after next fresh' _ ih =>
    obtain ⟨g, filter⟩ := exists_filter_out among after
    obtain ⟨known, source, -⟩ := soleOut?_eq_some consistent after
    obtain ⟨sources, targets, nodup, apart, filters⟩ := ih next fresh'
    refine ⟨by simp [source, sources], by simp [targets], ?_, ?_, ?_⟩
    · exact List.nodup_cons.mpr ⟨fun again => apart n again List.mem_cons_self, nodup⟩
    · exact List.forall_mem_cons.mpr
        ⟨fresh, fun m member again => apart m member (List.mem_cons_of_mem _ again)⟩
    · exact List.forall_mem_cons.mpr ⟨⟨known, by simp [filter]⟩, filters⟩

/-- Going on from the first link of a chain runs along it, up to a node that is no link: what is before
the links met so far is among those behind, or the entry. -/
theorem GoesOn.run {entry exit : Node} {behind links : List Node} {arcs : List Arc}
    (goes : GoesOn q (q.isLink start stop) behind n arcs links exit)
    (outside : q.isLink start stop entry = false)
    (among : ∀ m ∈ n :: behind, q.isLink start stop m = true) (fresh : n ∉ behind)
    (back : ∀ m ∈ n :: behind, ∃ a, q.soleIn? m = some a ∧ (a.source ∈ behind ∨ a.source = entry))
    {a : Arc} (before : q.soleIn? n = some a) :
    Run q exit a links ((a :: arcs).filterMap q.soleFilter?) ∧
      (∀ m ∈ links, q.isLink start stop m = true) ∧ q.isLink start stop exit = false := by
  induction goes generalizing a with
  | @stop behind n none => exact absurd none (soleOut?_ne_none (among n List.mem_cons_self))
  | @last behind n b after stops =>
    have link := among n List.mem_cons_self
    obtain ⟨f, filter⟩ := exists_filter_in link before
    obtain ⟨g, filter'⟩ := exists_filter_out link after
    obtain ⟨rfl, -⟩ := soleIn?_eq_some consistent before
    obtain ⟨known, source, -⟩ := soleOut?_eq_some consistent after
    refine ⟨?_, List.forall_mem_singleton.mpr link, ?_⟩
    · rw [List.filterMap_cons_some filter, List.filterMap_cons_some filter']
      exact .link before after filter (.last rfl filter')
    · -- a step back into the run would enter a link from its predecessor, which is behind
      rw [← Bool.not_eq_true]
      intro link'
      obtain ⟨c, sole, before'⟩ := back b.target (stops link')
      obtain rfl := (soleIn?_eq_some consistent sole).2 b known rfl
      rw [source] at before'
      rcases before' with again | again
      · exact fresh again
      · rw [← again, link] at outside
        cases outside
  | @further behind n exit b arcs links after next fresh' _ ih =>
    have link := among n List.mem_cons_self
    obtain ⟨f, filter⟩ := exists_filter_in link before
    obtain ⟨rfl, -⟩ := soleIn?_eq_some consistent before
    obtain ⟨known, source, -⟩ := soleOut?_eq_some consistent after
    have before' : q.soleIn? b.target = some b := by
      obtain ⟨-, -, c, -, -, -, sole', -⟩ := isLink_iff.mp next
      rw [sole', (soleIn?_eq_some consistent sole').2 b known rfl]
    -- the walk may go on with the invariant, as the next link is entered from this one
    have back' : ∀ m ∈ b.target :: a.target :: behind, ∃ c, q.soleIn? m = some c ∧
        (c.source ∈ a.target :: behind ∨ c.source = entry) := by
      refine List.forall_mem_cons.mpr ⟨⟨b, before', .inl (source ▸ List.mem_cons_self)⟩, ?_⟩
      intro m member
      obtain ⟨c, sole, earlier⟩ := back m member
      exact ⟨c, sole, earlier.imp_left (List.mem_cons_of_mem _)⟩
    obtain ⟨run, interior, ends⟩ :=
      ih (List.forall_mem_cons.mpr ⟨next, among⟩) fresh' back' before'
    refine ⟨?_, List.forall_mem_cons.mpr ⟨link, interior⟩, ends⟩
    rw [List.filterMap_cons_some filter]
    exact .link before after filter run

end walks

/-- The chain is what going on from a link leads along, and no link is before that one. -/
structure StartsAt (q : Query) (start stop n : Node) (c : Chain) : Prop where
  link : q.isLink start stop n = true
  first : before? q (q.isLink start stop) n = none
  along : GoesAlong q (q.isLink start stop) n c

/-- The chain that starts from a link which no link is before stands in the query, and has that link. -/
theorem StartsAt.found {q : Query} {start stop n : Node} {c : Chain}
    (consistent : q.graph.Consistent) (startsAt : StartsAt q start stop n c) :
    Found q start stop c ∧ n ∈ c.interior := by
  obtain ⟨link, first, a, arcs, before, goes, entry, all, filters⟩ := startsAt
  have outside : q.isLink start stop c.entry = false := by
    rw [before?, before, Option.map_some, ← entry] at first
    simpa using first
  have among : ∀ m ∈ [n], q.isLink start stop m = true := List.forall_mem_singleton.mpr link
  have back : ∀ m ∈ [n], ∃ a, q.soleIn? m = some a ∧ (a.source ∈ [] ∨ a.source = c.entry) :=
    List.forall_mem_singleton.mpr ⟨a, before, .inr entry.symm⟩
  obtain ⟨run, links, ends⟩ := goes.run consistent outside among (by simp) back before
  have inside := goes.mem_links link
  exact ⟨⟨⟨a, entry.symm, filters ▸ run⟩, links, outside, ends, List.ne_nil_of_mem inside⟩, inside⟩

end Chain

end GraphQuery
