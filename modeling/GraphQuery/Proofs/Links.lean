import GraphQuery.Proofs.ChainWalks
import Mathlib.Logic.Relation
/-!
# Links, rings and chains

A link passes items on to at most one other link and takes them from at most one. So every link of a
query either lies on a ring of links or inside a chain with ends that are no links, never both, and
two chains with a link in common are the same between the same ends. Going back from a link tells which
it is: the walk ends on the ring, or at the first link of the chain.
-/

namespace GraphQuery

open Relation

namespace Query

variable {q : Query} {start stop m n p : Node}

/-- An arc leads from a link to a link. -/
def Passes (q : Query) (start stop m n : Node) : Prop :=
  q.isLink start stop m = true ∧ q.isLink start stop n = true ∧ ⟨m, n⟩ ∈ q.graph.arcs

theorem Passes.soleOut? (consistent : q.graph.Consistent) (passes : q.Passes start stop m n) :
    q.soleOut? m = some ⟨m, n⟩ := by
  obtain ⟨-, -, -, b, -, -, -, after, -⟩ := isLink_iff.mp passes.1
  rw [after, (soleOut?_eq_some consistent after).2.2 ⟨m, n⟩ passes.2.2 rfl]

theorem Passes.soleIn? (consistent : q.graph.Consistent) (passes : q.Passes start stop m n) :
    q.soleIn? n = some ⟨m, n⟩ := by
  obtain ⟨-, -, a, -, -, -, before, -⟩ := isLink_iff.mp passes.2.1
  rw [before, (soleIn?_eq_some consistent before).2 ⟨m, n⟩ passes.2.2 rfl]

/-- A link passes on to one link only. -/
theorem Passes.right_unique (consistent : q.graph.Consistent) (passes : q.Passes start stop m n)
    (passes' : q.Passes start stop m p) : n = p := by
  have same := (passes.soleOut? consistent).symm.trans (passes'.soleOut? consistent)
  exact congrArg Arc.target (Option.some.inj same)

theorem passes_of_soleIn? (consistent : q.graph.Consistent) {a : Arc}
    (link : q.isLink start stop n = true) (sole : q.soleIn? n = some a)
    (link' : q.isLink start stop a.source = true) : q.Passes start stop a.source n := by
  have known := mem_arcs_of_soleIn? consistent sole
  obtain ⟨rfl, -⟩ := soleIn?_eq_some consistent sole
  exact ⟨link', link, known⟩

theorem passes_of_before? (consistent : q.graph.Consistent) (link : q.isLink start stop n = true)
    (before : Chain.before? q (q.isLink start stop) n = some m) : q.Passes start stop m n := by
  obtain ⟨before, link'⟩ := Option.filter_eq_some_iff.mp before
  obtain ⟨a, sole, rfl⟩ := Option.map_eq_some_iff.mp before
  exact passes_of_soleIn? consistent link sole link'

theorem passes_of_soleOut? (consistent : q.graph.Consistent) {a : Arc}
    (link : q.isLink start stop n = true) (sole : q.soleOut? n = some a)
    (link' : q.isLink start stop a.target = true) : q.Passes start stop n a.target := by
  obtain ⟨known, rfl, -⟩ := soleOut?_eq_some consistent sole
  exact ⟨link, link', known⟩

/-- Passing on from link to link leads back to the node. -/
def OnRing (q : Query) (start stop n : Node) : Prop :=
  TransGen (q.Passes start stop) n n

namespace OnRing

theorem isLink (ring : q.OnRing start stop n) : q.isLink start stop n = true := by
  obtain ⟨m, passes, -⟩ := TransGen.head'_iff.mp ring
  exact passes.1

/-- What a link of a ring passes on to is on the ring. -/
theorem passes (consistent : q.graph.Consistent) (ring : q.OnRing start stop m)
    (passes : q.Passes start stop m n) : q.OnRing start stop n := by
  obtain ⟨p, first, back⟩ := TransGen.head'_iff.mp ring
  obtain rfl := first.right_unique consistent passes
  exact TransGen.tail'_iff.mpr ⟨m, back, passes⟩

theorem reaches (consistent : q.graph.Consistent) (ring : q.OnRing start stop m)
    (reaches : ReflTransGen (q.Passes start stop) m n) : q.OnRing start stop n := by
  induction reaches with
  | refl => exact ring
  | tail _ passes ih => exact ih.passes consistent passes

end OnRing

end Query

namespace Chain

open Query

variable {q : Query} {start stop : Node} {c d : Chain}

namespace Run

variable {exit : Node} {a : Arc} {links : List Node} {fs : List Filter}

/-- No link of a run is on a ring if its exit is no link. -/
theorem not_onRing (consistent : q.graph.Consistent) (run : Run q exit a links fs)
    (ends : q.isLink start stop exit = false) : ∀ n ∈ links, ¬ q.OnRing start stop n := by
  induction run with
  | last => simp
  | @link a b links f fs _ after _ rest ih =>
    refine List.forall_mem_cons.mpr ⟨fun ring => ?_, ih⟩
    obtain ⟨n, passes, -⟩ := TransGen.head'_iff.mp ring
    obtain rfl := (soleOut?_eq_some consistent after).2.2 ⟨_, n⟩ passes.2.2 rfl
    have ring' := ring.passes consistent passes
    rcases rest.cases with ⟨-, -, -, rfl, -⟩ | ⟨_, _, _, _, rfl, -⟩
    · rw [ring'.isLink] at ends
      cases ends
    · exact ih _ List.mem_cons_self ring'

/-- What passing on neither begins nor ends holds of all links of a run or of none. -/
theorem forall_of_mem (consistent : q.graph.Consistent) (run : Run q exit a links fs)
    (among : ∀ n ∈ links, q.isLink start stop n = true) {P : Node → Prop}
    (closed : ∀ m n, q.Passes start stop m n → (P m ↔ P n)) {n : Node} (inside : n ∈ links)
    (holds : P n) : ∀ m ∈ links, P m := by
  induction run generalizing n with
  | last => cases inside
  | @link a b links f fs _ after _ rest ih =>
    obtain ⟨link, among⟩ := List.forall_mem_cons.mp among
    rcases rest.cases with ⟨rfl, -⟩ | ⟨_, links', _, _, rfl, -⟩
    · rw [List.mem_singleton] at inside
      exact List.forall_mem_singleton.mpr (inside ▸ holds)
    · have passes := passes_of_soleOut? consistent link after (among _ List.mem_cons_self)
      rcases List.mem_cons.mp inside with rfl | later
      · have next := (closed _ _ passes).mp holds
        exact List.forall_mem_cons.mpr ⟨holds, ih among List.mem_cons_self next⟩
      · have rest := ih among later holds
        exact List.forall_mem_cons.mpr ⟨(closed _ _ passes).mpr (rest _ List.mem_cons_self), rest⟩

end Run

/-- A run of links stands in a query, between ends that may be links too. -/
structure Stands (q : Query) (start stop : Node) (c : Chain) : Prop where
  run : ∃ a, a.source = c.entry ∧ Run q c.exit a c.interior c.filters
  links : ∀ n ∈ c.interior, q.isLink start stop n = true
  filled : c.interior ≠ []

theorem Found.stands (found : Found q start stop c) : Stands q start stop c :=
  ⟨found.run, found.links, found.filled⟩

/-- An arc leads from the entry into the run. -/
theorem Stands.exists_first (consistent : q.graph.Consistent) (stands : Stands q start stop c) :
    ∃ n ∈ c.interior, ⟨c.entry, n⟩ ∈ q.graph.arcs := by
  obtain ⟨a, source, run⟩ := stands.run
  have filled := stands.filled
  generalize c.interior = links at run filled
  generalize c.filters = fs at run
  cases run with
  | last => exact absurd rfl filled
  | link before =>
    exact ⟨a.target, List.mem_cons_self, source ▸ mem_arcs_of_soleIn? consistent before⟩

namespace Found

variable {n : Node} (consistent : q.graph.Consistent) (found : Found q start stop c)

include consistent found

/-- Links that pass on to each other are in the same chains. -/
theorem mem_iff_of_passes {m : Node} (passes : q.Passes start stop m n) :
    m ∈ c.interior ↔ n ∈ c.interior := by
  obtain ⟨a, source, run⟩ := found.run
  obtain ⟨link, link', known⟩ := passes
  constructor
  · intro inside
    by_contra outside
    obtain rfl : n = c.exit := run.leaves consistent known inside outside
    rw [found.exit] at link'
    cases link'
  · intro inside
    by_contra outside
    have first := run.enters consistent known inside outside
    obtain rfl : m = c.entry := source ▸ congrArg Arc.source first
    rw [found.entry] at link
    cases link

/-- The interior of a chain has all of a run of which it has one link. -/
theorem subset (stands : Stands q start stop d) (inside : n ∈ d.interior)
    (inside' : n ∈ c.interior) : d.interior ⊆ c.interior := by
  obtain ⟨a, -, run⟩ := stands.run
  exact fun m member => run.forall_of_mem consistent stands.links
    (fun _ _ => found.mem_iff_of_passes consistent) inside inside' m member

/-- Chains with a link in common have the same ends. -/
theorem ends_eq (found' : Found q start stop d) (inside : n ∈ d.interior)
    (inside' : n ∈ c.interior) : d.entry = c.entry ∧ d.exit = c.exit := by
  have sub := found.subset consistent found'.stands inside inside'
  have outside {m : Node} (apart : q.isLink start stop m = false) : m ∉ c.interior := by
    intro again
    rw [found.links m again] at apart
    cases apart
  obtain ⟨a, source, run⟩ := found.run
  obtain ⟨a', -, run'⟩ := found'.run
  constructor
  · obtain ⟨m, first, known⟩ := found'.stands.exists_first consistent
    have same := run.enters consistent known (sub first) (outside found'.entry)
    exact source ▸ congrArg Arc.source same
  · obtain ⟨b, known, last, leaves, -⟩ := run'.exists_last consistent found'.filled
    rw [← leaves]
    exact run.leaves consistent known (sub last) (leaves ▸ outside found'.exit)

theorem not_onRing (inside : n ∈ c.interior) : ¬ q.OnRing start stop n := by
  obtain ⟨a, -, run⟩ := found.run
  exact run.not_onRing consistent found.exit n inside

end Found

section walks

variable {n : Node} (consistent : q.graph.Consistent)

include consistent

/-- Going back ends on a ring that has all links visited. -/
theorem GoesBack.onRing {visited ring : List Node}
    (goes : GoesBack q (q.isLink start stop) visited n (.ring ring))
    (link : q.isLink start stop n = true)
    (passing : ∀ m ∈ visited, ReflTransGen (q.Passes start stop) n m) :
    visited ⊆ ring ∧ ∀ m ∈ ring, q.OnRing start stop m := by
  generalize rings : Origin.ring ring = o at goes
  induction goes with
  | first => cases rings
  | @ring visited n m before met =>
    cases rings
    -- the node before is one that this one passes on to, so the two are on a ring
    have ring : q.OnRing start stop n :=
      TransGen.tail'_iff.mpr ⟨_, passing _ met, passes_of_before? consistent link before⟩
    exact ⟨List.Subset.refl _, fun m member => ring.reaches consistent (passing m member)⟩
  | back before _ _ ih =>
    have passes := passes_of_before? consistent link before
    have passing' := List.forall_mem_cons.mpr ⟨.refl, fun m member => (passing m member).head passes⟩
    obtain ⟨sub, closed⟩ := ih passes.1 passing' rings
    exact ⟨(List.cons_subset.mp sub).2, closed⟩

/-- Going back ends at a link that leads to all links visited. -/
theorem GoesBack.reaches {visited : List Node} {first : Node}
    (goes : GoesBack q (q.isLink start stop) visited n (.first first))
    (link : q.isLink start stop n = true)
    (passing : ∀ m ∈ visited, ReflTransGen (q.Passes start stop) n m) :
    ∀ m ∈ visited, ReflTransGen (q.Passes start stop) first m := by
  generalize ends : Origin.first first = o at goes
  induction goes with
  | first =>
    cases ends
    exact passing
  | ring => cases ends
  | back before _ _ ih =>
    have passes := passes_of_before? consistent link before
    have passing' := List.forall_mem_cons.mpr ⟨.refl, fun m member => (passing m member).head passes⟩
    exact (List.forall_mem_cons.mp (ih passes.1 passing' ends)).2

/-- A link from which going back ends on a ring is on it. -/
theorem GoesBack.ring_of_isLink {ring : List Node}
    (goes : GoesBack q (q.isLink start stop) [n] n (.ring ring))
    (link : q.isLink start stop n = true) : n ∈ ring ∧ ∀ m ∈ ring, q.OnRing start stop m := by
  obtain ⟨sub, closed⟩ := goes.onRing consistent link (List.forall_mem_singleton.mpr .refl)
  exact ⟨sub List.mem_cons_self, closed⟩

/-- A link is in the chain that starts where going back from it ends. -/
theorem GoesBack.startsAt {first : Node} {c : Chain}
    (goes : GoesBack q (q.isLink start stop) [n] n (.first first))
    (link : q.isLink start stop n = true) (along : GoesAlong q (q.isLink start stop) first c) :
    StartsAt q start stop first c ∧ n ∈ c.interior := by
  obtain ⟨link', none⟩ := goes.before?_eq_none link
  have startsAt : StartsAt q start stop first c := ⟨link', none, along⟩
  obtain ⟨found, head⟩ := startsAt.found consistent
  have inside (m : Node) (leads : ReflTransGen (q.Passes start stop) first m) : m ∈ c.interior := by
    induction leads with
    | refl => exact head
    | tail _ passes ih => exact (found.mem_iff_of_passes consistent passes).mp ih
  have leads := goes.reaches consistent link (List.forall_mem_singleton.mpr .refl)
  exact ⟨startsAt, inside n (List.forall_mem_singleton.mp leads)⟩

/-- A link is on a ring or in a chain. -/
theorem onRing_or_startsAt (link : q.isLink start stop n = true) : q.OnRing start stop n ∨
    ∃ first c, StartsAt q start stop first c ∧ n ∈ c.interior := by
  cases ended : origin q (q.isLink start stop) (q.nodes.length + 1) [n] n with
  | first first =>
    have goes := (goesBack_seed_iff consistent link).mpr ended
    obtain ⟨c, along⟩ := exists_goesAlong consistent (goes.before?_eq_none link).1
    exact .inr ⟨first, c, goes.startsAt consistent link along⟩
  | ring ring =>
    have goes := (goesBack_seed_iff consistent link).mpr ended
    obtain ⟨inside, closed⟩ := goes.ring_of_isLink consistent link
    exact .inl (closed n inside)

end walks

end Chain

end GraphQuery
