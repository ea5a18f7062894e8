import GraphQuery.Proofs.Optimizing
import GraphQuery.Proofs.Outlines
/-!
# Builders and queries that can be obtained

Operations are checked against the ends of their arcs when they are added, and nowhere else: to copy
a query into a builder, and to remove, takes no check. The passes make queries by removals, and by an
arc for a chain, which is checked like any other. So whatever comes about could have come about by
calls on builders alone, and all operations in it fit.
-/

namespace GraphQuery

open SessionM

/-- An operation takes the items that leave the source of its arc, and the target takes what it
gives. -/
def Operation.Fits (op : Operation) (a : Arc) : Prop :=
  op.inputType.accepts a.source.outputType = true ∧
    a.target.inputType.accepts op.outputType = true

/-- All operations of a graph fit their arcs. -/
def Graph.Fitting (g : Graph Operation) : Prop :=
  ∀ a ∈ g.arcs, ∀ op ∈ g.labels a, op.Fits a

/-- The builders that callers can have. A builder that holds a copy of a query is the graph of the
query, and so is what a query was built from. -/
inductive Builder.Obtained : Builder → Prop where
  | new : Obtained Graph.empty
  | addNode {b : Builder} (obtained : Obtained b) (n : Node) : Obtained (Graph.addNode b n)
  /-- The operation may be refused. -/
  | addArc {b : Builder} (obtained : Obtained b) (a : Arc) (op : Operation) :
    Obtained (b.offer a op).1
  | addQuery {b : Builder} {q : Query} (obtained : Obtained b) (copied : Obtained q.graph) :
    Obtained (b.addQuery q)
  /-- There may be nothing to remove. -/
  | remove {b : Builder} (obtained : Obtained b) (r : Removal Operation) :
    Obtained ((Graph.remove? b r).getD b)
  /-- A standard pass rewrote a query. -/
  | rewrite {q q' : Query} {pass : Pass} {start stop : Node} {s s' : Session}
    (obtained : Obtained q.graph) (standard : pass ∈ Pass.standard)
    (gives : (pass.run q start stop).Gives s q' s') : Obtained q'.graph

/-- A pass that makes queries of its own in no other way than by calls and by other passes. -/
def Pass.Obtains (pass : Pass) : Prop :=
  ∀ ⦃q q' : Query⦄ ⦃start stop : Node⦄ ⦃s s' : Session⦄, Builder.Obtained q.graph →
    (pass.run q start stop).Gives s q' s' → Builder.Obtained q'.graph

theorem Pass.obtains_of_standard {pass : Pass} (standard : pass ∈ standard) : pass.Obtains :=
  fun _ _ _ _ _ _ obtained gives => .rewrite obtained standard gives

/-- Passes in a row obtain what each of them does. -/
theorem Query.optimize_obtains {q q' : Query} {passes : List Pass} {start stop : Node}
    {s s' : Session} (obtained : Builder.Obtained q.graph) (obtains : ∀ pass ∈ passes, pass.Obtains)
    (gives : (q.optimize passes start stop).Gives s q' s') : Builder.Obtained q'.graph := by
  induction passes generalizing q s with
  | nil => exact gives.of_pure ▸ obtained
  | cons pass passes ih =>
    obtain ⟨first, rest⟩ := List.forall_mem_cons.mp obtains
    unfold optimize at gives
    rw [List.foldlM_cons] at gives
    obtain ⟨r, s₁, passed, further⟩ := gives.of_bind
    obtain ⟨r', s₂, runs, reported⟩ := passed.of_bind
    obtain ⟨-, s₃, -, done⟩ := reported.of_bind
    obtain rfl := done.of_pure
    exact ih (first obtained runs) rest further

/-! Passes as calls -/

namespace Script

theorem made (s : Script) : Builder.Made s.builder := by
  induction s with
  | new => exact .empty
  | fromQuery _ _ ih => exact ih
  | addNode s n ih => exact ih.addNode n
  | addArc s a op ih =>
    rw [builder, Builder.offer]
    split
    · next added => exact ih.addArc added
    · exact ih
  | addQuery s built id ih ih' => exact ih.addQuery ih'
  | remove s r ih =>
    rw [builder]
    cases removed : Graph.remove? s.builder r with
    | none => exact ih
    | some b' =>
      cases r with
      | arc a => exact ih.removeArc removed
      | label a op => exact ih.removeOperation removed
      | node n => exact ih.removeNode removed

/-- The calls that remove some nodes after others. -/
def removeNodes (s : Script) (ns : List Node) : Script :=
  ns.foldl (fun s n => s.remove (.node n)) s

theorem builder_removeNodes (s : Script) (ns : List Node) (q : Query) (same : s.builder = q.graph) :
    (s.removeNodes ns).builder = q.without ns := by
  unfold removeNodes Query.without
  rw [← same]
  clear same
  induction ns generalizing s with
  | nil => rfl
  | cons n ns ih => exact ih (s.remove (.node n))

end Script

/-- The builder comes about by calls alone. -/
def Builder.Scripted (b : Builder) : Prop :=
  ∃ s : Script, s.builder = b

namespace Query

open Builder

variable {q q' : Query} {start stop : Node} {s s' : Session}

theorem scripted_without (scripted : Scripted q.graph) (doomed : List Node) :
    Scripted (q.without doomed) := by
  obtain ⟨script, same⟩ := scripted
  exact ⟨script.removeNodes doomed, script.builder_removeNodes doomed q same⟩

theorem prune_scripted (scripted : Scripted q.graph) (gives : (q.prune start stop).Gives s q' s') :
    Scripted q'.graph := by
  unfold prune at gives
  obtain ⟨kept, s₁, -, gives⟩ := gives.of_bind
  dsimp only at gives
  split at gives
  · exact gives.of_pure ▸ scripted
  · obtain ⟨-, s₂, -, gives⟩ := gives.of_bind
    obtain ⟨id, s₃, -, gives⟩ := gives.of_bind
    rw [gives.of_pure]
    exact scripted_without scripted _

theorem scripted_fuse (scripted : Scripted q.graph) {c : Chain} {b : Builder}
    (fuses : c.fuse q = .ok b) : Scripted b := by
  obtain ⟨script, same⟩ := scripted_without scripted c.interior
  refine ⟨script.addArc c.shortcut (.filter c.conjoined), ?_⟩
  have added : script.builder.addArc c.shortcut (.filter c.conjoined) = .ok b := same ▸ fuses
  rw [Script.builder, offer, added]

theorem fuseFrom_scripted {fuel : Nat} {stuck : List Node} (scripted : Scripted q.graph)
    (gives : (fuseFrom start stop fuel stuck q).Gives s q' s') : Scripted q'.graph := by
  induction fuel generalizing q stuck s with
  | zero => cases gives
  | succ fuel ih =>
    unfold fuseFrom at gives
    split at gives
    · exact gives.of_pure ▸ scripted
    · next c stuck' _ =>
      split at gives
      · next b fuses =>
        obtain ⟨id, s₁, -, gives⟩ := gives.of_bind
        obtain ⟨-, s₂, -, gives⟩ := gives.of_bind
        exact ih (scripted_fuse scripted fuses) gives
      · split at gives
        · exact ih scripted gives
        · cases gives

end Query

namespace Builder

/-- Whatever is obtained comes about by calls alone. -/
theorem Obtained.scripted {b : Builder} (obtained : b.Obtained) : b.Scripted := by
  induction obtained with
  | new => exact ⟨.new, rfl⟩
  | addNode _ n ih =>
    obtain ⟨script, rfl⟩ := ih
    exact ⟨script.addNode n, rfl⟩
  | addArc _ a op ih =>
    obtain ⟨script, rfl⟩ := ih
    exact ⟨script.addArc a op, rfl⟩
  | @addQuery _ q _ _ ih ih' =>
    obtain ⟨script, rfl⟩ := ih
    obtain ⟨script', same⟩ := ih'
    refine ⟨script.addQuery script' q.id, ?_⟩
    rw [Script.builder, same]
    rfl
  | remove _ r ih =>
    obtain ⟨script, rfl⟩ := ih
    exact ⟨script.remove r, rfl⟩
  | rewrite _ standard gives ih =>
    simp only [Pass.standard, List.mem_cons, List.not_mem_nil, or_false] at standard
    obtain rfl | rfl := standard
    · exact Query.prune_scripted ih gives
    · exact Query.fuseFrom_scripted ih gives

theorem Obtained.consistent {b : Builder} (obtained : b.Obtained) : Graph.Consistent b := by
  obtain ⟨script, rfl⟩ := obtained.scripted
  exact script.consistent

theorem Scripted.fitting {b : Builder} (scripted : b.Scripted) : Graph.Fitting b := by
  obtain ⟨script, rfl⟩ := scripted
  exact fun a _ op label => misfit?_eq_none.mp (script.made.fits a op label)

theorem Obtained.fitting {b : Builder} (obtained : b.Obtained) : Graph.Fitting b :=
  obtained.scripted.fitting

/-- An operation is refused exactly if it does not fit its arc, for a mismatch of types, and then the
builder stays what it was. -/
theorem addArc_refuses (b : Builder) (a : Arc) (op : Operation) :
    ((∃ e, b.addArc a op = .error e) ↔ ¬ op.Fits a) ∧ ∀ e, b.addArc a op = .error e →
      e.isTypeMismatch = true ∧ b.offer a op = (b, some e) := by
  constructor
  · rw [Operation.Fits, ← misfit?_eq_none]
    unfold addArc
    cases misfit? a op with
    | none => simp [pure, Except.pure]
    | some misfit => simp [throw, throwThe, MonadExceptOf.throw]
  · intro e refused
    refine ⟨?_, by rw [offer, refused]⟩
    unfold addArc at refused
    split at refused
    · cases refused
      rfl
    · cases refused

/-- In whatever is obtained, and in what passes make of it, all operations fit their arcs; one that
does not is refused, which changes nothing. -/
theorem Obtained.fitting_throughout {b : Builder} (obtained : b.Obtained) :
    Graph.Fitting b ∧ (∀ id, (b.build id).graph.Fitting) ∧
    (∀ (id : QueryId) (passes : List Pass) (start stop : Node) (s s' : Session) (q : Query),
      (∀ pass ∈ passes, pass.Obtains) →
      ((b.build id).optimize passes start stop).Gives s q s' → q.graph.Fitting) ∧
    ∀ a op, ((∃ e, b.addArc a op = .error e) ↔ ¬ op.Fits a) ∧ ∀ e, b.addArc a op = .error e →
      e.isTypeMismatch = true ∧ b.offer a op = (b, some e) := by
  refine ⟨obtained.fitting, fun _ => obtained.fitting, ?_, b.addArc_refuses⟩
  intro id passes start stop s s' q obtains gives
  exact (Query.optimize_obtains obtained obtains gives).fitting

end Builder

namespace Query

theorem obtained_tally : Builder.Obtained tally.graph :=
  (Builder.Obtained.new.addArc ⟨tallySource, tallySource⟩ (.filter (.anything .any))).addArc
    ⟨tallySource, tallySink⟩ (.count .any)

theorem optimizable_tally : tally.Optimizable 1 where
  consistent := consistent_tally
  isPure := isPure_tally
  numbered := numbered_tally
  id_lt r within := by
    rw [flat_tally.eq_of_within within]
    decide
  identified := by
    rintro p ⟨f, listed, tries⟩
    rcases mem_operations_tally.mp listed with same | same <;> cases same
    cases tries

end Query

/-- The passes make a query of `tally` in which all operations fit. Where sizes leave, a filter of
truth values is refused. -/
theorem Builder.fitting_throughout_tally : Graph.Fitting Query.tally.graph ∧
    (∃ q s, (Query.tally.optimize Pass.standard Query.tallySource Query.tallySink).Gives
      ⟨0, 1, #[]⟩ q s ∧ q.graph.Fitting) ∧
    ∃ e, Builder.offer Query.tally.graph ⟨Query.tallySink, Query.tallySink⟩
      (.filter (.anything (.kind .bool))) = (Query.tally.graph, some e) := by
  obtain ⟨fits, -, passes, offers⟩ := Obtained.fitting_throughout Query.obtained_tally
  refine ⟨fits, ?_, ?_⟩
  · have standard : ∀ pass ∈ Pass.standard, pass = .prune ∨ pass = .fuse := by simp [Pass.standard]
    obtain ⟨q, s, gives, -⟩ := Query.Optimizable.optimize_gives (s := ⟨0, 1, #[]⟩)
      Query.optimizable_tally standard Query.tallySource Query.tallySink
    exact ⟨q, s, gives,
      passes 0 _ _ _ _ _ q (fun pass standard => Pass.obtains_of_standard standard) gives⟩
  · obtain ⟨refused, unchanged⟩ :=
      offers ⟨Query.tallySink, Query.tallySink⟩ (.filter (.anything (.kind .bool)))
    obtain ⟨e, refusal⟩ := refused.mpr fun fits => absurd fits.1 (by decide)
    exact ⟨e, (unchanged e refusal).2⟩

end GraphQuery
