import GraphQuery.Proofs.OnWalks
/-!
# Optimizing finishes

Whatever query and nodes are given, the standard passes rewrite it: the selections among its positions
cannot fail, to fuse a chain fails for a mismatch of types only, and the rounds of fusing come to an
end, as do the walks along links in each of them. What is left are nodes of the query in their order.
-/

namespace GraphQuery

open Query

namespace Fusion

variable {start stop : Node} {f f' : Fusion}

/-- The walks that look for the chain of a link end by themselves: to allow them more steps than one
for each node and one makes no difference. -/
def WalksEnd (start stop : Node) (q : Query) : Prop :=
  ∀ n, q.isLink start stop n = true → ∀ fuel, q.nodes.length < fuel →
    Chain.origin q (q.isLink start stop) fuel [n] n =
      Chain.origin q (q.isLink start stop) (q.nodes.length + 1) [n] n ∧
    Chain.onward q (q.isLink start stop) fuel [] n =
      Chain.onward q (q.isLink start stop) (q.nodes.length + 1) [] n

theorem walksEnd {q : Query} (consistent : q.graph.Consistent) (start stop : Node) :
    WalksEnd start stop q := by
  intro n link fuel enough
  have among : ∀ m ∈ [n], q.isLink start stop m = true := List.forall_mem_singleton.mpr link
  constructor
  · refine Chain.origin_eq_of_lt consistent among (by simp) ?_ ?_
    · omega
    · omega
  · refine Chain.onward_eq_of_lt consistent among (by simp) ?_ ?_
    · simpa using enough
    · simp

/-- A round removes a node, or leaves the query as it is and one more of its nodes alone. -/
def Advances (f f' : Fusion) : Prop :=
  f'.query.nodes.Sublist f.query.nodes ∧ f.stuck ⊆ f'.stuck ∧
    (f'.query.nodes.length < f.query.nodes.length ∨
      f'.query = f.query ∧ ∃ n ∈ f.query.nodes, n ∉ f.stuck ∧ n ∈ f'.stuck)

theorem Round.advances (consistent : f.query.graph.Consistent) (round : Round start stop f f') :
    f.Advances f' := by
  obtain ⟨nodes, stuck, n, known, free, gone | ⟨same, left⟩⟩ := round.progress consistent
  · refine ⟨nodes, stuck, .inl (lt_of_le_of_ne nodes.length_le fun same => gone ?_)⟩
    rwa [nodes.eq_of_length same]
  · exact ⟨nodes, stuck, .inr ⟨same, n, known, free, left⟩⟩

end Fusion

variable {q : Query}

/-- Each of the standard passes succeeds, and takes away nodes only. -/
theorem Pass.run_gives {pass : Pass} (standard : pass ∈ standard) (consistent : q.graph.Consistent)
    (start stop : Node) (s : Session) : ∃ q' s', (pass.run q start stop).Gives s q' s' ∧
      q'.graph.Consistent ∧ q'.nodes.Sublist q.nodes := by
  simp only [Pass.standard, List.mem_cons, List.not_mem_nil, or_false] at standard
  rcases standard with rfl | rfl
  · obtain ⟨doomed, q', s', gives, -, ⟨-, rfl, -⟩ | ⟨-, id, -, -, rfl⟩⟩ :=
      prune_removes consistent start stop s
    · exact ⟨q', s', gives, consistent, .refl _⟩
    · obtain ⟨consistent', nodes, -⟩ := Graph.removeNodes_spec consistent doomed
      refine ⟨_, s', gives, consistent', ?_⟩
      exact (show ((q.without doomed).build id).nodes = _ from nodes) ▸ List.filter_sublist
  · obtain ⟨f, runs, -, gives⟩ := Fusion.fuseChains_runs consistent start stop s
    exact ⟨f.query, f.session, gives, runs.consistent consistent, runs.sublist consistent⟩

/-- So do the standard passes in a row, in any order and number. -/
theorem Query.optimize_gives {passes : List Pass} (standard : ∀ pass ∈ passes, pass ∈ Pass.standard)
    (consistent : q.graph.Consistent) (start stop : Node) (s : Session) :
    ∃ q' s', (q.optimize passes start stop).Gives s q' s' ∧ q'.nodes.Sublist q.nodes := by
  obtain ⟨q', s', gives, -, fewer⟩ :=
    optimize_keeps (I := fun q' _ => q'.graph.Consistent ∧ q'.nodes.Sublist q.nodes)
      (fun pass listed r s₁ ⟨consistent, fewer⟩ => by
        obtain ⟨r', s', gives, consistent', fewer'⟩ :=
          pass.run_gives (standard pass listed) consistent start stop s₁
        exact ⟨r', s', gives, consistent', fewer'.trans fewer⟩) (s := s) ⟨consistent, .refl _⟩
  exact ⟨q', s', gives, fewer⟩

/-- Optimizing by the standard passes succeeds for every query and all nodes, in it or not: the
selections among positions succeed, chains are refused for mismatches only, each round advances from
wherever rounds lead, and the walks of each round end. -/
theorem Query.optimize_finishes (obtained : Builder.Obtained q.graph) (start stop : Node)
    (s : Session) :
    (∃ q' s', (q.optimize Pass.standard start stop).Gives s q' s' ∧ q'.nodes.Sublist q.nodes) ∧
    (∀ d o, ∃ found s', (q.reachable d o).Gives s found s') ∧
    (∀ (c : Chain) r e, c.fuse r = .error e → e.isTypeMismatch = true) ∧
    (∃ f, Fusion.Runs start stop ⟨q, s, [], [], []⟩ f ∧ f.Done start stop ∧
      (q.fuseChains start stop).Gives s f.query f.session) ∧
    ∀ f, Fusion.Runs start stop ⟨q, s, [], [], []⟩ f →
      Fusion.WalksEnd start stop f.query ∧ ∀ f', Fusion.Round start stop f f' → f.Advances f' := by
  have consistent := obtained.consistent
  refine ⟨optimize_gives (fun _ standard => standard) consistent start stop s, fun d o => ?_,
    fun c r e fails => ?_, Fusion.fuseChains_runs consistent start stop s, fun f runs => ?_⟩
  · obtain ⟨found, s', gives, -⟩ := reachable_finds consistent d o s
    exact ⟨found, s', gives⟩
  · rcases c.fuse_cases r with ⟨-, fuses⟩ | ⟨-, e', fails', mismatch⟩
    · rw [fuses] at fails
      cases fails
    · rw [fails'] at fails
      exact Except.error.inj fails ▸ mismatch
  · have consistent' := runs.consistent consistent
    exact ⟨Fusion.walksEnd consistent' start stop, fun f' round => round.advances consistent'⟩

/-- The query `tally` can be optimized for a selection from a node that it does not have. -/
theorem Query.optimize_finishes_tally : ∃ q' s',
    (tally.optimize Pass.standard (.plain 2 "elsewhere" .any) tallySink).Gives ⟨3, 1, #[]⟩ q' s' ∧
      q'.nodes.Sublist [tallySource, tallySink] := by
  obtain ⟨⟨q', s', gives, fewer⟩, -⟩ :=
    optimize_finishes obtained_tally (.plain 2 "elsewhere" .any) tallySink ⟨3, 1, #[]⟩
  exact ⟨q', s', gives, nodes_tally ▸ fewer⟩

end GraphQuery
