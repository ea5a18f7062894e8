import GraphQuery.Fingerprint
import GraphQuery.ItemType
import GraphQuery.Node
import GraphQuery.Quoted
import GraphQuery.Item
import GraphQuery.Error
import GraphQuery.Tuple
import GraphQuery.Datum
import GraphQuery.ItemSet.Distinct
import GraphQuery.ItemSet.Store
import GraphQuery.ItemSet.Basic
import GraphQuery.ItemSet.Equality
import GraphQuery.ItemSet.Algebra
import GraphQuery.ItemSet.Listing
import GraphQuery.Graph
import GraphQuery.Operation.Basic
import GraphQuery.Operation.Equality
import GraphQuery.Operation.Make
import GraphQuery.Operation.Apply
import GraphQuery.Builder
import GraphQuery.Evaluator.Event
import GraphQuery.Evaluator.State
import GraphQuery.Evaluator.Select
import GraphQuery.Rewrite.Session
import GraphQuery.Rewrite.Reachability
import GraphQuery.Rewrite.Prune
import GraphQuery.Rewrite.Chain
import GraphQuery.Rewrite.Optimize
import GraphQuery.Proofs.Computation
import GraphQuery.Proofs.Nesting
import GraphQuery.Proofs.GeneralWay
import GraphQuery.Proofs.Inquiry
import GraphQuery.Proofs.Outcomes
import GraphQuery.Proofs.Steps
import GraphQuery.Proofs.ItemSetLaws
import GraphQuery.Proofs.Purity
import GraphQuery.Proofs.FrameGraph
import GraphQuery.Proofs.OpenFrames
import GraphQuery.Proofs.Coherence
import GraphQuery.Proofs.Stacking
import GraphQuery.Proofs.Exploration
import GraphQuery.Proofs.Components
import GraphQuery.Proofs.Visits
import GraphQuery.Proofs.Halting
import GraphQuery.Proofs.Lockstep
import GraphQuery.Proofs.Selections
import GraphQuery.Proofs.GraphLaws
import GraphQuery.Proofs.QuietOperations
import GraphQuery.Proofs.Carrying
import GraphQuery.Proofs.WalkUnion
import GraphQuery.Proofs.Calls
import GraphQuery.Proofs.History
import GraphQuery.Proofs.ItemTypeOrder
import GraphQuery.Proofs.Instances
import GraphQuery.Proofs.Labels
import GraphQuery.Proofs.WellTyped
import GraphQuery.Proofs.TypedState
import GraphQuery.Proofs.TypeSafety
import GraphQuery.Proofs.FilterEquality
import GraphQuery.Proofs.Conjunctions
import GraphQuery.Proofs.Filtering
import GraphQuery.Proofs.Rewriting
import GraphQuery.Proofs.Sessions
import GraphQuery.Proofs.Mappings
import GraphQuery.Proofs.Positions
import GraphQuery.Proofs.Pruning
import GraphQuery.Proofs.Chains
import GraphQuery.Proofs.Links
import GraphQuery.Proofs.Shortcuts
import GraphQuery.Proofs.Rounds
import GraphQuery.Proofs.Fusing
import GraphQuery.Proofs.Optimizing
import GraphQuery.Proofs.Moments
import GraphQuery.Proofs.Confinement
import GraphQuery.Proofs.Serving
import GraphQuery.Proofs.ItemReachability
import GraphQuery.Proofs.Discernment
import GraphQuery.Proofs.Congruence
import GraphQuery.Proofs.Outlines
import GraphQuery.Proofs.Obtaining
import GraphQuery.Proofs.Termination
import GraphQuery.Proofs.Blame
import GraphQuery.Proofs.Limits
import GraphQuery.Proofs.Trails
import GraphQuery.Proofs.Keeping
import GraphQuery.Proofs.Expansions
import GraphQuery.Proofs.Asking
import GraphQuery.Proofs.Caching
import GraphQuery.Proofs.Repeating
import GraphQuery.Proofs.Straying
import GraphQuery.Proofs.Retyping
import GraphQuery.Proofs.OnWalks
import GraphQuery.Proofs.Finishing
import GraphQuery.Proofs.Settling
import GraphQuery.Proofs.Staging
import GraphQuery.Proofs.Pairing
import GraphQuery.Proofs.Concurrence
import GraphQuery.Proofs.Uniting
import GraphQuery.Proofs.Misfits
import GraphQuery.Proofs.Passing
import GraphQuery.Proofs.Tabulation
import GraphQuery.Proofs.Tables
import GraphQuery.Proofs.Recording
import GraphQuery.Proofs.Interchange
import GraphQuery.Proofs.UnionOrder
import GraphQuery.Proofs.SetAlgebra
import GraphQuery.Proofs.DeclaredTypes
import GraphQuery.Proofs.Merging
import GraphQuery.Proofs.LabelSearch
import GraphQuery.Proofs.ResultNodes
import GraphQuery.Proofs.StackOrder
import GraphQuery.Proofs.MaximalChains
import GraphQuery.Proofs.Layouts
import GraphQuery.Proofs.Indexing
