import ClauseLearning.Portfolio.Outcome
import ClauseLearning.Proofs.Store.Edit
import ClauseLearning.Proofs.Trail
import ClauseLearning.Sharing.Peer
import ClauseLearning.Formula
import ClauseLearning.Proofs.Watches
import ClauseLearning.Proofs.Binaries
import ClauseLearning.Proofs.Order.Heap
import ClauseLearning.Proofs.Order.Orders
import ClauseLearning.Proofs.Order.Lineup
import ClauseLearning.Proofs.Order.Listing
import ClauseLearning.Proofs.Invariant
import ClauseLearning.Proofs.Assign
import ClauseLearning.Proofs.Visit
import ClauseLearning.Proofs.Wiring
import ClauseLearning.Proofs.Closure
import ClauseLearning.Proofs.Visiting
import ClauseLearning.Proofs.Propagation
import ClauseLearning.Proofs.Notes
import ClauseLearning.Proofs.Resolution
import ClauseLearning.Proofs.Analysis
import ClauseLearning.Proofs.Storing
import ClauseLearning.Proofs.Learning
import ClauseLearning.Proofs.Contract
import ClauseLearning.Proofs.Store.Sweep
import ClauseLearning.Proofs.Trimming
import ClauseLearning.Proofs.Pinning
import ClauseLearning.Proofs.Rehoming
import ClauseLearning.Proofs.Sweeping
import ClauseLearning.Proofs.Rewatching
import ClauseLearning.Proofs.Collection
import ClauseLearning.Proofs.Reduction
import ClauseLearning.Proofs.Store.Shrink
import ClauseLearning.Proofs.Simplification
import ClauseLearning.Proofs.Scheduling
import ClauseLearning.Proofs.RootClause
import ClauseLearning.Proofs.Input
import ClauseLearning.Proofs.Importing
import ClauseLearning.Proofs.Completion
import ClauseLearning.Proofs.Removal
import ClauseLearning.Proofs.Pure
import ClauseLearning.Proofs.Search
import ClauseLearning.Proofs.Run
import ClauseLearning.Proofs.Trial
import ClauseLearning.Proofs.Fixpoint
import ClauseLearning.Proofs.Model
import ClauseLearning.Proofs.Entailment
import ClauseLearning.Proofs.Asserting
import ClauseLearning.Proofs.FirstUip
import ClauseLearning.Proofs.Novelty
import ClauseLearning.Proofs.Faults
import ClauseLearning.Proofs.Sharing
import ClauseLearning.Proofs.Portfolio
import ClauseLearning.Proofs.Keeping
import ClauseLearning.Proofs.Progress
import ClauseLearning.Proofs.Termination
import ClauseLearning.Proofs.Decision
import ClauseLearning.Proofs.Lasting
import ClauseLearning.Proofs.Reachability
import ClauseLearning.Proofs.Implications
import ClauseLearning.Proofs.Agreement
import ClauseLearning.Proofs.WatchLists
import ClauseLearning.Proofs.Relocation
import ClauseLearning.Proofs.Ordering
import ClauseLearning.Proofs.Representation
import ClauseLearning.Proofs.Elimination
import ClauseLearning.Proofs.Accounting
import ClauseLearning.Proofs.RootCollection
import ClauseLearning.Proofs.RootPropagation
import ClauseLearning.Proofs.Reconstruction
import ClauseLearning.Proofs.Arrangement
import ClauseLearning.Proofs.Store.Amend
import ClauseLearning.Proofs.Store.Packing
import ClauseLearning.Proofs.Tidying
import ClauseLearning.Proofs.Paring
import ClauseLearning.Proofs.RootSimplification
import ClauseLearning.Proofs.Store.Ledger
import ClauseLearning.Proofs.Store.Compaction
import ClauseLearning.Proofs.Store.Refinement
import ClauseLearning.Proofs.Store.Counting
import ClauseLearning.Proofs.Relay.Fates
import ClauseLearning.Proofs.Relay.Pool
import ClauseLearning.Proofs.Relay.Selection
import ClauseLearning.Proofs.Relay.Conservation
import ClauseLearning.Proofs.Relay.Balance
import ClauseLearning.Proofs.Relay.Round
import ClauseLearning.Proofs.Blind
import ClauseLearning.Proofs.Clausework
import ClauseLearning.Proofs.Errands
import ClauseLearning.Proofs.Lull
import ClauseLearning.Proofs.Facing
import ClauseLearning.Proofs.Twins
import ClauseLearning.Proofs.Redundancy
import ClauseLearning.Proofs.Jumping
import ClauseLearning.Proofs.Replay
import ClauseLearning.Proofs.Addition
import ClauseLearning.Proofs.Unaided
import ClauseLearning.Proofs.Merging
import ClauseLearning.Proofs.Thinning
import ClauseLearning.Proofs.Snapshots
import ClauseLearning.Proofs.Targets
import ClauseLearning.Proofs.Subsumption
import ClauseLearning.Proofs.Deriving
import ClauseLearning.Proofs.Timetable
import ClauseLearning.Proofs.Correspondence
import ClauseLearning.Proofs.Deadlines
import ClauseLearning.Proofs.Window
import ClauseLearning.Proofs.Scanning
