import CacheVerdict.Ordered.Map
import CacheVerdict.Ordered.Set
import CacheVerdict.Ordered.Sort
import CacheVerdict.Ordered.Queue
import CacheVerdict.Text.Blank
import CacheVerdict.Text.Numeral
import CacheVerdict.Text.Printable
import CacheVerdict.Text.Quoted
import CacheVerdict.Hierarchy.Level
import CacheVerdict.Hierarchy.Geometry
import CacheVerdict.Hierarchy.Basic
import CacheVerdict.Reference
import CacheVerdict.Settings
import CacheVerdict.Instruction.Immediate
import CacheVerdict.Instruction.Basic
import CacheVerdict.Instruction.Decode
import CacheVerdict.Report.AddressRange
import CacheVerdict.Ordered.Render
import CacheVerdict.Procedure.Basic
import CacheVerdict.Procedure.LoopNest
import CacheVerdict.Program.Basic
import CacheVerdict.Program.CallOrder
import CacheVerdict.Listing.Draft
import CacheVerdict.Listing.Reader
import CacheVerdict.Flow.Queue
import CacheVerdict.StackHeight.Basic
import CacheVerdict.StackHeight.Flow
import CacheVerdict.Resolution.Tracker
import CacheVerdict.Resolution.Search
import CacheVerdict.Resolution.Basic
import CacheVerdict.Resolution.ReferenceTable
import CacheVerdict.Flow.Effect
import CacheVerdict.Flow.Event
import CacheVerdict.Flow.Domain
import CacheVerdict.Flow.Solve
import CacheVerdict.Cache.AgedLines
import CacheVerdict.Cache.Candidates
import CacheVerdict.Cache.State
import CacheVerdict.Cache.Must
import CacheVerdict.Cache.May
import CacheVerdict.Cache.Persistence
import CacheVerdict.Analysis.Verdict
import CacheVerdict.Analysis.Study
import CacheVerdict.Analysis.Classify
import CacheVerdict.Analysis.Refine
import CacheVerdict.Analysis.Run
import CacheVerdict.Report.Table
import CacheVerdict.Report.Statistics
import CacheVerdict.Report.Drawing
import CacheVerdict.CommandLine.Options
import CacheVerdict.CommandLine.Place
import CacheVerdict.CommandLine.Plan
import CacheVerdict.CommandLine.Workspace
import CacheVerdict.Main
import CacheVerdict.Proofs.Ordered.Set
import CacheVerdict.Proofs.Ordered.Map
import CacheVerdict.Proofs.Ordered.Lists
import CacheVerdict.Proofs.Cache.Candidates
import CacheVerdict.Proofs.Cache.Meet
import CacheVerdict.Proofs.Cache.Lru
import CacheVerdict.Proofs.Cache.Run
import CacheVerdict.Proofs.Flow.Queue
import CacheVerdict.Proofs.Flow.Ascent
import CacheVerdict.Proofs.Cache.Order
import CacheVerdict.Proofs.Cache.Rank
import CacheVerdict.Proofs.Cache.MustSound
import CacheVerdict.Proofs.Cache.MaySound
import CacheVerdict.Proofs.Cache.PersistenceSound
import CacheVerdict.Proofs.Cache.PersistenceEnds
import CacheVerdict.Proofs.Flow.Least
import CacheVerdict.Proofs.Cache.Convergence
import CacheVerdict.Proofs.Analysis.Findings
import CacheVerdict.Proofs.Analysis.Execution
import CacheVerdict.Proofs.Analysis.Verdicts
import CacheVerdict.Proofs.Analysis.Multilevel
import CacheVerdict.Proofs.StackHeight.Sound
import CacheVerdict.Proofs.StackHeight.Executions
import CacheVerdict.Proofs.StackHeight.Unreachable
import CacheVerdict.Proofs.Procedure.LoopNest
import CacheVerdict.Proofs.Procedure.Paths
import CacheVerdict.Proofs.Procedure.EdgeTables
import CacheVerdict.Proofs.Listing.WellFormed
import CacheVerdict.Proofs.Program.CalleesFirst
import CacheVerdict.Proofs.Program.Recursion
import CacheVerdict.Proofs.Hierarchy.Lines
import CacheVerdict.Proofs.Hierarchy.Sets
import CacheVerdict.Proofs.Analysis.Footprints
import CacheVerdict.Proofs.Analysis.Refinement
import CacheVerdict.Proofs.Analysis.PersistentLoops
import CacheVerdict.Proofs.Analysis.Machine
import CacheVerdict.Proofs.Analysis.FootprintCovers
import CacheVerdict.Proofs.Analysis.FrameOffsets
import CacheVerdict.Proofs.Cache.Relabel
import CacheVerdict.Proofs.Analysis.Placement
import CacheVerdict.Proofs.Analysis.CallContexts
import CacheVerdict.Proofs.Flow.Simulation
import CacheVerdict.Proofs.Cache.Agreement
import CacheVerdict.Proofs.Cache.SinglePath
import CacheVerdict.Proofs.Cache.Associativity
import CacheVerdict.Proofs.Cache.Crowding
import CacheVerdict.Proofs.Cache.Coarser
import CacheVerdict.Proofs.Cache.Weakening
import CacheVerdict.Proofs.Resolution.ReferenceTable
import CacheVerdict.Proofs.Resolution.Registers
import CacheVerdict.Proofs.Resolution.Walks
import CacheVerdict.Proofs.Resolution.Paths
import CacheVerdict.Proofs.Resolution.Ranges
import CacheVerdict.Proofs.Resolution.TrackedAddress
import CacheVerdict.Proofs.Resolution.Heights
import CacheVerdict.Proofs.Resolution.Chains
import CacheVerdict.Proofs.Procedure.LoopForest
import CacheVerdict.Proofs.Resolution.Endings
import CacheVerdict.Proofs.Resolution.Budget
import CacheVerdict.Proofs.Analysis.Offered
import CacheVerdict.Proofs.Analysis.Completeness
import CacheVerdict.Proofs.Analysis.Approximation
import CacheVerdict.Proofs.Analysis.Comparison
import CacheVerdict.Proofs.Analysis.Transfer
import CacheVerdict.Proofs.Analysis.LowerBounds
import CacheVerdict.Proofs.Analysis.Unresolved
import CacheVerdict.Proofs.Analysis.UnreachableCode
import CacheVerdict.Proofs.Text.Blank
import CacheVerdict.Proofs.Listing.Checked
import CacheVerdict.Proofs.Listing.Reading
import CacheVerdict.Proofs.Text.Numeral
import CacheVerdict.Proofs.Text.LetterCase
import CacheVerdict.Proofs.Instruction.Immediate
import CacheVerdict.Proofs.Instruction.Operands
import CacheVerdict.Proofs.Instruction.LetterCase
import CacheVerdict.Proofs.Instruction.ShiftedImmediate
import CacheVerdict.Proofs.Listing.Outline
import CacheVerdict.Proofs.Listing.Sketch
import CacheVerdict.Proofs.Listing.Lines
import CacheVerdict.Proofs.Listing.RoundTrip
import CacheVerdict.Proofs.Cache.Embedding
import CacheVerdict.Proofs.Cache.Capacity
import CacheVerdict.Proofs.Cache.Semilattice
import CacheVerdict.Proofs.Cache.Grouped
import CacheVerdict.Proofs.Cache.GroupedStates
import CacheVerdict.Proofs.Report.Statistics
