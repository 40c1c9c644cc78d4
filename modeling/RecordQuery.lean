import RecordQuery.Run.Execute
import RecordQuery.Store.InPlace
import RecordQuery.Store.Write
import RecordQuery.Toml.Settings
import RecordQuery.Proofs.Distinct
import RecordQuery.Proofs.Coverage
import RecordQuery.Proofs.ParallelRun
import RecordQuery.Proofs.StreamOrder
import RecordQuery.Proofs.Answers
import RecordQuery.Proofs.IndexPlans
import RecordQuery.Proofs.SparseIndexes
import RecordQuery.Proofs.Upkeep
import RecordQuery.Proofs.Interleavings
import RecordQuery.Proofs.Columns
import RecordQuery.Proofs.ExactRecords
import RecordQuery.Proofs.Feeding
import RecordQuery.Proofs.Paging
import RecordQuery.Proofs.OrderedLookups
import RecordQuery.Proofs.RowOrder
import RecordQuery.Proofs.ChainLookups
import RecordQuery.Proofs.SerialCounts
import RecordQuery.Proofs.Hierarchy
import RecordQuery.Proofs.LetBindings
import RecordQuery.Proofs.IndexTargets
import RecordQuery.Proofs.FailedChanges
import RecordQuery.Proofs.ScanHints
import RecordQuery.Proofs.ValueParts
import RecordQuery.Proofs.NullChains
import RecordQuery.Proofs.Merging
import RecordQuery.Proofs.SortedInput
import RecordQuery.Proofs.ColumnOrder
import RecordQuery.Proofs.KeyConditions
import RecordQuery.Proofs.Listings
import RecordQuery.Proofs.Wildcards
import RecordQuery.Proofs.GroupTexts
import RecordQuery.Proofs.MergeTrees
import RecordQuery.Proofs.FieldSides
import RecordQuery.Proofs.RunningSums
import RecordQuery.Proofs.CountedRows
import RecordQuery.Proofs.Executions
import RecordQuery.Proofs.SinkCalls
import RecordQuery.Proofs.Phases
import RecordQuery.Proofs.Cancellation
import RecordQuery.Proofs.Fingerprints
