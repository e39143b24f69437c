import TableScan.Main
import TableScan.Value.Json
import TableScan.Proofs.Folding
import TableScan.Proofs.PlanFailures
import TableScan.Proofs.ScanStatistics
import TableScan.Proofs.WholeScans
import TableScan.Proofs.Streams
import TableScan.Proofs.Injection
import TableScan.Proofs.BatchSizes
import TableScan.Proofs.Counting
import TableScan.Proofs.Merging
import TableScan.Proofs.Placement
import TableScan.Proofs.Opening
import TableScan.Proofs.Inference
import TableScan.Proofs.KeyedPaths
import TableScan.Proofs.Completeness
import TableScan.Proofs.Pruning
import TableScan.Proofs.Bindings
import TableScan.Proofs.Constants
import TableScan.Proofs.Leniency
import TableScan.Proofs.ExactNumbers
import TableScan.Proofs.KeyOrder
import TableScan.Proofs.CanonicalOrder
import TableScan.Proofs.Operators
import TableScan.Proofs.Limits
import TableScan.Proofs.Handles
import TableScan.Proofs.Casts
import TableScan.Proofs.Rereading
import TableScan.Proofs.Intervals
