import BatchFlow.Json.Reader
import BatchFlow.Json.Specs
import BatchFlow.Json.Writer
import BatchFlow.Memory.Ledger
import BatchFlow.Stream.Pipeline
import BatchFlow.Vector.Pool
import BatchFlow.Proofs.Batch.Alignment
import BatchFlow.Proofs.Stream.Demand
import BatchFlow.Proofs.Stream.Validated
import BatchFlow.Proofs.Stream.Unnesting
import BatchFlow.Proofs.Stream.Asking
import BatchFlow.Proofs.Stream.Backlog
import BatchFlow.Proofs.Stream.Runs
import BatchFlow.Proofs.Stream.Signals
import BatchFlow.Proofs.Stream.Sections
import BatchFlow.Proofs.Stream.Refinement
import BatchFlow.Proofs.Stream.Lateral
import BatchFlow.Proofs.Stream.OuterRows
import BatchFlow.Proofs.Stream.LateralGroups
import BatchFlow.Proofs.Stream.Pressure
import BatchFlow.Proofs.Stream.Flushing
import BatchFlow.Proofs.Stream.SortedInput
import BatchFlow.Proofs.Stream.AnyChild
import BatchFlow.Proofs.Stream.Histories
import BatchFlow.Proofs.Stream.Announcing
import BatchFlow.Proofs.Stream.ChainShapes
import BatchFlow.Proofs.Stream.Settling
import BatchFlow.Proofs.Stream.Accounting
import BatchFlow.Proofs.Stream.Draining
import BatchFlow.Proofs.Memory.Ledger
import BatchFlow.Proofs.Stream.Conservation
import BatchFlow.Proofs.Stream.RefusedCalls
import BatchFlow.Proofs.Value.Clashes
import BatchFlow.Proofs.Value.Hashing
import BatchFlow.Proofs.Expr.Safety
import BatchFlow.Proofs.Expr.WholeArithmetic
import BatchFlow.Proofs.Aggregate.Summing
import BatchFlow.Proofs.Aggregate.Choosing
import BatchFlow.Proofs.Aggregate.FreshGroups
import BatchFlow.Proofs.Batch.Appending
import BatchFlow.Proofs.Stream.Batching
import BatchFlow.Proofs.Vector.Concatenation
import BatchFlow.Proofs.Vector.PlainLists
import BatchFlow.Proofs.Value.Casting
import BatchFlow.Proofs.Value.Inference
import BatchFlow.Proofs.Stream.TypeRefusals
import BatchFlow.Proofs.Stream.CountedRows
import BatchFlow.Proofs.Json.RoundTrip
