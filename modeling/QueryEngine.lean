import QueryEngine.Json.Catalog
import QueryEngine.Json.Parser
import QueryEngine.Json.Printer
import QueryEngine.Operator.Plan
import QueryEngine.Proofs.Aggregate.Exact
import QueryEngine.Proofs.Operator.Walk
import QueryEngine.Proofs.Operator.Bare
import QueryEngine.Proofs.Storage.Ledger
import QueryEngine.Proofs.Storage.AppendOnly
import QueryEngine.Statistics.Registry
import QueryEngine.Storage.Contested
import QueryEngine.Storage.Federation
import QueryEngine.Proofs.Aggregate.Summary
import QueryEngine.Proofs.Operator.Listing
import QueryEngine.Proofs.Operator.Cursor
import QueryEngine.Proofs.Operator.ReadOnly
import QueryEngine.Proofs.Operator.Settled
import QueryEngine.Proofs.Operator.Calls
import QueryEngine.Proofs.Operator.Retry
import QueryEngine.Proofs.Statistics.Passes
import QueryEngine.Proofs.Statistics.Compute
import QueryEngine.Proofs.Storage.Orderly
import QueryEngine.Proofs.Storage.Places
import QueryEngine.Proofs.Storage.Removal
import QueryEngine.Proofs.Operator.Delete
import QueryEngine.Proofs.Storage.Lifetime
import QueryEngine.Proofs.Operator.Drift
import QueryEngine.Proofs.Storage.Growth
import QueryEngine.Proofs.Operator.Insert
import QueryEngine.Proofs.Operator.History
import QueryEngine.Proofs.Operator.Reset
import QueryEngine.Proofs.Operator.OneShot
import QueryEngine.Proofs.Operator.Account
import QueryEngine.Proofs.Statistics.Between
import QueryEngine.Proofs.Operator.Faltering
import QueryEngine.Proofs.Statistics.Registry
import QueryEngine.Proofs.Storage.Catalog
import QueryEngine.Proofs.Operator.Upholds
import QueryEngine.Proofs.Operator.InOrder
import QueryEngine.Proofs.Operator.Kinds
import QueryEngine.Proofs.Operator.Loop
import QueryEngine.Proofs.Operator.Handover
import QueryEngine.Proofs.Operator.Origin
import QueryEngine.Proofs.Operator.Typing
import QueryEngine.Proofs.Histogram.Buckets
import QueryEngine.Proofs.Histogram.Keys
import QueryEngine.Proofs.Histogram.Estimates
import QueryEngine.Proofs.Histogram.Accuracy
import QueryEngine.Proofs.Histogram.Shape
import QueryEngine.Proofs.Aggregate.Members
import QueryEngine.Proofs.Operator.Grouped
import QueryEngine.Proofs.Aggregate.Refused
import QueryEngine.Proofs.Statistics.Selectivity
import QueryEngine.Proofs.Operator.Lives
import QueryEngine.Proofs.Operator.Exchange
import QueryEngine.Proofs.Operator.Snapshot
import QueryEngine.Proofs.Text.CodePoints
import QueryEngine.Proofs.Comparison
import QueryEngine.Proofs.Conformity
import QueryEngine.Proofs.Histogram.Tally
import QueryEngine.Proofs.Histogram.Prefix
import QueryEngine.Proofs.Json.Catalog
