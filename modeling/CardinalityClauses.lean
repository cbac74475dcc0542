import CardinalityClauses.Collector.Lawful
import CardinalityClauses.Propagation
import CardinalityClauses.Session
import CardinalityClauses.Proofs.Checkpoint.History
import CardinalityClauses.Proofs.Checkpoint.Tokens
import CardinalityClauses.Proofs.Checkpoint.Answers
import CardinalityClauses.Proofs.Solver.Incremental
import CardinalityClauses.Proofs.Solver.Requests
import CardinalityClauses.Proofs.Arithmetic.CeilSqrt
import CardinalityClauses.Proofs.Encoding.Fresh
import CardinalityClauses.Proofs.Supply.Freshness
import CardinalityClauses.Proofs.Encoding.Halving
import CardinalityClauses.Proofs.Encoding.Unary
import CardinalityClauses.Proofs.Encoding.Run
import CardinalityClauses.Proofs.Encoding.Lenient
import CardinalityClauses.Proofs.Totalizer.Adder
import CardinalityClauses.Proofs.Totalizer.Tree
import CardinalityClauses.Proofs.Encoding.Bounds
import CardinalityClauses.Proofs.Totalizer.Build
import CardinalityClauses.Proofs.Encoding.OneShot
import CardinalityClauses.Proofs.ModularTotalizer.Adder
import CardinalityClauses.Proofs.ModularTotalizer.Tree
import CardinalityClauses.Proofs.ModularTotalizer.Grow
import CardinalityClauses.Proofs.ModularTotalizer.Values
import CardinalityClauses.Proofs.ModularTotalizer.Bounds
import CardinalityClauses.Proofs.ModularTotalizer.Retry
import CardinalityClauses.Proofs.Tightenable.Tree
import CardinalityClauses.Proofs.Tightenable.Steps
import CardinalityClauses.Proofs.Sharing.Requests
import CardinalityClauses.Proofs.Sharing.Faithful
import CardinalityClauses.Proofs.Tightenable.Attempts
import CardinalityClauses.Proofs.Sharing.Attempts
import CardinalityClauses.Proofs.Sharing.Trials
import CardinalityClauses.Proofs.Sharing.Growth
import CardinalityClauses.Proofs.Sharing.Intact
import CardinalityClauses.Proofs.Checkpoint.Nested
import CardinalityClauses.Proofs.Checkpoint.WhatIf
import CardinalityClauses.Proofs.Totalizer.Counting
import CardinalityClauses.Proofs.Totalizer.Propagation
import CardinalityClauses.Proofs.Totalizer.Calls
import CardinalityClauses.Proofs.Totalizer.Retry
import CardinalityClauses.Proofs.Encoding.SingleBounds
import CardinalityClauses.Proofs.Encoding.Granted
import CardinalityClauses.Proofs.Session.Safety
import CardinalityClauses.Proofs.Checkpoint.Strays
import CardinalityClauses.Proofs.Checkpoint.Counts
import CardinalityClauses.Proofs.Tightenable.Refusals
import CardinalityClauses.Proofs.Session.Refusals
import CardinalityClauses.Proofs.Tightenable.Events
import CardinalityClauses.Proofs.Tightenable.Mirror
import CardinalityClauses.Proofs.Encoding.Tidy
import CardinalityClauses.Proofs.Totalizer.Tidy
import CardinalityClauses.Proofs.ModularTotalizer.Tidy
import CardinalityClauses.Proofs.Encoding.Orderly
import CardinalityClauses.Proofs.Tightenable.Life
import CardinalityClauses.Proofs.Checkpoint.Rollback
import CardinalityClauses.Proofs.Encoding.Arena
import CardinalityClauses.Proofs.Totalizer.Arena
import CardinalityClauses.Proofs.ModularTotalizer.Arena
import CardinalityClauses.Proofs.Encoding.BuiltArenas
import CardinalityClauses.Proofs.Stored.Parts
import CardinalityClauses.Proofs.Stored.Encoders
import CardinalityClauses.Proofs.Stored.Bounded
import CardinalityClauses.Proofs.Stored.Reload
import CardinalityClauses.Proofs.ModularTotalizer.Modulus
import CardinalityClauses.Proofs.Evaluation.Assignments
import CardinalityClauses.Proofs.Evaluation.Clauses
