import CardinalityClauses.Encoding.Workspace
import CardinalityClauses.Formula.Limited
import CardinalityClauses.Solver.Checkpoint
import CardinalityClauses.Solver.Exhaustive
import CardinalityClauses.Solver.Incremental

/-!
The sinks that the clauses of a session can go to: a formula with limits, a solver, or a
checkpoint solver over one.

What only some sinks can do has no result on the others. Values are read from a sink as they
are reported: a value that depends on which model a search happens to find is reported as
open.
-/

namespace CardinalityClauses

/-- A place for the clauses of a session. -/
inductive Sink
  | formula (f : LimitedFormula)
  | exhaustive (s : Exhaustive)
  | incremental (s : IncrementalSolver SearchEngine)
  | exhaustiveCheckpoint (s : CheckpointSolver Exhaustive)
  | incrementalCheckpoint (s : CheckpointSolver (IncrementalSolver SearchEngine))

/-- A value as it is reported. -/
inductive Reading
  | value (t : Ternary)
  /-- Not the same in every model. -/
  | undetermined
  deriving DecidableEq, Repr

/-- The character of a reported value. -/
def Reading.symbol : Reading → Char
  | .value t => t.symbol
  | .undetermined => '*'

/-- What a found model says about the clauses and about a constraint. -/
structure ModelCheck where
  clauses : Bool
  constraint : Option Bool
  deriving DecidableEq, Repr

namespace Sink

/-- Applies a change to what is inside, and keeps the answer. -/
def onInner {α β : Type} (wrap : α → Sink) (r : β × α) : β × Sink :=
  (r.1, wrap r.2)

instance : Collector Sink where
  clauseCount
    | formula f => Collector.clauseCount f
    | exhaustive s => Collector.clauseCount s
    | incremental s => Collector.clauseCount s
    | exhaustiveCheckpoint s => Collector.clauseCount s
    | incrementalCheckpoint s => Collector.clauseCount s
  extend sink cs :=
    match sink with
    | formula f => let (f, taken) := Collector.extend f cs; (formula f, taken)
    | exhaustive s => let (s, taken) := Collector.extend s cs; (exhaustive s, taken)
    | incremental s => let (s, taken) := Collector.extend s cs; (incremental s, taken)
    | exhaustiveCheckpoint s =>
        let (s, taken) := Collector.extend s cs; (exhaustiveCheckpoint s, taken)
    | incrementalCheckpoint s =>
        let (s, taken) := Collector.extend s cs; (incrementalCheckpoint s, taken)
  extendCopies sink c n :=
    match sink with
    | formula f => let (f, taken) := Collector.extendCopies f c n; (formula f, taken)
    | exhaustive s => let (s, taken) := Collector.extendCopies s c n; (exhaustive s, taken)
    | incremental s => let (s, taken) := Collector.extendCopies s c n; (incremental s, taken)
    | exhaustiveCheckpoint s =>
        let (s, taken) := Collector.extendCopies s c n; (exhaustiveCheckpoint s, taken)
    | incrementalCheckpoint s =>
        let (s, taken) := Collector.extendCopies s c n; (incrementalCheckpoint s, taken)

/-- Adds clauses past all limits. The exhaustive solver has no such way. -/
def addPastLimits (sink : Sink) (cs : List Clause) : Option Sink :=
  match sink with
  | formula f => some (formula { f with formula := f.formula.append cs })
  | exhaustive _ => none
  | incremental s => some (incremental (s.addClauses cs))
  | exhaustiveCheckpoint s => some (exhaustiveCheckpoint (s.addClauses cs))
  | incrementalCheckpoint s => some (incrementalCheckpoint (s.addClauses cs))

/-- The formula of a sink that is one. -/
def formula? : Sink → Option LimitedFormula
  | formula f => some f
  | _ => none

/-! ### Solvers -/

/-- The name of the solver. -/
def signature? : Sink → Option String
  | formula _ => none
  | exhaustive s => some (Solver.signature s)
  | incremental s => some (Solver.signature s)
  | exhaustiveCheckpoint s => some (Solver.signature s)
  | incrementalCheckpoint s => some (Solver.signature s)

/-- Asks for a model. -/
def solve? : Sink → Option (Except SolverError Verdict × Sink)
  | formula _ => none
  | exhaustive s => some (onInner exhaustive (Solver.solve s))
  | incremental s => some (onInner incremental (Solver.solve s))
  | exhaustiveCheckpoint s => some (onInner exhaustiveCheckpoint (Solver.solve s))
  | incrementalCheckpoint s => some (onInner incrementalCheckpoint (Solver.solve s))

/-- The event of a query before which the backend has to be replaced. -/
def rebuildEvent? : Sink → Option Event
  | exhaustiveCheckpoint s => if s.stale then some (.backendRebuilt s.log.size) else none
  | incrementalCheckpoint s => if s.stale then some (.backendRebuilt s.log.size) else none
  | _ => none

/-- The value of a literal in the model. -/
def value? : Sink → Option (Literal → Except SolverError Ternary)
  | formula _ => none
  | exhaustive s => some (Solver.value s)
  | incremental s => some (Solver.value s)
  | exhaustiveCheckpoint s => some (Solver.value s)
  | incrementalCheckpoint s => some (Solver.value s)

/-- A value as it is reported. The exhaustive solver finds a definite model. -/
def report (sink : Sink) (l : Literal) (t : Ternary) : Reading :=
  let search :=
    match sink with
    | incremental s => some s
    | incrementalCheckpoint s => some s.backend
    | _ => none
  match search with
  | none => .value t
  | some s => if s.isDetermined l t then .value t else .undetermined

/-- What the solver tells about itself. -/
def stats? : Sink → Option SolverStats
  | formula _ => none
  | exhaustive s => some (Solver.stats s)
  | incremental s => some (Solver.stats s)
  | exhaustiveCheckpoint s => some (Solver.stats s)
  | incrementalCheckpoint s => some (Solver.stats s)

/-- Whether the time of queries is reported. -/
def reportsTime : Sink → Bool
  | exhaustive _ => true
  | exhaustiveCheckpoint _ => true
  | _ => false

/-- The clauses a solver is asked about. -/
def clauses? : Sink → Option Formula
  | formula _ => none
  | exhaustive s => some s.formula
  | incremental s => some s.formula
  | exhaustiveCheckpoint s => some s.log
  | incrementalCheckpoint s => some s.log

/-- Compares the model with the clauses and with a constraint. Without variables there is
nothing to compare. -/
def checkModel? (sink : Sink) (constraint : Option Constraint) :
    Option (Except SolverError (Option ModelCheck)) := do
  let stats ← sink.stats?
  let value ← sink.value?
  let clauses ← sink.clauses?
  match stats.highest with
  | none => return .ok none
  | some high =>
      match readAssignment value high with
      | .error e => return .error e
      | .ok a =>
          return .ok (some ⟨clauses.isSatisfied a, constraint.map fun c => c.isSatisfied a⟩)

/-! ### Checkpoints -/

/-- The stack of snapshots. -/
def snapshots? : Sink → Option (List Snapshot)
  | exhaustiveCheckpoint s => some s.snapshots
  | incrementalCheckpoint s => some s.snapshots
  | _ => none

/-- Takes a snapshot. -/
def save? (sink : Sink) (supply : VariableSupply) : Option (Snapshot × Sink) :=
  match sink with
  | exhaustiveCheckpoint s => some (onInner exhaustiveCheckpoint (s.save supply))
  | incrementalCheckpoint s => some (onInner incrementalCheckpoint (s.save supply))
  | _ => none

/-- Restores a snapshot. -/
def restore? (sink : Sink) (token : Snapshot) (supply : VariableSupply) :
    Option (Option RestoreFailure × Sink × VariableSupply) :=
  match sink with
  | exhaustiveCheckpoint s =>
      let (failure, s, supply) := s.restore token supply
      some (failure, exhaustiveCheckpoint s, supply)
  | incrementalCheckpoint s =>
      let (failure, s, supply) := s.restore token supply
      some (failure, incrementalCheckpoint s, supply)
  | _ => none

/-! ### Interference from outside -/

/-- Applies a change to the exhaustive solver, if there is one. -/
def mapExhaustive (sink : Sink) (f : Exhaustive → Exhaustive) : Sink :=
  match sink with
  | exhaustive s => exhaustive (f s)
  | exhaustiveCheckpoint s => exhaustiveCheckpoint { s with backend := f s.backend }
  | sink => sink

/-- Stops the search from outside, or lets it go on. -/
def setStopped (sink : Sink) (stopped : Bool) : Sink :=
  match sink with
  | incremental s => incremental (s.setStopped stopped)
  | incrementalCheckpoint s =>
      incrementalCheckpoint { s with backend := s.backend.setStopped stopped }
  | sink => sink

end Sink

end CardinalityClauses
