import CardinalityClauses.Solver.Basic
import CardinalityClauses.VariableSupply

/-!
The checkpoint solver: a solver whose clauses and variables can be taken back to an earlier
state.

All clauses go to a log. The log is what the solver is asked about; a backend solver
follows it and is brought up to date at each query. A snapshot notes the length of the log
and the number of used variables. Restoring one cuts the log back and takes the variables
back; if the backend holds clauses by then that are no longer in the log, the next query
starts with a fresh backend. Query counts of replaced backends are kept.

Snapshots stand on a stack. A token is good for a restore as long as an equal snapshot stands
at its place on the stack.
-/

namespace CardinalityClauses

/-- A snapshot. -/
structure Snapshot where
  /-- Its place on the stack of snapshots. -/
  depth : Nat
  /-- The length of the log. -/
  clauseCount : Nat
  /-- The number of used variables. -/
  variableCount : Nat
  deriving DecidableEq, Repr

/-- A solver with a stack of snapshots, over a backend solver. -/
structure CheckpointSolver (β : Type) where
  backend : β
  /-- The clauses that were added and not taken back. -/
  log : Formula
  /-- How many clauses of the log the backend was handed. -/
  forwarded : Nat
  /-- Whether the backend holds clauses that are no longer in the log. -/
  stale : Bool
  /-- Whether the last query found a model and the log is unchanged since. -/
  readable : Bool
  /-- The query counts of the backends before this one. -/
  retired : QueryCounts
  /-- The time the backends before this one took. -/
  retiredMilliseconds : Nat
  /-- The snapshots, the oldest first. -/
  snapshots : List Snapshot

/-- Why a restore failed. -/
inductive RestoreFailure
  | error (why : SolverError)
  | fault (why : Fault)
  deriving DecidableEq, Repr

namespace CheckpointSolver

variable {β : Type}

/-- The solver without clauses over a backend without clauses. -/
def startingWith (backend : β) : CheckpointSolver β where
  backend := backend
  log := .empty
  forwarded := 0
  stale := false
  readable := false
  retired := .zero
  retiredMilliseconds := 0
  snapshots := []

/-- Takes a snapshot. -/
def save (s : CheckpointSolver β) (supply : VariableSupply) : Snapshot × CheckpointSolver β :=
  let snapshot := ⟨s.snapshots.length, s.log.size, supply.next⟩
  (snapshot, { s with snapshots := s.snapshots ++ [snapshot] })

/-- Takes the clauses added after a snapshot back, and drops it with all later ones. -/
def cutBack (s : CheckpointSolver β) (token : Snapshot) : CheckpointSolver β :=
  { s with
    snapshots := s.snapshots.take token.depth
    stale := s.stale || decide (token.clauseCount < s.forwarded)
    log := s.log.truncate token.clauseCount
    readable := false }

/-- Restores a snapshot: clauses first, then variables. The first variable to take back has
to be one that literals can carry. -/
def restore (s : CheckpointSolver β) (token : Snapshot) (supply : VariableSupply) :
    Option RestoreFailure × CheckpointSolver β × VariableSupply :=
  if s.snapshots[token.depth]? = some token then
    let s := s.cutBack token
    match Variable.ofIndex token.variableCount with
    | .ok v => (none, s, supply.forgetFrom v)
    | .error f => (some (.fault f), s, supply)
  else (some (.error (.unknownSnapshot token.depth)), s, supply)

/-- Adds clauses to the log. -/
def addClauses (s : CheckpointSolver β) (cs : List Clause) : CheckpointSolver β :=
  { s with readable := false, log := s.log.append cs }

/-- Adds copies of a clause to the log, if it has room for them. -/
def addCopies (s : CheckpointSolver β) (c : Clause) (n : Nat) : CheckpointSolver β × Bool :=
  let (log, taken) := Collector.extendCopies s.log c n
  ({ s with readable := false, log := log }, taken)

variable [Solver β]

/-- Replaces the backend by a fresh one and keeps its counts. -/
def rebuild (s : CheckpointSolver β) : CheckpointSolver β :=
  let old := Solver.stats s.backend
  { s with
    backend := Solver.renew s.backend
    retired := s.retired.add old.queries
    retiredMilliseconds := s.retiredMilliseconds + old.milliseconds
    forwarded := 0
    stale := false }

/-- Hands the backend the clauses of the log that it has not seen. If it runs out of memory,
it keeps some of them, and they count as not seen. -/
def forward (s : CheckpointSolver β) : Except SolverError Unit × CheckpointSolver β :=
  match Collector.extend s.backend (s.log.clausesFrom s.forwarded) with
  | (backend, true) => (.ok (), { s with backend := backend, forwarded := s.log.size })
  | (backend, false) => (.error .outOfMemory, { s with backend := backend })

/-- Brings the backend up to date with the log. -/
def sync (s : CheckpointSolver β) : Except SolverError Unit × CheckpointSolver β :=
  if s.stale then s.rebuild.forward else s.forward

/-- Asks for a model of the log. -/
def solve (s : CheckpointSolver β) : Except SolverError Verdict × CheckpointSolver β :=
  match s.sync with
  | (.error e, s) => (.error e, s)
  | (.ok (), s) =>
      match Solver.solve s.backend with
      | (.error e, backend) => (.error e, { s with backend := backend })
      | (.ok verdict, backend) =>
          (.ok verdict,
            { s with backend := backend, readable := verdict == .satisfiable })

/-- The value of a literal in the model that the last query found. -/
def value (s : CheckpointSolver β) (l : Literal) : Except SolverError Ternary :=
  if s.readable then Solver.value s.backend l
  else .error (.wrongState .input .satisfiable)

/-- What the solver tells about itself: the counts of all backends together, the length of
the log, and the rest as the backend has it. -/
def stats (s : CheckpointSolver β) : SolverStats :=
  let current := Solver.stats s.backend
  { current with
    queries := s.retired.add current.queries
    clauseCount := s.log.size
    milliseconds := s.retiredMilliseconds + current.milliseconds }

instance : Solver (CheckpointSolver β) where
  clauseCount s := s.log.size
  extend s cs := (s.addClauses cs, true)
  extendCopies := addCopies
  signature s := Solver.signature s.backend
  solve := solve
  value := value
  stats := stats
  renew s := startingWith (Solver.renew s.backend)

end CheckpointSolver

end CardinalityClauses
