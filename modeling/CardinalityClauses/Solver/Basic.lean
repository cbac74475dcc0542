import CardinalityClauses.Formula

/-!
What a solver is: a collector of clauses that can be asked whether its clauses have a model,
and for the values of the model it found.

A solver counts its queries by their answers. Values can be read only while the last query
was answered by a model; what a solver says otherwise is up to it.
-/

namespace CardinalityClauses

/-- The answer to a query. -/
inductive Verdict
  | satisfiable
  | unsatisfiable
  | interrupted
  deriving DecidableEq, Repr

/-- The name of an answer. -/
def Verdict.text : Verdict → String
  | .satisfiable => "SAT"
  | .unsatisfiable => "UNSAT"
  | .interrupted => "Interrupted"

/-- What a solver knows about its clauses. -/
inductive SolverState
  /-- Nothing: clauses are being added. -/
  | input
  | satisfiable
  | unsatisfiable
  deriving DecidableEq, Repr

/-- The name of a state. -/
def SolverState.text : SolverState → String
  | .input => "INPUT"
  | .satisfiable => "SAT"
  | .unsatisfiable => "UNSAT"

/-- Why a request to a solver failed. -/
inductive SolverError
  /-- A snapshot was to be restored that is not on the stack of snapshots. -/
  | unknownSnapshot (depth : Nat)
  /-- The clauses have more variables than the solver can go through. -/
  | tooManyVariables
  /-- A failure that was planned beforehand. -/
  | planned
  /-- The solver is in state `actual`, and the request makes sense in state `needed`. -/
  | wrongState (actual needed : SolverState)
  /-- The solver ran out of memory while it was handed clauses. -/
  | outOfMemory
  deriving DecidableEq, Repr

namespace SolverError

/-- What is wrong with a request that a solver does not allow. -/
def detail? : SolverError → Option String
  | .unknownSnapshot depth => some s!"state token {depth} is not on the state stack"
  | .tooManyVariables => some "too many variables"
  | .planned => some "injected"
  | .wrongState .. => none
  | .outOfMemory => none

/-- The wording of an error. -/
def message (e : SolverError) : String :=
  match e with
  | .wrongState actual needed =>
      s!"solvers needs to be in state {needed.text} but was in state {actual.text}"
  | .outOfMemory => "out of memory"
  | _ => "API error: " ++ e.detail?.getD ""

end SolverError

/-- How often each answer was given. -/
structure QueryCounts where
  satisfiable : Nat
  unsatisfiable : Nat
  interrupted : Nat
  deriving DecidableEq, Repr, Inhabited

namespace QueryCounts

/-- The counts before the first query. -/
def zero : QueryCounts := ⟨0, 0, 0⟩

/-- Counts one more answer. -/
def count (q : QueryCounts) : Verdict → QueryCounts
  | .satisfiable => { q with satisfiable := q.satisfiable + 1 }
  | .unsatisfiable => { q with unsatisfiable := q.unsatisfiable + 1 }
  | .interrupted => { q with interrupted := q.interrupted + 1 }

/-- The counts of two series of queries together. -/
def add (q r : QueryCounts) : QueryCounts :=
  ⟨q.satisfiable + r.satisfiable, q.unsatisfiable + r.unsatisfiable,
    q.interrupted + r.interrupted⟩

/-- The number of answers. -/
def total (q : QueryCounts) : Nat :=
  q.satisfiable + q.unsatisfiable + q.interrupted

end QueryCounts

/-- What a solver tells about itself. -/
structure SolverStats where
  queries : QueryCounts
  clauseCount : Nat
  /-- The highest variable. -/
  highest : Option Variable
  /-- The average length of a clause. -/
  averageLength : Float32
  /-- The time spent on queries. -/
  milliseconds : Nat

/-- The number of variables, if all up to the highest are counted. -/
def SolverStats.variableCount (s : SolverStats) : Nat :=
  match s.highest with
  | some v => v.index + 1
  | none => 0

/-- A collector that can be queried for models. -/
class Solver (β : Type) extends Collector β where
  /-- The name of the solver. -/
  signature : β → String
  /-- Asks for a model of all clauses. -/
  solve : β → Except SolverError Verdict × β
  /-- The value of a literal in the model that was found. -/
  value : β → Literal → Except SolverError Ternary
  stats : β → SolverStats
  /-- A solver without clauses in the same surroundings. -/
  renew : β → β

/-- Reads `count` values from variable `index` on, up to the first that cannot be read. -/
def readValues {ε : Type} (value : Literal → Except ε Ternary) :
    (count : Nat) → (index : Nat) → Array Ternary → Except ε (List Ternary)
  | 0, _, found => .ok found.toList
  | count + 1, index, found =>
      match value (Variable.positive ⟨index⟩) with
      | .ok t => readValues value count (index + 1) (found.push t)
      | .error e => .error e

/-- The values of all variables up to `high`. -/
def readAssignment {ε : Type} (value : Literal → Except ε Ternary) (high : Variable) :
    Except ε Assignment :=
  (readValues value (high.index + 1) 0 #[]).map Assignment.mk

end CardinalityClauses
