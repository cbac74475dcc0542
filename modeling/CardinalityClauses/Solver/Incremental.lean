import CardinalityClauses.Solver.Basic
import CardinalityClauses.Solver.Engine

/-!
The incremental solver: clauses are added between queries, and a query asks an engine for a model
of all of them.

Variable zero of the engine is left free, so every variable of the clauses stands one higher
there. The last answer stands until a clause is added. Being handed no clauses at all changes
nothing.
-/

namespace CardinalityClauses

/-- A solver that leaves its queries to an engine. -/
structure IncrementalSolver (ε : Type) where
  engine : ε
  /-- The answer to the last query, if no clause was added since. -/
  answer : Option Verdict
  queries : QueryCounts
  /-- How many clauses were added, no matter what the engine makes of them. -/
  clauseCount : Nat
  /-- The average length of the clauses, brought up to date with each of them. -/
  averageLength : Float32

namespace IncrementalSolver

/-- The literal of the engine that stands for a literal. -/
def inner (l : Literal) : Literal :=
  ⟨l.index + 1, l.negated⟩

/-- The literal that a literal of the engine stands for. -/
def outer (l : Literal) : Literal :=
  ⟨l.index - 1, l.negated⟩

/-- The average length after one more clause. -/
def nextAverage (average : Float32) (clauses length : Nat) : Float32 :=
  (average * clauses.toFloat32 + length.toFloat32) / (clauses + 1).toFloat32

/-- The verdict that the result of a search comes to. -/
def verdictOf : Option Bool → Verdict
  | some true => .satisfiable
  | some false => .unsatisfiable
  | none => .interrupted

section

variable {ε : Type}

/-- The solver without clauses over an engine without clauses. -/
def onEngine (engine : ε) : IncrementalSolver ε where
  engine := engine
  answer := none
  queries := .zero
  clauseCount := 0
  averageLength := 0

/-- What the solver knows about its clauses. -/
def state (s : IncrementalSolver ε) : SolverState :=
  match s.answer with
  | some .satisfiable => .satisfiable
  | some .unsatisfiable => .unsatisfiable
  | some .interrupted => .input
  | none => .input

variable [Engine ε]

/-- Makes the variables of literals known to an engine. -/
def makeKnown (engine : ε) (literals : List Literal) : ε :=
  literals.foldl (fun engine l => Engine.makeKnown engine (inner l).index) engine

/-- Adds one clause. -/
def addClause (s : IncrementalSolver ε) (c : Clause) : IncrementalSolver ε :=
  match s with
  | ⟨engine, _, queries, clauseCount, averageLength⟩ =>
      { engine := Engine.addClause (makeKnown engine c.literals) (c.literals.map inner)
        answer := none
        queries := queries
        clauseCount := clauseCount + 1
        averageLength := nextAverage averageLength clauseCount c.length }

/-- Adds clauses. -/
def addClauses (s : IncrementalSolver ε) (cs : List Clause) : IncrementalSolver ε :=
  cs.foldl addClause s

/-- Answers a query. -/
def solve (s : IncrementalSolver ε) : Except SolverError Verdict × IncrementalSolver ε :=
  let (result, engine) := Engine.search s.engine
  let verdict := verdictOf result
  (.ok verdict,
    { s with engine := engine, answer := some verdict, queries := s.queries.count verdict })

/-- The value of a literal in the model; variables above the highest have none. -/
def value (s : IncrementalSolver ε) (l : Literal) : Except SolverError Ternary :=
  if s.answer ≠ some .satisfiable then .error (.wrongState s.state .satisfiable)
  else if Engine.variableCount s.engine ≤ l.index + 1 then .ok .dontCare
  else .ok (.ofBool? (Engine.value s.engine (inner l)))

/-- The highest variable of the clauses. -/
def highest (s : IncrementalSolver ε) : Option Variable :=
  let known := Engine.variableCount s.engine
  if 1 < known then some ⟨known - 2⟩ else none

/-- What the solver tells about itself. Its time is not measured. -/
def stats (s : IncrementalSolver ε) : SolverStats where
  queries := s.queries
  clauseCount := s.clauseCount
  highest := s.highest
  averageLength := s.averageLength
  milliseconds := 0

instance : Solver (IncrementalSolver ε) where
  clauseCount s := s.clauseCount
  extend s cs := (s.addClauses cs, true)
  signature _ := "BatSat 0.6.0"
  solve := solve
  value := value
  stats := stats
  renew s := onEngine (Engine.renew s.engine)

end

/-! ### Over the engine by propagation and branching -/

/-- The solver without clauses. -/
def startingWith (stopped : Bool) : IncrementalSolver SearchEngine :=
  onEngine (.startingWith stopped)

/-- The solver without clauses whose search is not stopped. -/
def initial : IncrementalSolver SearchEngine :=
  startingWith false

/-- The clauses as they were added. -/
def formula (s : IncrementalSolver SearchEngine) : Formula :=
  .ofList (s.engine.formula.toList.map fun c => ⟨c.literals.map outer⟩)

/-- Whether every model of the clauses gives a literal the value `t`, which it has in one of
them. -/
def isDetermined (s : IncrementalSolver SearchEngine) (l : Literal) (t : Ternary) : Bool :=
  let entails := Search.entails s.engine.formula.toList s.engine.variableCount
  match t with
  | .holds => entails (inner l)
  | .fails => entails (inner l).complement
  | .dontCare => true

/-- Stops the search from outside, or lets it go on. -/
def setStopped (s : IncrementalSolver SearchEngine) (stopped : Bool) :
    IncrementalSolver SearchEngine :=
  { s with engine := { s.engine with stopped := stopped } }

end IncrementalSolver

end CardinalityClauses
