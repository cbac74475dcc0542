import CardinalityClauses.Solver.Basic

/-!
The exhaustive solver: it goes through all assignments of a few variables.

Assignments are numbered; bit `v` of the number is the value of variable `v`. The solver
answers with the first assignment that satisfies all clauses. Failures can be planned
beforehand: answers to the next queries, and the point at which the solver runs out of
memory. The plan belongs to the surroundings of the solver and outlives it.
-/

namespace CardinalityClauses

/-- How a query fails by plan. -/
inductive PlannedAnswer
  | interrupted
  | refused
  | outOfMemory
  deriving DecidableEq, Repr

/-- The failures to come. -/
structure FailurePlan where
  /-- How the next queries fail, the first one first. -/
  answers : List PlannedAnswer
  /-- How many more clauses are taken before one is not. -/
  clausesLeft : Option Nat
  deriving DecidableEq, Repr, Inhabited

/-- A solver that tries all assignments. -/
structure Exhaustive where
  formula : Formula
  /-- The model that was found last. -/
  model : Option Assignment
  queries : QueryCounts
  /-- How many queries were made, those that failed included. -/
  attempts : Nat
  plan : FailurePlan
  deriving DecidableEq, Repr, Inhabited

namespace Exhaustive

/-- The solver without clauses under a plan. -/
def startingWith (plan : FailurePlan) : Exhaustive :=
  ⟨.empty, none, .zero, 0, plan⟩

/-- The solver without clauses and without planned failures. -/
def initial : Exhaustive :=
  startingWith ⟨[], none⟩

/-- Plans a failure for the query after those that fail already. -/
def planAnswer (s : Exhaustive) (answer : PlannedAnswer) : Exhaustive :=
  { s with plan := { s.plan with answers := s.plan.answers ++ [answer] } }

/-- Plans that the clause after the next `n` is not taken. -/
def planMemory (s : Exhaustive) (n : Nat) : Exhaustive :=
  { s with plan := { s.plan with clausesLeft := some n } }

/-- The most variables all assignments of which are tried. -/
def variableLimit : Nat := 14

/-- Whether assignment number `bits` satisfies a clause. -/
def satisfies (bits : Nat) (c : Clause) : Bool :=
  c.literals.any fun l => bits.testBit l.index != l.negated

/-- Assignment number `bits` of `n` variables. -/
def assignmentOf (n bits : Nat) : Assignment :=
  ⟨(List.range n).map fun i => .ofBool (bits.testBit i)⟩

/-- The first model among the assignments of `n` variables. -/
def firstModel? (f : Formula) (n : Nat) : Option Assignment :=
  let found := (List.range (Nat.pow 2 n)).find? fun bits => f.clauses.all (satisfies bits)
  found.map (assignmentOf n)

/-- Takes clauses, as far as the plan allows. Any model is dropped. -/
def extend (s : Exhaustive) (cs : List Clause) : Exhaustive × Bool :=
  match s.plan.clausesLeft with
  | none => ({ s with formula := s.formula.append cs, model := none }, true)
  | some left =>
      let taken := cs.take left
      if taken.length < cs.length then
        ({ s with
            formula := s.formula.append taken
            model := none
            plan := { s.plan with clausesLeft := none } }, false)
      else
        ({ s with
            formula := s.formula.append cs
            model := none
            plan := { s.plan with clausesLeft := some (left - cs.length) } }, true)

/-- Takes copies of a clause. If the plan lets only some of them through, no more are made
than it takes to run out of memory. -/
def extendCopies (s : Exhaustive) (c : Clause) (n : Nat) : Exhaustive × Bool :=
  match s.plan.clausesLeft with
  | none => s.extend (List.replicate n c)
  | some left => s.extend (List.replicate (min n (left + 1)) c)

/-- The number of variables, if all up to the highest are counted. -/
def variableCount (s : Exhaustive) : Nat :=
  match s.formula.highest? with
  | some v => v.index + 1
  | none => 0

/-- Tries all assignments. -/
def search (s : Exhaustive) : Except SolverError Verdict × Exhaustive :=
  if variableLimit < s.variableCount then (.error .tooManyVariables, s)
  else
    let model := firstModel? s.formula s.variableCount
    let verdict := if model.isSome then Verdict.satisfiable else .unsatisfiable
    (.ok verdict, { s with model := model, queries := s.queries.count verdict })

/-- Answers a query as planned, or by trying all assignments. -/
def solve (s : Exhaustive) : Except SolverError Verdict × Exhaustive :=
  let s := { s with attempts := s.attempts + 1 }
  match s.plan.answers with
  | [] => s.search
  | answer :: rest =>
      let s := { s with plan := { s.plan with answers := rest } }
      match answer with
      | .interrupted =>
          (.ok .interrupted, { s with queries := s.queries.count .interrupted })
      | .refused => (.error .planned, s)
      | .outOfMemory => (.error .outOfMemory, s)

/-- The value of a literal in the model. -/
def value (s : Exhaustive) (l : Literal) : Except SolverError Ternary :=
  match s.model with
  | some model => .ok (model.literalValue l)
  | none => .error (.wrongState .unsatisfiable .satisfiable)

/-- The average length of the clauses; without literals it is zero. -/
def averageLength (s : Exhaustive) : Float32 :=
  let total := s.formula.clauses.foldl (fun sum c => sum + c.length) 0
  if total = 0 then 0 else total.toFloat32 / s.formula.size.toFloat32

/-- What the solver tells about itself. A query takes a millisecond. -/
def stats (s : Exhaustive) : SolverStats where
  queries := s.queries
  clauseCount := s.formula.size
  highest := s.formula.highest?
  averageLength := s.averageLength
  milliseconds := s.attempts

instance : Solver Exhaustive where
  clauseCount s := s.formula.size
  extend := extend
  extendCopies := extendCopies
  signature _ := "brute"
  solve := solve
  value := value
  stats := stats
  renew s := startingWith s.plan

end Exhaustive

end CardinalityClauses
