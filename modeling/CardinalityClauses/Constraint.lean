import CardinalityClauses.Clause

/-!
Cardinality constraints: bounds on how many of some literals are true.

A literal that is listed twice counts twice.
-/

namespace CardinalityClauses

/-- On which side a bound limits a count. -/
inductive Direction
  | atMost
  | atLeast
  deriving DecidableEq, Repr, Inhabited

/-- The relation between the count and the bound, in symbols. -/
def Direction.symbol : Direction → String
  | .atMost => "<="
  | .atLeast => ">="

/-- At most or at least `bound` of `literals` are true. -/
structure Constraint where
  direction : Direction
  literals : List Literal
  bound : Nat
  deriving DecidableEq, Repr, Inhabited

namespace Constraint

/-- The same literals under another bound. -/
def withBound (c : Constraint) (bound : Nat) : Constraint :=
  { c with bound := bound }

/-- Every assignment satisfies the constraint. -/
def isTautology (c : Constraint) : Bool :=
  match c.direction with
  | .atMost => c.literals.length ≤ c.bound
  | .atLeast => c.bound == 0

/-- No assignment satisfies the constraint. -/
def isUnsatisfiable (c : Constraint) : Bool :=
  match c.direction with
  | .atMost => false
  | .atLeast => c.literals.length < c.bound

/-- The constraint asks for all literals to be false. -/
def isNegativeAssignment (c : Constraint) : Bool :=
  match c.direction with
  | .atMost => c.bound == 0
  | .atLeast => false

/-- The constraint asks for all literals to be true. -/
def isPositiveAssignment (c : Constraint) : Bool :=
  match c.direction with
  | .atMost => false
  | .atLeast => c.bound == c.literals.length

/-- Whether an assignment satisfies the constraint; a literal whose value is not fixed
does not count. -/
def isSatisfied (c : Constraint) (a : Assignment) : Bool :=
  match c.direction with
  | .atMost => a.countTrue c.literals ≤ c.bound
  | .atLeast => c.bound ≤ a.countTrue c.literals

end Constraint

end CardinalityClauses
