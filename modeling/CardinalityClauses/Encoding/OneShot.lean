import CardinalityClauses.Totalizer

/-!
Encoding a constraint once and for all.

Constraints that fix all of their literals or none become unit clauses or nothing, a
constraint that cannot be met becomes the empty clause, and all others a totalizer.
-/

namespace CardinalityClauses

/-- Adds clauses that hold exactly if the constraint does. -/
def Constraint.encode {σ : Type} [Collector σ] (c : Constraint) (w : Workspace σ) :
    Option Failure × Workspace σ :=
  if c.isTautology then (none, w)
  else if c.isUnsatisfiable then w.extend [.empty]
  else if c.isPositiveAssignment then w.extend (c.literals.map .unit)
  else if c.isNegativeAssignment then
    w.extend (c.literals.map fun l => .unit l.complement)
  else Totalizer.encodeConstraint c w

end CardinalityClauses
