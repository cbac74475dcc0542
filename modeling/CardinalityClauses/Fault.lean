/-!
Faults: the ways an operation stops without an answer.

A fault is different from a refusal. A refusal is the reply to a request that asks for
something impossible, and it is part of every interface that can give one. A fault says
that an operation left the range its numbers or positions have. What the operation had
already done by then stays done.
-/

namespace CardinalityClauses

/-- Why an operation stopped without an answer. -/
inductive Fault
  /-- A variable was asked for whose index no literal can carry. -/
  | variableIndexTooHigh
  /-- The result of an operation on numbers lies outside its range. -/
  | arithmeticOverflow
  /-- A number was to be divided by zero. -/
  | divisionByZero
  /-- A position lies outside the sequence it points into. -/
  | indexOutOfBounds
  /-- More literals were asked for at once than a list can hold. -/
  | listTooLong
  /-- A fact that holds for everything this library builds itself does not hold. -/
  | internalError
  deriving DecidableEq, Repr

/-- The wording of a fault. Causes that only a broken encoder or a size beyond all lists can
have share one wording. -/
def Fault.message : Fault → String
  | .variableIndexTooHigh => "variable index too high"
  | .arithmeticOverflow => "arithmetic overflow"
  | .indexOutOfBounds => "index out of bounds"
  | .divisionByZero | .listTooLong | .internalError => "internal error"

end CardinalityClauses
