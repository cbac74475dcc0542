import CardinalityClauses.Fault

/-!
The ranges numbers live in, and arithmetic that stops at their ends.

Variable indices and variable counters have 32 bits, bounds, sizes and positions have 64.
All numbers are naturals; an operation whose result leaves its range is a fault, and so is
a division by zero.
-/

namespace CardinalityClauses

/-- Variable indices, literal codes and variable counters lie below this number. -/
def indexRange : Nat := 4294967296

/-- Bounds, sizes and positions lie below this number. -/
def sizeRange : Nat := 18446744073709551616

/-- The sum of two numbers, if it lies below `range`. -/
def addWithin (range a b : Nat) : Except Fault Nat :=
  if a + b < range then .ok (a + b) else .error .arithmeticOverflow

/-- The product of two numbers, if it lies below `range`. -/
def mulWithin (range a b : Nat) : Except Fault Nat :=
  if a * b < range then .ok (a * b) else .error .arithmeticOverflow

/-- The difference of two numbers, if it is not negative. -/
def subWithin (a b : Nat) : Except Fault Nat :=
  if b ≤ a then .ok (a - b) else .error .arithmeticOverflow

/-- The quotient of two numbers, if the divisor is not zero. -/
def divWithin (a b : Nat) : Except Fault Nat :=
  if b = 0 then .error .divisionByZero else .ok (a / b)

end CardinalityClauses
