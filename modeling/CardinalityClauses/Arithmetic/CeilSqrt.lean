import CardinalityClauses.Arithmetic.Checked

/-!
The square root of a number, rounded up.

The root is found by Newton's iteration: from any guess that is not below the root, the mean of
the guess and its quotient lies between the root rounded down and the guess. The guesses fall
until they stand on the root rounded down. Every intermediate result is checked against the
range of sizes.
-/

namespace CardinalityClauses

/-- Steps from `guess` to the mean of `guess` and `number / guess` while that is smaller.
A step makes the guess smaller, so `fuel` at the size of the first guess is enough. -/
def descendToRoot (number : Nat) : (fuel : Nat) → (guess : Nat) → Except Fault Nat
  | 0, guess => .ok guess
  | fuel + 1, guess => do
      let quotient ← divWithin number guess
      let sum ← addWithin sizeRange guess quotient
      if sum / 2 < guess then descendToRoot number fuel (sum / 2) else .ok guess

/-- The least `r` with `number ≤ r * r`. -/
def ceilSqrt (number : Nat) : Except Fault Nat :=
  if number ≤ 1 then .ok number
  else do
    let start := (number + 1) / 2
    let floor ← descendToRoot number start start
    let square ← mulWithin sizeRange floor floor
    if square = number then .ok floor else addWithin sizeRange floor 1

end CardinalityClauses
