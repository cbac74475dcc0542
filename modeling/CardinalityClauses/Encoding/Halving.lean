/-!
Lists as binary trees.

Both encodings add their inputs up along a binary tree that splits a list of inputs in the
middle, with the shorter half on the left, until single inputs are left.
-/

namespace CardinalityClauses

/-- A binary tree with its values at the tips. -/
inductive Halving (α : Type)
  | tip (value : α)
  | fork (left right : Halving α)
  deriving Repr

namespace Halving

variable {α : Type}

/-- The values at the tips from left to right. -/
def toList : Halving α → List α
  | tip value => [value]
  | fork left right => left.toList ++ right.toList

/-- The number of tips. -/
def size : Halving α → Nat
  | tip _ => 1
  | fork left right => left.size + right.size

/-- Splits a list until single values are left. Each split shortens the list, so `fuel` at
its length is enough. -/
def split : (fuel : Nat) → List α → Option (Halving α)
  | _, [] => none
  | _, [value] => some (tip value)
  | 0, _ => none
  | fuel + 1, values => do
      let half := values.length / 2
      let left ← split fuel (values.take half)
      let right ← split fuel (values.drop half)
      return fork left right

/-- The tree of a list; only the empty list has none. -/
def ofList? (values : List α) : Option (Halving α) :=
  split values.length values

end Halving

end CardinalityClauses
