import CardinalityClauses.Literal

/-!
Unary counters: lists of literals in which the literal at position `i` says that more than
`i` is counted.

What a counter says about a number is a list of at most one literal. It is empty where there
is nothing to say: at least nothing is always counted, and a counter has no literal for a
number beyond its length.
-/

namespace CardinalityClauses.Unary

/-- The literals of a counter that say that at least `n` is counted. -/
def atLeast (counter : List Literal) (n : Nat) : List Literal :=
  if n = 0 then [] else counter[n - 1]?.toList

/-- The literals of a counter that say that at most `n` is counted. -/
def atMost (counter : List Literal) (n : Nat) : List Literal :=
  counter[n]?.toList.map Literal.complement

end CardinalityClauses.Unary
