import CardinalityClauses.Literal

/-!
The supply of fresh variables.

The supply is a counter: the variables below it are used, the variable at it is the next
one to be handed out. The counter has 32 bits and stops with a fault at its end. It runs
past the indices that literals can carry without noticing; a literal made there repeats
the index of an earlier one.

Variables can be taken many at a time. A request for more of them than a list can hold is
turned down at once; one that merely leaves the counter is noticed at its end.
-/

namespace CardinalityClauses

/-- A counter of used variables. -/
structure VariableSupply where
  /-- The index of the next variable to be handed out. -/
  next : Nat
  deriving DecidableEq, Repr, Inhabited

namespace VariableSupply

/-- The highest value of the counter. -/
def last : Nat := indexRange - 1

/-- The supply that has handed out nothing. -/
def initial : VariableSupply := ⟨0⟩

/-- The supply that hands out `v` next. -/
def startingAt (v : Variable) : VariableSupply := ⟨v.index⟩

/-- Hands out the next variable. -/
def takeVariable (s : VariableSupply) : Except Fault Variable × VariableSupply :=
  if s.next < last then (.ok ⟨s.next⟩, ⟨s.next + 1⟩) else (.error .arithmeticOverflow, s)

/-- Hands out the next variable as a literal. -/
def takeLiteral (s : VariableSupply) : Except Fault Literal × VariableSupply :=
  let (v, s) := s.takeVariable
  (v.map Variable.positive, s)

/-- The positive literals of `n` variables in sequence, from index `start` on. -/
def block (start n : Nat) : List Literal :=
  (List.range n).map fun i => Variable.positive ⟨start + i⟩

/-- The most literals that are handed out at once. -/
def longestBlock : Nat := 2305843009213693951

/-- Hands out the next `n` variables as literals. A list that is too long is not begun. If
the counter ends before the list does, everything up to its end is used up. -/
def takeLiterals (s : VariableSupply) (n : Nat) : Except Fault (List Literal) × VariableSupply :=
  if longestBlock < n then (.error .listTooLong, s)
  else if s.next + n ≤ last then (.ok (block s.next n), ⟨s.next + n⟩)
  else (.error .arithmeticOverflow, ⟨last⟩)

/-- The highest used variable. -/
def highest? (s : VariableSupply) : Option Variable :=
  if s.next = 0 then none else some ⟨s.next - 1⟩

/-- Makes `v` the next variable if it lies further up, and tells whether it does. -/
def raiseTo (s : VariableSupply) (v : Variable) : Bool × VariableSupply :=
  if s.next < v.index then (true, ⟨v.index⟩) else (false, s)

/-- Uses up the variables up to `v`, and tells whether one of them was unused. -/
def markUsed (s : VariableSupply) (v : Variable) : Except Fault Bool × VariableSupply :=
  match v.shift 1 with
  | .ok above =>
      let (raised, s) := s.raiseTo above
      (.ok raised, s)
  | .error f => (.error f, s)

/-- Takes the variables from `v` upwards back. -/
def forgetFrom (s : VariableSupply) (v : Variable) : VariableSupply :=
  ⟨min s.next v.index⟩

end VariableSupply

end CardinalityClauses
