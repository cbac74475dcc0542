import CardinalityClauses.Literal

/-!
Partial assignments.

A value is true, false or not fixed. An assignment lists the values of the variables from
index zero upwards; a variable beyond its end is not fixed. Two assignments are equal if
their lists are, so a value that is written down as not fixed counts in a comparison.
-/

namespace CardinalityClauses

/-- The value of a variable or literal under a partial assignment. -/
inductive Ternary
  | holds
  | fails
  /-- Not fixed: nothing depends on the value. -/
  | dontCare
  deriving DecidableEq, Repr, Inhabited

namespace Ternary

/-- The value of the negation. -/
def complement : Ternary → Ternary
  | .holds => .fails
  | .fails => .holds
  | .dontCare => .dontCare

theorem complement_complement (t : Ternary) : t.complement.complement = t := by
  cases t <;> rfl

/-- The value as a Boolean, where a value that is not fixed becomes `default`. -/
def toBool (t : Ternary) (default : Bool) : Bool :=
  match t with
  | .holds => true
  | .fails => false
  | .dontCare => default

/-- The value that is certainly `b`. -/
def ofBool (b : Bool) : Ternary :=
  if b then .holds else .fails

/-- The value, if it is fixed. -/
def toBool? : Ternary → Option Bool
  | .holds => some true
  | .fails => some false
  | .dontCare => none

/-- The value that is certainly `b`, if there is a `b`. -/
def ofBool? : Option Bool → Ternary
  | some b => .ofBool b
  | none => .dontCare

/-- The value as one character. -/
def symbol : Ternary → Char
  | .holds => '1'
  | .fails => '0'
  | .dontCare => '_'

/-- The value as a text of one character. -/
def text (t : Ternary) : String :=
  String.singleton t.symbol

/-- The value a character stands for. -/
def ofSymbol? (c : Char) : Option Ternary :=
  [holds, fails, dontCare].find? fun t => t.symbol == c

end Ternary

/-- The values of the variables from index zero upwards. -/
structure Assignment where
  values : List Ternary
  deriving DecidableEq, Repr, Inhabited

namespace Assignment

/-- The assignment that fixes nothing. -/
def empty : Assignment := ⟨[]⟩

/-- The value of a variable. -/
def variableValue (a : Assignment) (v : Variable) : Ternary :=
  a.values[v.index]?.getD .dontCare

/-- The value of a literal. -/
def literalValue (a : Assignment) (l : Literal) : Ternary :=
  if l.negated then (a.variableValue l.var).complement else a.variableValue l.var

/-- The values, filled up with values that are not fixed to at least `n` of them. -/
def padded (a : Assignment) (n : Nat) : List Ternary :=
  a.values ++ List.replicate (n - a.values.length) .dontCare

/-- Gives a variable a value. -/
def assignVariable (a : Assignment) (v : Variable) (t : Ternary) : Assignment :=
  ⟨(a.padded (v.index + 1)).set v.index t⟩

/-- Makes a literal true. -/
def assignLiteral (a : Assignment) (l : Literal) : Assignment :=
  a.assignVariable l.var (.ofBool (!l.negated))

/-- Makes literals true one after the other, so that the last one of a variable counts. -/
def ofLiterals (ls : List Literal) : Assignment :=
  ls.foldl assignLiteral empty

/-- How many of the literals are true; a literal listed twice counts twice. -/
def countTrue (a : Assignment) (ls : List Literal) : Nat :=
  ls.countP fun l => a.literalValue l == .holds

/-- The highest variable the assignment lists. -/
def highest? (a : Assignment) : Option Variable :=
  if a.values.isEmpty then none else some ⟨a.values.length - 1⟩

/-- One character a variable. -/
def text (a : Assignment) : String :=
  String.ofList (a.values.map Ternary.symbol)

end Assignment

end CardinalityClauses
