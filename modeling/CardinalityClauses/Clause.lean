import CardinalityClauses.Assignment

/-!
Clauses: disjunctions of literals, in the order in which the literals were added.

Repeated and complementary literals are kept. Every clause that an encoding adds is an
implication from a conjunction of literals to one literal.
-/

namespace CardinalityClauses

/-- A disjunction of literals. -/
structure Clause where
  literals : List Literal
  deriving DecidableEq, Repr, Inhabited

namespace Clause

/-- The clause that nothing satisfies. -/
def empty : Clause := ⟨[]⟩

/-- The clause of one literal. -/
def unit (l : Literal) : Clause := ⟨[l]⟩

/-- The implication from all of `premises` to `conclusion`. -/
def implication (premises : List Literal) (conclusion : Literal) : Clause :=
  ⟨premises.map Literal.complement ++ [conclusion]⟩

/-- The number of literals. -/
def length (c : Clause) : Nat :=
  c.literals.length

/-- Whether the clause has no literals. -/
def isEmpty (c : Clause) : Bool :=
  c.literals.isEmpty

/-- Whether the clause has one literal. -/
def isUnit (c : Clause) : Bool :=
  c.length == 1

/-- Adds a literal at the end. -/
def add (c : Clause) (l : Literal) : Clause :=
  ⟨c.literals ++ [l]⟩

/-- Adds literals at the end. -/
def append (c : Clause) (ls : List Literal) : Clause :=
  ⟨c.literals ++ ls⟩

/-- The literal at a position. -/
def literalAt (c : Clause) (i : Nat) : Except Fault Literal :=
  match c.literals[i]? with
  | some l => .ok l
  | none => .error .indexOutOfBounds

/-- What is known of a clause after one more of its literals: a true literal decides it,
a literal that is not fixed leaves a clause open that was false so far. -/
def join (known value : Ternary) : Ternary :=
  match value with
  | .holds => .holds
  | .fails => known
  | .dontCare => if known = .fails then .dontCare else known

/-- The value of the clause, read from its literals in order. -/
def evaluate (c : Clause) (a : Assignment) : Ternary :=
  c.literals.foldl (fun known l => join known (a.literalValue l)) .fails

/-- Whether the clause is certainly true. -/
def isSatisfied (c : Clause) (a : Assignment) : Bool :=
  c.evaluate a == .holds

/-- Lists of literals in lexicographic order. -/
def compareLiterals : List Literal → List Literal → Ordering
  | [], [] => .eq
  | [], _ :: _ => .lt
  | _ :: _, [] => .gt
  | l :: ls, m :: ms => (l.compare m).then (compareLiterals ls ms)

/-- Clauses are ordered as their lists of literals. -/
def compare (c d : Clause) : Ordering :=
  compareLiterals c.literals d.literals

/-- The literals between parentheses, with bars between them. -/
def text (c : Clause) : String :=
  "(" ++ String.intercalate " | " (c.literals.map Literal.text) ++ ")"

end Clause

end CardinalityClauses
