import CardinalityClauses.Arithmetic.Checked

/-!
Variables and literals.

A variable is its index. A literal is a variable with a sign, and it is written as one
number, its code: twice the index, plus one if the literal is negated. Codes have 32 bits,
so a literal carries the indices up to `Variable.maxIndex` only. A variable may be made
with a higher index without a check; the literal of such a variable keeps the low 31 bits
of the index.
-/

namespace CardinalityClauses

/-- A Boolean variable, named by its index. -/
structure Variable where
  index : Nat
  deriving DecidableEq, Repr, Inhabited

/-- A variable or its negation. -/
structure Literal where
  /-- The index of the variable. -/
  index : Nat
  /-- Whether the literal is the negation of the variable. -/
  negated : Bool
  deriving DecidableEq, Repr, Inhabited

/-- The refusal of an index that no literal can carry. -/
structure IndexTooHigh where
  index : Nat
  maximum : Nat
  deriving DecidableEq, Repr

/-- The wording of the refusal. -/
def IndexTooHigh.message (e : IndexTooHigh) : String :=
  s!"index {e.index} is too high (maximum {e.maximum})"

/-! ### Literals -/

namespace Literal

/-- The literal as one number: twice the index, plus one for a negation. -/
def code (l : Literal) : Nat :=
  2 * l.index + l.negated.toNat

/-- The literal with a given code. -/
def ofCode (n : Nat) : Literal :=
  ⟨n / 2, n % 2 == 1⟩

/-- The literal of an index that is not checked: its low 31 bits count. -/
def truncated (index : Nat) (negated : Bool) : Literal :=
  ⟨index % 2147483648, negated⟩

/-- The variable of the literal. -/
def var (l : Literal) : Variable :=
  ⟨l.index⟩

/-- The literal that holds exactly if this one does not. -/
def complement (l : Literal) : Literal :=
  ⟨l.index, !l.negated⟩

/-- Moves the index up by `k` and keeps the sign. -/
def shift (l : Literal) (k : Nat) : Except Fault Literal := do
  let step ← mulWithin indexRange 2 k
  let sum ← addWithin indexRange l.code step
  return ofCode sum

/-- The order of literals is the order of their codes. -/
def compare (l m : Literal) : Ordering :=
  Ord.compare l.code m.code

/-- The name of the variable, after a tilde for a negation. -/
def text (l : Literal) : String :=
  if l.negated then s!"~x{l.index}" else s!"x{l.index}"

end Literal

/-! ### Variables -/

namespace Variable

/-- The highest index a literal can carry. -/
def maxIndex : Nat := 2147483647

/-- The variable with a given index; an index no literal can carry is a fault. -/
def ofIndex (index : Nat) : Except Fault Variable :=
  if index ≤ maxIndex then .ok ⟨index⟩ else .error .variableIndexTooHigh

/-- The variable with a given index; an index no literal can carry is refused. -/
def tryOfIndex (index : Nat) : Except IndexTooHigh Variable :=
  if index ≤ maxIndex then .ok ⟨index⟩ else .error ⟨index, maxIndex⟩

/-- The literal that holds exactly if the variable does. -/
def positive (v : Variable) : Literal :=
  .truncated v.index false

/-- The literal that holds exactly if the variable does not. -/
def negative (v : Variable) : Literal :=
  .truncated v.index true

/-- The variable `k` indices further up. -/
def shift (v : Variable) (k : Nat) : Except Fault Variable := do
  let sum ← addWithin indexRange v.index k
  return ⟨sum⟩

/-- The variable `k` indices further down. -/
def shiftDown (v : Variable) (k : Nat) : Except Fault Variable := do
  let difference ← subWithin v.index k
  return ⟨difference⟩

/-- The order of variables is the order of their indices. -/
def compare (v w : Variable) : Ordering :=
  Ord.compare v.index w.index

/-- The name of the variable. -/
def text (v : Variable) : String :=
  s!"x{v.index}"

end Variable

/-- The literal of an index with a sign; an index no literal can carry is a fault. -/
def Literal.ofIndex (index : Nat) (negated : Bool) : Except Fault Literal := do
  let v ← Variable.ofIndex index
  return ⟨v.index, negated⟩

/-- The literal of an index with a sign; an index no literal can carry is refused. -/
def Literal.tryOfIndex (index : Nat) (negated : Bool) : Except IndexTooHigh Literal := do
  let v ← Variable.tryOfIndex index
  return ⟨v.index, negated⟩

end CardinalityClauses
