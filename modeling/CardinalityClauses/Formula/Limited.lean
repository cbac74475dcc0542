import CardinalityClauses.Formula

/-!
Formulas with a limit.

A limited formula takes only so many calls, and grows only up to so many clauses. It runs
out of memory at the first call beyond the one limit and at the first clause beyond the
other, so it can stop an encoding after any number of calls and inside any call.
-/

namespace CardinalityClauses

/-- A formula that may run out of memory. -/
structure LimitedFormula where
  formula : Formula
  /-- How many more calls are taken; without a number, any. -/
  calls : Option Nat
  /-- Up to which size the formula grows; without a number, any. -/
  clauses : Option Nat
  deriving DecidableEq, Repr, Inhabited

namespace LimitedFormula

/-- The formula without clauses and without limits. -/
def empty : LimitedFormula := ⟨.empty, none, none⟩

/-- Takes the clauses that fit under the limit on the size. -/
def fill (f : LimitedFormula) (cs : List Clause) : LimitedFormula × Bool :=
  match f with
  | ⟨formula, calls, none⟩ => (⟨formula.append cs, calls, none⟩, true)
  | ⟨formula, calls, some most⟩ =>
      let left := most - formula.size
      (⟨formula.append (cs.take left), calls, some most⟩, cs.length ≤ left)

/-- Takes copies of a clause. Without a limit on the size the formula makes room for all of
them first; with one they come one by one. -/
def fillCopies (f : LimitedFormula) (c : Clause) (n : Nat) : LimitedFormula × Bool :=
  match f with
  | ⟨formula, calls, none⟩ =>
      let (formula, taken) := Collector.extendCopies formula c n
      (⟨formula, calls, none⟩, taken)
  | ⟨formula, calls, some most⟩ =>
      let left := most - formula.size
      (⟨formula.append (List.replicate (min n left) c), calls, some most⟩, n ≤ left)

/-- Uses up a call and does `next`, or runs out of memory if no call is left. -/
def spend (f : LimitedFormula) (next : LimitedFormula → LimitedFormula × Bool) :
    LimitedFormula × Bool :=
  match f with
  | ⟨formula, none, most⟩ => next ⟨formula, none, most⟩
  | ⟨formula, some 0, most⟩ => (⟨formula, some 0, most⟩, false)
  | ⟨formula, some (calls + 1), most⟩ => next ⟨formula, some calls, most⟩

instance : Collector LimitedFormula where
  clauseCount f := f.formula.size
  extend f cs := f.spend fun f => f.fill cs
  extendCopies f c n := f.spend fun f => f.fillCopies c n

end LimitedFormula

end CardinalityClauses
