import CardinalityClauses.Collector

/-!
Formulas: sequences of clauses, read as their conjunction.

A formula keeps no record of the variables in it. It grows at the end, and it can be cut
back to an earlier length.
-/

namespace CardinalityClauses

/-- A sequence of clauses. -/
structure Formula where
  clauses : Array Clause
  deriving DecidableEq, Repr, Inhabited

namespace Formula

/-- The formula without clauses. -/
def empty : Formula := ⟨#[]⟩

/-- The formula of a list of clauses. -/
def ofList (cs : List Clause) : Formula := ⟨cs.toArray⟩

/-- The clauses in order. -/
def toList (f : Formula) : List Clause := f.clauses.toList

/-- The number of clauses. -/
def size (f : Formula) : Nat := f.clauses.size

/-- Whether there are no clauses. -/
def isEmpty (f : Formula) : Bool := f.clauses.isEmpty

/-- Adds clauses at the end. -/
def append (f : Formula) (cs : List Clause) : Formula :=
  ⟨f.clauses ++ cs⟩

/-- The first `n` clauses, or all of them if there are fewer. -/
def truncate (f : Formula) (n : Nat) : Formula :=
  ⟨f.clauses.extract 0 n⟩

/-- The clauses from position `n` on. -/
def clausesFrom (f : Formula) (n : Nat) : List Clause :=
  (f.clauses.extract n f.clauses.size).toList

/-- The clause at a position. -/
def clauseAt (f : Formula) (i : Nat) : Except Fault Clause :=
  match f.clauses[i]? with
  | some c => .ok c
  | none => .error .indexOutOfBounds

/-- Whether every clause is certainly true. -/
def isSatisfied (f : Formula) (a : Assignment) : Bool :=
  f.clauses.all fun c => c.isSatisfied a

/-- The highest variable in the clauses. -/
def highest? (f : Formula) : Option Variable :=
  f.clauses.foldl
    (fun found c => c.literals.foldl
      (fun found l =>
        match found with
        | none => some l.var
        | some v => some ⟨max v.index l.index⟩)
      found)
    none

/-- Room is found for fewer than this many clauses at once. In truth the allocator decides, and
what it says in between `2 ^ 40` and `2 ^ 60` differs from machine to machine: `2 ^ 40` clauses are
more than a memory holds, and `2 ^ 60` of them have more bytes than there are addresses. No
statement depends on where the line is drawn. -/
def room : Nat := Nat.pow 2 40

/-- Whether there is room for `n` more clauses. -/
def hasRoomFor (_f : Formula) (n : Nat) : Bool :=
  n < room

/-- The clauses between brackets, after the name of the record and its one field. -/
def text (f : Formula) : String :=
  "Cnf \x7b clauses: [" ++ String.intercalate ", " (f.toList.map Clause.text) ++ "] \x7d"

/-- A formula takes every clause. A number of copies that it has no room for is turned down
as a whole. -/
instance : Collector Formula where
  clauseCount := size
  extend f cs := (f.append cs, true)
  extendCopies f c n :=
    if f.hasRoomFor n then (f.append (List.replicate n c), true) else (f, false)

end Formula

end CardinalityClauses
