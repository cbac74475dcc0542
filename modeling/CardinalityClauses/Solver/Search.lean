import CardinalityClauses.Formula

/-!
Search for a model by propagation and branching.

The search fixes the values of variables one after the other. A clause all of whose literals
but one are false forces that literal. Where nothing is forced, the search branches on one
of the variables that clauses still wait for, true first. It takes the one that matters
most to short clauses, which keeps the search small; any of them would do. A clause whose
literals are all false ends the branch. Every step fixes a variable, so their number bounds
the search.
-/

namespace CardinalityClauses.Search

/-- The values of the variables from index zero on, as far as they are fixed. -/
abbrev Values := Array Ternary

/-- The value of a literal. -/
def valueOf (values : Values) (l : Literal) : Ternary :=
  let t := values.getD l.index .dontCare
  if l.negated then t.complement else t

/-- Makes a literal true. -/
def fix (values : Values) (l : Literal) : Values :=
  values.setIfInBounds l.index (.ofBool (!l.negated))

/-- What the fixed values say about a clause. -/
inductive Standing
  /-- A literal is true. -/
  | met
  /-- All literals are false. -/
  | refuted
  /-- All literals but one are false. -/
  | forces (l : Literal)
  /-- Two literals or more are not fixed. -/
  | undecided
  deriving DecidableEq, Repr

/-- What the fixed values say about a clause of which `free` is the only literal before
these ones that is not false. -/
def standing (values : Values) : (free : Option Literal) → List Literal → Standing
  | none, [] => .refuted
  | some l, [] => .forces l
  | free, l :: rest =>
      match valueOf values l with
      | .holds => .met
      | .fails => standing values free rest
      | .dontCare =>
          match free with
          | none => standing values (some l) rest
          | some m => if l = m then standing values free rest else .undecided

/-- Goes through the clauses once and fixes what they force; `progress` tells whether
something was. No result means that a clause is refuted. -/
def pass : List Clause → Values → (progress : Bool) → Option (Values × Bool)
  | [], values, progress => some (values, progress)
  | c :: rest, values, progress =>
      match standing values none c.literals with
      | .refuted => none
      | .forces l => pass rest (fix values l) true
      | _ => pass rest values progress

/-- Goes through the clauses until they force nothing more. Each time but the last fixes a
variable, so `fuel` above their number is enough. -/
def propagate (cs : List Clause) : (fuel : Nat) → Values → Option Values
  | 0, values => some values
  | fuel + 1, values =>
      match pass cs values false with
      | none => none
      | some (values, true) => propagate cs fuel values
      | some (values, false) => some values

/-- The literals that a clause waits for: those that are not fixed, unless one is true. -/
def awaited (values : Values) (c : Clause) : List Literal :=
  if c.literals.any fun l => valueOf values l == .holds then []
  else c.literals.filter fun l => valueOf values l == .dontCare

/-- How much each variable matters: a clause counts half as much with every literal that it
waits for. -/
def weights (cs : List Clause) (values : Values) : Array Nat :=
  cs.foldl
    (fun weights c =>
      let literals := awaited values c
      let weight := 4096 >>> literals.length
      literals.foldl (fun weights l => weights.modify l.index (· + weight)) weights)
    (Array.replicate values.size 0)

/-- The weightier of two variables, the first if there is no difference. -/
def weightier (weights : Array Nat) (found : Option Variable) (v : Variable) :
    Option Variable :=
  match found with
  | none => some v
  | some w => if weights.getD w.index 0 < weights.getD v.index 0 then some v else some w

/-- The weightiest of the variables that clauses wait for. -/
def weightiest? (cs : List Clause) (values : Values) : Option Variable :=
  ((cs.flatMap (awaited values)).map Literal.var).foldl (weightier (weights cs values)) none

/-- The values of a model that keeps those fixed already. Each branching fixes a variable,
so `fuel` above their number is enough. -/
def run (cs : List Clause) : (fuel : Nat) → Values → Option Values
  | 0, _ => none
  | fuel + 1, values =>
      match propagate cs (values.size + 1) values with
      | none => none
      | some values =>
          match weightiest? cs values with
          | none => some values
          | some v =>
              match run cs fuel (fix values ⟨v.index, false⟩) with
              | some found => some found
              | none => run cs fuel (fix values ⟨v.index, true⟩)

/-- No value of `n` variables fixed. -/
def blank (n : Nat) : Values :=
  Array.replicate n .dontCare

/-- The values of a model of clauses over `n` variables. -/
def model? (cs : List Clause) (n : Nat) : Option Values :=
  run cs (n + 1) (blank n)

/-- Whether forced literals alone refute clauses over `n` variables. -/
def isRefutedByPropagation (cs : List Clause) (n : Nat) : Bool :=
  (propagate cs (n + 1) (blank n)).isNone

/-- Whether every model of clauses over `n` variables makes a literal true. -/
def entails (cs : List Clause) (n : Nat) (l : Literal) : Bool :=
  (run cs (n + 1) (fix (blank n) l.complement)).isNone

end CardinalityClauses.Search
