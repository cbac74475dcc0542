import CardinalityClauses.Solver.Search

/-!
Search engines: what an incremental solver leaves the search for a model to.

An engine numbers its variables from zero on. A variable has to be made known before clauses over
it are handed over, and all below it are known with it. Between searches clauses are added. A
search says whether all of them have a model, or nothing if it was stopped, and after a model was
found its values can be read.

The engine here searches by propagation and branching. It can be stopped from outside; then it
still finds out whether propagation refutes the clauses. Clauses once refuted stay refuted.
-/

namespace CardinalityClauses

/-- A search for models of clauses that are added bit by bit. -/
class Engine (ε : Type) where
  /-- The number of known variables, one above the highest of them. -/
  variableCount : ε → Nat
  /-- Makes a variable known. -/
  makeKnown : ε → Nat → ε
  addClause : ε → List Literal → ε
  /-- Whether all clauses have a model; no result if the search was stopped. -/
  search : ε → Option Bool × ε
  /-- The value of a literal in the model found last; no result if it is not fixed. -/
  value : ε → Literal → Option Bool
  /-- An engine without variables and clauses in the same surroundings. -/
  renew : ε → ε

/-- An engine by propagation and branching. -/
structure SearchEngine where
  formula : Formula
  variableCount : Nat
  /-- The values of the model found last. -/
  found : Search.Values
  /-- Whether a search refuted the clauses before. -/
  refuted : Bool
  /-- Whether the search is stopped from outside. -/
  stopped : Bool

namespace SearchEngine

/-- The engine without variables and clauses. -/
def startingWith (stopped : Bool) : SearchEngine where
  formula := .empty
  variableCount := 0
  found := #[]
  refuted := false
  stopped := stopped

/-- Makes a variable known. -/
def makeKnown (e : SearchEngine) (index : Nat) : SearchEngine :=
  { e with variableCount := max e.variableCount (index + 1) }

/-- Adds a clause. -/
def addClause (e : SearchEngine) (literals : List Literal) : SearchEngine :=
  { e with formula := e.formula.append [⟨literals⟩] }

/-- The values that a search fixed, where those that it did not need are false. -/
def complete (values : Search.Values) : Search.Values :=
  values.map fun t => .ofBool (t.toBool false)

/-- Searches for a model of all clauses. -/
def search (e : SearchEngine) : Option Bool × SearchEngine :=
  if e.refuted then (some false, e)
  else if e.stopped then
    if Search.isRefutedByPropagation e.formula.toList e.variableCount then
      (some false, { e with refuted := true })
    else (none, e)
  else
    match Search.model? e.formula.toList e.variableCount with
    | some values => (some true, { e with found := complete values })
    | none => (some false, { e with refuted := true })

/-- The value of a literal in the model found last. -/
def value (e : SearchEngine) (l : Literal) : Option Bool :=
  (Search.valueOf e.found l).toBool?

instance : Engine SearchEngine where
  variableCount := variableCount
  makeKnown := makeKnown
  addClause := addClause
  search := search
  value := value
  renew e := startingWith e.stopped

end SearchEngine

end CardinalityClauses
