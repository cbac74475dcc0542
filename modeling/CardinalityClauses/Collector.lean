import CardinalityClauses.Clause

/-!
Collectors of clauses.

Formulas and solvers collect clauses. An encoding needs two things from a collector: how
many clauses it holds, and that it takes more of them. A collector may run out of memory in
the middle of what it is handed; the clauses before that point stay.
-/

namespace CardinalityClauses

/-- What encodings need from the place their clauses go to. -/
class Collector (σ : Type) where
  /-- How many clauses are held. -/
  clauseCount : σ → Nat
  /-- Hands over clauses in order. The answer says whether all of them were taken; if not,
  the collector ran out of memory. -/
  extend : σ → List Clause → σ × Bool
  /-- Hands over `n` copies of a clause in one call that announces their number. -/
  extendCopies : σ → Clause → Nat → σ × Bool :=
    fun collector clause n => extend collector (List.replicate n clause)

/-- Hands over one clause. -/
def Collector.add {σ : Type} [Collector σ] (collector : σ) (clause : Clause) : σ × Bool :=
  Collector.extend collector [clause]

/-- The wording for a collector that ran out of memory. -/
def Collector.outOfMemoryMessage : String :=
  "clause collector ran out of memory"

end CardinalityClauses
