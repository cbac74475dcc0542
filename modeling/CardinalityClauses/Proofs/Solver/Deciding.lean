import CardinalityClauses.Collector.Lawful
import CardinalityClauses.Solver.Basic
import CardinalityClauses.Valuation

/-!
What one may rely on in a solver.

A deciding solver takes every clause, answers every query, and its answers are right: after
"satisfiable" the values of a model can be read, and "unsatisfiable" means that there is none.
It may also answer that it was interrupted, which says nothing. All this is promised of the
states that a solver without clauses gets to.

A fallible solver may run out of memory while it is handed clauses, and it may turn a query
down. Its answers are right for the clauses that it kept.
-/

namespace CardinalityClauses

/-- The value that partial values of variables give to a literal. -/
def Ternary.ofLiteral (reading : Variable → Ternary) (l : Literal) : Ternary :=
  if l.negated then (reading l.var).complement else reading l.var

theorem Ternary.ofLiteral_complement (reading : Variable → Ternary) (l : Literal) :
    Ternary.ofLiteral reading l.complement = (Ternary.ofLiteral reading l).complement := by
  obtain ⟨i, negated⟩ := l
  cases negated <;> simp [ofLiteral, Literal.complement, Literal.var, complement_complement]

/-- The values that are read literal by literal are those of one partial assignment, and it
makes a literal of every clause true. -/
def ReadsModel (value : Literal → Except SolverError Ternary) (cs : List Clause) : Prop :=
  ∃ reading : Variable → Ternary,
    (∀ l, value l = .ok (Ternary.ofLiteral reading l)) ∧
      ∀ c ∈ cs, ∃ l ∈ c.literals, Ternary.ofLiteral reading l = .holds

/-- A partial assignment that makes a literal of every clause true extends to a model. -/
theorem ReadsModel.exists_models {value : Literal → Except SolverError Ternary}
    {cs : List Clause} (h : ReadsModel value cs) : ∃ v : Valuation, v.Models cs := by
  obtain ⟨reading, -, met⟩ := h
  refine ⟨fun i => (reading ⟨i⟩).toBool false, ?_⟩
  intro c hc
  obtain ⟨l, hl, holds⟩ := met c hc
  refine Clause.holds_iff.2 ⟨l, hl, ?_⟩
  obtain ⟨i, negated⟩ := l
  simp only [Ternary.ofLiteral, Literal.var] at holds
  cases negated <;> cases value : reading ⟨i⟩ <;>
    simp_all [Literal.holds, Ternary.complement, Ternary.toBool]

/-- A solver that takes every clause and answers every query rightly. -/
class DecidingSolver (β : Type) extends Solver β where
  /-- The clauses held, in order. -/
  contents : β → List Clause
  /-- The states that a solver without clauses gets to. -/
  Regular : β → Prop
  regular_renew : ∀ s, Regular s → Regular (renew s)
  regular_extend : ∀ s cs, Regular s → Regular (extend s cs).1
  regular_solve : ∀ s, Regular s → Regular (solve s).2
  contents_renew : ∀ s, contents (renew s) = []
  contents_extend : ∀ (s : β) (cs : List Clause), contents (extend s cs).1 = contents s ++ cs
  contents_solve : ∀ s, contents (solve s).2 = contents s
  extend_taken : ∀ (s : β) (cs : List Clause), (extend s cs).2 = true
  solve_answers : ∀ s, Regular s → ∃ verdict, (solve s).1 = .ok verdict
  readsModel : ∀ s, Regular s → (solve s).1 = .ok .satisfiable →
    ReadsModel (value (solve s).2) (contents s)
  no_model : ∀ s, Regular s → (solve s).1 = .ok .unsatisfiable →
    ∀ v : Valuation, ¬ v.Models (contents s)

/-- A solver that keeps a first part of what it is handed, and whose definite answers are right
for what it kept. -/
class FallibleSolver (β : Type) extends Solver β, LawfulCollector β where
  /-- The states that a solver without clauses gets to. -/
  Regular : β → Prop
  regular_renew : ∀ s, Regular s → Regular (renew s)
  regular_extend : ∀ s cs, Regular s → Regular (extend s cs).1
  regular_solve : ∀ s, Regular s → Regular (solve s).2
  contents_renew : ∀ s, contents (renew s) = []
  contents_solve : ∀ s, contents (solve s).2 = contents s
  readsModel : ∀ s, Regular s → (solve s).1 = .ok .satisfiable →
    ReadsModel (value (solve s).2) (contents s)
  no_model : ∀ s, Regular s → (solve s).1 = .ok .unsatisfiable →
    ∀ v : Valuation, ¬ v.Models (contents s)

end CardinalityClauses
