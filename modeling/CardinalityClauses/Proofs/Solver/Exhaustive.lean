import CardinalityClauses.Proofs.Encoding.Fresh
import CardinalityClauses.Proofs.Solver.Deciding
import CardinalityClauses.Solver.Exhaustive
import Mathlib.Data.Nat.Init

/-!
The exhaustive solver decides the clauses that it kept.

It goes through the values of the variables up to the highest one. That is enough, because no
literal lies above it, and the values of so many variables are the bits of a number.
-/

namespace CardinalityClauses

/-! ### The highest variable -/

namespace Formula

/-- The highest variable after one more literal. -/
def raise (found : Option Variable) (l : Literal) : Option Variable :=
  match found with
  | none => some l.var
  | some v => some ⟨max v.index l.index⟩

/-- The number of variables up to the highest. -/
def reach : Option Variable → Nat
  | some v => v.index + 1
  | none => 0

theorem reach_raise (found : Option Variable) (l : Literal) :
    reach (raise found l) = max (reach found) (l.index + 1) := by
  cases found with
  | none => simp [raise, reach, Literal.var]
  | some v => simp [raise, reach]

theorem highest?_eq_foldl (f : Formula) :
    f.highest? = (f.toList.flatMap Clause.literals).foldl raise none := by
  rw [List.foldl_flatMap, toList, Array.foldl_toList]
  rfl

/-- Literal after literal, the highest variable stays above all that were read. -/
theorem reach_foldl_raise (ls : List Literal) (found : Option Variable) :
    reach found ≤ reach (ls.foldl raise found) ∧
      ∀ l ∈ ls, l.index < reach (ls.foldl raise found) := by
  induction ls generalizing found with
  | nil => exact ⟨Nat.le_refl _, by simp⟩
  | cons l rest ih =>
      obtain ⟨grows, below⟩ := ih (raise found l)
      rw [reach_raise, Nat.max_le] at grows
      rw [List.foldl_cons]
      exact ⟨grows.1, List.forall_mem_cons.2 ⟨grows.2, below⟩⟩

/-- No literal lies above the highest variable. -/
theorem clausesOver_reach (f : Formula) : ClausesOver (· < reach f.highest?) f.toList := by
  intro c hc l hl
  rw [highest?_eq_foldl]
  exact (reach_foldl_raise _ none).2 l (List.mem_flatMap.2 ⟨c, hc, hl⟩)

end Formula

namespace Exhaustive

/-! ### Assignments by number -/

/-- The values of `n` variables are the bits of a number. -/
theorem exists_bits (v : Valuation) (n : Nat) :
    ∃ bits < Nat.pow 2 n, Valuation.Agree (· < n) v bits.testBit := by
  refine ⟨Nat.ofBits fun i : Fin n => v i, Nat.ofBits_lt_two_pow _, ?_⟩
  intro i hi
  rw [Nat.testBit_ofBits_lt _ i hi]

theorem literalValue_assignmentOf {n bits : Nat} {l : Literal} (hl : l.index < n) :
    (assignmentOf n bits).literalValue l = .ofBool (l.holds bits.testBit) := by
  have listed : (assignmentOf n bits).variableValue l.var = .ofBool (bits.testBit l.index) := by
    simp [assignmentOf, Assignment.variableValue, Literal.var, hl]
  rw [Assignment.literalValue, listed, Literal.holds]
  cases l.negated <;> cases bits.testBit l.index <;> rfl

/-- The numbers that satisfy all clauses are those whose bits are a model. -/
theorem all_satisfies_iff {f : Formula} {bits : Nat} :
    f.clauses.all (satisfies bits) = true ↔ Valuation.Models bits.testBit f.toList := by
  rw [← Array.all_toList, List.all_eq_true]
  rfl

theorem exists_bits_of_firstModel? {f : Formula} {n : Nat} {model : Assignment}
    (found : firstModel? f n = some model) :
    ∃ bits, Valuation.Models bits.testBit f.toList ∧ model = assignmentOf n bits := by
  obtain ⟨bits, first, rfl⟩ := Option.map_eq_some_iff.1 found
  have fits : f.clauses.all (satisfies bits) = true := by
    simpa using List.find?_some first
  exact ⟨bits, all_satisfies_iff.1 fits, rfl⟩

/-- If a formula over `n` variables has a model, one is found. -/
theorem firstModel?_ne_none {f : Formula} {n : Nat} (about : ClausesOver (· < n) f.toList)
    {v : Valuation} (models : v.Models f.toList) : firstModel? f n ≠ none := by
  obtain ⟨bits, small, agree⟩ := exists_bits v n
  intro missed
  have none_fits := List.find?_eq_none.1 (Option.map_eq_none_iff.1 missed)
  exact none_fits bits (List.mem_range.2 small)
    (all_satisfies_iff.2 (agree.models about models))

/-! ### Queries -/

theorem variableCount_eq_reach (s : Exhaustive) :
    s.variableCount = Formula.reach s.formula.highest? := by
  unfold variableCount
  split <;> simp [Formula.reach, *]

/-- The search leaves the clauses alone, and its answer says whether it found a model. -/
theorem search_spec (s : Exhaustive) :
    s.search.2.formula = s.formula ∧
      ∀ verdict, s.search.1 = .ok verdict →
        s.search.2.model = firstModel? s.formula s.variableCount ∧
          verdict = if s.search.2.model.isSome then .satisfiable else .unsatisfiable := by
  unfold search
  split
  · exact ⟨rfl, fun _ answer => nomatch answer⟩
  · refine ⟨rfl, fun verdict answer => ⟨rfl, ?_⟩⟩
    exact (Except.ok.inj answer).symm

/-- So does a query, unless a failure was planned for it. -/
theorem solve_spec (s : Exhaustive) :
    s.solve.2.formula = s.formula ∧
      ∀ verdict, s.solve.1 = .ok verdict → verdict ≠ .interrupted →
        s.solve.2.model = firstModel? s.formula s.variableCount ∧
          verdict = if s.solve.2.model.isSome then .satisfiable else .unsatisfiable := by
  obtain ⟨formula, model, queries, attempts, answers, left⟩ := s
  cases answers with
  | nil =>
      obtain ⟨kept, answered⟩ :=
        search_spec ⟨formula, model, queries, attempts + 1, ⟨[], left⟩⟩
      exact ⟨kept, fun verdict answer _ => answered verdict answer⟩
  | cons planned rest =>
      cases planned with
      | interrupted =>
          exact ⟨rfl, fun _ answer definite => absurd (Except.ok.inj answer).symm definite⟩
      | refused => exact ⟨rfl, fun _ answer => nomatch answer⟩
      | outOfMemory => exact ⟨rfl, fun _ answer => nomatch answer⟩

theorem solve_satisfiable {s : Exhaustive} (answer : s.solve.1 = .ok .satisfiable) :
    ∃ model, s.solve.2.model = some model ∧
      firstModel? s.formula s.variableCount = some model := by
  obtain ⟨found, said⟩ := s.solve_spec.2 _ answer nofun
  cases stored : s.solve.2.model with
  | some model => exact ⟨model, rfl, found.symm.trans stored⟩
  | none => simp [stored] at said

theorem solve_unsatisfiable {s : Exhaustive} (answer : s.solve.1 = .ok .unsatisfiable) :
    firstModel? s.formula s.variableCount = none := by
  obtain ⟨found, said⟩ := s.solve_spec.2 _ answer nofun
  cases stored : s.solve.2.model with
  | some model => simp [stored] at said
  | none => exact found.symm.trans stored

instance : LawfulCollector Exhaustive where
  contents s := s.formula.toList
  clauseCount_eq s := s.formula.size_eq_length_toList
  contents_extend s cs := by
    show ∃ kept, kept <+: cs ∧ (s.extend cs).1.formula.toList = s.formula.toList ++ kept
    unfold extend
    cases s.plan.clausesLeft with
    | none => exact ⟨cs, List.prefix_rfl, Formula.toList_append _ _⟩
    | some left =>
        simp only
        split
        · exact ⟨cs.take left, List.take_prefix _ _, Formula.toList_append _ _⟩
        · exact ⟨cs, List.prefix_rfl, Formula.toList_append _ _⟩
  contents_extend_of_taken s cs := by
    show (s.extend cs).2 = true → (s.extend cs).1.formula.toList = s.formula.toList ++ cs
    unfold extend
    cases s.plan.clausesLeft with
    | none => exact fun _ => Formula.toList_append _ _
    | some left =>
        simp only
        split
        · exact fun taken => nomatch taken
        · exact fun _ => Formula.toList_append _ _

/-- The values that are read after the answer "satisfiable" are those of a model. -/
theorem readsModel_solve {s : Exhaustive} (answer : s.solve.1 = .ok .satisfiable) :
    ReadsModel s.solve.2.value s.formula.toList := by
  obtain ⟨model, stored, first⟩ := solve_satisfiable answer
  obtain ⟨bits, models, rfl⟩ := exists_bits_of_firstModel? first
  refine ⟨(assignmentOf s.variableCount bits).variableValue, fun l => ?_, fun c hc => ?_⟩
  · rw [value, stored]
    rfl
  · obtain ⟨l, hl, holds⟩ := Clause.holds_iff.1 (models c hc)
    have below : l.index < s.variableCount := by
      rw [variableCount_eq_reach]
      exact s.formula.clausesOver_reach c hc l hl
    refine ⟨l, hl, ?_⟩
    show (assignmentOf s.variableCount bits).literalValue l = .holds
    rw [literalValue_assignmentOf below, holds]
    rfl

theorem no_model_of_solve {s : Exhaustive} (answer : s.solve.1 = .ok .unsatisfiable)
    (v : Valuation) : ¬v.Models s.formula.toList := by
  intro models
  refine firstModel?_ne_none ?_ models (solve_unsatisfiable answer)
  rw [variableCount_eq_reach]
  exact s.formula.clausesOver_reach

instance : FallibleSolver Exhaustive where
  Regular _ := True
  regular_renew _ _ := trivial
  regular_extend _ _ _ := trivial
  regular_solve _ _ := trivial
  contents_renew _ := rfl
  contents_solve s := congrArg Formula.toList s.solve_spec.1
  readsModel _ _ answer := readsModel_solve answer
  no_model _ _ answer := no_model_of_solve answer

end Exhaustive

end CardinalityClauses
