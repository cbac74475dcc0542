import CardinalityClauses.Proofs.Solver.Deciding
import CardinalityClauses.Proofs.Solver.Engine
import CardinalityClauses.Solver.Incremental

/-!
The incremental solver decides its clauses if its engine does.

Every variable stands one higher in the engine, both where clauses are added and where values are
read. So the values of the engine, moved down by one, are values of the variables of the solver.
The variables of every clause are made known before the clause is handed over; whatever stands at
or above the number of known variables is in no clause and reads as not fixed.
-/

namespace CardinalityClauses.IncrementalSolver

open DecidingEngine (clauses Regular)
open Engine (variableCount)

/-! ### Literals of the engine -/

/-- The clause of the engine that stands for a clause. -/
def innerClause (c : Clause) : Clause :=
  ⟨c.literals.map inner⟩

/-- The clause that a clause of the engine stands for. -/
def outerClause (c : Clause) : Clause :=
  ⟨c.literals.map outer⟩

theorem outerClause_innerClause (c : Clause) : outerClause (innerClause c) = c := by
  simp [outerClause, innerClause, Function.comp_def, inner, outer]

/-- Values of the variables of the solver as values of the variables of the engine. -/
def raised (v : Valuation) : Valuation :=
  fun i => v (i - 1)

theorem models_raised {v : Valuation} {cs : List Clause} (models : v.Models cs) :
    (raised v).Models (cs.map innerClause) := by
  intro c hc
  obtain ⟨d, hd, rfl⟩ := List.mem_map.1 hc
  obtain ⟨l, hl, holds⟩ := Clause.holds_iff.1 (models d hd)
  exact Clause.holds_iff.2 ⟨inner l, List.mem_map_of_mem hl, holds⟩

section

variable {ε : Type} [DecidingEngine ε] {s : IncrementalSolver ε}

/-- The clauses that were added, in order. -/
def contents (s : IncrementalSolver ε) : List Clause :=
  (clauses s.engine).map outerClause

/-! ### Adding clauses -/

theorem clauses_makeKnown (engine : ε) (ls : List Literal) :
    clauses (makeKnown engine ls) = clauses engine := by
  induction ls generalizing engine with
  | nil => rfl
  | cons l rest ih => exact (ih _).trans (DecidingEngine.clauses_makeKnown engine _)

theorem regular_makeKnown {engine : ε} (regular : Regular engine) (ls : List Literal) :
    Regular (makeKnown engine ls) := by
  induction ls generalizing engine with
  | nil => exact regular
  | cons l rest ih => exact ih (DecidingEngine.regular_makeKnown engine _ regular)

/-- The number of variables of the engine once literals are known. -/
theorem variableCount_makeKnown (engine : ε) (ls : List Literal) :
    variableCount (makeKnown engine ls) =
      ls.foldl (fun known l => max known (l.index + 2)) (variableCount engine) := by
  induction ls generalizing engine with
  | nil => rfl
  | cons l rest ih =>
      rw [List.foldl_cons, ← DecidingEngine.variableCount_makeKnown engine (l.index + 1)]
      exact ih _

/-- The known variables reach to the highest literal, and no further. -/
theorem foldl_max_spec (ls : List Literal) (known : Nat) :
    let reached := ls.foldl (fun known l => max known (l.index + 2)) known
    known ≤ reached ∧ (∀ l ∈ ls, l.index + 2 ≤ reached) ∧
      (reached = known ∨ ∃ l ∈ ls, reached = l.index + 2) := by
  induction ls generalizing known with
  | nil => exact ⟨Nat.le_refl _, by simp, .inl rfl⟩
  | cons l rest ih =>
      obtain ⟨grows, within, met⟩ := ih (max known (l.index + 2))
      obtain ⟨before, here⟩ := Nat.max_le.1 grows
      refine ⟨before, List.forall_mem_cons.2 ⟨here, within⟩, ?_⟩
      rw [List.foldl_cons]
      rcases met with same | ⟨m, hm, same⟩
      · rw [same]
        rcases Nat.le_total known (l.index + 2) with le | le
        · exact .inr ⟨l, List.mem_cons_self, Nat.max_eq_right le⟩
        · exact .inl (Nat.max_eq_left le)
      · exact .inr ⟨m, List.mem_cons_of_mem _ hm, same⟩

theorem clauses_addClause (s : IncrementalSolver ε) (c : Clause) :
    clauses (s.addClause c).engine = clauses s.engine ++ [innerClause c] := by
  rw [← clauses_makeKnown s.engine c.literals]
  exact DecidingEngine.clauses_addClause _ _

theorem contents_addClause (s : IncrementalSolver ε) (c : Clause) :
    (s.addClause c).contents = s.contents ++ [c] := by
  rw [contents, clauses_addClause, List.map_append, List.map_singleton, outerClause_innerClause]
  rfl

theorem contents_addClauses (s : IncrementalSolver ε) (cs : List Clause) :
    (s.addClauses cs).contents = s.contents ++ cs := by
  induction cs generalizing s with
  | nil => simp [addClauses]
  | cons c rest ih =>
      refine (ih (s.addClause c)).trans ?_
      rw [contents_addClause, List.append_assoc, List.singleton_append]

theorem variableCount_addClause (s : IncrementalSolver ε) (c : Clause) :
    variableCount (s.addClause c).engine =
      c.literals.foldl (fun known l => max known (l.index + 2)) (variableCount s.engine) := by
  rw [← variableCount_makeKnown]
  exact DecidingEngine.variableCount_addClause _ _

/-- The engine has the clauses that were added and knows their variables. -/
structure Sound (s : IncrementalSolver ε) : Prop where
  regular : Regular s.engine
  clauses_eq : clauses s.engine = s.contents.map innerClause
  inside : ∀ c ∈ s.contents, ∀ l ∈ c.literals, l.index + 1 < variableCount s.engine

theorem sound_onEngine {engine : ε} (fresh : DecidingEngine.Fresh engine) :
    (onEngine engine).Sound where
  regular := fresh.regular
  clauses_eq := by simp [contents, onEngine, fresh.clauses_eq]
  inside := by simp [contents, onEngine, fresh.clauses_eq]

theorem Sound.addClause (sound : s.Sound) (c : Clause) : (s.addClause c).Sound := by
  obtain ⟨grows, within, -⟩ := foldl_max_spec c.literals (variableCount s.engine)
  rw [← variableCount_addClause] at grows within
  refine ⟨?_, ?_, ?_⟩
  · refine DecidingEngine.regular_addClause _ _ (regular_makeKnown sound.regular _) ?_
    intro l hl
    obtain ⟨m, hm, rfl⟩ := List.mem_map.1 hl
    have known := within m hm
    rw [variableCount_addClause, ← variableCount_makeKnown] at known
    exact known
  · rw [clauses_addClause, contents_addClause, sound.clauses_eq, List.map_append]
    rfl
  · rw [contents_addClause, List.forall_mem_append]
    refine ⟨fun d hd l hl => Nat.lt_of_lt_of_le (sound.inside d hd l hl) grows, ?_⟩
    intro d hd l hl
    rw [List.mem_singleton.1 hd] at hl
    exact within l hl

theorem Sound.addClauses (sound : s.Sound) (cs : List Clause) : (s.addClauses cs).Sound := by
  induction cs generalizing s with
  | nil => exact sound
  | cons c rest ih => exact ih (sound.addClause c)

/-! ### Queries -/

/-- What a query answers, and what it leaves. -/
theorem solve_eq (s : IncrementalSolver ε) :
    s.solve.1 = .ok (verdictOf (Engine.search s.engine).1) ∧
      s.solve.2.engine = (Engine.search s.engine).2 ∧
      s.solve.2.answer = some (verdictOf (Engine.search s.engine).1) :=
  ⟨rfl, rfl, rfl⟩

theorem verdictOf_eq_satisfiable {result : Option Bool} :
    verdictOf result = .satisfiable ↔ result = some true := by
  rcases result with _ | _ | _ <;> simp [verdictOf]

theorem verdictOf_eq_unsatisfiable {result : Option Bool} :
    verdictOf result = .unsatisfiable ↔ result = some false := by
  rcases result with _ | _ | _ <;> simp [verdictOf]

theorem contents_solve (s : IncrementalSolver ε) : s.solve.2.contents = s.contents :=
  congrArg (List.map outerClause) (DecidingEngine.clauses_search s.engine)

theorem Sound.solve (sound : s.Sound) : s.solve.2.Sound := by
  have same : variableCount s.solve.2.engine = variableCount s.engine :=
    DecidingEngine.variableCount_search s.engine
  refine ⟨DecidingEngine.regular_search _ sound.regular, ?_, ?_⟩
  · rw [contents_solve, ← sound.clauses_eq]
    exact DecidingEngine.clauses_search s.engine
  · rw [contents_solve, same]
    exact sound.inside

/-- A negative answer is right. -/
theorem Sound.not_models (sound : s.Sound) (answer : s.solve.1 = .ok .unsatisfiable)
    (v : Valuation) : ¬v.Models s.contents := by
  have no : (Engine.search s.engine).1 = some false :=
    verdictOf_eq_unsatisfiable.1 (Except.ok.inj answer)
  intro models
  apply DecidingEngine.no_model _ sound.regular no (raised v)
  rw [sound.clauses_eq]
  exact models_raised models

/-- The value of a variable in the solver, where the engine has partial values. -/
def readingOf (known : Nat) (reading : Nat → Option Bool) (v : Variable) : Ternary :=
  if known ≤ v.index + 1 then .dontCare else .ofBool? (reading (v.index + 1))

theorem ofLiteral_readingOf_of_lt {known : Nat} {l : Literal} (below : l.index + 1 < known)
    (reading : Nat → Option Bool) :
    Ternary.ofLiteral (readingOf known reading) l = .ofBool? ((inner l).valueIn reading) := by
  have value : readingOf known reading l.var = .ofBool? (reading (l.index + 1)) :=
    if_neg (Nat.not_le_of_lt below)
  simp only [Ternary.ofLiteral, value, Literal.valueIn, inner]
  rcases reading (l.index + 1) with _ | _ | _ <;> cases l.negated <;> rfl

theorem ofLiteral_readingOf_of_le {known : Nat} {l : Literal} (above : known ≤ l.index + 1)
    (reading : Nat → Option Bool) :
    Ternary.ofLiteral (readingOf known reading) l = .dontCare := by
  have value : readingOf known reading l.var = .dontCare := if_pos above
  simp only [Ternary.ofLiteral, value]
  cases l.negated <;> rfl

/-- After a positive answer the values of one partial assignment are read, and it makes a literal
of every clause true. -/
theorem Sound.readsModel (sound : s.Sound) (answer : s.solve.1 = .ok .satisfiable) :
    ReadsModel s.solve.2.value s.contents := by
  have yes : (Engine.search s.engine).1 = some true :=
    verdictOf_eq_satisfiable.1 (Except.ok.inj answer)
  have stands : s.solve.2.answer = some .satisfiable := by
    rw [s.solve_eq.2.2, yes]
    rfl
  have same : variableCount s.solve.2.engine = variableCount s.engine :=
    DecidingEngine.variableCount_search s.engine
  obtain ⟨reading, values, met⟩ := DecidingEngine.exists_reading _ sound.regular yes
  refine ⟨readingOf (variableCount s.engine) reading, fun l => ?_, fun c hc => ?_⟩
  · rw [value, if_neg (not_not_intro stands), same]
    split
    · rename_i above
      rw [ofLiteral_readingOf_of_le above]
    · rename_i below
      have below := Nat.lt_of_not_le below
      rw [ofLiteral_readingOf_of_lt below]
      exact congrArg (fun b => Except.ok (Ternary.ofBool? b)) (values (inner l) below)
  · have known := sound.inside c hc
    have here : innerClause c ∈ clauses s.engine :=
      sound.clauses_eq ▸ List.mem_map_of_mem hc
    obtain ⟨l, hl, holds⟩ := met _ here
    obtain ⟨m, hm, rfl⟩ := List.mem_map.1 hl
    refine ⟨m, hm, ?_⟩
    rw [ofLiteral_readingOf_of_lt (known m hm), holds]
    rfl

instance : DecidingSolver (IncrementalSolver ε) where
  contents := contents
  Regular := Sound
  regular_renew _ sound := sound_onEngine (DecidingEngine.fresh_renew sound.regular)
  regular_extend _ cs sound := sound.addClauses cs
  regular_solve _ sound := sound.solve
  contents_renew s := congrArg (List.map outerClause) (DecidingEngine.clauses_renew s.engine)
  contents_extend := contents_addClauses
  contents_solve := contents_solve
  extend_taken _ _ := rfl
  solve_answers s _ := ⟨_, s.solve_eq.1⟩
  readsModel _ sound answer := sound.readsModel answer
  no_model _ sound answer := sound.not_models answer

end

/-- The solver without clauses over the engine by propagation and branching. -/
theorem sound_startingWith (stopped : Bool) : (startingWith stopped).Sound :=
  sound_onEngine (SearchEngine.fresh_startingWith stopped)

end CardinalityClauses.IncrementalSolver
