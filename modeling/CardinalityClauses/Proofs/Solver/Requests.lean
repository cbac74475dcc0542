import CardinalityClauses.Proofs.Solver.Incremental

/-!
What the incremental solver answers after any requests.

Beside the solver a journal records what its user knows: the clauses that were added, and the
answer to the last query as long as no clause was added after it. Being handed no clauses lets the
answer stand.

Main statement: over an engine that decides its clauses, whatever was asked for before, a query is
answered rightly for all clauses that were added, values can be read exactly while a positive answer
stands and satisfy all of these clauses, and the highest variable is that of the clauses
(`Journal.faithful_run`).
-/

namespace CardinalityClauses.IncrementalSolver

open DecidingEngine (Fresh)
open Engine (variableCount)

/-- A request to the solver. -/
inductive Request
  | add (cs : List Clause)
  | solve
  deriving DecidableEq, Repr

/-- A solver in use, with a record of what was asked of it. -/
structure Journal (ε : Type) where
  solver : IncrementalSolver ε
  /-- All clauses that were added, in order. -/
  added : List Clause
  /-- The answer to the last query, if no clause was added since. -/
  standing : Option Verdict

/-- The variable is the highest in the clauses; without one, they have no literals. -/
def IsHighest (cs : List Clause) : Option Variable → Prop
  | none => ∀ c ∈ cs, c.literals = []
  | some v => (∃ c ∈ cs, ∃ l ∈ c.literals, l.var = v) ∧
      ∀ c ∈ cs, ∀ l ∈ c.literals, l.index ≤ v.index

namespace Journal

/-- The use of a solver before the first request. -/
def start {ε : Type} (engine : ε) : Journal ε :=
  ⟨onEngine engine, [], none⟩

section

variable {ε : Type} [Engine ε]

/-- Performs a request. -/
def perform (j : Journal ε) : Request → Journal ε
  | .add cs =>
      ⟨(Collector.extend j.solver cs).1, j.added ++ cs, if cs.isEmpty then j.standing else none⟩
  | .solve =>
      let (answer, solver) := Solver.solve j.solver
      ⟨solver, j.added, answer.toOption⟩

/-- Performs requests one after the other. -/
def run (j : Journal ε) (requests : List Request) : Journal ε :=
  requests.foldl perform j

/-- What the solver says agrees with the record. -/
structure Faithful (j : Journal ε) : Prop where
  answers : ∃ verdict, (Solver.solve j.solver).1 = .ok verdict
  satisfiable : (Solver.solve j.solver).1 = .ok .satisfiable → ∃ v : Valuation, v.Models j.added
  unsatisfiable : (Solver.solve j.solver).1 = .ok .unsatisfiable →
    ¬∃ v : Valuation, v.Models j.added
  /-- Values can be read exactly while a positive answer stands. -/
  readable : ∀ l, (∃ t, Solver.value j.solver l = .ok t) ↔ j.standing = some .satisfiable
  /-- The values are those of one partial assignment that satisfies all clauses. -/
  reads : j.standing = some .satisfiable → ReadsModel (Solver.value j.solver) j.added
  complementary : ∀ l t, Solver.value j.solver l = .ok t →
    Solver.value j.solver l.complement = .ok t.complement
  above : j.standing = some .satisfiable →
    ∀ l : Literal, (∀ c ∈ j.added, ∀ m ∈ c.literals, m.index < l.index) →
      Solver.value j.solver l = .ok .dontCare
  refuses : ∀ l e, Solver.value j.solver l = .error e →
    e = .wrongState (if j.standing = some .unsatisfiable then .unsatisfiable else .input)
      .satisfiable
  highest : IsHighest j.added (Solver.stats j.solver).highest

end

/-! ### What every request keeps -/

section

variable {ε : Type} [DecidingEngine ε] {j : Journal ε}

/-- The number of variables that the engine knows once clauses were added. -/
def reach (cs : List Clause) (known : Nat) : Nat :=
  (cs.flatMap Clause.literals).foldl (fun known l => max known (l.index + 2)) known

theorem variableCount_addClauses (s : IncrementalSolver ε) (cs : List Clause) :
    variableCount (s.addClauses cs).engine = reach cs (variableCount s.engine) := by
  induction cs generalizing s with
  | nil => rfl
  | cons c rest ih =>
      rw [reach, List.flatMap_cons, List.foldl_append, ← variableCount_addClause]
      exact ih (s.addClause c)

theorem answer_addClauses (s : IncrementalSolver ε) (cs : List Clause) :
    (s.addClauses cs).answer = if cs.isEmpty then s.answer else none := by
  induction cs generalizing s with
  | nil => rfl
  | cons c rest ih =>
      refine (ih (s.addClause c)).trans ?_
      cases rest <;> rfl

/-- The solver has the clauses of the record and knows no other variables, and while a positive
answer stands, a model is read. -/
structure Kept (j : Journal ε) : Prop where
  sound : j.solver.Sound
  contents_eq : j.solver.contents = j.added
  known : variableCount j.solver.engine = reach j.added 0
  answer_eq : j.solver.answer = j.standing
  reads : j.standing = some .satisfiable → ReadsModel j.solver.value j.added

theorem kept_start {engine : ε} (fresh : Fresh engine) : (start engine).Kept where
  sound := sound_onEngine fresh
  contents_eq := by simp [start, contents, onEngine, fresh.clauses_eq]
  known := fresh.variableCount_eq
  answer_eq := rfl
  reads := fun stands => by cases stands

theorem Kept.add (kept : j.Kept) (cs : List Clause) : (j.perform (.add cs)).Kept where
  sound := kept.sound.addClauses cs
  contents_eq := (contents_addClauses j.solver cs).trans (congrArg (· ++ cs) kept.contents_eq)
  known := by
    have grown := variableCount_addClauses j.solver cs
    rw [kept.known] at grown
    refine grown.trans ?_
    simp [perform, reach, List.flatMap_append, List.foldl_append]
  answer_eq := by
    rw [perform, ← kept.answer_eq]
    exact answer_addClauses j.solver cs
  reads := fun stands => by
    cases cs with
    | nil =>
        show ReadsModel j.solver.value (j.added ++ [])
        rw [List.append_nil]
        exact kept.reads stands
    | cons c rest => cases stands

theorem Kept.solve (kept : j.Kept) : (j.perform .solve).Kept where
  sound := kept.sound.solve
  contents_eq := (contents_solve j.solver).trans kept.contents_eq
  known := (DecidingEngine.variableCount_search j.solver.engine).trans kept.known
  answer_eq := rfl
  reads := fun stands => by
    have answer : j.solver.solve.1 = .ok .satisfiable := congrArg Except.ok (Option.some.inj stands)
    rw [perform, ← kept.contents_eq]
    exact kept.sound.readsModel answer

theorem kept_run {engine : ε} (fresh : Fresh engine) (requests : List Request) :
    ((start engine).run requests).Kept := by
  suffices all : ∀ j : Journal ε, j.Kept → (j.run requests).Kept from all _ (kept_start fresh)
  induction requests with
  | nil => exact fun j kept => kept
  | cons request rest ih =>
      intro j kept
      cases request with
      | add cs => exact ih _ (kept.add cs)
      | solve => exact ih _ kept.solve

/-! ### What a record tells -/

theorem Kept.value_eq (kept : j.Kept) (stands : j.standing = some .satisfiable) (l : Literal) :
    j.solver.value l = if variableCount j.solver.engine ≤ l.index + 1 then .ok .dontCare
      else .ok (.ofBool? (Engine.value j.solver.engine (inner l))) :=
  if_neg (not_not_intro (kept.answer_eq.trans stands))

theorem Kept.value_eq_error (kept : j.Kept) (stands : j.standing ≠ some .satisfiable)
    (l : Literal) :
    j.solver.value l = .error (.wrongState
      (if j.standing = some .unsatisfiable then .unsatisfiable else .input) .satisfiable) := by
  have open_ : j.solver.answer ≠ some .satisfiable := kept.answer_eq ▸ stands
  have told : j.solver.state =
      if j.standing = some .unsatisfiable then .unsatisfiable else .input := by
    rw [state, kept.answer_eq]
    rcases standing : j.standing with _ | _ | _ | _
    · rfl
    · exact absurd standing stands
    · rfl
    · rfl
  rw [value, if_pos open_, told]

/-- The known variables reach one further than the highest of the clauses. -/
theorem isHighest_of_reach {cs : List Clause} {known : Nat} (reached : known = reach cs 0) :
    IsHighest cs (if 1 < known then some ⟨known - 2⟩ else none) := by
  subst reached
  obtain ⟨-, within, met⟩ := foldl_max_spec (cs.flatMap Clause.literals) 0
  have within : ∀ c ∈ cs, ∀ l ∈ c.literals, l.index + 2 ≤ reach cs 0 :=
    fun c hc l hl => within l (List.mem_flatMap.2 ⟨c, hc, hl⟩)
  split
  · rename_i some_
    refine ⟨?_, fun c hc l hl => Nat.le_sub_of_add_le (within c hc l hl)⟩
    rcases met with zero | ⟨l, mem, top⟩
    · exact absurd (zero ▸ some_ : 1 < 0) (by decide)
    · obtain ⟨c, hc, hl⟩ := List.mem_flatMap.1 mem
      refine ⟨c, hc, l, hl, ?_⟩
      rw [reach, top]
      rfl
  · rename_i none_
    intro c hc
    apply List.eq_nil_iff_forall_not_mem.2
    intro l hl
    have := within c hc l hl
    omega

/-- Over an engine that decides its clauses, what the solver says agrees with the record after any
requests. -/
theorem faithful_run {engine : ε} (fresh : Fresh engine) (requests : List Request) :
    ((start engine).run requests).Faithful := by
  have kept := kept_run fresh requests
  generalize (start engine).run requests = j at kept
  refine
    { answers := ⟨_, j.solver.solve_eq.1⟩
      satisfiable := fun answer => ?_
      unsatisfiable := fun answer => ?_
      readable := fun l => ?_
      reads := kept.reads
      complementary := fun l t told => ?_
      above := fun stands l higher => ?_
      refuses := fun l e refused => ?_
      highest := isHighest_of_reach kept.known }
  · rw [← kept.contents_eq]
    exact (kept.sound.readsModel answer).exists_models
  · rintro ⟨v, models⟩
    rw [← kept.contents_eq] at models
    exact kept.sound.not_models answer v models
  · constructor
    · rintro ⟨t, told⟩
      apply Decidable.byContradiction
      intro open_
      exact absurd ((kept.value_eq_error open_ l).symm.trans told) (by simp)
    · intro stands
      obtain ⟨reading, values, -⟩ := kept.reads stands
      exact ⟨_, values l⟩
  · by_cases stands : j.standing = some .satisfiable
    · obtain ⟨reading, values, -⟩ := kept.reads stands
      have same : Ternary.ofLiteral reading l = t := by
        simpa using (values l).symm.trans told
      refine (values l.complement).trans (congrArg Except.ok ?_)
      rw [← same]
      exact Ternary.ofLiteral_complement reading l
    · exact absurd ((kept.value_eq_error stands l).symm.trans told) (by simp)
  · refine (kept.value_eq stands l).trans (if_pos ?_)
    rw [kept.known]
    obtain ⟨-, -, zero | ⟨m, mem, top⟩⟩ := foldl_max_spec (j.added.flatMap Clause.literals) 0
    · rw [reach, zero]
      exact Nat.zero_le _
    · obtain ⟨c, hc, hm⟩ := List.mem_flatMap.1 mem
      rw [reach, top]
      exact Nat.succ_le_succ (higher c hc m hm)
  · by_cases stands : j.standing = some .satisfiable
    · obtain ⟨reading, values, -⟩ := kept.reads stands
      exact absurd ((values l).symm.trans refused) (by simp)
    · exact (Except.error.inj ((kept.value_eq_error stands l).symm.trans refused)).symm

end

/-- The theorem for the engine by propagation and branching, where a positive answer still stands
when the solver was handed no clauses. -/
theorem faithful_run_handedNothing :
    let requests : List Request :=
      [.add [⟨[⟨0, false⟩, ⟨2, true⟩]⟩], .solve, .add [⟨[⟨0, true⟩]⟩], .solve, .add []]
    let j := (start (SearchEngine.startingWith false)).run requests
    Fresh (SearchEngine.startingWith false) ∧ j.standing = some .satisfiable ∧ j.Faithful :=
  ⟨SearchEngine.fresh_startingWith false, by decide +kernel,
    faithful_run (SearchEngine.fresh_startingWith false) _⟩

end Journal

end CardinalityClauses.IncrementalSolver
