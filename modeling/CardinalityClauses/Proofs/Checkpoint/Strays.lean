import CardinalityClauses.Proofs.Checkpoint.History
import CardinalityClauses.Proofs.Solver.Exhaustive
import Mathlib.Data.List.Induction

/-!
The answers of a checkpoint solver over a backend that may run out of memory.

If the backend runs out of memory while it is handed the rest of the log, it keeps some of the
clauses, and they count as not seen. The next query hands them over again, which does no harm.
But a restore that takes them back does not mark the backend as stale: it looks at the number of
clauses that count as seen. Such a clause is gone from the log, and the backend goes on holding
it (`History.strays`).

Main statement: every definite answer is right for the log together with the strays, and a stray
was kept by a query that ran out of memory and then taken back by a restore that left the backend
unmarked (`History.answersHeld_run`). Without strays every answer is right for the log. With one, a
formula that has models can be called unsatisfiable (`History.not_decides_log_of_stray`).
-/

namespace CardinalityClauses

open FallibleSolver (contents)

/-! ### One query -/

namespace CheckpointSolver

variable {β : Type}

/-- A definite answer to the next query is right for `cs`. -/
structure Decides [Solver β] (s : CheckpointSolver β) (cs : List Clause) : Prop where
  readsModel : s.solve.1 = .ok .satisfiable → ReadsModel s.solve.2.value cs
  no_model : s.solve.1 = .ok .unsatisfiable → ∀ v : Valuation, ¬v.Models cs

/-- What is right for some clauses is right for the same clauses in another order. -/
theorem Decides.congr [Solver β] {s : CheckpointSolver β} {cs ds : List Clause}
    (decides : s.Decides cs) (same : ∀ c, c ∈ cs ↔ c ∈ ds) : s.Decides ds where
  readsModel sat := by
    obtain ⟨reading, values, met⟩ := decides.readsModel sat
    exact ⟨reading, values, fun c hc => met c ((same c).2 hc)⟩
  no_model unsat v models := decides.no_model unsat v fun c hc => models c ((same c).1 hc)

theorem Decides.of_solve_eq [Solver β] {s t : CheckpointSolver β} {cs : List Clause}
    (decides : s.Decides cs) (same : s.solve = t.solve) : t.Decides cs :=
  ⟨same ▸ decides.readsModel, same ▸ decides.no_model⟩

/-- The clauses of the log that count as not seen. -/
def unseen (s : CheckpointSolver β) : List Clause :=
  s.log.toList.drop s.forwarded

section Queries

variable [Solver β] {s : CheckpointSolver β} {backend : β}

theorem sync_rebuild (stale : s.stale = true) : s.rebuild.sync = s.sync := by
  simp [sync, stale, rebuild]

/-- A stale solver answers as the one with a fresh backend. -/
theorem solve_rebuild (stale : s.stale = true) : s.rebuild.solve = s.solve := by
  rw [solve, solve, sync_rebuild stale]

/-- The backend runs out of memory over what it has not seen. -/
theorem sync_of_not_taken (fresh : s.stale = false)
    (extended : Collector.extend s.backend s.unseen = (backend, false)) :
    s.sync = (.error .outOfMemory, { s with backend := backend }) := by
  rw [unseen, ← Formula.clausesFrom_eq_drop] at extended
  simp [sync, fresh, forward, extended]

theorem sync_of_taken (fresh : s.stale = false)
    (extended : Collector.extend s.backend s.unseen = (backend, true)) :
    s.sync = (.ok (), { s with backend := backend, forwarded := s.log.size }) := by
  rw [unseen, ← Formula.clausesFrom_eq_drop] at extended
  simp [sync, fresh, forward, extended]

/-- A query for which the backend runs out of memory. -/
theorem solve_of_not_taken (fresh : s.stale = false)
    (extended : Collector.extend s.backend s.unseen = (backend, false)) :
    s.solve = (.error .outOfMemory, { s with backend := backend }) := by
  simp [solve, sync_of_not_taken fresh extended]

/-- A query that the backend gets to answer. -/
theorem solve_of_taken (fresh : s.stale = false)
    (extended : Collector.extend s.backend s.unseen = (backend, true)) :
    s.solve.1 = (Solver.solve backend).1 ∧ s.solve.2.backend = (Solver.solve backend).2 ∧
      s.solve.2.stale = false ∧ s.solve.2.forwarded = s.log.size ∧
      (s.solve.1 = .ok .satisfiable → s.solve.2.readable = true) := by
  cases answered : Solver.solve backend with
  | mk answer after =>
      cases answer <;>
        simp [solve, sync_of_taken fresh extended, fresh, answered]

end Queries

section Kept

variable [FallibleSolver β] {s : CheckpointSolver β} {backend : β} {taken : Bool}

theorem regular_of_extend (regular : FallibleSolver.Regular s.backend)
    (extended : Collector.extend s.backend s.unseen = (backend, taken)) :
    FallibleSolver.Regular backend := by
  have still_regular := FallibleSolver.regular_extend s.backend s.unseen regular
  rwa [extended] at still_regular

theorem contents_of_taken (extended : Collector.extend s.backend s.unseen = (backend, true)) :
    contents backend = contents s.backend ++ s.unseen := by
  have held := FallibleSolver.contents_extend_of_taken s.backend s.unseen
  rw [extended] at held
  exact held rfl

/-- What a query does to a solver that is not stale. The backend keeps a first part of what was
not seen; either that is not all and the query fails, or all of it counts as seen afterwards. -/
theorem solve_cases (fresh : s.stale = false) (regular : FallibleSolver.Regular s.backend) :
    s.solve.2.stale = false ∧ FallibleSolver.Regular s.solve.2.backend ∧
      ∃ kept, kept <+: s.unseen ∧ contents s.solve.2.backend = contents s.backend ++ kept ∧
        (s.sync.1 = .error .outOfMemory ∧ s.solve.1 = .error .outOfMemory ∧
            s.solve.2.forwarded = s.forwarded ∨
          s.sync.1 = .ok () ∧ kept = s.unseen ∧ s.solve.2.forwarded = s.log.size) := by
  obtain ⟨⟨backend, taken⟩, extended⟩ : ∃ answer, Collector.extend s.backend s.unseen = answer :=
    ⟨_, rfl⟩
  have still_regular := regular_of_extend regular extended
  cases taken with
  | false =>
      obtain ⟨kept, first, held⟩ := FallibleSolver.contents_extend s.backend s.unseen
      rw [extended] at held
      rw [solve_of_not_taken fresh extended, sync_of_not_taken fresh extended]
      exact ⟨fresh, still_regular, kept, first, held, .inl ⟨rfl, rfl, rfl⟩⟩
  | true =>
      obtain ⟨-, after, stale, forwarded, -⟩ := solve_of_taken fresh extended
      have synced := congrArg Prod.fst (sync_of_taken fresh extended)
      refine ⟨stale, ?_, s.unseen, List.prefix_rfl, ?_, .inr ⟨synced, rfl, forwarded⟩⟩
      · rw [after]
        exact FallibleSolver.regular_solve backend still_regular
      · rw [after, FallibleSolver.contents_solve, contents_of_taken extended]

/-- A query that does not run out of memory gets the answer of a backend that holds what was not
seen as well. -/
theorem exists_answering (fresh : s.stale = false) (regular : FallibleSolver.Regular s.backend) :
    s.solve.1 = .error .outOfMemory ∨
      ∃ backend : β, FallibleSolver.Regular backend ∧
        contents backend = contents s.backend ++ s.unseen ∧
        s.solve.1 = (Solver.solve backend).1 := by
  obtain ⟨⟨backend, taken⟩, extended⟩ : ∃ answer, Collector.extend s.backend s.unseen = answer :=
    ⟨_, rfl⟩
  cases taken with
  | false =>
      left
      rw [solve_of_not_taken fresh extended]
  | true =>
      obtain ⟨answer, -⟩ := solve_of_taken fresh extended
      right
      exact ⟨backend, regular_of_extend regular extended, contents_of_taken extended, answer⟩

/-- A definite answer is right for what the backend holds together with what was not seen. -/
theorem decides_held (fresh : s.stale = false) (regular : FallibleSolver.Regular s.backend) :
    s.Decides (contents s.backend ++ s.unseen) := by
  obtain ⟨⟨backend, taken⟩, extended⟩ : ∃ answer, Collector.extend s.backend s.unseen = answer :=
    ⟨_, rfl⟩
  have still_regular := regular_of_extend regular extended
  cases taken with
  | false =>
      -- The query failed before the backend was asked.
      have failed := congrArg Prod.fst (solve_of_not_taken fresh extended)
      constructor
      · intro sat
        cases sat.symm.trans failed
      · intro unsat
        cases unsat.symm.trans failed
  | true =>
      obtain ⟨answer, after, -, -, readable⟩ := solve_of_taken fresh extended
      rw [← contents_of_taken extended]
      constructor
      · intro sat
        have same : s.solve.2.value = Solver.value (Solver.solve backend).2 := by
          funext l
          rw [value, readable sat, if_pos rfl, after]
        rw [same]
        exact FallibleSolver.readsModel backend still_regular (answer.symm.trans sat)
      · intro unsat
        exact FallibleSolver.no_model backend still_regular (answer.symm.trans unsat)

end Kept

end CheckpointSolver

/-! ### Entries that the backend should not hold -/

namespace History

section Definitions

variable {β : Type}

/-- The entries that the next query is about though they are not in the log. A stale backend is
replaced first, so there it has none. -/
def strays (h : History β) : List Entry :=
  if h.solver.stale then [] else h.held.filter fun e => e ∉ h.log

/-- The backend holds an entry of the log that counts as not seen. -/
def Ahead (h : History β) (e : Entry) : Prop :=
  h.solver.stale = false ∧ e ∈ h.held ∧ e ∈ h.log.drop h.solver.forwarded

/-- A restore takes an entry back that the backend holds, and does not mark the backend. -/
def Overlooks (h : History β) (token : Snapshot) (e : Entry) : Prop :=
  h.solver.snapshots[token.depth]? = some token ∧ (h.solver.cutBack token).stale = false ∧
    e ∈ h.held ∧ e ∈ h.log ∧ e ∉ h.log.take token.clauseCount

variable {h : History β} {e : Entry} {token : Snapshot}

theorem mem_strays : e ∈ h.strays ↔ h.solver.stale = false ∧ e ∈ h.held ∧ e ∉ h.log := by
  cases stale : h.solver.stale <;> simp [strays, stale]

/-- A restore leaves the mark away if the backend has none and what it cuts off counts as not
seen. -/
theorem stale_cutBack : (h.solver.cutBack token).stale = false ↔
    h.solver.stale = false ∧ h.solver.forwarded ≤ token.clauseCount := by
  simp [CheckpointSolver.cutBack]

/-- What a restore overlooks counts as not seen. -/
theorem Overlooks.ahead (overlooks : h.Overlooks token e) : h.Ahead e := by
  obtain ⟨-, unmarked, held, logged, cut⟩ := overlooks
  obtain ⟨fresh, low⟩ := stale_cutBack.1 unmarked
  refine ⟨fresh, held, ?_⟩
  rw [← List.take_append_drop h.solver.forwarded h.log, List.mem_append] at logged
  refine logged.resolve_left fun seen => cut ?_
  exact List.take_subset_take_left h.log low seen

/-- The clauses that were not seen are those of the rest of the log. -/
theorem InStep.unseen_eq (inStep : h.InStep) :
    h.solver.unseen = (h.log.drop h.solver.forwarded).map Prod.fst := by
  rw [CheckpointSolver.unseen, inStep.log_eq, List.map_drop]

/-- A restore only makes the log shorter. -/
theorem ahead_of_restore (ahead : (h.restore token).Ahead e) : h.Ahead e := by
  by_cases stands : h.solver.snapshots[token.depth]? = some token
  case neg => rwa [restore_of_not_standing stands] at ahead
  obtain ⟨supply, eq⟩ := restore_of_standing stands
  rw [eq] at ahead
  obtain ⟨unmarked, held, later⟩ := ahead
  have shorter := (List.take_sublist token.clauseCount h.log).drop h.solver.forwarded
  exact ⟨(stale_cutBack.1 unmarked).1, held, shorter.subset later⟩

end Definitions

/-! ### Where strays come from -/

section Origin

variable {β : Type} {h : History β} {e : Entry}

theorem mem_strays_of_noteAdded {solver : CheckpointSolver β} {cs : List Clause}
    (stale : solver.stale = h.solver.stale) (stray : e ∈ (h.noteAdded solver cs).strays) :
    e ∈ h.strays := by
  obtain ⟨fresh, held, gone⟩ := mem_strays.1 stray
  exact mem_strays.2 ⟨stale ▸ fresh, held, fun logged => gone (List.mem_append_left _ logged)⟩

/-- A new stray was in the log before the restore. -/
theorem mem_strays_of_restore {token : Snapshot} (stray : e ∈ (h.restore token).strays) :
    e ∈ h.strays ∨ h.Overlooks token e := by
  by_cases stands : h.solver.snapshots[token.depth]? = some token
  case neg =>
    rw [restore_of_not_standing stands] at stray
    exact .inl stray
  obtain ⟨supply, eq⟩ := restore_of_standing stands
  rw [eq] at stray
  obtain ⟨unmarked, held, gone⟩ := mem_strays.1 stray
  by_cases logged : e ∈ h.log
  · exact .inr ⟨stands, unmarked, held, logged, gone⟩
  · exact .inl (mem_strays.2 ⟨(stale_cutBack.1 unmarked).1, held, logged⟩)

/-- After a query the backend holds entries of the log, and those that it held before if it is the
same one. -/
theorem mem_held_of_solve [Solver β] (held : e ∈ h.solve.held) :
    (h.solver.stale = false ∧ e ∈ h.held) ∨ e ∈ h.log := by
  have handed (given : e ∈ if h.solver.stale then h.log else h.log.drop h.solver.forwarded) :
      e ∈ h.log := by
    split at given
    · exact given
    · exact List.mem_of_mem_drop given
  rcases List.mem_append.1 held with before | kept
  · cases stale : h.solver.stale with
    | false => exact .inl ⟨rfl, by simpa [stale] using before⟩
    | true => simp [stale] at before
  · refine .inr (handed ?_)
    split at kept
    · exact kept
    · exact List.mem_of_mem_take kept

/-- What a query hands over is in the log. -/
theorem mem_strays_of_solve [Solver β] (stray : e ∈ h.solve.strays) : e ∈ h.strays := by
  obtain ⟨-, held, gone⟩ := mem_strays.1 stray
  have gone : e ∉ h.log := gone
  rcases mem_held_of_solve held with ⟨fresh, old⟩ | handed
  · exact mem_strays.2 ⟨fresh, old, gone⟩
  · exact absurd handed gone

/-- Only a restore that overlooks an entry leaves a new stray. -/
theorem strays_perform [Solver β] {request : CheckpointRequest}
    (stray : e ∈ (h.perform request).strays) :
    e ∈ h.strays ∨ ∃ token, request = .restore token ∧ h.Overlooks token e := by
  cases request with
  | add cs => exact .inl (mem_strays_of_noteAdded rfl stray)
  | addCopies c n => exact .inl (mem_strays_of_noteAdded rfl stray)
  | save => exact .inl stray
  | restore token =>
      exact (mem_strays_of_restore stray).imp_right fun overlooks => ⟨token, rfl, overlooks⟩
  | solve => exact .inl (mem_strays_of_solve stray)
  | changeSupply supply => exact .inl stray

end Origin

/-! ### The backend follows the log -/

section Follows

variable {β : Type} [FallibleSolver β]

/-- What the backend holds, and what the solver knows of it. -/
structure Follows (h : History β) : Prop where
  regular : FallibleSolver.Regular h.solver.backend
  contents_eq : contents h.solver.backend = h.held.map Prod.fst
  held_lt : ∀ e ∈ h.held, e.2 < h.added
  /-- A backend that is not marked holds what counts as seen. -/
  seen : h.solver.stale = false →
    h.solver.forwarded ≤ h.log.length ∧ h.log.take h.solver.forwarded ⊆ h.held

theorem follows_start {backend : β} (regular : FallibleSolver.Regular backend)
    (fresh : contents backend = []) (supply : VariableSupply) :
    (start backend supply).Follows where
  regular := regular
  contents_eq := fresh
  held_lt := by simp [start]
  seen := by simp [start, CheckpointSolver.startingWith]

/-- A history with a fresh backend in the place of a stale one. -/
def refreshed (h : History β) : History β :=
  if h.solver.stale then { h with solver := h.solver.rebuild, held := [] } else h

variable {h : History β}

theorem refreshed_of_fresh (fresh : h.solver.stale = false) : h.refreshed = h := by
  simp [refreshed, fresh]

theorem stale_refreshed (h : History β) : h.refreshed.solver.stale = false := by
  cases stale : h.solver.stale <;> simp [refreshed, stale, CheckpointSolver.rebuild]

/-- The next query refreshes a stale backend in any case. -/
theorem query_refreshed (h : History β) : h.refreshed.solver.solve = h.solver.solve := by
  cases stale : h.solver.stale with
  | false => rw [refreshed_of_fresh stale]
  | true => simp only [refreshed, stale, if_true, CheckpointSolver.solve_rebuild]

theorem solve_refreshed (h : History β) : h.refreshed.solve = h.solve := by
  cases stale : h.solver.stale with
  | false => rw [refreshed_of_fresh stale]
  | true =>
      have same := query_refreshed h
      have synced := CheckpointSolver.sync_rebuild stale
      have fresh : h.solver.rebuild.stale = false := rfl
      have none : h.solver.rebuild.forwarded = 0 := rfl
      simp only [History.solve, same]
      simp [refreshed, stale, synced, fresh, none]

theorem Follows.refreshed (ok : h.Follows) : h.refreshed.Follows := by
  cases stale : h.solver.stale with
  | false => rwa [refreshed_of_fresh stale]
  | true =>
      simp only [History.refreshed, stale, if_true]
      exact
        { regular := FallibleSolver.regular_renew _ ok.regular
          contents_eq := FallibleSolver.contents_renew _
          held_lt := by simp
          seen := by simp [CheckpointSolver.rebuild] }

theorem Follows.noteAdded (ok : h.Follows) {solver : CheckpointSolver β} {cs : List Clause}
    (backend : solver.backend = h.solver.backend) (stale : solver.stale = h.solver.stale)
    (forwarded : solver.forwarded = h.solver.forwarded) : (h.noteAdded solver cs).Follows where
  regular := by
    simpa only [History.noteAdded, backend] using ok.regular
  contents_eq := by
    simpa only [History.noteAdded, backend] using ok.contents_eq
  held_lt e he := Nat.lt_of_lt_of_le (ok.held_lt e he) (Nat.le_add_right _ _)
  seen fresh := by
    obtain ⟨within, held⟩ := ok.seen (stale ▸ fresh)
    simp only [History.noteAdded, forwarded, List.length_append]
    rw [List.take_append_of_le_length within]
    exact ⟨by omega, held⟩

theorem Follows.restore (ok : h.Follows) (token : Snapshot) : (h.restore token).Follows := by
  by_cases stands : h.solver.snapshots[token.depth]? = some token
  case neg => rwa [restore_of_not_standing stands]
  obtain ⟨supply, eq⟩ := restore_of_standing stands
  rw [eq]
  exact
    { regular := ok.regular
      contents_eq := ok.contents_eq
      held_lt := ok.held_lt
      seen := by
        intro unmarked
        obtain ⟨fresh, low⟩ := stale_cutBack.1 unmarked
        obtain ⟨within, held⟩ := ok.seen fresh
        show h.solver.forwarded ≤ (h.log.take token.clauseCount).length ∧
          (h.log.take token.clauseCount).take h.solver.forwarded ⊆ h.held
        rw [List.length_take, List.take_take, Nat.min_eq_left low]
        exact ⟨Nat.le_min.2 ⟨low, within⟩, held⟩ }

/-- After a query that brought it up to date the backend holds what was not seen as well. -/
theorem held_solve_of_synced (fresh : h.solver.stale = false) (synced : h.solver.sync.1 = .ok ()) :
    h.solve.held = h.held ++ h.log.drop h.solver.forwarded := by
  simp [History.solve, fresh, synced]

/-- If it ran out of memory, it holds a first part of that. -/
theorem Follows.held_solve_of_failed (ok : h.Follows) (fresh : h.solver.stale = false)
    {e : SolverError} (failed : h.solver.sync.1 = .error e) {kept : List Clause}
    (contents_eq : contents h.solver.solve.2.backend = contents h.solver.backend ++ kept) :
    h.solve.held = h.held ++ (h.log.drop h.solver.forwarded).take kept.length := by
  have count : Collector.clauseCount h.solver.solve.2.backend = h.held.length + kept.length := by
    rw [FallibleSolver.clauseCount_eq, contents_eq, ok.contents_eq, List.length_append,
      List.length_map]
  simp [History.solve, fresh, failed, count]

/-- A query adds a first part of what was not seen to what the backend holds, and all of it unless
the backend runs out of memory. -/
theorem Follows.exists_kept (inStep : h.InStep) (ok : h.Follows)
    (fresh : h.solver.stale = false) :
    ∃ kept, kept <+: h.log.drop h.solver.forwarded ∧ h.solve.held = h.held ++ kept ∧
      contents h.solver.solve.2.backend = contents h.solver.backend ++ kept.map Prod.fst ∧
      (h.solver.solve.2.forwarded = h.solver.forwarded ∨
        kept = h.log.drop h.solver.forwarded ∧
          h.solver.solve.2.forwarded = h.solver.log.size) := by
  obtain ⟨-, -, kept, first, contents_eq, outcome⟩ :=
    CheckpointSolver.solve_cases fresh ok.regular
  rcases outcome with ⟨failed, -, forwarded⟩ | ⟨synced, rfl, forwarded⟩
  · refine ⟨(h.log.drop h.solver.forwarded).take kept.length, List.take_prefix _ _,
      ok.held_solve_of_failed fresh failed contents_eq, ?_, .inl forwarded⟩
    rw [inStep.unseen_eq] at first
    rw [contents_eq, List.map_take, ← List.prefix_iff_eq_take.1 first]
  · refine ⟨_, List.prefix_rfl, held_solve_of_synced fresh synced, ?_, .inr ⟨rfl, forwarded⟩⟩
    rw [contents_eq, inStep.unseen_eq]

theorem Follows.solve_of_fresh (inStep : h.InStep) (ok : h.Follows)
    (fresh : h.solver.stale = false) : h.solve.Follows := by
  obtain ⟨-, regular, -⟩ := CheckpointSolver.solve_cases fresh ok.regular
  obtain ⟨kept, first, held, contents_eq, outcome⟩ := ok.exists_kept inStep fresh
  obtain ⟨within, seen⟩ := ok.seen fresh
  exact
    { regular := regular
      contents_eq := by
        show contents h.solver.solve.2.backend = _
        rw [contents_eq, ok.contents_eq, held, List.map_append]
      held_lt := by
        rw [held]
        refine List.forall_mem_append.2 ⟨ok.held_lt, fun e he => inStep.numbered.below e ?_⟩
        exact List.mem_of_mem_drop (first.subset he)
      seen := by
        intro _
        show h.solver.solve.2.forwarded ≤ h.log.length ∧
          h.log.take h.solver.solve.2.forwarded ⊆ h.solve.held
        rw [held]
        rcases outcome with forwarded | ⟨rfl, forwarded⟩
        · rw [forwarded]
          exact ⟨within, List.subset_append_of_subset_left _ seen⟩
        · rw [forwarded, inStep.size_log, List.take_length]
          refine ⟨Nat.le_refl _, fun e he => ?_⟩
          rw [← List.take_append_drop h.solver.forwarded h.log, List.mem_append] at he
          exact List.mem_append.2 (he.imp_left fun early => seen early) }

theorem InStep.refreshed (inStep : h.InStep) : h.refreshed.InStep := by
  cases stale : h.solver.stale with
  | false => rwa [refreshed_of_fresh stale]
  | true =>
      simp only [History.refreshed, stale, if_true]
      exact { inStep with }

theorem Follows.solve (inStep : h.InStep) (ok : h.Follows) : h.solve.Follows := by
  rw [← solve_refreshed h]
  exact ok.refreshed.solve_of_fresh inStep.refreshed (stale_refreshed h)

theorem Follows.perform (inStep : h.InStep) (ok : h.Follows) (request : CheckpointRequest) :
    (h.perform request).Follows := by
  cases request with
  | add cs => exact ok.noteAdded rfl rfl rfl
  | addCopies c n => exact ok.noteAdded rfl rfl rfl
  | save => exact { ok with }
  | restore token => exact ok.restore token
  | solve => exact ok.solve inStep
  | changeSupply supply => exact { ok with }

/-- The backend follows the log through every sequence of requests. -/
theorem follows_run {backend : β} (regular : FallibleSolver.Regular backend)
    (fresh : contents backend = []) (supply : VariableSupply)
    (requests : List CheckpointRequest) : ((start backend supply).run requests).Follows := by
  suffices ∀ h : History β, h.InStep → h.Follows → (h.run requests).Follows from
    this _ (inStep_start backend supply) (follows_start regular fresh supply)
  intro h
  induction requests generalizing h with
  | nil => exact fun _ ok => ok
  | cons request rest ih =>
      intro inStep ok
      exact ih _ (inStep.perform request) (ok.perform inStep request)

/-! ### Answers -/

theorem strays_refreshed (h : History β) : h.refreshed.strays = h.strays := by
  cases stale : h.solver.stale with
  | false => rw [refreshed_of_fresh stale]
  | true => simp [refreshed, strays, stale]

theorem log_refreshed (h : History β) : h.refreshed.log = h.log := by
  cases stale : h.solver.stale <;> simp [refreshed, stale]

/-- What the backend of a solver that is not stale holds, together with what was not seen, is the
log and the strays. -/
theorem Follows.mem_held_or_unseen (ok : h.Follows) (fresh : h.solver.stale = false) (e : Entry) :
    e ∈ h.held ++ h.log.drop h.solver.forwarded ↔ e ∈ h.log ++ h.strays := by
  obtain ⟨-, seen⟩ := ok.seen fresh
  rw [List.mem_append, List.mem_append, mem_strays]
  constructor
  · rintro (held | later)
    · by_cases logged : e ∈ h.log
      · exact .inl logged
      · exact .inr ⟨fresh, held, logged⟩
    · exact .inl (List.mem_of_mem_drop later)
  · rintro (logged | ⟨-, held, -⟩)
    · rw [← List.take_append_drop h.solver.forwarded h.log, List.mem_append] at logged
      exact logged.imp_left fun early => seen early
    · exact .inl held

/-- The next query is about the clauses of the log and of the strays. -/
theorem Follows.mem_asked (inStep : h.InStep) (ok : h.Follows) (c : Clause) :
    c ∈ contents h.refreshed.solver.backend ++ h.refreshed.solver.unseen ↔
      c ∈ (h.log ++ h.strays).map Prod.fst := by
  have same (e : Entry) :
      e ∈ h.refreshed.held ++ h.refreshed.log.drop h.refreshed.solver.forwarded ↔
        e ∈ h.log ++ h.strays := by
    rw [ok.refreshed.mem_held_or_unseen (stale_refreshed h), log_refreshed, strays_refreshed]
  rw [ok.refreshed.contents_eq, inStep.refreshed.unseen_eq, ← List.map_append]
  simp only [List.mem_map, same]

/-- A definite answer is right for the log together with the strays. -/
theorem Follows.decides (inStep : h.InStep) (ok : h.Follows) :
    h.solver.Decides ((h.log ++ h.strays).map Prod.fst) := by
  have answers := CheckpointSolver.decides_held (stale_refreshed h) ok.refreshed.regular
  exact (answers.congr (ok.mem_asked inStep)).of_solve_eq (query_refreshed h)

/-- The answer is that of a backend which holds these clauses, unless there is no memory for
them. -/
theorem Follows.answered (inStep : h.InStep) (ok : h.Follows) :
    h.solver.solve.1 = .error .outOfMemory ∨
      ∃ backend : β, FallibleSolver.Regular backend ∧
        (∀ c, c ∈ contents backend ↔ c ∈ (h.log ++ h.strays).map Prod.fst) ∧
        h.solver.solve.1 = (Solver.solve backend).1 := by
  have answers := CheckpointSolver.exists_answering (stale_refreshed h) ok.refreshed.regular
  rw [query_refreshed] at answers
  rcases answers with failed | ⟨backend, regular, holds, answer⟩
  · exact .inl failed
  · refine .inr ⟨backend, regular, fun c => ?_, answer⟩
    rw [holds]
    exact ok.mem_asked inStep c

/-! ### What counts as not seen -/

/-- Clauses that are added are with the backend only after a query. -/
theorem Follows.ahead_of_noteAdded (ok : h.Follows) {solver : CheckpointSolver β}
    {cs : List Clause} {e : Entry} (stale : solver.stale = h.solver.stale)
    (forwarded : solver.forwarded = h.solver.forwarded)
    (ahead : (h.noteAdded solver cs).Ahead e) : h.Ahead e := by
  obtain ⟨fresh, held, later⟩ := ahead
  have fresh : h.solver.stale = false := stale ▸ fresh
  refine ⟨fresh, held, ?_⟩
  simp only [History.noteAdded, forwarded] at later
  rw [List.drop_append_of_le_length (ok.seen fresh).1, List.mem_append] at later
  refine later.resolve_right fun new => ?_
  have := List.le_snd_of_mem_zipIdx new
  have := ok.held_lt e held
  omega

/-- After a query that does not run out of memory everything counts as seen. -/
theorem Follows.ahead_of_solve (inStep : h.InStep) (ok : h.Follows) {e : Entry}
    (ahead : h.solve.Ahead e) : h.solver.solve.1 = .error .outOfMemory := by
  obtain ⟨-, -, kept, -, -, outcome⟩ :=
    CheckpointSolver.solve_cases (stale_refreshed h) ok.refreshed.regular
  rw [query_refreshed] at outcome
  rcases outcome with ⟨-, failed, -⟩ | ⟨-, -, forwarded⟩
  · exact failed
  · obtain ⟨-, -, later⟩ := ahead
    have later : e ∈ h.log.drop h.solver.solve.2.forwarded := later
    rw [forwarded, inStep.refreshed.size_log, log_refreshed, List.drop_length] at later
    exact absurd later List.not_mem_nil

/-- Only a query that runs out of memory leaves an entry with the backend that counts as not
seen. -/
theorem Follows.ahead_perform (inStep : h.InStep) (ok : h.Follows) {request : CheckpointRequest}
    {e : Entry} (ahead : (h.perform request).Ahead e) :
    h.Ahead e ∨ request = .solve ∧ h.solver.solve.1 = .error .outOfMemory := by
  cases request with
  | add cs => exact .inl (ok.ahead_of_noteAdded rfl rfl ahead)
  | addCopies c n => exact .inl (ok.ahead_of_noteAdded rfl rfl ahead)
  | save => exact .inl ahead
  | restore token => exact .inl (ahead_of_restore ahead)
  | solve => exact .inr ⟨rfl, ok.ahead_of_solve inStep ahead⟩
  | changeSupply supply => exact .inl ahead

end Follows

/-! ### Whole runs -/

section Runs

variable {β : Type} [FallibleSolver β] {backend : β}

theorem run_append_singleton (h : History β) (requests : List CheckpointRequest)
    (request : CheckpointRequest) :
    h.run (requests ++ [request]) = (h.run requests).perform request := by
  simp [run]

/-- An entry that the backend holds although it counts as not seen was left by a query that ran
out of memory. -/
theorem exists_query_of_ahead (regular : FallibleSolver.Regular backend)
    (fresh : contents backend = []) (supply : VariableSupply)
    (requests : List CheckpointRequest) {e : Entry}
    (ahead : ((start backend supply).run requests).Ahead e) :
    ∃ earlier later, requests = earlier ++ .solve :: later ∧
      ((start backend supply).run earlier).solver.solve.1 = .error .outOfMemory ∧
      ((start backend supply).run (earlier ++ [.solve])).Ahead e := by
  induction requests using List.reverseRecOn with
  | nil =>
      obtain ⟨-, held, -⟩ := ahead
      exact absurd held List.not_mem_nil
  | append_singleton requests request ih =>
      have ok := follows_run regular fresh supply requests
      have inStep := inStep_run backend supply requests
      have here := ahead
      rw [run_append_singleton] at ahead
      rcases ok.ahead_perform inStep ahead with before | ⟨rfl, failed⟩
      · obtain ⟨earlier, later, rfl, failed, left⟩ := ih before
        exact ⟨earlier, later ++ [request], by simp, failed, left⟩
      · exact ⟨requests, [], rfl, failed, here⟩

/-- A stray was overlooked by a restore. -/
theorem exists_restore_of_stray (backend : β) (supply : VariableSupply)
    (requests : List CheckpointRequest) {e : Entry}
    (stray : e ∈ ((start backend supply).run requests).strays) :
    ∃ before token later, requests = before ++ .restore token :: later ∧
      ((start backend supply).run before).Overlooks token e := by
  induction requests using List.reverseRecOn with
  | nil => exact absurd (mem_strays.1 stray).2.1 List.not_mem_nil
  | append_singleton requests request ih =>
      rw [run_append_singleton] at stray
      rcases strays_perform stray with old | ⟨token, rfl, overlooks⟩
      · obtain ⟨before, token, later, rfl, overlooks⟩ := ih old
        exact ⟨before, token, later ++ [request], by simp, overlooks⟩
      · exact ⟨requests, token, [], rfl, overlooks⟩

/-- What may be said about the next query after a run. -/
structure AnswersHeld (begun : History β) (requests : List CheckpointRequest) : Prop where
  /-- The backend's own answer is given, unless the backend has no memory for the clauses. -/
  answered : (begun.run requests).solver.solve.1 = .error .outOfMemory ∨
    ∃ backend : β, FallibleSolver.Regular backend ∧
      (∀ c, c ∈ contents backend ↔
        c ∈ ((begun.run requests).log ++ (begun.run requests).strays).map Prod.fst) ∧
      (begun.run requests).solver.solve.1 = (Solver.solve backend).1
  /-- A definite answer is right for the log together with the strays. -/
  decides : (begun.run requests).solver.Decides
    (((begun.run requests).log ++ (begun.run requests).strays).map Prod.fst)
  /-- It is right for the log unless a restore overlooked an entry. -/
  decides_log : (∀ before token later, requests = before ++ .restore token :: later →
      ∀ e, ¬(begun.run before).Overlooks token e) →
    (begun.run requests).solver.Decides ((begun.run requests).log.map Prod.fst)
  /-- A stray was left by a query that ran out of memory, and a later restore overlooked it. -/
  overlooked : ∀ e ∈ (begun.run requests).strays, ∃ earlier between token later,
    requests = earlier ++ .solve :: between ++ .restore token :: later ∧
      (begun.run earlier).solver.solve.1 = .error .outOfMemory ∧
      (begun.run (earlier ++ [.solve])).Ahead e ∧
      (begun.run (earlier ++ .solve :: between)).Overlooks token e

/-- In every history over a backend that may run out of memory, definite answers are right for
the log and the strays, and strays come about in one way only. -/
theorem answersHeld_run (regular : FallibleSolver.Regular backend)
    (fresh : contents backend = []) (supply : VariableSupply)
    (requests : List CheckpointRequest) : AnswersHeld (start backend supply) requests := by
  have inStep := inStep_run backend supply requests
  have ok := follows_run regular fresh supply requests
  have answers := ok.decides inStep
  refine ⟨ok.answered inStep, answers, ?_, ?_⟩
  · intro careful
    have none : ((start backend supply).run requests).strays = [] := by
      refine List.eq_nil_iff_forall_not_mem.2 fun e stray => ?_
      obtain ⟨before, token, later, eq, overlooks⟩ :=
        exists_restore_of_stray backend supply requests stray
      exact careful before token later eq e overlooks
    rwa [none, List.append_nil] at answers
  · intro e stray
    obtain ⟨before, token, later, rfl, overlooks⟩ :=
      exists_restore_of_stray backend supply requests stray
    obtain ⟨earlier, between, rfl, failed, left⟩ :=
      exists_query_of_ahead regular fresh supply before overlooks.ahead
    exact ⟨earlier, between, token, later, rfl, failed, left, overlooks⟩

end Runs

/-- Two clauses are added after a snapshot, and a query is made. The snapshot is restored, and the
complement of the first clause is added. -/
def resumedElsewhere : List CheckpointRequest :=
  [.save, .add [.unit ⟨0, false⟩, .unit ⟨1, false⟩], .solve, .restore ⟨0, 0, 0⟩,
    .add [.unit ⟨0, true⟩]]

/-- If the backend has room for one clause only at the first query, that clause is a stray
afterwards, and the formula that is left is called unsatisfiable although it has a model. -/
theorem not_decides_log_of_stray :
    let h := (start (Exhaustive.startingWith ⟨[], some 1⟩) .initial).run resumedElsewhere
    h.log.map Prod.fst = [.unit ⟨0, true⟩] ∧ h.solver.solve.1 = .ok .unsatisfiable ∧
      ¬h.solver.Decides (h.log.map Prod.fst) := by
  intro h
  have log : h.log.map Prod.fst = [.unit ⟨0, true⟩] := by decide +kernel
  have unsat : h.solver.solve.1 = .ok .unsatisfiable := by decide +kernel
  refine ⟨log, unsat, fun decides => ?_⟩
  apply decides.no_model unsat fun _ => false
  rw [log]
  exact List.forall_mem_singleton.2 rfl

/-- There the query is about the stray as well. -/
theorem answersHeld_run_resumedElsewhere :
    AnswersHeld (start (Exhaustive.startingWith ⟨[], some 1⟩) .initial) resumedElsewhere ∧
      ((start (Exhaustive.startingWith ⟨[], some 1⟩) .initial).run resumedElsewhere).strays =
        [(.unit ⟨0, false⟩, 0)] :=
  ⟨answersHeld_run trivial rfl .initial resumedElsewhere, by decide +kernel⟩

end History

end CardinalityClauses
