import CardinalityClauses.Proofs.Checkpoint.History
import CardinalityClauses.Proofs.Solver.Incremental

/-!
The answers of a checkpoint solver over a deciding backend.

Between queries the backend lags behind the log, and after a restore it may hold clauses that
are gone. A query first brings it up to date. What carries this through a history is one
invariant: as long as the backend is not marked as stale it holds a first part of the log, and
if it is marked, it holds an entry that is no longer in the log (`Tracks`).

Main statement: every query is a query about the log, the backend is replaced only if it holds
a clause that was taken back, and values can be read only while the last answer stands
(`answersLog_run`).
-/

namespace CardinalityClauses

open DecidingSolver (contents)

/-! ### One query -/

namespace CheckpointSolver

variable {β : Type} [DecidingSolver β]

/-- The backend that a query goes to: the present one with the clauses it has not seen, or a
fresh one with all of them. -/
def asked (s : CheckpointSolver β) : β :=
  if s.stale then (Collector.extend (Solver.renew s.backend) s.log.toList).1
  else (Collector.extend s.backend (s.log.toList.drop s.forwarded)).1

theorem forward_eq (s : CheckpointSolver β) :
    s.forward = (.ok (), { s with
      backend := (Collector.extend s.backend (s.log.toList.drop s.forwarded)).1
      forwarded := s.log.size }) := by
  have taken := DecidingSolver.extend_taken s.backend (s.log.toList.drop s.forwarded)
  unfold forward
  rw [Formula.clausesFrom_eq_drop]
  split
  · rename_i backend eq
    rw [eq]
  · rename_i backend eq
    simp [eq] at taken

/-- Bringing the backend up to date always succeeds. -/
theorem sync_spec (s : CheckpointSolver β) :
    s.sync.1 = .ok () ∧ s.sync.2.backend = s.asked ∧ s.sync.2.stale = false ∧
      s.sync.2.forwarded = s.log.size ∧ s.sync.2.log = s.log ∧
      s.sync.2.snapshots = s.snapshots := by
  unfold sync asked
  by_cases stale : s.stale = true <;> simp [stale, forward_eq, rebuild]

/-- A query asks that backend, and its answer is the answer. -/
theorem solve_spec (s : CheckpointSolver β) {verdict : Verdict}
    (answer : (Solver.solve s.asked).1 = .ok verdict) :
    s.solve.1 = .ok verdict ∧ s.solve.2.backend = (Solver.solve s.asked).2 ∧
      s.solve.2.stale = false ∧ s.solve.2.forwarded = s.log.size ∧ s.solve.2.log = s.log ∧
      s.solve.2.readable = (verdict == .satisfiable) := by
  obtain ⟨synced, backend, stale, forwarded, log, -⟩ := s.sync_spec
  cases eq : s.sync with
  | mk result synchronized =>
      simp only [eq] at synced backend stale forwarded log
      subst synced
      cases asked : Solver.solve s.asked with
      | mk result after =>
          simp only [asked] at answer
          subst answer
          simp [solve, eq, backend, asked, stale, forwarded, log]

end CheckpointSolver

/-! ### The backend and the log -/

namespace History

variable {β : Type} [DecidingSolver β]

/-- What the backend holds, and what the flags of the solver say about it. -/
structure Tracks (h : History β) : Prop where
  regular : DecidingSolver.Regular h.solver.backend
  contents_eq : contents h.solver.backend = h.held.map Prod.fst
  held_lt : ∀ e ∈ h.held, e.2 < h.added
  /-- The backend holds the part of the log that it was handed. -/
  upToDate : h.solver.stale = false →
    h.solver.forwarded ≤ h.log.length ∧ h.held = h.log.take h.solver.forwarded
  /-- The backend holds an entry that was taken back. -/
  outdated : h.solver.stale = true → ∃ e ∈ h.held, e ∉ h.log
  /-- The last answer stands, and its model can be read. -/
  readable : h.solver.readable = true →
    h.answer = some .satisfiable ∧
      ReadsModel (Solver.value h.solver.backend) h.solver.log.toList

theorem tracks_start {backend : β} (regular : DecidingSolver.Regular backend)
    (fresh : contents backend = []) (supply : VariableSupply) :
    (start backend supply).Tracks where
  regular := regular
  contents_eq := fresh
  held_lt := by simp [start]
  upToDate := by simp [start, CheckpointSolver.startingWith]
  outdated := by simp [start, CheckpointSolver.startingWith]
  readable := by simp [start, CheckpointSolver.startingWith]

theorem Tracks.noteAdded {h : History β} (ok : h.Tracks) {solver : CheckpointSolver β}
    {cs : List Clause} (backend : solver.backend = h.solver.backend)
    (stale : solver.stale = h.solver.stale) (forwarded : solver.forwarded = h.solver.forwarded)
    (readable : solver.readable = false) : (h.noteAdded solver cs).Tracks where
  regular := by
    simpa only [History.noteAdded, backend] using ok.regular
  contents_eq := by
    simpa only [History.noteAdded, backend] using ok.contents_eq
  held_lt e he := Nat.lt_of_lt_of_le (ok.held_lt e he) (Nat.le_add_right _ _)
  upToDate fresh := by
    obtain ⟨within, held⟩ := ok.upToDate (stale ▸ fresh)
    simp only [History.noteAdded, forwarded, List.length_append]
    exact ⟨by omega, by rw [held, List.take_append_of_le_length within]⟩
  outdated marked := by
    obtain ⟨e, he, gone⟩ := ok.outdated (stale ▸ marked)
    refine ⟨e, he, ?_⟩
    intro mem
    rcases List.mem_append.1 mem with mem | mem
    · exact gone mem
    · have := List.le_snd_of_mem_zipIdx mem
      have := ok.held_lt e he
      omega
  readable read := by
    have : solver.readable = true := read
    simp [readable] at this

theorem Tracks.restore {h : History β} (inStep : h.InStep) (ok : h.Tracks) (token : Snapshot) :
    (h.restore token).Tracks := by
  by_cases stands : h.solver.snapshots[token.depth]? = some token
  case neg => rwa [restore_of_not_standing stands]
  obtain ⟨supply, eq⟩ := restore_of_standing stands
  rw [eq]
  exact
    { regular := ok.regular
      contents_eq := ok.contents_eq
      held_lt := ok.held_lt
      upToDate := by
        intro fresh
        simp only [CheckpointSolver.cutBack, Bool.or_eq_false_iff, decide_eq_false_iff_not,
          Nat.not_lt] at fresh ⊢
        obtain ⟨within, held⟩ := ok.upToDate fresh.1
        rw [List.length_take, List.take_take, Nat.min_eq_left fresh.2]
        exact ⟨by omega, held⟩
      outdated := by
        intro marked
        simp only [CheckpointSolver.cutBack, Bool.or_eq_true, decide_eq_true_eq] at marked
        cases before : h.solver.stale with
        | true =>
            obtain ⟨e, he, gone⟩ := ok.outdated before
            exact ⟨e, he, fun mem => gone (List.mem_of_mem_take mem)⟩
        | false =>
            -- The first entry that the cut takes away was forwarded.
            obtain ⟨within, held⟩ := ok.upToDate before
            have cut : token.clauseCount < h.solver.forwarded := by simpa [before] using marked
            have inside : token.clauseCount < h.log.length := by omega
            refine ⟨h.log[token.clauseCount], ?_, inStep.numbered.getElem_notMem_take inside⟩
            rw [held]
            exact List.mem_take_iff_getElem.2 ⟨token.clauseCount, by omega, rfl⟩
      readable := by simp [CheckpointSolver.cutBack] }

/-- The clauses that a query is about, in the backend that it goes to. -/
theorem Tracks.contents_asked {h : History β} (inStep : h.InStep) (ok : h.Tracks) :
    contents h.solver.asked = h.solver.log.toList := by
  unfold CheckpointSolver.asked
  cases stale : h.solver.stale with
  | true =>
      simp only [if_true]
      rw [DecidingSolver.contents_extend, DecidingSolver.contents_renew, List.nil_append]
  | false =>
      obtain ⟨-, held⟩ := ok.upToDate stale
      simp only [Bool.false_eq_true, if_false]
      rw [DecidingSolver.contents_extend, ok.contents_eq, held, inStep.log_eq, List.map_take,
        List.take_append_drop]

theorem Tracks.regular_asked {h : History β} (ok : h.Tracks) :
    DecidingSolver.Regular h.solver.asked := by
  unfold CheckpointSolver.asked
  split
  · exact DecidingSolver.regular_extend _ _ (DecidingSolver.regular_renew _ ok.regular)
  · exact DecidingSolver.regular_extend _ _ ok.regular

/-- After a query the backend holds the entries of the log. -/
theorem Tracks.held_solve {h : History β} (ok : h.Tracks) : h.solve.held = h.log := by
  obtain ⟨synced, -⟩ := h.solver.sync_spec
  simp only [History.solve, synced]
  cases stale : h.solver.stale with
  | true => simp
  | false =>
      obtain ⟨-, held⟩ := ok.upToDate stale
      simp only [Bool.false_eq_true, if_false]
      rw [held, List.take_append_drop]

theorem Tracks.solve {h : History β} (inStep : h.InStep) (ok : h.Tracks) : h.solve.Tracks := by
  obtain ⟨verdict, answer⟩ := DecidingSolver.solve_answers _ ok.regular_asked
  obtain ⟨result, backend, fresh, forwarded, log, readable⟩ := h.solver.solve_spec answer
  have held := ok.held_solve
  exact
    { regular := by
        show DecidingSolver.Regular h.solver.solve.2.backend
        rw [backend]
        exact DecidingSolver.regular_solve _ ok.regular_asked
      contents_eq := by
        show contents h.solver.solve.2.backend = _
        rw [held, backend, DecidingSolver.contents_solve, ok.contents_asked inStep,
          inStep.log_eq]
      held_lt := by
        rw [held]
        exact inStep.numbered.below
      upToDate := by
        intro _
        show h.solver.solve.2.forwarded ≤ h.log.length ∧
          h.solve.held = h.log.take h.solver.solve.2.forwarded
        rw [forwarded, inStep.size_log, held, List.take_length]
        exact ⟨Nat.le_refl _, rfl⟩
      outdated := by
        intro marked
        have : h.solver.solve.2.stale = true := marked
        simp [fresh] at this
      readable := by
        intro read
        have read : h.solver.solve.2.readable = true := read
        have sat : verdict = .satisfiable := by simpa [readable] using read
        show h.solver.solve.1.toOption = _ ∧
          ReadsModel (Solver.value h.solver.solve.2.backend) h.solver.solve.2.log.toList
        rw [result, sat, backend, log, ← ok.contents_asked inStep]
        exact ⟨rfl, DecidingSolver.readsModel _ ok.regular_asked (sat ▸ answer)⟩ }

theorem Tracks.perform {h : History β} (inStep : h.InStep) (ok : h.Tracks)
    (request : CheckpointRequest) : (h.perform request).Tracks := by
  cases request with
  | add cs => exact ok.noteAdded rfl rfl rfl rfl
  | addCopies c n => exact ok.noteAdded rfl rfl rfl rfl
  | save => exact { ok with }
  | restore token => exact ok.restore inStep token
  | solve => exact ok.solve inStep
  | changeSupply supply => exact { ok with }

/-- The backend is tracked through every sequence of requests. -/
theorem tracks_run {backend : β} (regular : DecidingSolver.Regular backend)
    (fresh : contents backend = []) (supply : VariableSupply)
    (requests : List CheckpointRequest) : ((start backend supply).run requests).Tracks := by
  suffices ∀ h : History β, h.InStep → h.Tracks → (h.run requests).Tracks from
    this _ (inStep_start backend supply) (tracks_start regular fresh supply)
  intro h
  induction requests generalizing h with
  | nil => exact fun _ ok => ok
  | cons request rest ih =>
      intro inStep ok
      exact ih _ (inStep.perform request) (ok.perform inStep request)

/-! ### Answers and values -/

section Answers

variable {h : History β}

/-- As long as no entry of the backend was taken back, a query hands it the rest of the log. -/
theorem Tracks.asked_of_held (ok : h.Tracks) (kept : ∀ e ∈ h.held, e ∈ h.log) :
    h.solver.asked =
      (Collector.extend h.solver.backend (h.solver.log.toList.drop h.held.length)).1 := by
  have fresh : h.solver.stale = false := by
    cases stale : h.solver.stale with
    | false => rfl
    | true =>
        obtain ⟨e, he, gone⟩ := ok.outdated stale
        exact absurd (kept e he) gone
  obtain ⟨within, held⟩ := ok.upToDate fresh
  have length : h.held.length = h.solver.forwarded := by
    rw [held, List.length_take, Nat.min_eq_left within]
  simp [CheckpointSolver.asked, fresh, length]

/-- What may be said about the next query and about the values that can be read now. -/
structure AnswersLog (h : History β) : Prop where
  log_eq : h.solver.log.toList = h.log.map Prod.fst
  contents_eq : contents h.solver.backend = h.held.map Prod.fst
  /-- No clause that was added stands in the log twice. -/
  nodup : h.log.Nodup
  /-- Every query is answered, and a definite answer is right for the log. -/
  answered : ∃ verdict, h.solver.solve.1 = .ok verdict ∧
    (verdict = .satisfiable → ∃ v : Valuation, v.Models (h.log.map Prod.fst)) ∧
    (verdict = .unsatisfiable → ∀ v : Valuation, ¬v.Models (h.log.map Prod.fst))
  /-- Right after it the backend holds the log. -/
  contents_solve : contents h.solver.solve.2.backend = h.log.map Prod.fst
  held_solve : h.solve.held = h.log
  /-- A backend that holds no entry that was taken back stays. -/
  backend_stays : (∀ e ∈ h.held, e ∈ h.log) →
    h.solver.solve.2.backend =
      (Solver.solve (Collector.extend h.solver.backend
        ((h.log.map Prod.fst).drop h.held.length)).1).2
  /-- After the answer "satisfiable" the values of a model of the log can be read. -/
  value_solve : h.solver.solve.1 = .ok .satisfiable →
    ReadsModel h.solver.solve.2.value (h.log.map Prod.fst)
  /-- A value is one of a model of the log, or there is no answer that it could belong to. -/
  value_spec : ∀ l,
    (∃ t, h.solver.value l = .ok t ∧ h.answer = some .satisfiable ∧
      ReadsModel h.solver.value (h.log.map Prod.fst)) ∨
    h.solver.value l = .error (.wrongState .input .satisfiable)

/-- In every history over a deciding backend, queries are answered for the log. -/
theorem answersLog_run {backend : β} (regular : DecidingSolver.Regular backend)
    (fresh : contents backend = []) (supply : VariableSupply)
    (requests : List CheckpointRequest) : ((start backend supply).run requests).AnswersLog := by
  have inStep := inStep_run backend supply requests
  have tracks := tracks_run regular fresh supply requests
  generalize (start backend supply).run requests = h at inStep tracks
  obtain ⟨verdict, answer⟩ := DecidingSolver.solve_answers _ tracks.regular_asked
  obtain ⟨result, backendAfter, -, -, log, readable⟩ := h.solver.solve_spec answer
  have asked : contents h.solver.asked = h.log.map Prod.fst :=
    (tracks.contents_asked inStep).trans inStep.log_eq
  refine
    { log_eq := inStep.log_eq
      contents_eq := tracks.contents_eq
      nodup := inStep.numbered.nodup
      answered := ⟨verdict, result, ?_, ?_⟩
      contents_solve := ?_
      held_solve := tracks.held_solve
      backend_stays := ?_
      value_solve := ?_
      value_spec := ?_ }
  · intro sat
    rw [← asked]
    exact (DecidingSolver.readsModel _ tracks.regular_asked (sat ▸ answer)).exists_models
  · intro unsat
    rw [← asked]
    exact DecidingSolver.no_model _ tracks.regular_asked (unsat ▸ answer)
  · rw [backendAfter, DecidingSolver.contents_solve, asked]
  · intro kept
    rw [backendAfter, tracks.asked_of_held kept, inStep.log_eq]
  · intro sat
    have sat : verdict = .satisfiable := by simpa [result] using sat
    have same : h.solver.solve.2.value = Solver.value (Solver.solve h.solver.asked).2 := by
      funext l
      simp [CheckpointSolver.value, readable, sat, backendAfter]
    rw [same, ← asked]
    exact DecidingSolver.readsModel _ tracks.regular_asked (sat ▸ answer)
  · intro l
    cases read : h.solver.readable with
    | false => exact .inr (by simp [CheckpointSolver.value, read])
    | true =>
        obtain ⟨stands, reads⟩ := tracks.readable read
        have same : h.solver.value = Solver.value h.solver.backend := by
          funext l
          simp [CheckpointSolver.value, read]
        obtain ⟨reading, values, met⟩ := reads
        refine .inl ⟨Ternary.ofLiteral reading l, by rw [same, values], stands, ?_⟩
        rw [same, ← inStep.log_eq]
        exact ⟨reading, values, met⟩

/-- A clause is taken back after a query, past which more were added. -/
theorem answersLog_run_takenBack :
    let a : Literal := ⟨0, false⟩
    let b : Literal := ⟨1, false⟩
    let requests : List CheckpointRequest :=
      [.add [⟨[a, b]⟩], .save, .add [⟨[a.complement]⟩, ⟨[b.complement]⟩], .solve,
        .restore ⟨0, 1, 2⟩, .add [⟨[b.complement]⟩], .solve]
    ((start IncrementalSolver.initial ⟨2⟩).run requests).AnswersLog ∧
      ((start IncrementalSolver.initial ⟨2⟩).run requests).answer = some .satisfiable :=
  ⟨answersLog_run (IncrementalSolver.sound_startingWith false) rfl ⟨2⟩ _, by decide +kernel⟩

end Answers

end History

end CardinalityClauses
