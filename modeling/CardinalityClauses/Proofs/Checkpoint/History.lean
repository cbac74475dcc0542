import CardinalityClauses.Collector.Lawful
import CardinalityClauses.Solver.Checkpoint
import Mathlib.Data.List.Nodup

/-!
The use of a checkpoint solver over time.

A history is a checkpoint solver with the supply of variables beside it and a record of what
was done with them. The record tells apart what the solver only compares by value: a clause
that was added twice stands in it under two numbers, and so do two snapshots that look the
same. It changes nothing in what the solver does.

Main statement: the record is in step with the solver after every sequence of requests
(`History.inStep_run`).
-/

namespace CardinalityClauses

/-- What is asked of a checkpoint solver and of the supply beside it. -/
inductive CheckpointRequest
  | add (clauses : List Clause)
  /-- Copies of a clause in one call that announces their number. -/
  | addCopies (clause : Clause) (copies : Nat)
  | save
  | restore (token : Snapshot)
  | solve
  /-- Somebody else takes variables from the supply, or gives some back. -/
  | changeSupply (supply : VariableSupply)

/-- A clause with its number among all clauses that were ever added. -/
abbrev Entry := Clause × Nat

/-- A snapshot that was taken, with its number among all of them. -/
structure Save where
  number : Nat
  /-- What the request was answered by. -/
  token : Snapshot
  /-- The log at that moment. -/
  log : List Entry
  deriving DecidableEq

/-- A checkpoint solver, the supply beside it, and a record of their use. -/
structure History (β : Type) where
  solver : CheckpointSolver β
  supply : VariableSupply
  /-- How many clauses were ever added. -/
  added : Nat
  /-- The clauses that were added and not taken back, in order. -/
  log : List Entry
  /-- The clauses that the present backend holds, in order. -/
  held : List Entry
  /-- All snapshots that were ever taken, in order. -/
  saves : List Save
  /-- Those of them that can still be restored, the oldest first. -/
  stack : List Save
  /-- The answer to the last query, if no clause was added or taken back since. -/
  answer : Option Verdict

namespace History

/-! ### Requests -/

section Definitions

variable {β : Type}

/-- The history of a solver before the first request. -/
def start (backend : β) (supply : VariableSupply) : History β where
  solver := .startingWith backend
  supply := supply
  added := 0
  log := []
  held := []
  saves := []
  stack := []
  answer := none

/-- Records that the solver took clauses. -/
def noteAdded (h : History β) (solver : CheckpointSolver β) (cs : List Clause) : History β :=
  { h with
    solver := solver
    added := h.added + cs.length
    log := h.log ++ cs.zipIdx h.added
    answer := if cs.isEmpty then h.answer else none }

/-- Takes a snapshot and records it. -/
def save (h : History β) : History β :=
  let (token, solver) := h.solver.save h.supply
  let taken : Save := ⟨h.saves.length, token, h.log⟩
  { h with solver := solver, saves := h.saves ++ [taken], stack := h.stack ++ [taken] }

/-- Restores a snapshot and records what went with it, unless the request was rejected. -/
def restore (h : History β) (token : Snapshot) : History β :=
  match h.solver.restore token h.supply with
  | (some (.error _), solver, supply) => { h with solver := solver, supply := supply }
  | (_, solver, supply) =>
      { h with
        solver := solver
        supply := supply
        log := h.log.take token.clauseCount
        stack := h.stack.take token.depth
        answer := if h.log.length ≤ token.clauseCount then h.answer else none }

variable [Solver β]

/-- Asks for a model and records what the backend holds afterwards: what it held before, which is
nothing if it is a fresh one, and what it was handed. A backend that ran out of memory meanwhile
tells by its number of clauses how much of that it kept. -/
def solve (h : History β) : History β :=
  let (answer, solver) := h.solver.solve
  let before := if h.solver.stale then [] else h.held
  let handed := if h.solver.stale then h.log else h.log.drop h.solver.forwarded
  let kept :=
    match h.solver.sync.1 with
    | .ok _ => handed
    | .error _ => handed.take (Collector.clauseCount solver.backend - before.length)
  { h with
    solver := solver
    held := before ++ kept
    answer := answer.toOption }

/-- Does what is asked. -/
def perform (h : History β) : CheckpointRequest → History β
  | .add cs => h.noteAdded (h.solver.addClauses cs) cs
  | .addCopies c n =>
      let (solver, taken) := h.solver.addCopies c n
      h.noteAdded solver (if taken then List.replicate n c else [])
  | .save => h.save
  | .restore token => h.restore token
  | .solve => h.solve
  | .changeSupply supply => { h with supply := supply }

/-- Does one thing after the other. -/
def run (h : History β) (requests : List CheckpointRequest) : History β :=
  requests.foldl perform h

end Definitions

/-! ### What a restore does -/

section Restore

variable {β : Type}

/-- A request with a token that does not stand at its place on the stack changes nothing. -/
theorem restore_of_not_standing {h : History β} {token : Snapshot}
    (gone : h.solver.snapshots[token.depth]? ≠ some token) : h.restore token = h := by
  simp [restore, CheckpointSolver.restore, gone]

/-- A request with a token that stands there cuts the log and the stack, also if the variables
cannot be taken back. -/
theorem restore_of_standing {h : History β} {token : Snapshot}
    (stands : h.solver.snapshots[token.depth]? = some token) :
    ∃ supply, h.restore token =
      { h with
        solver := h.solver.cutBack token
        supply := supply
        log := h.log.take token.clauseCount
        stack := h.stack.take token.depth
        answer := if h.log.length ≤ token.clauseCount then h.answer else none } := by
  cases first : Variable.ofIndex token.variableCount with
  | ok v =>
      refine ⟨h.supply.forgetFrom v, ?_⟩
      simp [restore, CheckpointSolver.restore, stands, first]
  | error f =>
      refine ⟨h.supply, ?_⟩
      simp [restore, CheckpointSolver.restore, stands, first]

end Restore

/-! ### Entries -/

section Entries

/-- Numbering on from `first` keeps the clauses. -/
theorem map_fst_append_zipIdx (log : List Entry) (cs : List Clause) (first : Nat) :
    (log ++ cs.zipIdx first).map Prod.fst = log.map Prod.fst ++ cs := by
  simp

/-- Entries whose numbers go up, all of them below `added`. -/
structure Numbered (log : List Entry) (added : Nat) : Prop where
  increasing : (log.map Prod.snd).Pairwise (· < ·)
  below : ∀ e ∈ log, e.2 < added

theorem Numbered.nil (added : Nat) : Numbered [] added :=
  ⟨.nil, by simp⟩

theorem Numbered.nodup {log : List Entry} {added : Nat} (h : Numbered log added) : log.Nodup :=
  List.Nodup.of_map Prod.snd (h.increasing.imp Nat.ne_of_lt)

theorem Numbered.take {log : List Entry} {added : Nat} (h : Numbered log added) (n : Nat) :
    Numbered (log.take n) added :=
  ⟨by rw [List.map_take]; exact h.increasing.sublist (List.take_sublist n _),
    fun e he => h.below e (List.mem_of_mem_take he)⟩

theorem Numbered.append {log : List Entry} {added : Nat} (h : Numbered log added)
    (cs : List Clause) : Numbered (log ++ cs.zipIdx added) (added + cs.length) := by
  refine ⟨?_, ?_⟩
  · rw [List.map_append, List.zipIdx_map_snd, List.pairwise_append]
    refine ⟨h.increasing, List.pairwise_lt_range', ?_⟩
    intro i hi j hj
    obtain ⟨e, he, rfl⟩ := List.mem_map.1 hi
    exact Nat.lt_of_lt_of_le (h.below e he) (List.mem_range'_1.1 hj).1
  · intro e he
    rcases List.mem_append.1 he with he | he
    · exact Nat.lt_of_lt_of_le (h.below e he) (Nat.le_add_right _ _)
    · have := List.snd_lt_add_of_mem_zipIdx he
      omega

/-- An entry that a cut takes away is not among those that stay. -/
theorem Numbered.getElem_notMem_take {log : List Entry} {added n : Nat} (h : Numbered log added)
    (hn : n < log.length) : log[n] ∉ log.take n := by
  intro mem
  obtain ⟨i, hi, eq⟩ := List.mem_take_iff_getElem.1 mem
  have : i = n := (h.nodup.getElem_inj_iff).1 eq
  omega

end Entries

/-! ### The record is in step with the solver -/

section Invariant

variable {β : Type}

/-- The record of the log and of the snapshots says what the solver has. -/
structure InStep (h : History β) : Prop where
  log_eq : h.solver.log.toList = h.log.map Prod.fst
  numbered : Numbered h.log h.added
  snapshots_eq : h.solver.snapshots = h.stack.map Save.token
  /-- A snapshot stands at its depth. -/
  depth_eq : ∀ i (hi : i < h.stack.length), h.stack[i].token.depth = i
  /-- A snapshot counts the clauses of the log that it was taken of. -/
  count_eq : ∀ s ∈ h.saves, s.token.clauseCount = s.log.length
  /-- The log begins with the log of every snapshot on the stack. -/
  log_prefix : ∀ s ∈ h.stack, s.log <+: h.log
  /-- Snapshots on the stack grow. -/
  nested : h.stack.Pairwise fun s t => s.log <+: t.log
  stack_subset : h.stack ⊆ h.saves
  number_lt : ∀ s ∈ h.saves, s.number < h.saves.length
  /-- What stands on the stack at the depth of a snapshot that is gone, or above it, was
  taken later. -/
  later : ∀ s ∈ h.saves, s ∈ h.stack ∨
    ∀ t ∈ h.stack, s.token.depth ≤ t.token.depth → s.number < t.number

theorem InStep.size_log {h : History β} (ok : h.InStep) : h.solver.log.size = h.log.length := by
  rw [Formula.size_eq_length_toList, ok.log_eq, List.length_map]

theorem inStep_start (backend : β) (supply : VariableSupply) :
    InStep (start backend supply) where
  log_eq := rfl
  numbered := .nil 0
  snapshots_eq := rfl
  depth_eq _ hi := absurd hi (Nat.not_lt_zero _)
  count_eq := by simp [start]
  log_prefix := by simp [start]
  nested := .nil
  stack_subset := by simp [start]
  number_lt := by simp [start]
  later := by simp [start]

/-- The clauses that a solver holds after it took `cs`. -/
theorem InStep.noteAdded {h : History β} (ok : h.InStep) {solver : CheckpointSolver β}
    {cs : List Clause} (log : solver.log.toList = h.solver.log.toList ++ cs)
    (snapshots : solver.snapshots = h.solver.snapshots) : (h.noteAdded solver cs).InStep where
  log_eq := by
    refine (log.trans (congrArg (· ++ cs) ok.log_eq)).trans ?_
    exact (map_fst_append_zipIdx h.log cs h.added).symm
  numbered := ok.numbered.append cs
  snapshots_eq := snapshots.trans ok.snapshots_eq
  depth_eq := ok.depth_eq
  count_eq := ok.count_eq
  log_prefix s hs := (ok.log_prefix s hs).trans (List.prefix_append _ _)
  nested := ok.nested
  stack_subset := ok.stack_subset
  number_lt := ok.number_lt
  later := ok.later

theorem InStep.save {h : History β} (ok : h.InStep) : h.save.InStep where
  log_eq := ok.log_eq
  numbered := ok.numbered
  snapshots_eq := by
    simp [History.save, CheckpointSolver.save, ok.snapshots_eq]
  depth_eq := by
    intro i hi
    simp only [History.save, CheckpointSolver.save, List.length_append, List.length_singleton]
      at hi ⊢
    by_cases old : i < h.stack.length
    · simpa [List.getElem_append_left old] using ok.depth_eq i old
    · have : i = h.stack.length := by omega
      subst this
      simp [ok.snapshots_eq]
  count_eq := by
    intro s hs
    rcases List.mem_append.1 hs with hs | hs
    · exact ok.count_eq s hs
    · rw [List.mem_singleton.1 hs]
      have := congrArg List.length ok.log_eq
      simpa [CheckpointSolver.save, Formula.size_eq_length_toList] using this
  log_prefix := by
    intro s hs
    rcases List.mem_append.1 hs with hs | hs
    · exact ok.log_prefix s hs
    · rw [List.mem_singleton.1 hs]
      exact List.prefix_rfl
  nested := by
    refine List.pairwise_append.2 ⟨ok.nested, List.pairwise_singleton _ _, ?_⟩
    intro s hs t ht
    rw [List.mem_singleton.1 ht]
    exact ok.log_prefix s hs
  stack_subset := by
    intro s hs
    rcases List.mem_append.1 hs with hs | hs
    · exact List.mem_append_left _ (ok.stack_subset hs)
    · exact List.mem_append_right _ hs
  number_lt := by
    intro s hs
    rcases List.mem_append.1 hs with hs | hs
    · have := ok.number_lt s hs
      simp only [History.save, List.length_append, List.length_singleton]
      omega
    · rw [List.mem_singleton.1 hs]
      simp [History.save]
  later := by
    intro s hs
    rcases List.mem_append.1 hs with hs | hs
    · refine (ok.later s hs).imp (List.mem_append_left _) fun later t ht => ?_
      rcases List.mem_append.1 ht with ht | ht
      · exact later t ht
      · rw [List.mem_singleton.1 ht]
        exact fun _ => ok.number_lt s hs
    · exact .inl (List.mem_append_right _ hs)

theorem InStep.restore {h : History β} (ok : h.InStep) (token : Snapshot) :
    (h.restore token).InStep := by
  by_cases stands : h.solver.snapshots[token.depth]? = some token
  case neg => rwa [restore_of_not_standing stands]
  obtain ⟨supply, eq⟩ := restore_of_standing stands
  -- The snapshot that stands at the depth of the token has all lower ones inside it.
  have top : ∃ s, h.stack[token.depth]? = some s ∧ s.token = token := by
    simpa [ok.snapshots_eq] using stands
  obtain ⟨top, at_depth, rfl⟩ := top
  obtain ⟨inside, top_eq⟩ := List.getElem?_eq_some_iff.1 at_depth
  have top_mem : top ∈ h.stack := top_eq ▸ List.getElem_mem inside
  have count : top.token.clauseCount = top.log.length := ok.count_eq top (ok.stack_subset top_mem)
  have lower : ∀ s ∈ h.stack.take top.token.depth, s.log <+: top.log := by
    intro s hs
    obtain ⟨i, hi, rfl⟩ := List.mem_take_iff_getElem.1 hs
    have := List.pairwise_iff_getElem.1 ok.nested i _ (by omega) inside (by omega)
    rwa [top_eq] at this
  rw [eq]
  exact
    { log_eq := by simp [CheckpointSolver.cutBack, ok.log_eq]
      numbered := ok.numbered.take _
      snapshots_eq := by simp [CheckpointSolver.cutBack, ok.snapshots_eq]
      depth_eq := by
        intro i hi
        simp only [List.getElem_take]
        exact ok.depth_eq i (by simp at hi; omega)
      count_eq := ok.count_eq
      log_prefix := by
        intro s hs
        refine List.prefix_of_prefix_length_le (ok.log_prefix s (List.mem_of_mem_take hs))
          (List.take_prefix _ _) ?_
        have := (lower s hs).length_le
        have := (ok.log_prefix top top_mem).length_le
        rw [List.length_take]
        omega
      nested := ok.nested.sublist (List.take_sublist _ _)
      stack_subset := fun s hs => ok.stack_subset (List.mem_of_mem_take hs)
      number_lt := ok.number_lt
      later := by
        intro s hs
        -- What stays on the stack stands below the token.
        have low : ∀ t ∈ h.stack.take top.token.depth, t.token.depth < top.token.depth := by
          intro t ht
          obtain ⟨i, hi, rfl⟩ := List.mem_take_iff_getElem.1 ht
          rw [ok.depth_eq i (by omega)]
          omega
        rcases ok.later s hs with on_stack | later
        · obtain ⟨i, hi, rfl⟩ := List.getElem_of_mem on_stack
          by_cases stays : i < top.token.depth
          · exact .inl (List.mem_take_iff_getElem.2 ⟨i, by omega, rfl⟩)
          · apply Or.inr
            intro t ht above
            have := low t ht
            rw [ok.depth_eq i hi] at above
            omega
        · exact .inr fun t ht => later t (List.mem_of_mem_take ht) }

/-- Copies are added all together or not at all. -/
theorem addCopies_log (s : CheckpointSolver β) (c : Clause) (n : Nat) :
    (s.addCopies c n).1.log.toList =
      s.log.toList ++ if (s.addCopies c n).2 then List.replicate n c else [] := by
  have copies : Collector.extendCopies s.log c n =
      if s.log.hasRoomFor n then (s.log.append (List.replicate n c), true) else (s.log, false) :=
    rfl
  unfold CheckpointSolver.addCopies
  rw [copies]
  by_cases room : s.log.hasRoomFor n = true <;> simp [room]

/-- A query leaves the log and the snapshots alone. -/
theorem solve_log [Solver β] (s : CheckpointSolver β) :
    s.solve.2.log = s.log ∧ s.solve.2.snapshots = s.snapshots := by
  have forward (s : CheckpointSolver β) :
      s.forward.2.log = s.log ∧ s.forward.2.snapshots = s.snapshots := by
    unfold CheckpointSolver.forward
    split <;> exact ⟨rfl, rfl⟩
  have sync : s.sync.2.log = s.log ∧ s.sync.2.snapshots = s.snapshots := by
    unfold CheckpointSolver.sync
    split
    · exact forward s.rebuild
    · exact forward s
  unfold CheckpointSolver.solve
  split
  · rename_i synced
    simpa [synced] using sync
  · rename_i synced
    rw [synced] at sync
    split <;> exact sync

theorem InStep.perform [Solver β] {h : History β} (ok : h.InStep) (request : CheckpointRequest) :
    (h.perform request).InStep := by
  cases request with
  | add cs => exact ok.noteAdded (Formula.toList_append _ _) rfl
  | addCopies c n => exact ok.noteAdded (addCopies_log h.solver c n) rfl
  | save => exact ok.save
  | restore token => exact ok.restore token
  | solve =>
      obtain ⟨log, snapshots⟩ := solve_log h.solver
      exact { ok with
        log_eq := (congrArg Formula.toList log).trans ok.log_eq
        snapshots_eq := snapshots.trans ok.snapshots_eq }
  | changeSupply supply => exact { ok with }

theorem InStep.run [Solver β] {h : History β} (ok : h.InStep)
    (requests : List CheckpointRequest) : (h.run requests).InStep := by
  induction requests generalizing h with
  | nil => exact ok
  | cons request rest ih => exact ih (ok.perform request)

/-- The record is in step with the solver after every sequence of requests. -/
theorem inStep_run [Solver β] (backend : β) (supply : VariableSupply)
    (requests : List CheckpointRequest) : ((start backend supply).run requests).InStep :=
  (inStep_start backend supply).run requests

end Invariant

end History

end CardinalityClauses
