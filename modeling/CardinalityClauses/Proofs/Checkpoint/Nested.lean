import CardinalityClauses.Proofs.Checkpoint.Tokens

/-!
Snapshots inside one another.

While a snapshot stands, everything newer lies above it: the log goes on from the log of that time,
its variables stay used, and later snapshots count no fewer clauses and variables
(`CheckpointSolver.Keeps`). Clauses, queries, further snapshots and their restores keep it so in any
order, and from there the restore of the snapshot brings everything back.

Main statement: a snapshot can be restored after any requests that spare it, and whatever is asked
for, the stack stays in order and a restore that is turned down changes nothing
(`History.restore_nested`).
-/

namespace CardinalityClauses

namespace CheckpointSolver

variable {β : Type}

/-- The snapshots are in order: each stands at its depth, and none counts fewer clauses than an
older one or more than there are. -/
structure Ordered (s : CheckpointSolver β) : Prop where
  depth_eq : ∀ i (hi : i < s.snapshots.length), s.snapshots[i].depth = i
  increasing : s.snapshots.Pairwise fun older newer => older.clauseCount ≤ newer.clauseCount
  le_size : ∀ token ∈ s.snapshots, token.clauseCount ≤ s.log.size

/-- What is there of an earlier solver and the first `used` variables, as long as no snapshot of
that time is restored. -/
structure Keeps (now : CheckpointSolver β) (supply : VariableSupply) (earlier : CheckpointSolver β)
    (used : Nat) : Prop where
  snapshots : ∃ newer : List Snapshot, now.snapshots = earlier.snapshots ++ newer ∧
    ∀ token ∈ newer, earlier.log.size ≤ token.clauseCount ∧ used ≤ token.variableCount
  log : earlier.log.toList <+: now.log.toList
  used : used ≤ supply.next

/-! ### What a restore does -/

/-- A restore that is turned down changes nothing. -/
theorem restore_eq_of_error {s : CheckpointSolver β} {token : Snapshot} {supply : VariableSupply}
    {why : SolverError} (error : (s.restore token supply).1 = some (.error why)) :
    (s.restore token supply).2 = (s, supply) := by
  by_cases stands : s.snapshots[token.depth]? = some token
  · simp only [restore, if_pos stands] at error
    split at error <;> cases error
  · rw [History.restore_rejected stands]

/-- A restore that succeeds takes variables back. -/
theorem restore_supply {s : CheckpointSolver β} {token : Snapshot}
    (stands : s.snapshots[token.depth]? = some token) (supply : VariableSupply) :
    (s.restore token supply).2.2 =
      if token.variableCount ≤ Variable.maxIndex then ⟨min supply.next token.variableCount⟩
      else supply := by
  by_cases fits : token.variableCount ≤ Variable.maxIndex <;>
    simp [restore, stands, Variable.ofIndex, fits, VariableSupply.forgetFrom]

/-! ### Keeping what was there -/

section Keeps

variable {now next earlier : CheckpointSolver β} {supply : VariableSupply} {used : Nat}

theorem keeps_self (le : used ≤ supply.next) : now.Keeps supply now used :=
  ⟨⟨[], by simp, by simp⟩, List.prefix_rfl, le⟩

/-- What only adds to the log and takes variables keeps everything. -/
theorem Keeps.of_prefix (keeps : now.Keeps supply earlier used) {supply' : VariableSupply}
    (log : now.log.toList <+: next.log.toList) (snapshots : next.snapshots = now.snapshots)
    (le : supply.next ≤ supply'.next) : next.Keeps supply' earlier used where
  snapshots := by
    rw [snapshots]
    exact keeps.snapshots
  log := keeps.log.trans log
  used := Nat.le_trans keeps.used le

theorem Keeps.save (keeps : now.Keeps supply earlier used) :
    (now.save supply).2.Keeps supply earlier used := by
  obtain ⟨newer, snapshots, above⟩ := keeps.snapshots
  refine ⟨⟨newer ++ [(now.save supply).1], ?_, ?_⟩, keeps.log, keeps.used⟩
  · simp only [CheckpointSolver.save, snapshots, List.append_assoc]
  · refine List.forall_mem_append.2 ⟨above, List.forall_mem_singleton.2 ⟨?_, keeps.used⟩⟩
    simpa only [CheckpointSolver.save, Formula.size_eq_length_toList] using keeps.log.length_le

/-- The restore of a newer snapshot keeps what is older. -/
theorem Keeps.restore (keeps : now.Keeps supply earlier used) {token : Snapshot}
    (newer : earlier.snapshots.length ≤ token.depth) :
    (now.restore token supply).2.1.Keeps (now.restore token supply).2.2 earlier used := by
  by_cases stands : now.snapshots[token.depth]? = some token
  swap
  · rwa [History.restore_rejected stands]
  obtain ⟨others, snapshots, above⟩ := keeps.snapshots
  have mem : token ∈ others := by
    rw [snapshots, List.getElem?_append_right newer] at stands
    exact List.mem_of_getElem? stands
  obtain ⟨longer, higher⟩ := above token mem
  rw [(History.restore_accepted stands).1, restore_supply stands]
  refine ⟨⟨others.take (token.depth - earlier.snapshots.length), ?_, ?_⟩, ?_, ?_⟩
  · simp only [cutBack, snapshots, List.take_append, List.take_of_length_le newer]
  · exact fun t inside => above t (List.mem_of_mem_take inside)
  · rw [cutBack, Formula.toList_truncate]
    refine List.prefix_take_iff.2 ⟨keeps.log, ?_⟩
    rwa [← Formula.size_eq_length_toList]
  · split
    · exact Nat.le_min.2 ⟨keeps.used, higher⟩
    · exact keeps.used

/-- While what was there right after a snapshot is kept, the snapshot stands. -/
theorem Keeps.stands {before : VariableSupply}
    (keeps : now.Keeps supply (earlier.save before).2 used) :
    now.snapshots[(earlier.save before).1.depth]? = some (earlier.save before).1 := by
  obtain ⟨newer, snapshots, -⟩ := keeps.snapshots
  rw [snapshots]
  simp [CheckpointSolver.save]

/-- Its restore then brings back what was there right before it. -/
theorem Keeps.restored {before : VariableSupply}
    (keeps : now.Keeps supply (earlier.save before).2 used)
    (fits : before.next ≤ Variable.maxIndex) (enough : before.next ≤ used) :
    let token := (earlier.save before).1
    now.restore token supply = (none, now.cutBack token, before) ∧
      (now.cutBack token).log = earlier.log ∧
      (now.cutBack token).snapshots = earlier.snapshots := by
  intro token
  have stands : now.snapshots[token.depth]? = some token := keeps.stands
  obtain ⟨newer, snapshots, -⟩ := keeps.snapshots
  refine ⟨Prod.ext ?_ (Prod.ext (History.restore_accepted stands).1 ?_), ?_, ?_⟩
  · exact (History.restore_accepted stands).2.2 fits
  · have still : before.next ≤ supply.next := Nat.le_trans enough keeps.used
    have taken : (now.restore token supply).2.2 = ⟨min supply.next before.next⟩ :=
      (restore_supply stands supply).trans (if_pos fits)
    rw [taken, Nat.min_eq_right still]
  · have first := List.prefix_iff_eq_take.1 keeps.log
    rw [← Formula.size_eq_length_toList] at first
    have cut := Formula.toList_truncate now.log earlier.log.size
    exact congrArg Formula.mk (Array.toList_inj.1 (cut.trans first.symm))
  · rw [cutBack, snapshots]
    simp [token, CheckpointSolver.save]

end Keeps

end CheckpointSolver

namespace History

section

variable {β : Type}

/-! ### The stack of snapshots -/

theorem InStep.ordered {h : History β} (ok : h.InStep) : h.solver.Ordered where
  depth_eq := by
    simp only [ok.snapshots_eq, List.length_map, List.getElem_map]
    exact ok.depth_eq
  increasing := by
    rw [ok.snapshots_eq, List.pairwise_map]
    refine ok.nested.imp_of_mem fun {s t} hs ht inside => ?_
    rw [ok.count_eq s (ok.stack_subset hs), ok.count_eq t (ok.stack_subset ht)]
    exact inside.length_le
  le_size := by
    rw [ok.snapshots_eq, ok.size_log]
    refine List.forall_mem_map.2 fun s hs => ?_
    rw [ok.count_eq s (ok.stack_subset hs)]
    exact (ok.log_prefix s hs).length_le

/-! ### Requests that spare a snapshot -/

variable [Solver β]

/-- A request spares the snapshot at some depth: no restore of it, or of an older one, is accepted,
and nobody else gives variables back. -/
def SparesAt (h : History β) (depth : Nat) : CheckpointRequest → Prop
  | .restore token => depth < token.depth ∨
      ∃ why, (h.solver.restore token h.supply).1 = some (.error why)
  | .changeSupply supply => h.supply.next ≤ supply.next
  | _ => True

/-- Each of the requests spares the snapshot. -/
def Spares (h : History β) (depth : Nat) : List CheckpointRequest → Prop
  | [] => True
  | request :: rest => h.SparesAt depth request ∧ (h.perform request).Spares depth rest

omit [Solver β] in
theorem restore_eq (h : History β) (token : Snapshot) :
    (h.restore token).solver = (h.solver.restore token h.supply).2.1 ∧
      (h.restore token).supply = (h.solver.restore token h.supply).2.2 := by
  unfold History.restore
  split <;> simp [*]

/-- One request that spares a snapshot keeps what was there right after it. -/
theorem keeps_perform {h : History β} {earlier : CheckpointSolver β} {used depth : Nat}
    (keeps : h.solver.Keeps h.supply earlier used) (count : earlier.snapshots.length = depth + 1)
    {request : CheckpointRequest} (spares : h.SparesAt depth request) :
    (h.perform request).solver.Keeps (h.perform request).supply earlier used := by
  cases request with
  | add cs =>
      exact keeps.of_prefix ⟨cs, (Formula.toList_append _ cs).symm⟩ rfl (Nat.le_refl _)
  | addCopies c n =>
      refine keeps.of_prefix ⟨_, (addCopies_log h.solver c n).symm⟩ ?_ (Nat.le_refl _)
      rfl
  | save => exact keeps.save
  | restore token =>
      obtain ⟨solver, supply⟩ := h.restore_eq token
      rw [perform, solver, supply]
      rcases spares with newer | ⟨why, error⟩
      · exact keeps.restore (by omega)
      · rwa [CheckpointSolver.restore_eq_of_error error]
  | solve =>
      obtain ⟨log, snapshots⟩ := solve_log h.solver
      exact keeps.of_prefix (log ▸ List.prefix_rfl) snapshots (Nat.le_refl _)
  | changeSupply supply => exact keeps.of_prefix List.prefix_rfl rfl spares

/-- So do any number of them. -/
theorem keeps_run {h : History β} {earlier : CheckpointSolver β} {used depth : Nat}
    (keeps : h.solver.Keeps h.supply earlier used) (count : earlier.snapshots.length = depth + 1)
    {requests : List CheckpointRequest} (spares : h.Spares depth requests) :
    (h.run requests).solver.Keeps (h.run requests).supply earlier used := by
  induction requests generalizing h with
  | nil => exact keeps
  | cons request rest ih => exact ih (keeps_perform keeps count spares.1) spares.2

/-- Snapshots nest. After any requests the stack is in order, and a restore that is turned down
changes nothing. A snapshot that is taken then can be restored after any further requests that spare
it, and the log, the stack and the variables become what they were right before it was taken. No
value can be read after that. -/
theorem restore_nested (backend : β) (supply : VariableSupply) (before : List CheckpointRequest) :
    let h := (start backend supply).run before
    h.solver.Ordered ∧
    (∀ token why, (h.solver.restore token h.supply).1 = some (.error why) →
      (h.solver.restore token h.supply).2 = (h.solver, h.supply)) ∧
    (h.supply.next ≤ Variable.maxIndex →
      let token := (h.solver.save h.supply).1
      ∀ after, h.save.Spares token.depth after →
        let now := h.save.run after
        let outcome := now.solver.restore token now.supply
        outcome.1 = none ∧ outcome.2.1.log = h.solver.log ∧
          outcome.2.1.snapshots = h.solver.snapshots ∧ outcome.2.2 = h.supply ∧
          ∀ l, outcome.2.1.value l = .error (.wrongState .input .satisfiable)) := by
  intro h
  refine ⟨(inStep_run backend supply before).ordered,
    fun _ _ => CheckpointSolver.restore_eq_of_error, ?_⟩
  intro fits token after spares now outcome
  have count : h.save.solver.snapshots.length = token.depth + 1 := by
    simp [token, History.save, CheckpointSolver.save]
  have keeps : now.solver.Keeps now.supply h.save.solver h.supply.next :=
    keeps_run (CheckpointSolver.keeps_self (Nat.le_refl _)) count spares
  obtain ⟨accepted, log, snapshots⟩ := keeps.restored fits (Nat.le_refl _)
  rw [show outcome = (none, now.solver.cutBack token, h.supply) from accepted]
  exact ⟨rfl, log, snapshots, rfl, fun l => rfl⟩

end

/-- A snapshot over one clause and two variables. -/
def begun : List CheckpointRequest :=
  [.changeSupply ⟨2⟩, .add [.unit ⟨0, false⟩], .save]

/-- After one more snapshot, a clause with a new variable is added and a third snapshot taken. It is
restored twice, of which the second time is turned down, and taken once more. -/
def tried : List CheckpointRequest :=
  [.changeSupply ⟨3⟩, .add [.unit ⟨2, false⟩], .save, .solve, .restore ⟨2, 2, 3⟩,
    .restore ⟨2, 2, 3⟩, .save, .addCopies (.unit ⟨1, true⟩) 2, .solve]

/-- The theorem for a snapshot over one standing snapshot, with newer ones that come and go. -/
theorem restore_nested_tried :
    let h := (start Exhaustive.initial .initial).run begun
    let token := (h.solver.save h.supply).1
    let now := h.save.run tried
    let outcome := now.solver.restore token now.supply
    h.supply.next ≤ Variable.maxIndex ∧ h.save.Spares token.depth tried ∧
      now.solver.log ≠ h.solver.log ∧ now.supply ≠ h.supply ∧ now.solver.snapshots.length = 3 ∧
      outcome.1 = none ∧ outcome.2.1.log = h.solver.log ∧
      outcome.2.1.snapshots = h.solver.snapshots ∧ outcome.2.2 = h.supply ∧
      ∀ l, outcome.2.1.value l = .error (.wrongState .input .satisfiable) := by
  refine ⟨by decide, ?spares, by decide, by decide, by decide,
    (restore_nested Exhaustive.initial .initial begun).2.2 (by decide) tried ?spares⟩
  exact ⟨show _ ≤ _ by decide, trivial, trivial, trivial, .inl (by decide),
    .inr ⟨.unknownSnapshot 2, by decide⟩, trivial, trivial, trivial, trivial⟩

end History

end CardinalityClauses
