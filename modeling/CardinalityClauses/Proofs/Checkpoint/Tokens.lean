import CardinalityClauses.Proofs.Checkpoint.History
import CardinalityClauses.Solver.Exhaustive

/-!
Which tokens a restore accepts.

A token is accepted if an equal one stands at its depth on the stack. It may be the token of a
later snapshot: one that was taken at the same depth, over as many clauses and as many used
variables as the snapshot that is gone. Then the request goes back to the later snapshot
(`restore_save`). A token that equals none on the stack is rejected, and nothing changes.

So a token of a snapshot that is gone is not always rejected, and a restore does not always
bring back the log that its token was given for (`restore_accepts_gone_token`).
-/

namespace CardinalityClauses.History

section

variable {β : Type}

/-- A token stands at its depth if and only if it is the token of a snapshot on the stack. -/
theorem InStep.standing_iff {h : History β} (ok : h.InStep) (token : Snapshot) :
    h.solver.snapshots[token.depth]? = some token ↔ ∃ s ∈ h.stack, s.token = token := by
  rw [ok.snapshots_eq, List.getElem?_map, Option.map_eq_some_iff]
  constructor
  · rintro ⟨s, at_depth, eq⟩
    exact ⟨s, List.mem_of_getElem? at_depth, eq⟩
  · rintro ⟨s, mem, rfl⟩
    obtain ⟨i, hi, rfl⟩ := List.getElem_of_mem mem
    exact ⟨h.stack[i], by rw [ok.depth_eq i hi]; exact List.getElem?_eq_getElem hi, rfl⟩

/-- A restore goes back to the log of the snapshot on the stack that has the token. -/
theorem InStep.cutBack_log {h : History β} (ok : h.InStep) {s : Save} (mem : s ∈ h.stack) :
    (h.solver.cutBack s.token).log.toList = s.log.map Prod.fst := by
  have cut : h.log.take s.token.clauseCount = s.log := by
    rw [ok.count_eq s (ok.stack_subset mem)]
    exact (List.prefix_iff_eq_take.1 (ok.log_prefix s mem)).symm
  rw [CheckpointSolver.cutBack, Formula.toList_truncate, ok.log_eq, ← List.map_take, cut]

/-- An accepted restore succeeds if a literal can carry the first variable to take back. -/
theorem restore_accepted {s : CheckpointSolver β} {token : Snapshot} {supply : VariableSupply}
    (stands : s.snapshots[token.depth]? = some token) :
    (s.restore token supply).2.1 = s.cutBack token ∧
      ((s.restore token supply).1 = none ↔ token.variableCount ≤ Variable.maxIndex) := by
  by_cases fits : token.variableCount ≤ Variable.maxIndex <;>
    simp [CheckpointSolver.restore, stands, Variable.ofIndex, fits]

theorem restore_rejected {s : CheckpointSolver β} {token : Snapshot} {supply : VariableSupply}
    (gone : s.snapshots[token.depth]? ≠ some token) :
    s.restore token supply = (some (.error (.unknownSnapshot token.depth)), s, supply) := by
  simp [CheckpointSolver.restore, gone]

/-- What a restore does with the token of a snapshot that was taken at some time. A token whose
snapshot is on the stack brings back the log of that moment. A token whose snapshot is gone is
accepted exactly if a later snapshot on the stack has an equal token, and brings back the log
of the later one. Every other token is rejected. -/
theorem restore_save [Solver β] (backend : β) (supply : VariableSupply)
    (requests : List CheckpointRequest) (s : Save)
    (taken : s ∈ ((start backend supply).run requests).saves) :
    let h := (start backend supply).run requests
    let outcome := h.solver.restore s.token h.supply
    (s ∈ h.stack →
      (outcome.1 = none ↔ s.token.variableCount ≤ Variable.maxIndex) ∧
        outcome.2.1.log.toList = s.log.map Prod.fst) ∧
    (s ∉ h.stack →
      (outcome.1 = none ↔ s.token.variableCount ≤ Variable.maxIndex ∧
        ∃ t ∈ h.stack, s.number < t.number ∧ t.token = s.token)) ∧
    (∀ t ∈ h.stack, t.token = s.token → outcome.2.1.log.toList = t.log.map Prod.fst) ∧
    ((∀ t ∈ h.stack, t.token ≠ s.token) →
      outcome = (some (.error (.unknownSnapshot s.token.depth)), h.solver, h.supply)) := by
  intro h outcome
  have ok : h.InStep := inStep_run backend supply requests
  have log_of {t : Save} (mem : t ∈ h.stack) (eq : t.token = s.token) :
      outcome.2.1.log.toList = t.log.map Prod.fst := by
    have stands := (ok.standing_iff s.token).2 ⟨t, mem, eq⟩
    rw [(restore_accepted stands).1, ← eq]
    exact ok.cutBack_log mem
  refine ⟨fun mem => ⟨?_, log_of mem rfl⟩, fun gone => ?_, fun t mem eq => log_of mem eq, ?_⟩
  · exact (restore_accepted ((ok.standing_iff s.token).2 ⟨s, mem, rfl⟩)).2
  · by_cases stands : h.solver.snapshots[s.token.depth]? = some s.token
    · obtain ⟨t, mem, eq⟩ := (ok.standing_iff s.token).1 stands
      have later : s.number < t.number :=
        ((ok.later s taken).resolve_left gone) t mem (Nat.le_of_eq (by rw [eq]))
      rw [(restore_accepted stands).2]
      exact ⟨fun fits => ⟨fits, t, mem, later, eq⟩, fun accepted => accepted.1⟩
    · have rejected : outcome.1 ≠ none := by simp [outcome, restore_rejected stands]
      refine ⟨fun accepted => absurd accepted rejected, ?_⟩
      rintro ⟨-, t, mem, -, eq⟩
      exact absurd ((ok.standing_iff s.token).2 ⟨t, mem, eq⟩) stands
  · intro different
    apply restore_rejected
    intro stands
    obtain ⟨t, mem, eq⟩ := (ok.standing_iff s.token).1 stands
    exact different t mem eq

end

/-- Two snapshots are taken one inside the other around a clause, and the outer one is restored.
Then two more are taken around another clause. -/
def retakenSnapshots : List CheckpointRequest :=
  [.save, .add [.unit ⟨0, false⟩], .save, .restore ⟨0, 0, 0⟩,
    .save, .add [.unit ⟨1, false⟩], .save]

/-- The inner snapshot of the first pair. -/
def innerSnapshot : Save :=
  ⟨1, ⟨1, 1, 0⟩, [(.unit ⟨0, false⟩, 0)]⟩

/-- The token of a snapshot that is gone is accepted, and the log is not the one that it was
given for. -/
theorem restore_accepts_gone_token :
    let h := (start Exhaustive.initial .initial).run retakenSnapshots
    let outcome := h.solver.restore innerSnapshot.token h.supply
    innerSnapshot ∈ h.saves ∧ innerSnapshot ∉ h.stack ∧ outcome.1 = none ∧
      outcome.2.1.log.toList ≠ innerSnapshot.log.map Prod.fst :=
  ⟨by decide, by decide, by decide, by decide⟩

/-- The token of the inner snapshot of the first pair goes back to that of the second pair. -/
theorem restore_save_retakenSnapshots :
    let h := (start Exhaustive.initial .initial).run retakenSnapshots
    let s := innerSnapshot
    let outcome := h.solver.restore s.token h.supply
    s ∈ h.saves ∧
    (s ∈ h.stack →
      (outcome.1 = none ↔ s.token.variableCount ≤ Variable.maxIndex) ∧
        outcome.2.1.log.toList = s.log.map Prod.fst) ∧
    (s ∉ h.stack →
      (outcome.1 = none ↔ s.token.variableCount ≤ Variable.maxIndex ∧
        ∃ t ∈ h.stack, s.number < t.number ∧ t.token = s.token)) ∧
    (∀ t ∈ h.stack, t.token = s.token → outcome.2.1.log.toList = t.log.map Prod.fst) ∧
    ((∀ t ∈ h.stack, t.token ≠ s.token) →
      outcome = (some (.error (.unknownSnapshot s.token.depth)), h.solver, h.supply)) :=
  ⟨by decide, restore_save Exhaustive.initial .initial retakenSnapshots innerSnapshot (by decide)⟩

end CardinalityClauses.History
