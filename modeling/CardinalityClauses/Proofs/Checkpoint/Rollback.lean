import CardinalityClauses.Proofs.Checkpoint.Nested

/-!
Restores when every variable that literals can carry is used.

A snapshot notes how many variables were used, and a restore takes back the variables from that
number on. It makes the first of them a variable, and there is none left to make once the last
index is used. By then the log and the stack are cut already.

Main statement: the restore of a standing snapshot rolls the log, the stack and the supply back,
and it ends in a fault exactly if the last variable was used when the snapshot was taken; every
other restore is turned down and changes nothing (`History.restore_rolls_back`).
-/

namespace CardinalityClauses

/-- A request after which only variables that literals can carry are used, if it was so before. -/
def CheckpointRequest.StaysCarried : CheckpointRequest → Prop
  | .changeSupply supply => supply.next ≤ Variable.maxIndex + 1
  | _ => True

namespace History

variable {β : Type}

/-- Only variables that literals can carry are used, or were when a snapshot on the stack was
taken. The last of them may be among them. -/
structure Carried (h : History β) : Prop where
  used : h.supply.next ≤ Variable.maxIndex + 1
  saved : ∀ s ∈ h.stack, s.token.variableCount ≤ Variable.maxIndex + 1

theorem Carried.save {h : History β} (carried : h.Carried) : h.save.Carried where
  used := carried.used
  saved := List.forall_mem_append.2 ⟨carried.saved, List.forall_mem_singleton.2 carried.used⟩

theorem Carried.restore {h : History β} (carried : h.Carried) (token : Snapshot) :
    (h.restore token).Carried := by
  by_cases stands : h.solver.snapshots[token.depth]? = some token
  case neg => rwa [restore_of_not_standing stands]
  constructor
  · rw [(h.restore_eq token).2, CheckpointSolver.restore_supply stands]
    split
    · exact Nat.le_trans (Nat.min_le_left _ _) carried.used
    · exact carried.used
  · obtain ⟨supply, eq⟩ := restore_of_standing stands
    rw [eq]
    exact fun s inside => carried.saved s (List.mem_of_mem_take inside)

variable [Solver β]

theorem Carried.perform {h : History β} (carried : h.Carried) {request : CheckpointRequest}
    (stays : request.StaysCarried) : (h.perform request).Carried := by
  cases request with
  | add cs => exact ⟨carried.used, carried.saved⟩
  | addCopies c n => exact ⟨carried.used, carried.saved⟩
  | save => exact carried.save
  | restore token => exact carried.restore token
  | solve => exact ⟨carried.used, carried.saved⟩
  | changeSupply supply => exact ⟨stays, carried.saved⟩

theorem Carried.run {h : History β} (carried : h.Carried) {requests : List CheckpointRequest}
    (stay : ∀ request ∈ requests, request.StaysCarried) : (h.run requests).Carried := by
  induction requests generalizing h with
  | nil => exact carried
  | cons request rest ih =>
      obtain ⟨first, others⟩ := List.forall_mem_cons.1 stay
      exact ih (carried.perform first) others

/-- What a restore does as long as only variables that literals can carry are handed out. The
token of a snapshot on the stack brings back the log of that moment, drops the snapshot with all
later ones, and leaves the lower of both numbers of used variables. The answer is a fault exactly if
the snapshot counts the last of these variables; then it counts all of them. A token that belongs to
no snapshot on the stack is turned down, and nothing changes. -/
theorem restore_rolls_back (backend : β) (supply : VariableSupply)
    (requests : List CheckpointRequest) (carried : supply.next ≤ Variable.maxIndex + 1)
    (stay : ∀ request ∈ requests, request.StaysCarried) (token : Snapshot) :
    let h := (start backend supply).run requests
    let outcome := h.solver.restore token h.supply
    (∀ s ∈ h.stack, s.token = token →
      outcome.2.1.log.toList = s.log.map Prod.fst ∧
        outcome.2.1.snapshots = h.solver.snapshots.take token.depth ∧
        outcome.2.2.next = min h.supply.next token.variableCount ∧
        (token.variableCount ≤ Variable.maxIndex → outcome.1 = none) ∧
        (Variable.maxIndex < token.variableCount →
          token.variableCount = Variable.maxIndex + 1 ∧
            outcome.1 = some (.fault .variableIndexTooHigh))) ∧
    ((∀ s ∈ h.stack, s.token ≠ token) →
      outcome = (some (.error (.unknownSnapshot token.depth)), h.solver, h.supply)) := by
  intro h outcome
  have ok : h.InStep := inStep_run backend supply requests
  have within : h.Carried := Carried.run ⟨carried, by simp [start]⟩ stay
  constructor
  · rintro s mem rfl
    have stands := (ok.standing_iff s.token).2 ⟨s, mem, rfl⟩
    have few := within.saved s mem
    have cut : outcome.2.1 = h.solver.cutBack s.token := (restore_accepted stands).1
    have left : outcome.2.2 = if s.token.variableCount ≤ Variable.maxIndex then
        ⟨min h.supply.next s.token.variableCount⟩ else h.supply :=
      CheckpointSolver.restore_supply stands h.supply
    refine ⟨cut ▸ ok.cutBack_log mem, cut ▸ rfl, ?_, (restore_accepted stands).2.2, ?_⟩
    · -- With all variables used, there is nothing to take back.
      rw [left]
      split
      · rfl
      · exact (Nat.min_eq_left (Nat.le_trans within.used (by omega))).symm
    · intro beyond
      refine ⟨by omega, ?_⟩
      have none : Variable.ofIndex s.token.variableCount = .error .variableIndexTooHigh :=
        if_neg (Nat.not_le_of_lt beyond)
      simp only [outcome, CheckpointSolver.restore, if_pos stands, none]
  · intro different
    apply restore_rejected
    intro stands
    obtain ⟨s, mem, eq⟩ := (ok.standing_iff token).1 stands
    exact different s mem eq

/-- All variables that literals can carry are used when a snapshot is taken. Then the last one is
given back, and a second snapshot is taken above a clause. -/
def lastVariableUsed : List CheckpointRequest :=
  [.changeSupply ⟨2147483648⟩, .save, .add [.unit ⟨0, false⟩], .changeSupply ⟨2147483647⟩, .save,
    .add [.unit ⟨1, false⟩], .changeSupply ⟨2147483648⟩]

/-- The second snapshot is restored, and the last variable is taken back with the clause above it.
The restore of the first one takes both clauses back and then ends in a fault. -/
theorem restore_rolls_back_lastVariableUsed :
    let h := (start Exhaustive.initial .initial).run lastVariableUsed
    let second := h.solver.restore ⟨1, 1, 2147483647⟩ h.supply
    let first := h.solver.restore ⟨0, 0, 2147483648⟩ h.supply
    (∀ request ∈ lastVariableUsed, request.StaysCarried) ∧ h.log.length = 2 ∧
      (second.2.1.log.toList = [.unit ⟨0, false⟩] ∧ second.2.1.snapshots = [⟨0, 0, 2147483648⟩] ∧
        second.2.2.next = 2147483647 ∧ second.1 = none) ∧
      first.2.1.log.toList = [] ∧ first.2.1.snapshots = [] ∧ first.2.2.next = 2147483648 ∧
        first.1 = some (.fault .variableIndexTooHigh) := by
  intro h second first
  have stay : ∀ request ∈ lastVariableUsed, request.StaysCarried := by
    simp [lastVariableUsed, CheckpointRequest.StaysCarried, Variable.maxIndex]
  have rolls := restore_rolls_back Exhaustive.initial .initial lastVariableUsed (by decide) stay
  have inner := (rolls ⟨1, 1, 2147483647⟩).1 ⟨1, _, [(.unit ⟨0, false⟩, 0)]⟩ (by decide) rfl
  have outer := (rolls ⟨0, 0, 2147483648⟩).1 ⟨0, _, []⟩ (by decide) rfl
  refine ⟨stay, by decide, ?_, outer.1, outer.2.1, outer.2.2.1, (outer.2.2.2.2 (by decide)).2⟩
  exact ⟨inner.1, inner.2.1, inner.2.2.1, inner.2.2.2.1 (by decide)⟩

/-- The restore of a snapshot on the stack can end in a fault although no variable was handed out
that literals cannot carry. The clause above the snapshot is taken back by then. -/
theorem restore_faults_after_last_variable :
    let requests : List CheckpointRequest :=
      [.changeSupply ⟨Variable.maxIndex + 1⟩, .save, .add [.unit ⟨0, false⟩]]
    let h := (start Exhaustive.initial .initial).run requests
    let token : Snapshot := ⟨0, 0, Variable.maxIndex + 1⟩
    let outcome := h.solver.restore token h.supply
    (∀ request ∈ requests, request.StaysCarried) ∧ token ∈ h.solver.snapshots ∧
      outcome.1 = some (.fault .variableIndexTooHigh) ∧ outcome.2.1.log.toList = [] ∧
      h.solver.log.toList = [.unit ⟨0, false⟩] := by
  intro requests h token outcome
  refine ⟨?_, by decide, by decide, by decide, by decide⟩
  simp [requests, CheckpointRequest.StaysCarried]

end History

end CardinalityClauses
