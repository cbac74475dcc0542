import CardinalityClauses.Proofs.Totalizer.Build

/-!
Calls to a totalizer on a collector that never fails.

Between calls a totalizer is not built yet, or its tree is complete (`Settled`). Only a build can
end in a fault, and only for want of indices (`Settled.encode`).
-/

namespace CardinalityClauses.Totalizer

/-- A totalizer over some inputs that is not built yet or was built to its end. -/
inductive Settled (inputs : List Literal) : Totalizer → Prop
  | fresh : Settled inputs (ofInputs inputs)
  | built {t : Totalizer} {direction : Direction} {maxBound : Nat} {outputs : List Literal}
      (same : t.inputs = inputs) (complete : t.Complete direction maxBound outputs) :
      Settled inputs t

/-- How many variables a request to build takes. -/
def encodeDemand (t : Totalizer) (direction : Direction) (maxBound : Nat) : Nat :=
  match t.built with
  | some _ => 0
  | none => buildDemand direction maxBound t.inputs

variable {inputs outputs : List Literal} {t : Totalizer} {direction asked : Direction}
  {maxBound bound : Nat}

theorem Settled.inputs_eq (settled : Settled inputs t) : t.inputs = inputs := by
  cases settled with
  | fresh => rfl
  | built same complete => exact same

/-! ### Building -/

/-- What a totalizer that counts as built answers to another request to build. -/
theorem encode_of_built {σ : Type} [Collector σ] (built : t.built = some (direction, maxBound))
    (w : Workspace σ) :
    t.encode asked bound w =
      ⟨if direction ≠ asked then some (.refused .directionNotSupported)
        else if bound ≤ maxBound then none else some (.refused .alreadyEncoded), t, w⟩ := by
  unfold encode
  rw [built]
  dsimp only
  split
  · rfl
  · split <;> rfl

/-- A totalizer that was built to its end does nothing more. -/
theorem Complete.encode_again {σ : Type} [Collector σ]
    (complete : t.Complete direction maxBound outputs) (w : Workspace σ) :
    t.encode asked bound w =
      ⟨if direction ≠ asked then some (.refused .directionNotSupported)
        else if bound ≤ maxBound then none else some (.refused .alreadyEncoded), t, w⟩ :=
  encode_of_built complete.built w

section

variable {σ : Type} [ReliableCollector σ]

/-- The first build comes to its end, or literals cannot carry all the indices it takes. -/
theorem encode_first (inputs : List Literal) (direction : Direction) (maxBound : Nat)
    (w : Workspace σ) :
    ∃ failure t w', (ofInputs inputs).encode direction maxBound w = ⟨failure, t, w'⟩ ∧
      ((failure = none ∧ t.inputs = inputs ∧ ∃ outputs, t.Complete direction maxBound outputs) ∨
        (∃ f, failure = some (.fault f)) ∧
          Variable.maxIndex + 1 < w.supply.next + buildDemand direction maxBound inputs) := by
  obtain ⟨t, w', encoded, -, same, complete⟩ | ⟨f, t, w', encoded, full⟩ :=
    encode_done_or_crowded direction maxBound inputs w
  · exact ⟨none, t, w', encoded, .inl ⟨rfl, same, _, complete⟩⟩
  · exact ⟨_, t, w', encoded, .inr ⟨⟨f, rfl⟩, full⟩⟩

/-- A request to build a settled totalizer leaves it settled and ends in a fault only for want of
indices. -/
theorem Settled.encode (settled : Settled inputs t) (direction : Direction) (maxBound : Nat)
    (w : Workspace σ) :
    (t.encode direction maxBound w).Safe w (t.encodeDemand direction maxBound)
      (Settled inputs) := by
  cases settled with
  | fresh =>
    obtain ⟨failure, t, w', encoded, ending⟩ := encode_first inputs direction maxBound w
    rw [encoded]
    refine .of_done_or_crowded (ending.imp_left ?_)
    rintro ⟨done, same, outputs, complete⟩
    exact ⟨done, .built same complete⟩
  | built same complete =>
    rw [complete.encode_again]
    refine .of_fine (fun f fault => ?_) (.built same complete)
    dsimp only at fault
    split at fault
    · cases fault
    · split at fault <;> cases fault

end

/-! ### Enforcing -/

/-- Which requests to enforce a bound are answered without a look at the tree. -/
theorem enforce_of_not_allowed {σ : Type} [Collector σ]
    (trivial : ¬Allowed direction t.inputs.length bound bound) (w : Workspace σ) :
    t.enforce direction bound w = (none, w) ∨
      t.enforce direction bound w = (some (.refused .unsatisfiable), w) := by
  cases direction with
  | atMost =>
    have many : t.inputs.length ≤ bound := Nat.le_of_not_lt fun lt => trivial ⟨le_rfl, lt⟩
    exact .inl (if_pos many)
  | atLeast =>
    rcases Nat.eq_zero_or_pos bound with zero | positive
    · exact .inl (if_pos zero)
    · have many : t.inputs.length < bound :=
        Nat.lt_of_not_le fun le => trivial ⟨le_rfl, positive, le⟩
      exact .inr ((if_neg (Nat.ne_of_gt positive)).trans (if_pos many))

/-- A totalizer that is not built refuses every other bound. -/
theorem enforce_fresh {σ : Type} [Collector σ] (inputs : List Literal)
    (proper : Allowed asked inputs.length bound bound) (w : Workspace σ) :
    (ofInputs inputs).enforce asked bound w = (some (.refused .notEncoded), w) :=
  enforce_of_unsupported rfl proper w

/-- A bound from the side that a totalizer was not built for is refused. -/
theorem Complete.enforce_other {σ : Type} [Collector σ]
    (complete : t.Complete direction maxBound outputs) (other : direction ≠ asked)
    (proper : Allowed asked t.inputs.length bound bound) (w : Workspace σ) :
    t.enforce asked bound w = (some (.refused .directionNotSupported), w) := by
  have unsupported : t.supports asked bound = .error .directionNotSupported := by
    simp [supports, complete.built, other]
  exact enforce_of_unsupported unsupported proper w

section

variable {σ : Type} [ReliableCollector σ]

/-- A complete tree enforces a bound from its own side up to its maximum, and every bound that is
met anyway; it refuses the others. -/
theorem Complete.answer_enforce_atMost (complete : t.Complete .atMost maxBound outputs)
    (w : Workspace σ) :
    (t.enforceUpper bound w).1 =
      if t.inputs.length ≤ bound ∨ bound ≤ maxBound then none
      else some (.refused .notEncoded) := by
  by_cases many : t.inputs.length ≤ bound
  · rw [if_pos (.inl many), enforceUpper, if_pos many]
  have proper : Allowed .atMost t.inputs.length bound bound := ⟨le_rfl, Nat.lt_of_not_le many⟩
  by_cases le : bound ≤ maxBound
  · obtain ⟨w', enforced, -⟩ := complete.enforce ⟨le, proper.2⟩ w
    rw [if_pos (.inr le)]
    exact congrArg Prod.fst enforced
  · rw [if_neg (not_or.2 ⟨many, le⟩)]
    exact congrArg Prod.fst (complete.enforce_beyond proper (Nat.lt_of_not_le le) w)

/-- A request to enforce a bound on a settled totalizer does not end in a fault. -/
theorem Settled.enforce (settled : Settled inputs t) (asked : Direction) (bound : Nat)
    (w : Workspace σ) (f : Fault) : (t.enforce asked bound w).1 ≠ some (.fault f) := by
  by_cases proper : Allowed asked t.inputs.length bound bound
  swap
  · rcases enforce_of_not_allowed proper w with eq | eq <;> simp [eq]
  cases settled with
  | fresh =>
    rw [enforce_fresh inputs proper]
    simp
  | @built _ direction maxBound outputs same complete =>
    by_cases other : direction ≠ asked
    · simp [complete.enforce_other other proper]
    obtain rfl := not_ne_iff.1 other
    by_cases le : bound ≤ maxBound
    · obtain ⟨w', enforced, -⟩ := complete.enforce ⟨le, proper.2⟩ w
      simp [enforced]
    · simp [complete.enforce_beyond proper (Nat.lt_of_not_le le)]

end

/-! ### Reading -/

/-- A totalizer that tells its outputs tells its depth, since both are read at the root. -/
theorem exists_depth_of_outputs {ls : List Literal} (told : t.outputs = .ok ls) :
    ∃ n, t.depth = .ok n := by
  unfold Totalizer.outputs at told
  unfold depth
  cases root : t.rootNode with
  | error f => simp [root, bind, Except.bind] at told
  | ok root => exact ⟨_, rfl⟩

/-- A settled totalizer tells its outputs and its depth. -/
theorem Settled.outputs_depth (settled : Settled inputs t) :
    (∃ ls, t.outputs = .ok ls) ∧ ∃ n, t.depth = .ok n := by
  cases settled with
  | fresh => exact ⟨⟨[], rfl⟩, 0, rfl⟩
  | built same complete =>
    exact ⟨⟨_, complete.outputs_eq⟩, exists_depth_of_outputs complete.outputs_eq⟩

end CardinalityClauses.Totalizer
