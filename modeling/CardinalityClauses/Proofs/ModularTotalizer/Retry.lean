import CardinalityClauses.Proofs.Encoding.OneShot
import CardinalityClauses.Proofs.ModularTotalizer.Bounds

/-!
Builds that run out of memory.

An encoder records its root and its maximum bound before it hands the first clause over. So a
build that runs out of memory leaves an encoder that counts as built. If it is built again, it
answers that nothing is to be done, and bounds are enforced on a tree whose clauses are missing
(`Usage.repeated_build_accepts_bound`).

Main statement: as long as no build has run out of memory, every bound that was enforced without a
failure is met by every model of the clauses held, no matter which requests to enforce failed; and
once a build has, no later request to build adds a clause (`Usage.Reached.holds_enforced`).
-/

namespace CardinalityClauses.ModularTotalizer

open LawfulCollector (contents)

/-- An encoder in use, with a record of what was asked of it. -/
structure Usage (σ : Type) where
  encoder : ModularTotalizer
  work : Workspace σ
  /-- Whether a build ran out of memory. -/
  interrupted : Bool
  /-- The bounds that were enforced without a failure. -/
  enforced : List Nat

namespace Usage

variable {σ : Type}

/-- The use of an encoder before the first request. -/
def start (encoder : ModularTotalizer) (work : Workspace σ) : Usage σ :=
  ⟨encoder, work, false, []⟩

/-- Somebody else uses the collector and the supply. -/
def withWork (u : Usage σ) (work : Workspace σ) : Usage σ :=
  { u with work := work }

variable [Collector σ]

/-- Asks for a build. -/
def encode (u : Usage σ) (maxBound : Nat) : Usage σ :=
  let ⟨failure, encoder, work⟩ := u.encoder.encode maxBound u.work
  ⟨encoder, work, u.interrupted || failure == some .outOfMemory, u.enforced⟩

/-- Asks for a bound. -/
def enforce (u : Usage σ) (bound : Nat) : Usage σ :=
  let (failure, work) := u.encoder.enforceUpper bound u.work
  ⟨u.encoder, work, u.interrupted, if failure = none then u.enforced ++ [bound] else u.enforced⟩

end Usage

variable {σ : Type} [LawfulCollector σ]

/-- What can come of a fresh encoder over some inputs, with a modulus fixed beforehand or without
one, after any requests that do not end in a fault. The collector may fail at any call. -/
inductive Usage.Reached (inputs : List Literal) : Usage σ → Prop
  | start {t : ModularTotalizer} (w : Workspace σ)
      (fresh : t = ofInputs inputs ∨ ∃ m, (ofInputs inputs).setModulus m = .ok t) :
      Reached inputs (start t w)
  | encode {u : Usage σ} (maxBound : Nat) (reached : Reached inputs u)
      (fine : ∀ f, (u.encoder.encode maxBound u.work).failure ≠ some (.fault f)) :
      Reached inputs (u.encode maxBound)
  | enforce {u : Usage σ} (bound : Nat) (reached : Reached inputs u)
      (fine : ∀ f, (u.encoder.enforceUpper bound u.work).1 ≠ some (.fault f)) :
      Reached inputs (u.enforce bound)
  /-- In between the collector takes other clauses, and it gets or loses memory. -/
  | withWork {u : Usage σ} (w : Workspace σ) (reached : Reached inputs u)
      (more : contents u.work.collector ⊆ contents w.collector) : Reached inputs (u.withWork w)

/-! ### The states of an encoder -/

/-- An encoder is fresh, or its root is there. In the second case the clauses of the tree are held
unless a build ran out of memory. -/
inductive Standing (inputs : List Literal) (t : ModularTotalizer) (held : List Clause)
    (interrupted : Bool) : Prop
  | fresh {preset : Option Nat} (unbuilt : t = ofPreset inputs preset)
      (fixed : ∀ m, preset = some m → 2 ≤ m) (steady : interrupted = false)
  | built {modulus maxBound next : Nat} (same : t.inputs = inputs) (positive : 0 < maxBound)
      (complete : t.Complete modulus maxBound (rootUpper modulus inputs next)
        (rootLower modulus inputs next))
      (counted : interrupted = false →
        plannedClauses (buildPlan modulus maxBound inputs next) ⊆ held)

variable {inputs : List Literal} {t : ModularTotalizer} {held : List Clause} {interrupted : Bool}
  {w : Workspace σ}

theorem Standing.inputs_eq (standing : Standing inputs t held interrupted) : t.inputs = inputs := by
  cases standing with
  | fresh unbuilt fixed steady => rw [unbuilt]; rfl
  | built same positive complete counted => exact same

theorem Standing.mono (standing : Standing inputs t held interrupted) {more : List Clause}
    (subset : held ⊆ more) : Standing inputs t more interrupted := by
  cases standing with
  | fresh unbuilt fixed steady => exact .fresh unbuilt fixed steady
  | built same positive complete counted =>
      exact .built same positive complete fun fine => List.Subset.trans (counted fine) subset

/-- An encoder whose root is there does nothing when it is asked for a build. -/
theorem Complete.encode_again {modulus builtMaximum : Nat} {upper lower : List Literal}
    (complete : t.Complete modulus builtMaximum upper lower) (maxBound : Nat) (w : Workspace σ) :
    ∃ answer, t.encode maxBound w = ⟨answer, t, w⟩ ∧
      (answer = none ∨ answer = some (.refused .alreadyEncoded)) := by
  unfold ModularTotalizer.encode
  rw [complete.maxBound_eq]
  dsimp only
  split
  · exact ⟨none, rfl, .inl rfl⟩
  · exact ⟨_, rfl, .inr rfl⟩

/-- A build adds clauses to those held, and afterwards the encoder stands as it should. -/
theorem Standing.encode (standing : Standing inputs t (contents w.collector) interrupted)
    (maxBound : Nat) (fine : ∀ f, (t.encode maxBound w).failure ≠ some (.fault f)) :
    contents w.collector ⊆ contents (t.encode maxBound w).work.collector ∧
      Standing inputs (t.encode maxBound w).value (contents (t.encode maxBound w).work.collector)
        (interrupted || (t.encode maxBound w).failure == some .outOfMemory) := by
  cases standing with
  | built same positive complete counted =>
      obtain ⟨answer, eq, nothing⟩ := complete.encode_again maxBound w
      have steady : (answer == some .outOfMemory) = false := by
        rcases nothing with rfl | rfl <;> rfl
      simpa [eq, steady] using Standing.built same positive complete counted
  | @fresh preset unbuilt fixed steady =>
      subst unbuilt steady
      by_cases trivial : maxBound = 0 ∨ inputs.length ≤ maxBound
      · have eq : (ofPreset inputs preset).encode maxBound w = ⟨none, ofPreset inputs preset, w⟩ :=
          if_pos trivial
        simpa [eq] using Standing.fresh rfl fixed rfl
      obtain ⟨failure, built, w', eq, ran, same, complete⟩ :=
        encode_ran (by omega : 0 < maxBound) (by omega : maxBound < inputs.length) fixed w
      rw [eq] at fine ⊢
      obtain ⟨kept, k, grows, -, all⟩ := ran.exists_kept fine
      rw [grows.contents_eq]
      refine ⟨List.subset_append_left _ _, .built same (by omega) (complete fine) fun steady => ?_⟩
      have done : failure = none := by
        cases failure with
        | none => rfl
        | some why =>
            cases why with
            | refused why => cases ran
            | outOfMemory => simp at steady
            | fault f => exact absurd rfl (fine f)
      rw [all done]
      exact List.subset_append_right _ _

/-- A bound that is enforced on an encoder adds clauses to those held, and if there was no failure,
it is met by every model of them, unless the clauses of the tree are missing. -/
theorem Standing.enforce (standing : Standing inputs t (contents w.collector) interrupted)
    (bound : Nat) (fine : ∀ f, (t.enforceUpper bound w).1 ≠ some (.fault f)) :
    contents w.collector ⊆ contents (t.enforceUpper bound w).2.collector ∧
      (interrupted = false → (t.enforceUpper bound w).1 = none → ∀ v : Valuation,
        v.Models (contents (t.enforceUpper bound w).2.collector) → v.trueCount inputs ≤ bound) := by
  by_cases many : inputs.length ≤ bound
  · have eq : t.enforceUpper bound w = (none, w) := if_pos (standing.inputs_eq ▸ many)
    rw [eq]
    exact ⟨List.Subset.refl _, fun _ _ v _ => Nat.le_trans (v.trueCount_le_length inputs) many⟩
  cases standing with
  | @fresh preset unbuilt fixed steady =>
      subst unbuilt
      by_cases zero : bound = 0
      · subst zero
        have eq : (ofPreset inputs preset).enforceUpper 0 w =
            w.extend (inputs.map fun l => .unit l.complement) := if_neg many
        rw [eq] at fine ⊢
        obtain ⟨kept, k, grows, -, done⟩ := (w.extend_ran _).exists_kept fine
        rw [grows.contents_eq]
        refine ⟨List.subset_append_left _ _, fun _ success v models => ?_⟩
        rw [done success, Workspace.plannedClauses_handing, Valuation.models_append] at models
        exact Nat.le_of_eq (Valuation.models_complementUnits.1 models.2)
      · have eq : (ofPreset inputs preset).enforceUpper bound w =
            (some (.refused .notEncoded), w) := (if_neg many).trans (if_neg zero)
        rw [eq]
        exact ⟨List.Subset.refl _, fun _ success => by cases success⟩
  | @built modulus maxBound next same positive complete counted =>
      have lt : maxBound < inputs.length := same ▸ complete.maxBound_lt
      by_cases le : bound ≤ maxBound
      · rw [complete.enforceUpper_eq le] at fine ⊢
        obtain ⟨kept, k, grows, -, done⟩ :=
          (w.handAll_ran (limits_complete _ _ _ _)).exists_kept fine
        rw [grows.contents_eq]
        refine ⟨List.subset_append_left _ _, fun steady success v models => ?_⟩
        rw [done success, Workspace.plannedClauses_handing, flatMap_limits,
          Valuation.models_append] at models
        exact le_of_buildPlan complete.two_le (by omega) lt le
          (models.1.of_subset (counted steady)) models.2
      · rw [complete.enforceUpper_beyond (Nat.lt_of_not_le le) (by rw [same]; omega)]
        exact ⟨List.Subset.refl _, fun _ success => by cases success⟩

namespace Usage

theorem Reached.standing {u : Usage σ} (reached : u.Reached inputs) :
    Standing inputs u.encoder (contents u.work.collector) u.interrupted ∧
      (u.interrupted = false → ∀ v : Valuation, v.Models (contents u.work.collector) →
        ∀ b ∈ u.enforced, v.trueCount inputs ≤ b) := by
  induction reached with
  | start w fresh =>
      obtain ⟨preset, fixed⟩ := exists_ofPreset fresh
      refine ⟨?_, fun _ v _ b mem => by cases mem⟩
      exact .fresh preset fixed rfl
  | @encode u maxBound reached fine ih =>
      obtain ⟨standing, met⟩ := ih
      obtain ⟨more, standing'⟩ := standing.encode maxBound fine
      refine ⟨standing', fun steady v models => ?_⟩
      exact met (Bool.or_eq_false_iff.1 steady).1 v (models.of_subset more)
  | @enforce u bound reached fine ih =>
      obtain ⟨standing, met⟩ := ih
      obtain ⟨more, means⟩ := standing.enforce bound fine
      refine ⟨standing.mono more, fun steady v models b mem => ?_⟩
      have before := met steady v (models.of_subset more)
      simp only [Usage.enforce] at mem
      split at mem
      · rename_i success
        rcases List.mem_append.1 mem with old | new
        · exact before b old
        · rw [List.mem_singleton.1 new]
          exact means steady success v models
      · exact before b mem
  | withWork w reached more ih =>
      obtain ⟨standing, met⟩ := ih
      exact ⟨standing.mono more, fun steady v models => met steady v (models.of_subset more)⟩

/-- As long as no build has run out of memory, all bounds that were enforced without a failure are
met by every model of the clauses held. Once a build has run out of memory, a later request to
build is refused or changes nothing, so the clauses of the tree stay away. -/
theorem Reached.holds_enforced {u : Usage σ} (reached : u.Reached inputs) :
    (u.interrupted = false → ∀ v : Valuation, v.Models (contents u.work.collector) →
      ∀ b ∈ u.enforced, v.trueCount inputs ≤ b) ∧
    (u.interrupted = true → ∀ maxBound, ∃ answer,
      u.encoder.encode maxBound u.work = ⟨answer, u.encoder, u.work⟩ ∧
        (answer = none ∨ answer = some (.refused .alreadyEncoded))) := by
  obtain ⟨standing, met⟩ := reached.standing
  refine ⟨met, fun interrupted maxBound => ?_⟩
  cases standing with
  | fresh unbuilt fixed steady => exact absurd interrupted (by simp [steady])
  | built same positive complete counted => exact complete.encode_again maxBound u.work

/-! ### Runs with little memory -/

/-- The inputs of the runs. -/
def threeInputs : List Literal :=
  [⟨0, false⟩, ⟨1, false⟩, ⟨2, false⟩]

/-- From now on the collector takes so many more calls; without a number, any. -/
def withCalls (u : Usage LimitedFormula) (calls : Option Nat) : Usage LimitedFormula :=
  u.withWork { u.work with collector.calls := calls }

/-- An encoder over three inputs and an empty collector. -/
def begun : Usage LimitedFormula :=
  start (ofInputs threeInputs) ⟨.empty, ⟨3⟩, #[]⟩

/-- A build for the bound one finds no memory for its first call, and then there is memory. -/
def interruptedBuild : Usage LimitedFormula :=
  ((begun.withCalls (some 0)).encode 1).withCalls none

/-- A bound finds no memory on a tree that is there, and then it is enforced again. -/
def interruptedBound : Usage LimitedFormula :=
  ((((begun.encode 2).withCalls (some 0)).enforce 1).withCalls none).enforce 1

theorem Reached.withCalls {u : Usage LimitedFormula} {inputs : List Literal}
    (reached : u.Reached inputs) (calls : Option Nat) : (u.withCalls calls).Reached inputs :=
  reached.withWork _ (List.Subset.refl _)

theorem reached_begun : begun.Reached threeInputs :=
  .start _ (.inl rfl)

/-- The build is repeated, and the bound is enforced. Neither fails, yet all inputs can be true. -/
theorem repeated_build_accepts_bound :
    let retried := interruptedBuild.encode 1
    interruptedBuild.Reached threeInputs ∧
      (interruptedBuild.encoder.encode 1 interruptedBuild.work).failure = none ∧
      (retried.encoder.enforceUpper 1 retried.work).1 = none ∧
      ∃ v : Valuation, v.Models (contents (retried.enforce 1).work.collector) ∧
        1 < v.trueCount threeInputs := by
  refine ⟨.withCalls (.encode _ (reached_begun.withCalls _) (ne_fault (by decide))) _, by decide,
    by decide, fun i => decide (i < 3), ?_, by decide⟩
  show ∀ clause ∈ contents ((interruptedBuild.encode 1).enforce 1).work.collector, _
  decide

/-- The theorem for the bound that found no memory at first. -/
theorem holds_enforced_interruptedBound :
    interruptedBound.Reached threeInputs ∧ interruptedBound.enforced = [1] ∧
      (interruptedBound.interrupted = false → ∀ v : Valuation,
        v.Models (contents interruptedBound.work.collector) →
          ∀ b ∈ interruptedBound.enforced, v.trueCount threeInputs ≤ b) ∧
      (interruptedBound.interrupted = true → ∀ maxBound, ∃ answer,
        interruptedBound.encoder.encode maxBound interruptedBound.work =
          ⟨answer, interruptedBound.encoder, interruptedBound.work⟩ ∧
          (answer = none ∨ answer = some (.refused .alreadyEncoded))) := by
  have reached : interruptedBound.Reached threeInputs := by
    refine .enforce _ (.withCalls (.enforce _ (.withCalls (.encode _ reached_begun ?_) _) ?_) _) ?_
      <;> exact ne_fault (by decide)
  exact ⟨reached, by decide, reached.holds_enforced⟩

end Usage

end CardinalityClauses.ModularTotalizer
