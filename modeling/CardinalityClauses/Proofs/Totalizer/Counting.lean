import CardinalityClauses.Proofs.Encoding.OneShot

/-!
What the outputs of a built totalizer count.

A tree for upper bounds pushes its outputs up: in every model of its clauses the root reaches the
number of true inputs, as far as it counts. A tree for lower bounds pushes them down: the root
stays within that number. Either way all values of the inputs extend to a model in which the root
counts right, so the clauses alone ask for nothing.

Main statements: after a build, bounds up to the maximum that are enforced in any order say that
all of them are met, from above (`encode_enforceEach_atMost`) and from below
(`encode_enforceEach_atLeast`).
-/

namespace CardinalityClauses.Totalizer

open LawfulCollector (contents)
open Unary

/-! ### The outputs of the root -/

section Outputs

variable {inputs : List Literal} {maxBound next : Nat} {v : Valuation}

/-- A tree for upper bounds tells the counts up to one above the maximum apart. -/
theorem length_builtOutputs_atMost (maxBound : Nat) (inputs : List Literal) (next : Nat) :
    (builtOutputs .atMost maxBound inputs next).length = min inputs.length (maxBound + 1) := by
  by_cases nonempty : inputs = []
  · subst nonempty
    exact (Nat.zero_min _).symm
  obtain ⟨tree, -, outputs, sized, rfl⟩ := exists_builtTree .atMost maxBound next nonempty
  rw [outputs, Tree.length_inputs]
  cases tree with
  | leaf input => simp [Tree.outputs, Tree.inputCount]
  | node outputs left right => exact sized.1

/-- In a model the outputs for upper bounds reach the number of true inputs. -/
theorem reaches_builtOutputs
    (models : v.Models (plannedClauses (buildPlan .atMost maxBound inputs next))) :
    Reaches v (builtOutputs .atMost maxBound inputs next) (v.trueCount inputs) := by
  by_cases nonempty : inputs = []
  · subst nonempty
    exact fun k l found => by cases found
  obtain ⟨tree, clauses, outputs, sized, rfl⟩ := exists_builtTree .atMost maxBound next nonempty
  rw [outputs]
  exact sized.reaches (clauses ▸ models)

/-- In a model the outputs for lower bounds stay within the number of true inputs. -/
theorem within_builtOutputs
    (models : v.Models (plannedClauses (buildPlan .atLeast maxBound inputs next))) :
    StaysWithin v (builtOutputs .atLeast maxBound inputs next) (v.trueCount inputs) := by
  by_cases nonempty : inputs = []
  · subst nonempty
    exact fun k l found => by cases found
  obtain ⟨tree, clauses, outputs, sized, rfl⟩ := exists_builtTree .atLeast maxBound next nonempty
  rw [outputs]
  exact sized.within (clauses ▸ models)

/-- In a model of the planned clauses and of the clause for a bound, the bound is met. -/
theorem holds_of_buildPlan {direction : Direction} {bound : Nat}
    (allowed : Allowed direction inputs.length maxBound bound)
    (counted : v.Models (plannedClauses (buildPlan direction maxBound inputs next)))
    (limited : v.Models (enforcing direction (builtOutputs direction maxBound inputs next) bound)) :
    (Constraint.mk direction inputs bound).holds v = true := by
  have long : min inputs.length (countLimit direction maxBound) ≤
      (builtOutputs direction maxBound inputs next).length := by
    by_cases nonempty : inputs = []
    · subst nonempty
      exact Nat.min_le_left 0 _
    obtain ⟨tree, -, outputs, sized, rfl⟩ := exists_builtTree direction maxBound next nonempty
    rw [outputs, Tree.length_inputs]
    exact sized.le_length_outputs
  cases direction with
  | atMost =>
      have reaches := reaches_builtOutputs counted
      simpa [Constraint.holds] using holds_of_enforcing_atMost long allowed reaches limited
  | atLeast =>
      have within := within_builtOutputs counted
      simpa [Constraint.holds] using holds_of_enforcing_atLeast long allowed within limited

/-- All values of older variables extend to a model in which the outputs count right. -/
theorem exists_counts_builtOutputs {direction : Direction}
    (old : LiteralsOver (· < next) inputs)
    (room : next + buildDemand direction maxBound inputs ≤ Variable.maxIndex + 1)
    (v : Valuation) :
    ∃ w, Valuation.Agree (· < next) v w ∧
      w.Models (plannedClauses (buildPlan direction maxBound inputs next)) ∧
      Counts w (builtOutputs direction maxBound inputs next) (v.trueCount inputs) := by
  by_cases nonempty : inputs = []
  · subst nonempty
    exact ⟨v, .refl _ v, v.models_nil, counts_of_eq_decide fun k l found => by cases found⟩
  obtain ⟨shape, split, rfl⟩ := Halving.ofList?_spec nonempty
  simp only [buildDemand, split] at room
  obtain ⟨w, agree, models, counts⟩ := Tree.exists_counts_grow old room v
  refine ⟨w, agree.below, ?_, ?_⟩
  · simpa only [buildPlan, split, Tree.plannedClauses_pieces] using models
  · rw [agree.below.trueCount_eq old]
    simpa only [builtOutputs, split] using counts

end Outputs

/-! ### Bounds that may be trivial -/

/-- The bounds that can be asked for after a build: all up to its maximum, but no lower bound
above the number of inputs. -/
def Supported (direction : Direction) (inputs maxBound bound : Nat) : Prop :=
  bound ≤ maxBound ∧ (direction = .atLeast → bound ≤ inputs)

/-- What is handed over for a bound: nothing if the bound is met anyway. -/
def limiting (direction : Direction) (inputs outputs : List Literal) (bound : Nat) :
    List Clause :=
  if (Constraint.mk direction inputs bound).isTautology then []
  else enforcing direction outputs bound

section Limiting

variable {direction : Direction} {inputs outputs : List Literal} {maxBound bound next : Nat}

/-- For a bound that is not met anyway its clause is handed over. -/
theorem limiting_eq_of_allowed (allowed : Allowed direction inputs.length maxBound bound) :
    limiting direction inputs outputs bound = enforcing direction outputs bound := by
  obtain ⟨-, proper⟩ := allowed
  refine if_neg ?_
  cases direction with
  | atMost => simpa [Constraint.isTautology] using proper
  | atLeast => simpa [Constraint.isTautology] using Nat.ne_of_gt proper.1

/-- A supported bound is one that the outputs can enforce, or it is met anyway. -/
theorem Supported.limiting_cases (supported : Supported direction inputs.length maxBound bound)
    (outputs : List Literal) :
    (Allowed direction inputs.length maxBound bound ∧
        limiting direction inputs outputs bound = enforcing direction outputs bound) ∨
      ((Constraint.mk direction inputs bound).isTautology = true ∧
        limiting direction inputs outputs bound = []) := by
  cases trivial : (Constraint.mk direction inputs bound).isTautology with
  | true => exact .inr ⟨rfl, by simp [limiting, trivial]⟩
  | false =>
      have satisfiable : (Constraint.mk direction inputs bound).isUnsatisfiable = false := by
        cases direction with
        | atMost => rfl
        | atLeast => simpa [Constraint.isUnsatisfiable] using supported.2 rfl
      have proper := Constraint.allowed_of_not_trivial trivial satisfiable
      have allowed : Allowed direction inputs.length maxBound bound := ⟨supported.1, proper.2⟩
      exact .inl ⟨allowed, limiting_eq_of_allowed allowed⟩

/-- A bound that is met anyway is enforced by doing nothing. -/
theorem enforce_of_isTautology {σ : Type} [Collector σ] {t : Totalizer}
    (trivial : (Constraint.mk direction t.inputs bound).isTautology = true) (w : Workspace σ) :
    t.enforce direction bound w = (none, w) := by
  cases direction with
  | atMost =>
      have wide : t.inputs.length ≤ bound := by simpa [Constraint.isTautology] using trivial
      simp [enforce, enforceUpper, wide]
  | atLeast =>
      have zero : bound = 0 := by simpa [Constraint.isTautology] using trivial
      simp [enforce, enforceLower, zero]

/-- A bound that nothing can meet is refused. -/
theorem enforce_of_isUnsatisfiable {σ : Type} [Collector σ] {t : Totalizer}
    (impossible : (Constraint.mk direction t.inputs bound).isUnsatisfiable = true)
    (w : Workspace σ) : t.enforce direction bound w = (some (.refused .unsatisfiable), w) := by
  cases direction with
  | atMost => cases impossible
  | atLeast =>
      have above : t.inputs.length < bound := by
        simpa [Constraint.isUnsatisfiable] using impossible
      simp [enforce, enforceLower, Nat.ne_of_gt (Nat.zero_lt_of_lt above), above]

/-- On a complete tree every supported bound is enforced. -/
theorem Complete.enforce_supported {σ : Type} [ReliableCollector σ] {t : Totalizer}
    (complete : t.Complete direction maxBound outputs)
    (supported : Supported direction t.inputs.length maxBound bound) (w : Workspace σ) :
    ∃ w', t.enforce direction bound w = (none, w') ∧
      w.Grows w' (limiting direction t.inputs outputs bound) 0 := by
  obtain ⟨allowed, same⟩ | ⟨trivial, nothing⟩ := supported.limiting_cases outputs
  · rw [same]
    exact complete.enforce allowed w
  · rw [nothing]
    exact ⟨w, enforce_of_isTautology trivial w, .refl w⟩

/-- Without inputs every bound that can be asked for is met anyway. -/
theorem not_allowed_zero : ¬Allowed direction 0 maxBound bound := by
  rintro ⟨-, proper⟩
  cases direction with
  | atMost => exact Nat.not_lt_zero _ proper
  | atLeast => exact Nat.not_lt_of_le proper.2 proper.1

/-- The planned clauses encode all supported bounds. -/
theorem boundEncoding_limiting (old : LiteralsOver (· < next) inputs)
    (room : next + buildDemand direction maxBound inputs ≤ Variable.maxIndex + 1) :
    BoundEncoding direction inputs next (next + buildDemand direction maxBound inputs)
      (plannedClauses (buildPlan direction maxBound inputs next))
      (Supported direction inputs.length maxBound)
      (limiting direction inputs (builtOutputs direction maxBound inputs next)) := by
  have counted : BoundEncoding direction inputs next
      (next + buildDemand direction maxBound inputs)
      (plannedClauses (buildPlan direction maxBound inputs next))
      (Allowed direction inputs.length maxBound)
      (enforcing direction (builtOutputs direction maxBound inputs next)) := by
    by_cases nonempty : inputs = []
    · subst nonempty
      exact
        { first_le := Nat.le_refl _
          about := fun c hc => by cases hc
          over_enforcing := fun b allowed => absurd allowed not_allowed_zero
          sound := fun v b allowed => absurd allowed not_allowed_zero
          exists_exact := fun v =>
            ⟨v, .refl _ v, v.models_nil, fun b allowed => absurd allowed not_allowed_zero⟩ }
    · exact boundEncoding_buildPlan nonempty old room
  refine
    { first_le := counted.first_le
      about := counted.about
      over_enforcing := fun b supported => ?_
      sound := fun v b supported models limited => ?_
      exists_exact := fun v => ?_ }
  · obtain ⟨allowed, same⟩ | ⟨-, nothing⟩ := supported.limiting_cases
      (builtOutputs direction maxBound inputs next)
    · rw [same]
      exact counted.over_enforcing b allowed
    · rw [nothing]
      exact fun c hc => by cases hc
  · obtain ⟨allowed, same⟩ | ⟨trivial, -⟩ := supported.limiting_cases
      (builtOutputs direction maxBound inputs next)
    · rw [same] at limited
      exact counted.sound v b allowed models limited
    · exact Constraint.holds_of_isTautology trivial v
  · obtain ⟨w, agree, models, exact_⟩ := counted.exists_exact v
    refine ⟨w, agree, models, fun b supported met => ?_⟩
    obtain ⟨allowed, same⟩ | ⟨-, nothing⟩ := supported.limiting_cases
      (builtOutputs direction maxBound inputs next)
    · rw [same]
      exact exact_ b allowed met
    · rw [nothing]
      exact w.models_nil

end Limiting

/-! ### Bounds after a build -/

section Bounds

variable {σ : Type} [ReliableCollector σ] {inputs : List Literal} {maxBound : Nat}
  {w : Workspace σ}

/-- After a build with room for its variables, supported bounds are enforced one after the other,
and what is handed over says that all of them are met. -/
theorem encode_supported (direction : Direction) (old : LiteralsOver (· < w.supply.next) inputs)
    (room : w.supply.next + buildDemand direction maxBound inputs ≤ Variable.maxIndex + 1) :
    let counting := plannedClauses (buildPlan direction maxBound inputs w.supply.next)
    let outputs := builtOutputs direction maxBound inputs w.supply.next
    ∃ built w₁, (ofInputs inputs).encode direction maxBound w = ⟨none, built, w₁⟩ ∧
      w.Grows w₁ counting (buildDemand direction maxBound inputs) ∧
      built.outputs = .ok outputs ∧
      ∀ bounds, (∀ b ∈ bounds, Supported direction inputs.length maxBound b) →
        let limits := bounds.flatMap (limiting direction inputs outputs)
        ∃ w₂, enforceEach (built.enforce direction) bounds w₁ = (none, w₂) ∧
          w₁.Grows w₂ limits 0 ∧
          ∀ on, (∀ i, on i → i < w.supply.next) → LiteralsOver on inputs →
            ∀ v : Valuation, v.Extends on (counting ++ limits) ↔
              ∀ b ∈ bounds, (Constraint.mk direction inputs b).holds v = true := by
  intro counting outputs
  obtain ⟨built, w₁, encoded, grows, rfl, complete⟩ :=
    encode_grows direction maxBound inputs w room
  refine ⟨built, w₁, encoded, grows, complete.outputs_eq, fun bounds supported => ?_⟩
  obtain ⟨w₂, enforced, grows₂⟩ := enforceEach_spec
    (fun b hb w => complete.enforce_supported (supported b hb) w) w₁
  refine ⟨w₂, enforced, grows₂, fun on older about => ?_⟩
  exact (boundEncoding_limiting old room).extends_iff older about supported

variable {on : Nat → Prop}

/-- After a build for upper bounds the outputs reach what is counted in every model, and they can
count right. Upper bounds that are then enforced say that all of them are met. -/
theorem encode_enforceEach_atMost (about : LiteralsOver on inputs)
    (old : ∀ i, on i → i < w.supply.next)
    (room : w.supply.next + buildDemand .atMost maxBound inputs ≤ Variable.maxIndex + 1) :
    ∃ built w₁ counting outputs,
      (ofInputs inputs).encode .atMost maxBound w = ⟨none, built, w₁⟩ ∧
      w₁.supply.next = w.supply.next + buildDemand .atMost maxBound inputs ∧
      contents w₁.collector = contents w.collector ++ counting ∧
      built.outputs = .ok outputs ∧ outputs.length = min inputs.length (maxBound + 1) ∧
      (∀ v : Valuation, v.Models counting → Reaches v outputs (v.trueCount inputs)) ∧
      (∀ v : Valuation, ∃ u, Valuation.Agree on v u ∧ u.Models counting ∧
        Counts u outputs (v.trueCount inputs)) ∧
      ∀ bounds, (∀ b ∈ bounds, b ≤ maxBound) →
        ∃ w₂ limits, enforceEach built.enforceUpper bounds w₁ = (none, w₂) ∧
          contents w₂.collector = contents w₁.collector ++ limits ∧
          ∀ v : Valuation, v.Extends on (counting ++ limits) ↔
            ∀ b ∈ bounds, v.trueCount inputs ≤ b := by
  obtain ⟨built, w₁, encoded, grows, outputs_eq, enforced⟩ :=
    encode_supported .atMost (about.mono old) room
  refine ⟨built, w₁, _, _, encoded, grows.next_eq, grows.contents_eq, outputs_eq,
    length_builtOutputs_atMost .., fun v => reaches_builtOutputs, fun v => ?_, fun bounds le => ?_⟩
  · obtain ⟨u, agree, models, counts⟩ := exists_counts_builtOutputs (about.mono old) room v
    exact ⟨u, agree.mono old, models, counts⟩
  · obtain ⟨w₂, done, grows₂, extends_iff⟩ := enforced bounds fun b hb =>
      ⟨le b hb, fun other => by cases other⟩
    refine ⟨w₂, _, done, grows₂.contents_eq, fun v => (extends_iff on old about v).trans ?_⟩
    simp [Constraint.holds]

/-- The theorem for three inputs of which two are literals of one variable, with outputs for two
counts. -/
theorem encode_enforceEach_atMost_threeInputs :
    let inputs : List Literal := [⟨0, false⟩, ⟨0, true⟩, ⟨1, false⟩]
    let w : Workspace Formula := ⟨.empty, ⟨2⟩, #[]⟩
    LiteralsOver (· < 2) inputs ∧
      2 + buildDemand .atMost 1 inputs ≤ Variable.maxIndex + 1 ∧
      ∃ built w₁ counting outputs,
        (ofInputs inputs).encode .atMost 1 w = ⟨none, built, w₁⟩ ∧
        w₁.supply.next = 2 + buildDemand .atMost 1 inputs ∧
        contents w₁.collector = contents w.collector ++ counting ∧
        built.outputs = .ok outputs ∧ outputs.length = 2 ∧
        (∀ v : Valuation, v.Models counting → Reaches v outputs (v.trueCount inputs)) ∧
        (∀ v : Valuation, ∃ u, Valuation.Agree (· < 2) v u ∧ u.Models counting ∧
          Counts u outputs (v.trueCount inputs)) ∧
        ∀ bounds, (∀ b ∈ bounds, b ≤ 1) →
          ∃ w₂ limits, enforceEach built.enforceUpper bounds w₁ = (none, w₂) ∧
            contents w₂.collector = contents w₁.collector ++ limits ∧
            ∀ v : Valuation, v.Extends (· < 2) (counting ++ limits) ↔
              ∀ b ∈ bounds, v.trueCount inputs ≤ b :=
  ⟨by simp [LiteralsOver], by decide,
    encode_enforceEach_atMost (by simp [LiteralsOver]) (fun _ hi => hi) (by decide)⟩

/-- After a build for lower bounds the outputs stay within what is counted in every model, and
they can count right. Lower bounds that are then enforced say that all of them are met. -/
theorem encode_enforceEach_atLeast (about : LiteralsOver on inputs)
    (old : ∀ i, on i → i < w.supply.next)
    (room : w.supply.next + buildDemand .atLeast maxBound inputs ≤ Variable.maxIndex + 1) :
    ∃ built w₁ counting outputs,
      (ofInputs inputs).encode .atLeast maxBound w = ⟨none, built, w₁⟩ ∧
      w₁.supply.next = w.supply.next + buildDemand .atLeast maxBound inputs ∧
      contents w₁.collector = contents w.collector ++ counting ∧
      built.outputs = .ok outputs ∧
      (∀ v : Valuation, v.Models counting → StaysWithin v outputs (v.trueCount inputs)) ∧
      (∀ v : Valuation, ∃ u, Valuation.Agree on v u ∧ u.Models counting ∧
        Counts u outputs (v.trueCount inputs)) ∧
      ∀ bounds, (∀ b ∈ bounds, b ≤ min maxBound inputs.length) →
        ∃ w₂ limits, enforceEach built.enforceLower bounds w₁ = (none, w₂) ∧
          contents w₂.collector = contents w₁.collector ++ limits ∧
          ∀ v : Valuation, v.Extends on (counting ++ limits) ↔
            ∀ b ∈ bounds, b ≤ v.trueCount inputs := by
  obtain ⟨built, w₁, encoded, grows, outputs_eq, enforced⟩ :=
    encode_supported .atLeast (about.mono old) room
  refine ⟨built, w₁, _, _, encoded, grows.next_eq, grows.contents_eq, outputs_eq,
    fun v => within_builtOutputs, fun v => ?_, fun bounds le => ?_⟩
  · obtain ⟨u, agree, models, counts⟩ := exists_counts_builtOutputs (about.mono old) room v
    exact ⟨u, agree.mono old, models, counts⟩
  · obtain ⟨w₂, done, grows₂, extends_iff⟩ := enforced bounds fun b hb =>
      ⟨Nat.le_trans (le b hb) (Nat.min_le_left _ _),
        fun _ => Nat.le_trans (le b hb) (Nat.min_le_right _ _)⟩
    refine ⟨w₂, _, done, grows₂.contents_eq, fun v => (extends_iff on old about v).trans ?_⟩
    simp [Constraint.holds]

/-- The theorem for the same inputs, with outputs for one count only. -/
theorem encode_enforceEach_atLeast_threeInputs :
    let inputs : List Literal := [⟨0, false⟩, ⟨0, true⟩, ⟨1, false⟩]
    let w : Workspace Formula := ⟨.empty, ⟨2⟩, #[]⟩
    LiteralsOver (· < 2) inputs ∧
      2 + buildDemand .atLeast 1 inputs ≤ Variable.maxIndex + 1 ∧
      ∃ built w₁ counting outputs,
        (ofInputs inputs).encode .atLeast 1 w = ⟨none, built, w₁⟩ ∧
        w₁.supply.next = 2 + buildDemand .atLeast 1 inputs ∧
        contents w₁.collector = contents w.collector ++ counting ∧
        built.outputs = .ok outputs ∧
        (∀ v : Valuation, v.Models counting → StaysWithin v outputs (v.trueCount inputs)) ∧
        (∀ v : Valuation, ∃ u, Valuation.Agree (· < 2) v u ∧ u.Models counting ∧
          Counts u outputs (v.trueCount inputs)) ∧
        ∀ bounds, (∀ b ∈ bounds, b ≤ min 1 inputs.length) →
          ∃ w₂ limits, enforceEach built.enforceLower bounds w₁ = (none, w₂) ∧
            contents w₂.collector = contents w₁.collector ++ limits ∧
            ∀ v : Valuation, v.Extends (· < 2) (counting ++ limits) ↔
              ∀ b ∈ bounds, b ≤ v.trueCount inputs :=
  ⟨by simp [LiteralsOver], by decide,
    encode_enforceEach_atLeast (by simp [LiteralsOver]) (fun _ hi => hi) (by decide)⟩

end Bounds

end CardinalityClauses.Totalizer
