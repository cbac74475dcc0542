import CardinalityClauses.Proofs.ModularTotalizer.Bounds
import CardinalityClauses.Proofs.ModularTotalizer.Calls
import CardinalityClauses.Proofs.Totalizer.Calls
import CardinalityClauses.Proofs.Totalizer.Counting

/-!
Single bounds, built for and enforced in one call.

Both families build an encoder for one bound and enforce the bound on it. They treat the bounds at
the ends of the range in different ways: a totalizer builds its tree for every bound, a modular
totalizer only for a bound between zero and the number of inputs. What is said about the inputs is
the same.

A build does not ask whether its bound can be met; that is noticed when the bound is enforced. So a
lower bound above the number of inputs is refused only after its tree was handed over
(`Totalizer.encodeConstraint_refuses_late`).

Main statements: an upper bound is encoded by either family, and a lower bound exactly if it can be
met, and then the clauses leave to the inputs what meets the bound (`encode_single_bounds`). On a
collector that never fails nothing but a lower bound above the number of inputs is answered by an
error, and what is then left behind is a tree (`errors_of_single_bounds`).
-/

namespace CardinalityClauses

open LawfulCollector (contents)

/-- The caller is handed an error. After a fault nothing is handed back. -/
def ReturnsError (failure : Option Failure) : Prop :=
  ∃ why, failure = some why ∧ ∀ f, why ≠ .fault f

/-- Neither a success nor a fault hands one back. -/
theorem not_returnsError {failure : Option Failure}
    (ending : failure = none ∨ ∃ f, failure = some (.fault f)) : ¬ReturnsError failure := by
  rintro ⟨why, some, other⟩
  rcases ending with rfl | ⟨f, rfl⟩
  · cases some
  · cases some
    exact other f rfl

/-- A call succeeds, and the clauses it hands over can be satisfied over given values of some
variables exactly if these values meet a condition. -/
def EncodesExactly {σ : Type} [LawfulCollector σ] (on : Nat → Prop) (Met : Valuation → Prop)
    (w : Workspace σ) (result : Option Failure × Workspace σ) : Prop :=
  ∃ w' clauses, result = (none, w') ∧
    contents w'.collector = contents w.collector ++ clauses ∧
    ∀ v : Valuation, v.Extends on clauses ↔ Met v

/-! ### Totalizers -/

namespace Totalizer

variable {direction : Direction} {inputs : List Literal} {bound next : Nat}

/-- The tree for a bound takes no variables only if there are no inputs to add up. -/
theorem buildDemand_eq_zero_iff (above : inputs.length < bound) :
    buildDemand .atLeast bound inputs = 0 ↔ inputs.length ≤ 1 := by
  by_cases many : 2 ≤ inputs.length
  · obtain ⟨left, right, split, -⟩ := Halving.exists_fork many
    have size := Halving.size_of_ofList? split
    have positive : 0 < countLimit .atLeast bound := Nat.zero_lt_of_lt above
    have taken := Tree.size_le_demand positive (.fork left right)
    simp only [buildDemand, split]
    omega
  · rcases inputs with _ | ⟨input, _ | ⟨second, rest⟩⟩
    · simp [buildDemand, Halving.ofList?, Halving.split]
    · simp [buildDemand, Halving.ofList?, Halving.split, demand]
    · simp at many

/-- Then there are no clauses either. -/
theorem plannedClauses_buildPlan_eq_nil (few : inputs.length ≤ 1) :
    plannedClauses (buildPlan direction bound inputs next) = [] := by
  rcases inputs with _ | ⟨input, _ | ⟨second, rest⟩⟩
  · rfl
  · rfl
  · simp at few

/-- A tree for a lower bound above the number of inputs leaves a workspace as it was only if there
was nothing to add up. -/
theorem unchanged_iff {σ : Type} [LawfulCollector σ] {w w' : Workspace σ}
    (above : inputs.length < bound)
    (grows : w.Grows w' (plannedClauses (buildPlan .atLeast bound inputs w.supply.next))
      (buildDemand .atLeast bound inputs)) :
    contents w'.collector = contents w.collector ∧ w'.supply.next = w.supply.next ↔
      inputs.length ≤ 1 := by
  have taken := grows.next_eq
  constructor
  · rintro ⟨-, same⟩
    rw [← buildDemand_eq_zero_iff above]
    exact Nat.add_left_cancel (taken.symm.trans same)
  · intro few
    have nothing := grows.contents_eq
    rw [plannedClauses_buildPlan_eq_nil few, List.append_nil] at nothing
    rw [(buildDemand_eq_zero_iff above).2 few, Nat.add_zero] at taken
    exact ⟨nothing, taken⟩

/-- The clauses of a tree and those for a supported bound leave to the inputs what meets it. -/
theorem extends_limiting_iff {on : Nat → Prop} (about : LiteralsOver on inputs)
    (old : ∀ i, on i → i < next)
    (room : next + buildDemand direction bound inputs ≤ Variable.maxIndex + 1)
    (supported : Supported direction inputs.length bound bound) (v : Valuation) :
    v.Extends on (plannedClauses (buildPlan direction bound inputs next) ++
        limiting direction inputs (builtOutputs direction bound inputs next) bound) ↔
      (Constraint.mk direction inputs bound).holds v = true := by
  have allowed : ∀ b ∈ [bound], Supported direction inputs.length bound b := by
    simpa using supported
  have one := (boundEncoding_limiting (about.mono old) room).extends_iff old about allowed v
  simpa using one

/-- The bound of a constraint that can be met is one to ask for. -/
theorem supported_of_satisfiable {c : Constraint} (satisfiable : c.isUnsatisfiable = false) :
    Supported c.direction c.literals.length c.bound c.bound := by
  refine ⟨le_rfl, fun lower => ?_⟩
  simpa [Constraint.isUnsatisfiable, lower] using satisfiable

variable {σ : Type} [ReliableCollector σ] {c : Constraint}

/-- A constraint that can be met is encoded, or literals cannot carry all the indices. -/
theorem encodeConstraint_done_or_crowded (satisfiable : c.isUnsatisfiable = false)
    (w : Workspace σ) :
    (∃ w', encodeConstraint c w = (none, w') ∧
      w.Grows w' (plannedClauses (buildPlan c.direction c.bound c.literals w.supply.next) ++
          limiting c.direction c.literals
            (builtOutputs c.direction c.bound c.literals w.supply.next) c.bound)
        (buildDemand c.direction c.bound c.literals)) ∨
    ∃ f w', encodeConstraint c w = (some (.fault f), w') ∧
      Variable.maxIndex + 1 < w.supply.next + buildDemand c.direction c.bound c.literals := by
  obtain ⟨t, w₁, encoded, grows, same, complete⟩ | ⟨f, t, w₁, encoded, full⟩ :=
    encode_done_or_crowded c.direction c.bound c.literals w
  · have supported : Supported c.direction t.inputs.length c.bound c.bound :=
      same ▸ supported_of_satisfiable satisfiable
    obtain ⟨w₂, enforced, grows₂⟩ := complete.enforce_supported supported w₁
    exact .inl ⟨w₂, by simp [encodeConstraint, encoded, enforced], same ▸ grows.trans grows₂⟩
  · exact .inr ⟨f, w₁, by simp [encodeConstraint, encoded], full⟩

/-- The call for it is not answered by an error. -/
theorem encodeConstraint_fine (satisfiable : c.isUnsatisfiable = false) (w : Workspace σ) :
    ¬ReturnsError (encodeConstraint c w).1 := by
  apply not_returnsError
  obtain ⟨w', done, -⟩ | ⟨f, w', fault, -⟩ := encodeConstraint_done_or_crowded satisfiable w
  · exact .inl (congrArg Prod.fst done)
  · exact .inr ⟨f, congrArg Prod.fst fault⟩

/-- A constraint that cannot be met is refused when its tree is there. -/
theorem encodeConstraint_late (impossible : c.isUnsatisfiable = true) (w : Workspace σ) :
    (∃ w', encodeConstraint c w = (some (.refused .unsatisfiable), w') ∧
      w.Grows w' (plannedClauses (buildPlan c.direction c.bound c.literals w.supply.next))
        (buildDemand c.direction c.bound c.literals)) ∨
    ∃ f w', encodeConstraint c w = (some (.fault f), w') := by
  obtain ⟨t, w₁, encoded, grows, same, -⟩ | ⟨f, t, w₁, encoded, -⟩ :=
    encode_done_or_crowded c.direction c.bound c.literals w
  · have impossible : (Constraint.mk c.direction t.inputs c.bound).isUnsatisfiable = true := by
      rw [same]
      exact impossible
    have refused := enforce_of_isUnsatisfiable impossible w₁
    exact .inl ⟨w₁, by simp [encodeConstraint, encoded, refused], grows⟩
  · exact .inr ⟨f, w₁, by simp [encodeConstraint, encoded]⟩

/-- With room for its variables a constraint that can be met is encoded, and the clauses leave to
its literals what satisfies it. -/
theorem encodeConstraint_spec {on : Nat → Prop} {w : Workspace σ}
    (about : LiteralsOver on c.literals) (old : ∀ i, on i → i < w.supply.next)
    (room : w.supply.next + buildDemand c.direction c.bound c.literals ≤ Variable.maxIndex + 1)
    (satisfiable : c.isUnsatisfiable = false) :
    EncodesExactly on (fun v => c.holds v = true) w (encodeConstraint c w) := by
  obtain ⟨w', encoded, grows⟩ | ⟨f, w', -, full⟩ := encodeConstraint_done_or_crowded satisfiable w
  · refine ⟨w', _, encoded, grows.contents_eq, fun v => ?_⟩
    exact extends_limiting_iff about old room (supported_of_satisfiable satisfiable) v
  · exact absurd full (Nat.not_lt_of_le room)

end Totalizer

/-! ### Modular totalizers -/

namespace ModularTotalizer

variable {σ : Type} [ReliableCollector σ] {inputs : List Literal} {bound : Nat} {w : Workspace σ}

/-- A call for an upper bound is not answered by an error. -/
theorem encodeUpper_fine (inputs : List Literal) (bound : Nat) (w : Workspace σ) :
    ¬ReturnsError (encodeUpper inputs bound w).1 := by
  by_cases trivial : bound = 0 ∨ inputs.length ≤ bound
  · have unbuilt : (ofInputs inputs).encode bound w = ⟨none, ofPreset inputs none, w⟩ :=
      if_pos trivial
    simp only [encodeUpper, unbuilt]
    rw [answer_enforceUpper_ofPreset, if_pos trivial.symm]
    exact not_returnsError (.inl rfl)
  · have fixed : ∀ m, (none : Option Nat) = some m → 2 ≤ m := by simp
    obtain ⟨failure, t, w₁, encoded, ending⟩ :=
      encode_first (by omega : 0 < bound) (by omega : bound < inputs.length) fixed w
    have encoded : (ofInputs inputs).encode bound w = ⟨failure, t, w₁⟩ := encoded
    simp only [encodeUpper, encoded]
    rcases ending with ⟨rfl, same, -, modulus, upper, lower, complete⟩ | ⟨⟨f, rfl⟩, -⟩
    · dsimp only
      rw [complete.answer_enforceUpper, if_pos (.inr le_rfl)]
      exact not_returnsError (.inl rfl)
    · exact not_returnsError (.inr ⟨f, rfl⟩)

/-- With room for its variables a call for an upper bound succeeds, and the clauses leave to the
inputs what meets the bound. -/
theorem encodeUpper_spec {on : Nat → Prop} (about : LiteralsOver on inputs)
    (old : ∀ i, on i → i < w.supply.next)
    (room : w.supply.next + (ofInputs inputs).encodeDemand bound ≤ Variable.maxIndex + 1) :
    EncodesExactly on (fun v => v.trueCount inputs ≤ bound) w (encodeUpper inputs bound w) := by
  by_cases many : inputs.length ≤ bound
  · have unbuilt : (ofInputs inputs).encode bound w = ⟨none, ofInputs inputs, w⟩ :=
      if_pos (.inr many)
    have enforced : (ofInputs inputs).enforceUpper bound w = (none, w) := if_pos many
    refine ⟨w, [], by simp [encodeUpper, unbuilt, enforced], by simp, fun v => ?_⟩
    exact ⟨fun _ => Nat.le_trans (v.trueCount_le_length inputs) many,
      fun _ => v.models_nil.extends on⟩
  by_cases zero : bound = 0
  · obtain ⟨w', extended, grows⟩ := w.extend_spec (inputs.map fun l => .unit l.complement)
    have unbuilt : (ofInputs inputs).encode bound w = ⟨none, ofInputs inputs, w⟩ :=
      if_pos (.inl zero)
    have enforced : (ofInputs inputs).enforceUpper bound w = (none, w') :=
      (if_neg many).trans ((if_pos zero).trans extended)
    refine ⟨w', _, by simp [encodeUpper, unbuilt, enforced], grows.contents_eq, fun v => ?_⟩
    rw [zero]
    constructor
    · rintro ⟨u, agree, models⟩
      apply Nat.le_of_eq
      rw [agree.trueCount_eq about]
      exact Valuation.models_complementUnits.1 models
    · intro none
      exact (Valuation.models_complementUnits.2 (Nat.le_zero.1 none)).extends on
  have demanded : (ofInputs inputs).encodeDemand bound =
      buildDemand (modulusFor none bound) inputs :=
    if_neg (by simpa [ofInputs, zero] using many)
  rw [demanded] at room
  have fixed : ∀ m, (none : Option Nat) = some m → 2 ≤ m := by simp
  obtain ⟨t, w₁, counting, upper, lower, encoded, grows, same, complete, encoding⟩ :=
    encode_spec (Nat.pos_of_ne_zero zero) (Nat.lt_of_not_le many) fixed w (about.mono old) room
  have encoded : (ofInputs inputs).encode bound w = ⟨none, t, w₁⟩ := encoded
  obtain ⟨w₂, enforced, grows₂⟩ := complete.enforceUpper le_rfl w₁
  refine ⟨w₂, _, by simp [encodeUpper, encoded, enforced], (grows.trans grows₂).contents_eq, ?_⟩
  intro v
  have allowed : ∀ b ∈ [bound], b ≤ bound := by simp
  have one := encoding.extends_iff old about allowed v
  simpa [Constraint.holds] using one

end ModularTotalizer

/-! ### Both families -/

section

variable {σ : Type} [ReliableCollector σ] {inputs : List Literal} {w : Workspace σ}

/-- With room for the variables either family encodes every upper bound, and its clauses leave to
the inputs what meets the bound, so they say the same about them. A totalizer encodes a lower bound
exactly if it is no higher than the number of inputs, and then its clauses leave to them what meets
it. -/
theorem encode_single_bounds {on : Nat → Prop} (about : LiteralsOver on inputs)
    (old : ∀ i, on i → i < w.supply.next) (bound : Nat) :
    (w.supply.next + Totalizer.buildDemand .atMost bound inputs ≤ Variable.maxIndex + 1 →
      w.supply.next + (ModularTotalizer.ofInputs inputs).encodeDemand bound ≤
        Variable.maxIndex + 1 →
      EncodesExactly on (fun v => v.trueCount inputs ≤ bound) w
          (Totalizer.encodeConstraint ⟨.atMost, inputs, bound⟩ w) ∧
        EncodesExactly on (fun v => v.trueCount inputs ≤ bound) w
          (ModularTotalizer.encodeUpper inputs bound w)) ∧
    (w.supply.next + Totalizer.buildDemand .atLeast bound inputs ≤ Variable.maxIndex + 1 →
      ((Totalizer.encodeConstraint ⟨.atLeast, inputs, bound⟩ w).1 = none ↔
        bound ≤ inputs.length) ∧
      (bound ≤ inputs.length → EncodesExactly on (fun v => bound ≤ v.trueCount inputs) w
        (Totalizer.encodeConstraint ⟨.atLeast, inputs, bound⟩ w))) := by
  constructor
  · intro room roomModular
    refine ⟨?_, ModularTotalizer.encodeUpper_spec about old roomModular⟩
    simpa [Constraint.holds] using
      Totalizer.encodeConstraint_spec (c := ⟨.atMost, inputs, bound⟩) about old room rfl
  · intro room
    by_cases le : bound ≤ inputs.length
    · have satisfiable : (Constraint.mk .atLeast inputs bound).isUnsatisfiable = false := by
        simpa [Constraint.isUnsatisfiable] using le
      have encoded : EncodesExactly on (fun v => bound ≤ v.trueCount inputs) w
          (Totalizer.encodeConstraint ⟨.atLeast, inputs, bound⟩ w) := by
        simpa [Constraint.holds] using Totalizer.encodeConstraint_spec about old room satisfiable
      obtain ⟨w', clauses, done, -⟩ := id encoded
      exact ⟨⟨fun _ => le, fun _ => congrArg Prod.fst done⟩, fun _ => encoded⟩
    · have impossible : (Constraint.mk .atLeast inputs bound).isUnsatisfiable = true := by
        simpa [Constraint.isUnsatisfiable] using le
      obtain ⟨w', refused, -⟩ | ⟨f, w', fault⟩ :=
        Totalizer.encodeConstraint_late impossible w
      · exact ⟨⟨fun done => by simp [refused] at done, fun le' => absurd le' le⟩,
          fun le' => absurd le' le⟩
      · exact ⟨⟨fun done => by simp [fault] at done, fun le' => absurd le' le⟩,
          fun le' => absurd le' le⟩

/-- Neither family answers an upper bound by an error, nor does the encoding of a constraint that
looks at the bound first. A totalizer refuses a lower bound only if it is above the number of
inputs, and then its tree is there: the collector and the supply are as they were only if there
was nothing to add up. -/
theorem errors_of_single_bounds (inputs : List Literal) (bound : Nat) (w : Workspace σ) :
    ¬ReturnsError (Totalizer.encodeConstraint ⟨.atMost, inputs, bound⟩ w).1 ∧
    ¬ReturnsError (ModularTotalizer.encodeUpper inputs bound w).1 ∧
    (∀ direction, ¬ReturnsError ((Constraint.mk direction inputs bound).encode w).1) ∧
    (ReturnsError (Totalizer.encodeConstraint ⟨.atLeast, inputs, bound⟩ w).1 →
      ∃ w', Totalizer.encodeConstraint ⟨.atLeast, inputs, bound⟩ w =
          (some (.refused .unsatisfiable), w') ∧
        inputs.length < bound ∧
        w.Grows w' (plannedClauses (Totalizer.buildPlan .atLeast bound inputs w.supply.next))
          (Totalizer.buildDemand .atLeast bound inputs) ∧
        (contents w'.collector = contents w.collector ∧ w'.supply.next = w.supply.next ↔
          inputs.length ≤ 1)) := by
  refine ⟨Totalizer.encodeConstraint_fine rfl w, ModularTotalizer.encodeUpper_fine inputs bound w,
    fun direction => not_returnsError ?_, fun error => ?_⟩
  · have ran := (Constraint.mk direction inputs bound).encode_ran w
    exact (ran.done_or_crowded (Collector.unfailing_of_reliable _)).imp_right And.left
  · cases impossible : (Constraint.mk .atLeast inputs bound).isUnsatisfiable with
    | false => exact absurd error (Totalizer.encodeConstraint_fine impossible w)
    | true =>
        have above : inputs.length < bound := by
          simpa [Constraint.isUnsatisfiable] using impossible
        obtain ⟨w', refused, grows⟩ | ⟨f, w', fault⟩ :=
          Totalizer.encodeConstraint_late impossible w
        · exact ⟨w', refused, above, grows, Totalizer.unchanged_iff above grows⟩
        · exact absurd error (not_returnsError (.inr ⟨f, congrArg Prod.fst fault⟩))

end

/-- Two inputs are added up before it is noticed that three of them cannot be true. -/
theorem Totalizer.encodeConstraint_refuses_late :
    let w : Workspace Formula := ⟨.empty, ⟨2⟩, #[]⟩
    let after := Totalizer.encodeConstraint ⟨.atLeast, [⟨0, false⟩, ⟨1, false⟩], 3⟩ w
    after.1 = some (.refused .unsatisfiable) ∧
      contents w.collector = [] ∧ (contents after.2.collector).length = 3 ∧
      w.supply.next = 2 ∧ after.2.supply.next = 4 := by
  decide

/-- The theorem about errors for these inputs. -/
theorem errors_of_single_bounds_twoInputs :
    let inputs : List Literal := [⟨0, false⟩, ⟨1, false⟩]
    let w : Workspace Formula := ⟨.empty, ⟨2⟩, #[]⟩
    ReturnsError (Totalizer.encodeConstraint ⟨.atLeast, inputs, 3⟩ w).1 ∧
      ∃ w', Totalizer.encodeConstraint ⟨.atLeast, inputs, 3⟩ w =
          (some (.refused .unsatisfiable), w') ∧
        inputs.length < 3 ∧
        w.Grows w' (plannedClauses (Totalizer.buildPlan .atLeast 3 inputs 2))
          (Totalizer.buildDemand .atLeast 3 inputs) ∧
        (contents w'.collector = contents w.collector ∧ w'.supply.next = w.supply.next ↔
          inputs.length ≤ 1) := by
  intro inputs w
  have error : ReturnsError (Totalizer.encodeConstraint ⟨.atLeast, inputs, 3⟩ w).1 :=
    ⟨.refused .unsatisfiable, by decide, by simp⟩
  exact ⟨error, (errors_of_single_bounds inputs 3 w).2.2.2 error⟩

/-- The theorem about single bounds for three inputs of which two are literals of one variable. -/
theorem encode_single_bounds_threeInputs :
    let inputs : List Literal := [⟨0, false⟩, ⟨0, true⟩, ⟨1, false⟩]
    let w : Workspace Formula := ⟨.empty, ⟨2⟩, #[]⟩
    LiteralsOver (· < 2) inputs ∧
      EncodesExactly (· < 2) (fun v => v.trueCount inputs ≤ 2) w
        (Totalizer.encodeConstraint ⟨.atMost, inputs, 2⟩ w) ∧
      EncodesExactly (· < 2) (fun v => v.trueCount inputs ≤ 2) w
        (ModularTotalizer.encodeUpper inputs 2 w) ∧
      EncodesExactly (· < 2) (fun v => 2 ≤ v.trueCount inputs) w
        (Totalizer.encodeConstraint ⟨.atLeast, inputs, 2⟩ w) := by
  intro inputs w
  have about : LiteralsOver (· < 2) inputs := by simp [inputs, LiteralsOver]
  obtain ⟨upper, lower⟩ := encode_single_bounds (w := w) about (fun _ hi => hi) 2
  have modulus : ModularTotalizer.modulusFor none 2 = 2 :=
    congrArg Nat.succ (Nat.eq_sqrt.2 ⟨by decide, by decide⟩ : 1 = Nat.sqrt 2).symm
  have demanded : (ModularTotalizer.ofInputs inputs).encodeDemand 2 =
      ModularTotalizer.buildDemand 2 inputs :=
    (if_neg (by decide)).trans (congrArg (ModularTotalizer.buildDemand · inputs) modulus)
  obtain ⟨total, modular⟩ := upper (by decide) (by rw [demanded]; decide)
  exact ⟨about, total, modular, (lower (by decide)).2 (by decide)⟩

end CardinalityClauses
