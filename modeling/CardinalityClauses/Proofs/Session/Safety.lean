import CardinalityClauses.Proofs.Tightenable.Calls
import CardinalityClauses.Session.Encoder

/-!
Encoders without faults.

An encoder is made from literals or built as a constraint, and then it is asked for whatever its
kind offers: a modulus, a build, a bound, a tighter bound, or what it tells about itself. Each call
finds the collector and the supply as others have left them.

Main statement: where the collector never fails, a call ends in a fault only if it asks for more
variables than literals can carry indices for, and so does the building of a constraint
(`Encoder.fault_free`). A fault stands for everything that must not happen on the way: a position
outside a list, an output, carry or modulus that is missing, a difference below zero, a sum out of
range.
-/

namespace CardinalityClauses

/-! ### The sums of adders -/

/-- Two more than the maximum bound is the highest number that a build compares with. Without a
build there is none. -/
def ModularTotalizer.adderLimit (t : ModularTotalizer) (maxBound : Nat) : Nat :=
  if t.maxBound.isSome ∨ maxBound = 0 ∨ t.inputs.length ≤ maxBound then 0 else maxBound + 2

/-- The same number for the tree that the present bound asks for. -/
def TightenableConstraint.adderLimit (c : TightenableConstraint) : Nat :=
  if c.isBuilt = true ∨ c.bound = c.fixingBound ∨ c.bound = c.idleBound then 0
  else
    match c.family with
    | .totalizer => 0
    | .modular => CountingTree.counted c.direction c.literals.length c.bound + 2

theorem ModularTotalizer.Settled.adderLimit_lt {inputs : List Literal} {t : ModularTotalizer}
    (settled : Settled inputs t) {next maxBound : Nat}
    (room : next + t.encodeDemand maxBound ≤ Variable.maxIndex + 1) :
    t.adderLimit maxBound < sizeRange := by
  unfold adderLimit
  unfold encodeDemand at room
  split
  · decide
  · rename_i busy
    rw [if_neg busy] at room
    simp only [not_or, Nat.not_le] at busy
    obtain ⟨unbuilt, nonzero, lt⟩ := busy
    have fixed : ∀ m, t.modulus = some m → 2 ≤ m := by
      cases settled with
      | fresh fixed => exact fixed
      | built same complete deep => simp [complete.maxBound_eq] at unbuilt
    have positive : 0 < maxBound := Nat.pos_of_ne_zero nonzero
    exact add_two_lt_sizeRange (two_le_modulusFor fixed positive) positive lt room

theorem TightenableConstraint.Settled.adderLimit_lt {c : TightenableConstraint}
    (settled : c.Settled) {next : Nat} (room : next + c.demand ≤ Variable.maxIndex + 1) :
    c.adderLimit < sizeRange := by
  unfold adderLimit
  unfold demand at room
  split
  · decide
  · rename_i busy
    rw [if_neg busy] at room
    simp only [not_or] at busy
    obtain ⟨-, fixing, idle⟩ := busy
    have proper := proper_of_not_trivial settled.inRange fixing idle
    unfold treeDemand at room
    cases family : c.family with
    | totalizer => exact Nat.zero_lt_succ _
    | modular =>
      simp only [family] at room
      have two := ModularTotalizer.two_le_modulusFor (settled.preset family) proper.counted.1
      exact ModularTotalizer.add_two_lt_sizeRange two proper.counted.1 proper.counted.2 room

namespace Encoder

/-! ### Calls -/

/-- What an encoder is asked for. -/
inductive Call
  | setModulus (modulus : Nat)
  | encode (direction : Direction) (maxBound : Nat)
  | enforce (direction : Direction) (bound : Nat)
  | tighten (direction : Direction) (bound : Nat)
  /-- The summary includes the depth of the tree and its outputs. -/
  | summarize

/-- What a call comes to, if the kind of encoder offers it. -/
def call? {σ : Type} [Collector σ] (e : Encoder) (r : Call) (w : Workspace σ) :
    Option (Outcome Encoder σ) :=
  match r with
  | .setModulus modulus =>
      e.setModulus?.map fun setModulus =>
        match setModulus modulus with
        | .error why => ⟨some (.refused why), e, w⟩
        | .ok e => ⟨none, e, w⟩
  | .encode direction maxBound => (e.encode? direction).map fun encode => encode maxBound w
  | .enforce direction bound =>
      (e.enforce? direction).map fun enforce => ⟨(enforce bound w).1, e, (enforce bound w).2⟩
  | .tighten direction bound => (e.tighten? direction).map fun tighten => tighten bound w
  | .summarize =>
      match e.summary with
      | .error f => some ⟨some (.fault f), e, w⟩
      | .ok _ => some ⟨none, e, w⟩

/-- How many variables a call takes. -/
def demand : Encoder → Call → Nat
  | totalizer t, .encode direction maxBound => t.encodeDemand direction maxBound
  | modular t, .encode .atMost maxBound => t.encodeDemand maxBound
  | constraint c, .tighten direction bound => c.tightenDemand direction bound
  | _, _ => 0

/-- The highest number that the adders of a call compare with. -/
def adderLimit : Encoder → Call → Nat
  | modular t, .encode .atMost maxBound => t.adderLimit maxBound
  | constraint c, .tighten direction bound =>
      match c.tightenRefusal? direction bound with
      | some _ => 0
      | none => (c.withBound bound).adderLimit
  | _, _ => 0

/-- What can come of an encoder after any calls that do not end in a fault. Between the calls the
collector and the supply may be used for other things. -/
inductive Reached (σ : Type) [Collector σ] : Encoder → Prop
  | totalizer (inputs : List Literal) : Reached σ (totalizer (.ofInputs inputs))
  | modular (inputs : List Literal) : Reached σ (modular (.ofInputs inputs))
  | constraint {literals : List Literal} {direction : Direction} {bound : Nat}
      {configuration : Configuration} {w w' : Workspace σ} {c : TightenableConstraint}
      (built : TightenableConstraint.build literals direction bound configuration w = (.ok c, w')) :
      Reached σ (constraint c)
  | call {e : Encoder} {r : Call} {w : Workspace σ} {o : Outcome Encoder σ} (before : Reached σ e)
      (asked : e.call? r w = some o) (fine : ∀ f, o.failure ≠ some (.fault f)) : Reached σ o.value

/-- An encoder that is not built yet or was built to its end. -/
def Settled : Encoder → Prop
  | totalizer t => Totalizer.Settled t.inputs t
  | modular t => ModularTotalizer.Settled t.inputs t
  | constraint c => c.Settled

/-! ### What one call keeps -/

section

variable {σ : Type} [ReliableCollector σ] {e : Encoder} {r : Call} {w : Workspace σ}
  {o : Outcome Encoder σ}

theorem settled_call_totalizer {t : Totalizer} (settled : Totalizer.Settled t.inputs t)
    (asked : (totalizer t).call? r w = some o) : o.Safe w ((totalizer t).demand r) Settled := by
  cases r with
  | setModulus modulus => cases asked
  | encode direction maxBound =>
    cases asked
    refine (settled.encode direction maxBound w).map totalizer fun t' settled' => ?_
    rw [← settled'.inputs_eq] at settled'
    exact settled'
  | enforce direction bound =>
    cases asked
    exact .of_fine (settled.enforce direction bound w) settled
  | tighten direction bound => cases asked
  | summarize =>
    obtain ⟨⟨ls, outputs⟩, n, depth⟩ := settled.outputs_depth
    simp only [call?, summary, outputs, depth] at asked
    cases asked
    exact .of_fine (ne_fault (.inl rfl)) settled

theorem settled_call_modular {t : ModularTotalizer} (settled : ModularTotalizer.Settled t.inputs t)
    (asked : (modular t).call? r w = some o) : o.Safe w ((modular t).demand r) Settled := by
  cases r with
  | setModulus modulus =>
    cases set : t.setModulus modulus with
    | error why =>
      simp only [call?, setModulus?, set, Option.map_some, Except.map, Option.some.injEq] at asked
      subst asked
      exact .of_fine (fun f => by simp) settled
    | ok t' =>
      simp only [call?, setModulus?, set, Option.map_some, Except.map, Option.some.injEq] at asked
      subst asked
      have settled' := settled.setModulus set
      rw [← settled'.inputs_eq] at settled'
      exact .of_fine (ne_fault (.inl rfl)) settled'
  | encode direction maxBound =>
    cases direction with
    | atMost =>
      cases asked
      refine (settled.encode maxBound w).map modular fun t' settled' => ?_
      rw [← settled'.inputs_eq] at settled'
      exact settled'
    | atLeast => cases asked
  | enforce direction bound =>
    cases direction with
    | atMost =>
      cases asked
      exact .of_fine (settled.enforceUpper bound w) settled
    | atLeast => cases asked
  | tighten direction bound => cases asked
  | summarize =>
    obtain ⟨n, depth⟩ := settled.depth
    simp only [call?, summary, depth] at asked
    cases asked
    exact .of_fine (ne_fault (.inl rfl)) settled

theorem settled_call_constraint {c : TightenableConstraint} (settled : c.Settled)
    (asked : (constraint c).call? r w = some o) : o.Safe w ((constraint c).demand r) Settled := by
  cases r with
  | setModulus modulus => cases asked
  | encode direction maxBound => cases direction <;> cases asked
  | enforce direction bound => cases direction <;> cases asked
  | tighten direction bound =>
    cases asked
    exact (settled.tighten direction bound w).map constraint fun c' settled' => settled'
  | summarize =>
    cases asked
    exact .of_fine (ne_fault (.inl rfl)) settled

/-- A call leaves a settled encoder settled and ends in a fault only for want of indices. -/
theorem Settled.call (settled : e.Settled) (asked : e.call? r w = some o) :
    o.Safe w (e.demand r) Settled := by
  cases e with
  | totalizer t => exact settled_call_totalizer settled asked
  | modular t => exact settled_call_modular settled asked
  | constraint c => exact settled_call_constraint settled asked

theorem Settled.adderLimit_lt (settled : e.Settled) {next : Nat}
    (room : next + e.demand r ≤ Variable.maxIndex + 1) : e.adderLimit r < sizeRange := by
  unfold adderLimit
  split
  · exact ModularTotalizer.Settled.adderLimit_lt settled room
  · rename_i c direction bound
    cases accepted : c.tightenRefusal? direction bound with
    | some why => exact Nat.zero_lt_succ _
    | none =>
      have tightens := TightenableConstraint.tightens_of_refusal_eq_none accepted
      have ahead := (tightens.ahead settled.inRange).1
      simp only [demand, TightenableConstraint.tightenDemand, accepted] at room
      exact (settled.withBound (ahead.le_length settled.inRange)).adderLimit_lt room
  · exact Nat.zero_lt_succ _

theorem Reached.settled (reached : Reached σ e) : e.Settled := by
  induction reached with
  | totalizer inputs => exact Totalizer.Settled.fresh
  | modular inputs => exact ModularTotalizer.Settled.fresh fun m none => by cases none
  | constraint built => exact (TightenableConstraint.build_safe _ _ _ _ _).1 _ _ built
  | call before asked fine settled => exact (settled.call asked).left fine

/-! ### Whole runs -/

/-- On a collector that never fails, no call ends in a fault and no adder compares with a number out
of range, as long as literals can carry the indices of the variables asked for. This goes for the
building of a constraint and for every call to an encoder, whatever it was asked for before. -/
theorem fault_free (σ : Type) [ReliableCollector σ] (w : Workspace σ) :
    (∀ literals direction bound configuration,
      w.supply.next + TightenableConstraint.buildDemand literals direction bound configuration ≤
          Variable.maxIndex + 1 →
        (∀ c, TightenableConstraint.prepare literals direction bound configuration = .ok c →
            c.adderLimit < sizeRange) ∧
          ∀ f, (TightenableConstraint.build literals direction bound configuration w).1 ≠
            .error (.fault f)) ∧
    ∀ e, Reached σ e → ∀ r, w.supply.next + e.demand r ≤ Variable.maxIndex + 1 →
      e.adderLimit r < sizeRange ∧
        ∀ o, e.call? r w = some o → ∀ f, o.failure ≠ some (.fault f) := by
  constructor
  · intro literals direction bound configuration room
    refine ⟨fun c prepared => ?_, fun f => ?_⟩
    · rw [TightenableConstraint.buildDemand, prepared] at room
      exact (TightenableConstraint.settled_of_prepare prepared).adderLimit_lt room
    · exact (TightenableConstraint.build_safe literals direction bound configuration w).2 room f
  · intro e reached r room
    refine ⟨reached.settled.adderLimit_lt room, fun o asked => ?_⟩
    exact (reached.settled.call asked).fine room

end

/-- The theorem for three inputs: a constraint is built over them, and a modular totalizer that was
built for the bound two is asked for the bound one. -/
theorem fault_free_three :
    let inputs := ModularTotalizer.Usage.threeInputs
    let w : Workspace Formula := ⟨.empty, ⟨3⟩, #[]⟩
    let built := (ModularTotalizer.ofInputs inputs).encode 2 w
    (∀ f, (TightenableConstraint.build inputs .atMost 2 ⟨.modular, .modular, some 2⟩ w).1 ≠
        .error (.fault f)) ∧
      Reached Formula (modular built.value) ∧
      ∀ o, (modular built.value).call? (.enforce .atMost 1) built.work = some o →
        ∀ f, o.failure ≠ some (.fault f) := by
  intro inputs w built
  have reached : Reached Formula (modular built.value) := by
    have start : Reached Formula (modular (.ofInputs inputs)) := .modular inputs
    exact start.call (r := .encode .atMost 2) (w := w) rfl (ne_fault (.inl (by decide)))
  refine ⟨?_, reached, ?_⟩
  · exact ((fault_free Formula w).1 inputs .atMost 2 ⟨.modular, .modular, some 2⟩ (by decide)).2
  · exact ((fault_free Formula built.work).2 _ reached (.enforce .atMost 1) (by decide)).2

end Encoder

end CardinalityClauses
