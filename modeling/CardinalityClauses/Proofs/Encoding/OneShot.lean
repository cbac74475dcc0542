import CardinalityClauses.Encoding.OneShot
import CardinalityClauses.Proofs.Totalizer.Build

/-!
Constraints that are encoded once and for all.

The clauses of a constraint have a model over given values of its literals exactly if these
values satisfy it, and there is such a model for any values of the older variables. Encoding on a
collector that never fails succeeds for every constraint, also for one that no values satisfy
(`Constraint.encode_spec`). Where a collector fails, the clauses that are left still have such a
model (`Constraint.lenient_encodePlan`).
-/

namespace CardinalityClauses

/-! ### Unit clauses for all literals -/

section Unit

variable {ls : List Literal}

/-- The unit clauses of literals say that all of them are true. -/
theorem Valuation.models_units {v : Valuation} :
    v.Models (ls.map .unit) ↔ v.trueCount ls = ls.length := by
  simp [Models, trueCount, List.countP_eq_length]

/-- The unit clauses of complements say that none of the literals is true. -/
theorem Valuation.models_complementUnits {v : Valuation} :
    v.Models (ls.map fun l => .unit l.complement) ↔ v.trueCount ls = 0 := by
  simp [Models, trueCount, List.countP_eq_zero]

variable {on : Nat → Prop}

theorem clausesOver_units (about : LiteralsOver on ls) : ClausesOver on (ls.map .unit) := by
  intro c hc
  obtain ⟨l, hl, rfl⟩ := List.mem_map.1 hc
  simpa [LiteralsOver, Clause.unit] using about l hl

theorem clausesOver_complementUnits (about : LiteralsOver on ls) :
    ClausesOver on (ls.map fun l => .unit l.complement) := by
  have complements := clausesOver_units (literalsOver_map_complement.2 about)
  rwa [List.map_map] at complements

end Unit

/-! ### Clauses for one constraint -/

namespace Constraint

/-- The clauses say what a constraint says, by variables of their own from `first` up to
`last`. -/
structure EncodedBy (c : Constraint) (first last : Nat) (clauses : List Clause) : Prop where
  about : ClausesOver (· < last) clauses
  sound : ∀ v : Valuation, v.Models clauses → c.holds v = true
  exists_models : ∀ v : Valuation, c.holds v = true →
    ∃ w, v.AgreeOutside first last w ∧ w.Models clauses

/-- Clauses without variables of their own. -/
theorem EncodedBy.of_iff {c : Constraint} {next : Nat} {clauses : List Clause}
    (about : ClausesOver (· < next) clauses)
    (means : ∀ v : Valuation, v.Models clauses ↔ c.holds v = true) :
    c.EncodedBy next next clauses where
  about := about
  sound := fun v => (means v).1
  exists_models := fun v holds => ⟨v, .refl _ v, (means v).2 holds⟩

/-- Whatever the clauses leave to the older variables satisfies the constraint. -/
theorem EncodedBy.allows {c : Constraint} {first last : Nat} {clauses : List Clause}
    (encoded : c.EncodedBy first last clauses) :
    Allows (fun v => c.holds v = true) first last clauses :=
  ⟨encoded.about, encoded.exists_models⟩

/-- The clauses that count and those for one bound encode that bound. -/
theorem EncodedBy.of_bound {direction : Direction} {inputs : List Literal} {first last b : Nat}
    {clauses : List Clause} {Allowed : Nat → Prop} {enforcing : Nat → List Clause}
    (encoding : BoundEncoding direction inputs first last clauses Allowed enforcing)
    (old : LiteralsOver (· < first) inputs) (allowed : Allowed b) :
    (Constraint.mk direction inputs b).EncodedBy first last (clauses ++ enforcing b) where
  about := clausesOver_append.2 ⟨encoding.about, encoding.over_enforcing b allowed⟩
  sound := fun v models => by
    rw [Valuation.models_append] at models
    exact encoding.sound v b allowed models.1 models.2
  exists_models := fun v holds => by
    obtain ⟨w, agree, models, exact_⟩ := encoding.exists_exact v
    rw [holds_of_agree agree.below old] at holds
    exact ⟨w, agree, Valuation.models_append.2 ⟨models, exact_ b allowed holds⟩⟩

/-! ### The encoding -/

/-- How many variables the clauses of a constraint take. -/
def encodeDemand (c : Constraint) : Nat :=
  if c.isTautology || c.isUnsatisfiable || c.isPositiveAssignment || c.isNegativeAssignment then 0
  else Totalizer.buildDemand c.direction c.bound c.literals

variable {c : Constraint}

theorem holds_of_isTautology (trivial : c.isTautology = true) (v : Valuation) :
    c.holds v = true := by
  obtain ⟨_ | _, literals, bound⟩ := c
  · have few := v.trueCount_le_length literals
    simp only [isTautology, decide_eq_true_eq] at trivial
    simp only [holds, decide_eq_true_eq]
    omega
  · simp only [isTautology, beq_iff_eq] at trivial
    simp [holds, trivial]

theorem not_holds_of_isUnsatisfiable (impossible : c.isUnsatisfiable = true) (v : Valuation) :
    c.holds v = false := by
  obtain ⟨_ | _, literals, bound⟩ := c
  · cases impossible
  · have few := v.trueCount_le_length literals
    simp only [isUnsatisfiable, decide_eq_true_eq] at impossible
    simp only [holds, decide_eq_false_iff_not]
    omega

theorem holds_iff_of_isPositiveAssignment (fixing : c.isPositiveAssignment = true)
    (v : Valuation) : c.holds v = true ↔ v.trueCount c.literals = c.literals.length := by
  obtain ⟨_ | _, literals, bound⟩ := c
  · cases fixing
  · have few := v.trueCount_le_length literals
    simp only [isPositiveAssignment, beq_iff_eq] at fixing
    simp only [holds, decide_eq_true_eq]
    omega

theorem holds_iff_of_isNegativeAssignment (fixing : c.isNegativeAssignment = true)
    (v : Valuation) : c.holds v = true ↔ v.trueCount c.literals = 0 := by
  obtain ⟨_ | _, literals, bound⟩ := c
  · simp only [isNegativeAssignment, beq_iff_eq] at fixing
    simp [holds, fixing]
  · cases fixing

/-- A constraint that is not trivial can be left to a totalizer. -/
theorem allowed_of_not_trivial (open_ : c.isTautology = false)
    (satisfiable : c.isUnsatisfiable = false) :
    Totalizer.Allowed c.direction c.literals.length c.bound c.bound := by
  obtain ⟨_ | _, literals, bound⟩ := c
  · simp only [isTautology, decide_eq_false_iff_not] at open_
    exact ⟨Nat.le_refl _, Nat.lt_of_not_le open_⟩
  · simp only [isTautology, beq_eq_false_iff_ne] at open_
    simp only [isUnsatisfiable, decide_eq_false_iff_not] at satisfiable
    exact ⟨Nat.le_refl _, Nat.pos_of_ne_zero open_, Nat.le_of_not_lt satisfiable⟩

/-- Such a constraint has literals. -/
theorem ne_nil_of_not_trivial (open_ : c.isTautology = false)
    (satisfiable : c.isUnsatisfiable = false) : c.literals ≠ [] := by
  obtain ⟨_ | _, _ | ⟨l, literals⟩, bound⟩ := c
  · cases open_
  · simp
  · simp only [isTautology, beq_eq_false_iff_ne] at open_
    simp only [isUnsatisfiable, List.length_nil, decide_eq_false_iff_not] at satisfiable
    omega
  · simp

/-- What the encoding of a constraint does, from variable `next` on. -/
def encodePlan (c : Constraint) (next : Nat) : List Piece :=
  if c.isTautology then []
  else if c.isUnsatisfiable then [Workspace.handing [.empty]]
  else if c.isPositiveAssignment then [Workspace.handing (c.literals.map .unit)]
  else if c.isNegativeAssignment then
    [Workspace.handing (c.literals.map fun l => .unit l.complement)]
  else
    Totalizer.buildPlan c.direction c.bound c.literals next ++
      [Workspace.handing (Totalizer.enforcing c.direction
        (Totalizer.builtOutputs c.direction c.bound c.literals next) c.bound)]

theorem plannedVariables_encodePlan (c : Constraint) (next : Nat) :
    plannedVariables (c.encodePlan next) = c.encodeDemand := by
  unfold encodePlan encodeDemand
  cases c.isTautology <;> cases c.isUnsatisfiable <;> cases c.isPositiveAssignment <;>
    cases c.isNegativeAssignment <;> simp [Totalizer.plannedVariables_buildPlan]

variable {next : Nat}

/-- All that is planned says what the constraint does. -/
theorem encodedBy_encodePlan (old : LiteralsOver (· < next) c.literals)
    (room : next + c.encodeDemand ≤ Variable.maxIndex + 1) :
    c.EncodedBy next (next + c.encodeDemand) (plannedClauses (c.encodePlan next)) := by
  unfold encodePlan
  by_cases trivial : c.isTautology = true
  · rw [if_pos trivial, encodeDemand, if_pos (by simp [trivial])]
    exact .of_iff (by simp [ClausesOver, plannedClauses]) fun v => by
      simp [holds_of_isTautology trivial, Valuation.Models, plannedClauses]
  rw [if_neg trivial]
  by_cases impossible : c.isUnsatisfiable = true
  · rw [if_pos impossible, encodeDemand, if_pos (by simp [impossible]),
      Workspace.plannedClauses_handing]
    refine .of_iff (by simp [ClausesOver, Clause.empty, LiteralsOver]) fun v => ?_
    simp [not_holds_of_isUnsatisfiable impossible, Valuation.Models, Clause.holds, Clause.empty]
  rw [if_neg impossible]
  by_cases positive : c.isPositiveAssignment = true
  · rw [if_pos positive, encodeDemand, if_pos (by simp [positive]),
      Workspace.plannedClauses_handing]
    exact .of_iff (clausesOver_units old) fun v =>
      Valuation.models_units.trans (holds_iff_of_isPositiveAssignment positive v).symm
  rw [if_neg positive]
  by_cases negative : c.isNegativeAssignment = true
  · rw [if_pos negative, encodeDemand, if_pos (by simp [negative]),
      Workspace.plannedClauses_handing]
    exact .of_iff (clausesOver_complementUnits old) fun v =>
      Valuation.models_complementUnits.trans (holds_iff_of_isNegativeAssignment negative v).symm
  rw [if_neg negative, plannedClauses_append, Workspace.plannedClauses_handing]
  simp only [Bool.not_eq_true] at trivial impossible positive negative
  have demanded : c.encodeDemand = Totalizer.buildDemand c.direction c.bound c.literals := by
    simp [encodeDemand, trivial, impossible, positive, negative]
  rw [demanded] at room ⊢
  exact .of_bound
    (Totalizer.boundEncoding_buildPlan (ne_nil_of_not_trivial trivial impossible) old room) old
    (allowed_of_not_trivial trivial impossible)

/-- However far the encoding comes, older variables can have all values that satisfy the
constraint. -/
theorem lenient_encodePlan (old : LiteralsOver (· < next) c.literals) :
    Lenient (fun v => c.holds v = true) next (c.encodePlan next) := by
  have whole (room : next + plannedVariables (c.encodePlan next) ≤ Variable.maxIndex + 1) :
      Allows (fun v => c.holds v = true) next (next + plannedVariables (c.encodePlan next))
        (plannedClauses (c.encodePlan next)) := by
    rw [plannedVariables_encodePlan] at room ⊢
    exact (encodedBy_encodePlan old room).allows
  have handed (cs : List Clause) (planned : c.encodePlan next = [Workspace.handing cs]) :
      Lenient (fun v => c.holds v = true) next (c.encodePlan next) := by
    rw [planned] at whole ⊢
    exact .concat (.nil _ next) whole
  by_cases trivial : c.isTautology = true
  · rw [encodePlan, if_pos trivial]
    exact .nil _ next
  by_cases impossible : c.isUnsatisfiable = true
  · exact handed [.empty] (by simp [encodePlan, trivial, impossible])
  by_cases positive : c.isPositiveAssignment = true
  · exact handed (c.literals.map .unit) (by simp [encodePlan, trivial, impossible, positive])
  by_cases negative : c.isNegativeAssignment = true
  · exact handed (c.literals.map fun l => .unit l.complement)
      (by simp [encodePlan, trivial, impossible, positive, negative])
  · have planned : c.encodePlan next = Totalizer.buildPlan c.direction c.bound c.literals next ++
        [Workspace.handing (Totalizer.enforcing c.direction
          (Totalizer.builtOutputs c.direction c.bound c.literals next) c.bound)] := by
      simp [encodePlan, trivial, impossible, positive, negative]
    rw [planned] at whole ⊢
    exact ((Totalizer.lenient_buildPlan _ _ old).mono fun v _ => True.intro).concat whole

/-- A constraint is encoded by its plan, as far as the collector allows. -/
theorem encode_ran {σ : Type} [LawfulCollector σ] (c : Constraint) (w : Workspace σ) :
    w.Ran (c.encodePlan w.supply.next) (c.encode w).1 (c.encode w).2 := by
  unfold encode encodePlan
  by_cases trivial : c.isTautology = true
  · simp only [if_pos trivial]
    exact .nil w
  simp only [if_neg trivial]
  by_cases impossible : c.isUnsatisfiable = true
  · simp only [if_pos impossible]
    exact w.extend_ran _
  simp only [if_neg impossible]
  by_cases positive : c.isPositiveAssignment = true
  · simp only [if_pos positive]
    exact w.extend_ran _
  simp only [if_neg positive]
  by_cases negative : c.isNegativeAssignment = true
  · simp only [if_pos negative]
    exact w.extend_ran _
  simp only [if_neg negative]
  simp only [Bool.not_eq_true] at trivial impossible
  obtain ⟨failure, t, w₁, built, ran, inputs, complete⟩ := Totalizer.encode_ran c.direction c.bound
    (ne_nil_of_not_trivial trivial impossible) w
  simp only [Totalizer.encodeConstraint, built]
  cases failure with
  | some why => exact ran.append _
  | none =>
      simp only [(complete rfl).enforce_eq (inputs ▸ allowed_of_not_trivial trivial impossible)]
      exact ran.trans (w₁.extend_ran _)

/-- A constraint is encoded with room for its variables. -/
theorem encode_spec {σ : Type} [ReliableCollector σ] (w : Workspace σ)
    (old : LiteralsOver (· < w.supply.next) c.literals)
    (room : w.supply.next + c.encodeDemand ≤ Variable.maxIndex + 1) :
    ∃ w' clauses, c.encode w = (none, w') ∧ w.Grows w' clauses c.encodeDemand ∧
      c.EncodedBy w.supply.next w'.supply.next clauses := by
  have planned := c.plannedVariables_encodePlan w.supply.next
  obtain ⟨done, grows⟩ := (c.encode_ran w).of_unfailing (Collector.unfailing_of_reliable _)
    (by rwa [planned])
  rw [planned] at grows
  refine ⟨(c.encode w).2, _, Prod.ext done rfl, grows, ?_⟩
  rw [grows.next_eq]
  exact encodedBy_encodePlan old room

end Constraint

end CardinalityClauses
