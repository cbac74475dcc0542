import CardinalityClauses.Proofs.ModularTotalizer.Calls
import CardinalityClauses.Proofs.Sharing.Growth
import CardinalityClauses.Proofs.Totalizer.Calls

/-!
Calls to a tightenable constraint on a collector that never fails.

Between calls the bound and the modulus of a constraint are in range, and its tree, if it has one,
is complete (`Settled`). Building and tightening keep it so and end in a fault only for want of
indices (`build_safe`, `Settled.tighten`). Nothing is asked about the literals: they need not be
over variables that are used.
-/

namespace CardinalityClauses.TightenableConstraint

/-- The bound and the modulus are in range, and the tree was built to its end. -/
structure Settled (c : TightenableConstraint) : Prop where
  inRange : c.bound ≤ c.literals.length
  preset : c.PresetOk
  complete : ∀ tree, c.tree = some tree → tree.Complete c.direction c.literals.length

/-- How many variables a request to tighten takes. -/
def tightenDemand (c : TightenableConstraint) (direction : Direction) (bound : Nat) : Nat :=
  match c.tightenRefusal? direction bound with
  | some _ => 0
  | none => (c.withBound bound).demand

/-- How many variables a request to build takes. -/
def buildDemand (literals : List Literal) (direction : Direction) (bound : Nat)
    (configuration : Configuration) : Nat :=
  match prepare literals direction bound configuration with
  | .error _ => 0
  | .ok c => c.demand

variable {c : TightenableConstraint} {bound : Nat} {tree : CountingTree}

theorem Settled.withBound (settled : c.Settled) (inRange : bound ≤ c.literals.length) :
    (c.withBound bound).Settled :=
  ⟨inRange, settled.preset, settled.complete⟩

theorem Settled.withTree (settled : c.Settled)
    (complete : tree.Complete c.direction c.literals.length) : (c.withTree tree).Settled where
  inRange := settled.inRange
  preset := settled.preset
  complete := by
    rintro _ ⟨⟩
    exact complete

/-- A constraint before its first clause is settled. -/
theorem settled_of_prepare {literals : List Literal} {direction : Direction}
    {configuration : Configuration}
    (prepared : prepare literals direction bound configuration = .ok c) : c.Settled := by
  obtain ⟨⟨why, refused⟩, -⟩ | ⟨inRange, preset⟩ :=
    prepare_cases literals direction bound configuration
  · rw [refused] at prepared
    cases prepared
  · rw [prepare_eq inRange preset] at prepared
    cases prepared
    exact ⟨inRange, preset, fun tree built => by cases built⟩

section

variable {σ : Type} [ReliableCollector σ]

/-- Handing clauses over leaves a constraint settled. -/
theorem Settled.extend (settled : c.Settled) (cs : List Clause) (demand : Nat) (w : Workspace σ) :
    Outcome.Safe ⟨(w.extend cs).1, c, (w.extend cs).2⟩ w demand Settled := by
  obtain ⟨w', extended, -⟩ := w.extend_spec cs
  rw [extended]
  exact .of_fine (ne_fault (.inl rfl)) settled

/-- Enforcing the present bound on a complete tree does not end in a fault. -/
theorem Settled.enforce_ne_fault (settled : c.Settled) (built : c.tree = some tree)
    (w : Workspace σ) (f : Fault) : (c.enforce w).1 ≠ some (.fault f) := by
  have complete := settled.complete tree built
  cases tree with
  | totalizer t =>
    obtain ⟨-, maxBound, outputs, complete⟩ := complete
    simp only [enforce, built]
    exact (Totalizer.Settled.built rfl complete).enforce c.direction c.bound w f
  | modular t =>
    obtain ⟨-, modulus, maxBound, upper, lower, complete⟩ := complete
    have counted : c.countedBound = .ok _ := countedBound_withBound settled.inRange
    simp only [enforce, built, counted]
    exact complete.enforceUpper_ne_fault _ w f

theorem Settled.enforce (settled : c.Settled) (built : c.isBuilt = true) (demand : Nat)
    (w : Workspace σ) : Outcome.Safe ⟨(c.enforce w).1, c, (c.enforce w).2⟩ w demand Settled := by
  obtain ⟨tree, built⟩ := Option.isSome_iff_exists.1 built
  exact .of_fine (settled.enforce_ne_fault built w) settled

/-- A tree for a bound that needs one is built to its end, or indices are wanting. -/
theorem Settled.materialize (settled : c.Settled) (unbuilt : c.isBuilt = false)
    (proper : c.Proper) (w : Workspace σ) :
    (c.materialize w).Safe w c.treeDemand Settled := by
  rw [isBuilt, Option.isSome_eq_false_iff, Option.isNone_iff_eq_none] at unbuilt
  have planned := plannedVariables_treePlan settled.preset proper w.supply.next
  have making := makeTree_ran settled.preset proper w
  rcases eq : c.makeTree w with ⟨result, w'⟩
  rw [eq] at making
  unfold TightenableConstraint.materialize
  simp only [unbuilt, eq]
  cases making with
  | @made tree _ ran made =>
    have settled := settled.withTree made.complete
    exact .of_fine (settled.enforce_ne_fault rfl w') settled
  | @missed why _ ran =>
    have ending := ran.done_or_crowded (Collector.unfailing_of_reliable _)
    rw [planned] at ending
    exact .of_done_or_crowded (ending.imp_left fun done => by cases done)

/-- Without a tree, every bound in range is reached, or indices are wanting. -/
theorem Settled.reach (settled : c.Settled) (unbuilt : c.isBuilt = false) (w : Workspace σ) :
    (c.reach w).Safe w c.demand Settled := by
  unfold TightenableConstraint.reach
  by_cases fixing : c.bound = c.fixingBound
  · rw [if_pos fixing]
    exact settled.extend _ _ w
  rw [if_neg fixing]
  by_cases idle : c.bound = c.idleBound
  · rw [if_pos idle]
    exact .of_fine (ne_fault (.inl rfl)) settled
  rw [if_neg idle]
  have demanded : c.demand = c.treeDemand := if_neg (by simp [unbuilt, fixing, idle])
  rw [demanded]
  exact settled.materialize unbuilt (proper_of_not_trivial settled.inRange fixing idle) w

theorem Settled.advance (settled : c.Settled) (busy : c.bound ≠ c.idleBound) (w : Workspace σ) :
    (c.advance w).Safe w c.demand Settled := by
  by_cases built : c.isBuilt = true
  · have eq : c.advance w = ⟨(c.enforce w).1, c, (c.enforce w).2⟩ := if_pos built
    rw [eq]
    exact settled.enforce built _ w
  · have reached : c.advance w = c.reach w := by
      rw [TightenableConstraint.advance, if_neg built, TightenableConstraint.reach, if_neg busy]
    rw [reached]
    exact settled.reach (eq_false_of_ne_true built) w

/-- Moving to a bound in range is as safe as advancing to it, also if the bound is put back. -/
theorem Settled.moveTo (settled : c.Settled) (inRange : bound ≤ c.literals.length)
    (busy : bound ≠ c.idleBound) (w : Workspace σ) :
    (c.moveTo bound w).Safe w (c.withBound bound).demand Settled := by
  have safe := (settled.withBound inRange).advance busy w
  have value : ((c.withBound bound).advance w).value.literals = c.literals := by
    rcases advance_value (c := c.withBound bound) (w := w) with same | ⟨-, tree, same⟩ <;> rw [same]
    · rfl
    · rfl
  obtain ⟨o, eq⟩ : ∃ o, (c.withBound bound).advance w = o := ⟨_, rfl⟩
  have advanced : ({ c with bound := bound } : TightenableConstraint).advance w = o := eq
  rw [eq] at safe value
  obtain ⟨left, fine⟩ := safe
  unfold TightenableConstraint.moveTo
  rw [advanced]
  obtain ⟨failure, moved, w'⟩ := o
  have putBack (settled' : moved.Settled) : ({ moved with bound := c.bound }).Settled := by
    refine settled'.withBound ?_
    rw [value]
    exact settled.inRange
  match failure with
  | none => exact ⟨left, fine⟩
  | some (.fault f) => exact ⟨left, fine⟩
  | some (.refused why) => exact ⟨fun none => putBack (left none), fine⟩
  | some .outOfMemory => exact ⟨fun none => putBack (left none), fine⟩

/-- A request to tighten a settled constraint leaves it settled and ends in a fault only for want of
indices. -/
theorem Settled.tighten (settled : c.Settled) (direction : Direction) (bound : Nat)
    (w : Workspace σ) :
    (c.tighten direction bound w).Safe w (c.tightenDemand direction bound) Settled := by
  unfold TightenableConstraint.tighten tightenDemand
  cases accepted : c.tightenRefusal? direction bound with
  | some why => exact .of_fine (fun f => by simp) settled
  | none =>
    have tightens := tightens_of_refusal_eq_none accepted
    obtain ⟨ahead, busy⟩ := tightens.ahead settled.inRange
    exact settled.moveTo (ahead.le_length settled.inRange) busy w

/-- A request to build gives a settled constraint or none, and it ends in a fault only for want of
indices. -/
theorem build_safe (literals : List Literal) (direction : Direction) (bound : Nat)
    (configuration : Configuration) (w : Workspace σ) :
    (∀ c w', build literals direction bound configuration w = (.ok c, w') → c.Settled) ∧
      (w.supply.next + buildDemand literals direction bound configuration ≤
          Variable.maxIndex + 1 →
        ∀ f, (build literals direction bound configuration w).1 ≠ .error (.fault f)) := by
  obtain ⟨⟨why, refused⟩, -⟩ | ⟨inRange, preset⟩ :=
    prepare_cases literals direction bound configuration
  · simp [build, refused]
  have prepared : prepare literals direction bound configuration = .ok (blank ..) :=
    prepare_eq inRange preset
  have safe := (settled_of_prepare prepared).reach rfl w
  have demand : buildDemand literals direction bound configuration =
      (blank literals direction bound configuration).demand := by
    rw [buildDemand, prepared]
  rw [build_eq_answer inRange preset, demand]
  obtain ⟨o, eq⟩ : ∃ o, (blank literals direction bound configuration).reach w = o := ⟨_, rfl⟩
  rw [eq] at safe ⊢
  obtain ⟨left, fine⟩ := safe
  obtain ⟨_ | why, c, w'⟩ := o
  · refine ⟨?_, fun _ f => by simp [answer]⟩
    rintro _ _ ⟨⟩
    exact left (ne_fault (.inl rfl))
  · refine ⟨?_, fun room f fault => ?_⟩
    · rintro _ _ ⟨⟩
    · cases fault
      exact fine room f rfl

end

end CardinalityClauses.TightenableConstraint
