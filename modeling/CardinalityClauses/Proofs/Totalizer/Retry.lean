import CardinalityClauses.Proofs.ModularTotalizer.Retry
import CardinalityClauses.Proofs.Totalizer.Calls
import CardinalityClauses.Proofs.Totalizer.Counting

/-!
Totalizers that are used on after a build ran out of memory.

A totalizer records its direction and its maximum bound before it hands the first clause over, and
the outputs of a node after its adder was taken. The adder of the root comes last. So a build that
runs out of memory leaves a totalizer that counts as built and whose root has no outputs. Asked
for a bound that takes an output of the root, it stops with a fault
(`Usage.enforce_faults_after_interruption`).

Main statement: that is the only fault there is while literals can carry all indices. Whatever
failed before, every bound that was enforced without a failure is met by every model of the clauses
held (`Usage.Reached.faults_and_bounds`).
-/

namespace CardinalityClauses

/-- A run that fails has not done its last piece. -/
theorem Workspace.finished_lt_of_failure {σ : Type} [Collector σ] (w : Workspace σ)
    {ps : List Piece} {why : Failure} (failed : (w.runPieces ps).failure = some why) :
    (w.runPieces ps).finished < ps.length := by
  induction ps generalizing w with
  | nil => cases failed
  | cons p rest ih =>
      rw [runPieces] at failed ⊢
      cases eq : w.runPiece p with
      | mk failure w₁ =>
          rw [eq] at failed
          cases failure with
          | none => exact Nat.succ_lt_succ (ih w₁ failed)
          | some first => exact Nat.zero_lt_succ _

namespace Totalizer

open LawfulCollector (contents)

/-! ### The nodes of a build that stopped -/

/-- The nodes that have an adder. -/
def Node.isInternal : Node → Bool
  | leaf _ => false
  | internal .. => true

/-- A node keeps its outputs if fewer than `n` inner nodes stand before it. -/
theorem Node.getElem?_keepOutputs (n : Nat) (nodes : List Node) (i : Nat) :
    (keepOutputs n nodes)[i]? = nodes[i]?.map fun node =>
      if (nodes.take i).countP isInternal < n then node else node.withoutOutputs := by
  induction nodes generalizing n i with
  | nil => simp [keepOutputs]
  | cons node rest ih =>
      cases node with
      | leaf input =>
          cases i with
          | zero =>
              simp only [keepOutputs, List.getElem?_cons_zero, Option.map_some]
              split <;> rfl
          | succ i => simpa [keepOutputs, isInternal] using ih n i
      | internal outputs depth maxValue left right =>
          cases n with
          | zero =>
              cases i with
              | zero => simp [keepOutputs]
              | succ i => simpa [keepOutputs] using ih 0 i
          | succ n =>
              cases i with
              | zero => simp [keepOutputs]
              | succ i => simpa [keepOutputs, isInternal, List.countP_cons] using ih n i

namespace Tree

theorem countP_layout (tree : Tree) (direction : Direction) (start : Nat) :
    (tree.layout start).countP Node.isInternal = (tree.pieces direction start).length := by
  induction tree generalizing start with
  | leaf input => rfl
  | node outputs left right ihLeft ihRight =>
      simp [layout, pieces, ihLeft, ihRight, Node.isInternal]

/-- If a run stops before its last piece, then the root has no outputs. -/
theorem getElem?_keepOutputs_of_lt {tree : Tree} {direction : Direction} {n start : Nat}
    (stopped : n < (tree.pieces direction start).length) :
    ∃ root, (Node.keepOutputs n (tree.layout start))[tree.nodeCount - 1]? = some root ∧
      root.outputs = [] := by
  cases tree with
  | leaf input => exact absurd stopped (Nat.not_lt_zero n)
  | node outputs left right =>
      let before := left.layout start ++ right.layout (start + left.nodeCount)
      have here : before.length = left.nodeCount + right.nodeCount := by
        simp [before, length_layout]
      have inner : n ≤ before.countP Node.isInternal := by
        simp only [pieces, List.length_append, List.length_singleton] at stopped
        simp only [before, List.countP_append, countP_layout _ direction]
        omega
      rw [Node.getElem?_keepOutputs]
      simp only [layout, nodeCount, Nat.add_sub_cancel]
      rw [← here, List.getElem?_concat_length, List.take_left, Option.map_some,
        if_neg (Nat.not_lt_of_le inner)]
      exact ⟨_, rfl, rfl⟩

end Tree

/-! ### The states of a totalizer -/

/-- A totalizer that counts as built although its build ran out of memory. -/
structure Interrupted (t : Totalizer) (direction : Direction) (maxBound : Nat) : Prop where
  built : t.built = some (direction, maxBound)
  outputs_eq : t.outputs = .ok []

section Interrupted

variable {σ : Type} [Collector σ] {inputs : List Literal} {t : Totalizer}
  {direction asked : Direction} {maxBound bound : Nat}

/-- A build that runs out of memory does so before the adder of the root was taken. -/
theorem buildTree_interrupted {shape : Halving Literal} {w : Workspace σ}
    (empty : t.nodes = []) (built : t.built = some (direction, maxBound))
    (failed : (t.buildTree direction maxBound shape w).failure = some .outOfMemory) :
    (t.buildTree direction maxBound shape w).value.Interrupted direction maxBound := by
  obtain ⟨tree, grown⟩ :
    ∃ tree, (Tree.grow (outputCount direction maxBound) shape w.supply.next).1 = tree := ⟨_, rfl⟩
  have stopped : ∀ why, (w.runPieces (tree.pieces direction 0)).failure = some why →
      (w.runPieces (tree.pieces direction 0)).finished < (tree.pieces direction 0).length :=
    fun why => w.finished_lt_of_failure
  obtain ⟨finished, failure, w', ran⟩ : ∃ finished failure w',
    w.runPieces (tree.pieces direction 0) = ⟨finished, failure, w'⟩ := ⟨_, _, _, rfl⟩
  have unsettled := t.tally.settle_eq_or w.clauseCount w.supply.next w'.clauseCount
    w'.supply.next failure
  obtain ⟨failure', tally, settled⟩ : ∃ failure' tally, t.tally.settle w.clauseCount w.supply.next
    w'.clauseCount w'.supply.next failure = (failure', tally) := ⟨_, _, rfl⟩
  rw [settled] at unsettled
  rw [ran] at stopped
  simp only [buildTree, empty, List.length_nil, grown, ran, settled] at failed ⊢
  cases failure' with
  | none => cases failed
  | some why =>
      obtain rfl : why = .outOfMemory := by simpa using failed
      obtain rfl : some Failure.outOfMemory = failure := by simpa using unsettled
      obtain ⟨root, rootAt, nothing⟩ := Tree.getElem?_keepOutputs_of_lt (stopped _ rfl)
      refine ⟨built, ?_⟩
      simp only [outputs, rootNode, List.nil_append, Nat.zero_add, rootAt]
      exact congrArg Except.ok nothing

/-- So does a request to build that runs out of memory. -/
theorem encode_interrupted {w : Workspace σ}
    (failed : ((ofInputs inputs).encode direction maxBound w).failure = some .outOfMemory) :
    ((ofInputs inputs).encode direction maxBound w).value.Interrupted direction maxBound := by
  unfold encode at failed ⊢
  simp only [ofInputs] at failed ⊢
  cases split : Halving.ofList? inputs with
  | none => simp [split] at failed
  | some shape =>
      simp only [split] at failed ⊢
      exact buildTree_interrupted rfl rfl failed

/-- A bound that takes an output of the root cannot be enforced on such a totalizer, and a request
for one that the build is for ends in a fault. -/
theorem Interrupted.enforce_eq (cut : t.Interrupted direction maxBound)
    (proper : Allowed asked t.inputs.length bound bound) (w : Workspace σ) :
    t.enforce asked bound w = (some (if direction ≠ asked then .refused .directionNotSupported
      else if bound ≤ maxBound then .fault .indexOutOfBounds else .refused .notEncoded), w) := by
  by_cases other : direction ≠ asked
  · rw [if_pos other]
    exact enforce_of_unsupported (by simp [supports, cut.built, other]) proper w
  by_cases le : bound ≤ maxBound
  · obtain rfl := not_ne_iff.1 other
    have supported : t.supports direction bound = .ok () := by simp [supports, cut.built, le]
    rw [if_neg other, if_pos le]
    cases direction with
    | atMost =>
        have lt : bound < t.inputs.length := proper.2
        simp [enforce, enforceUpper, Nat.not_le_of_lt lt, supported, enforceOutput, cut.outputs_eq]
    | atLeast =>
        obtain ⟨-, positive, small⟩ := proper
        simp [enforce, enforceLower, Nat.ne_of_gt positive, Nat.not_lt_of_le small, supported,
          enforceOutput, cut.outputs_eq]
  · rw [if_neg other, if_neg le]
    exact enforce_of_unsupported (by simp [supports, cut.built, other, le]) proper w

end Interrupted

/-- A totalizer is fresh, or its tree is complete and the clauses of the tree are held, or its
build ran out of memory. -/
inductive Standing (inputs : List Literal) (t : Totalizer) (held : List Clause)
    (interrupted : Bool) : Prop
  | fresh (unbuilt : t = ofInputs inputs) (steady : interrupted = false)
  | built {direction : Direction} {maxBound next : Nat} (same : t.inputs = inputs)
      (complete : t.Complete direction maxBound (builtOutputs direction maxBound inputs next))
      (counted : plannedClauses (buildPlan direction maxBound inputs next) ⊆ held)
      (steady : interrupted = false)
  | cut {direction : Direction} {maxBound : Nat} (same : t.inputs = inputs)
      (cut : t.Interrupted direction maxBound) (stopped : interrupted = true)

/-- How a request to enforce a bound can end. -/
inductive Answer {σ : Type} [Collector σ] (inputs : List Literal) (t : Totalizer)
    (held : List Clause) (interrupted : Bool) (direction : Direction) (bound : Nat)
    (w : Workspace σ) : Option Failure × Workspace σ → Prop
  /-- The bound is met anyway. -/
  | nothing (trivial : (Constraint.mk direction inputs bound).isTautology = true) :
      Answer inputs t held interrupted direction bound w (none, w)
  | refused (why : Refusal) :
      Answer inputs t held interrupted direction bound w (some (.refused why), w)
  /-- The clauses of the tree are held, and that of the bound is handed over. -/
  | handed {maxBound next : Nat} (allowed : Allowed direction inputs.length maxBound bound)
      (counted : plannedClauses (buildPlan direction maxBound inputs next) ⊆ held) :
      Answer inputs t held interrupted direction bound w
        (w.extend (enforcing direction (builtOutputs direction maxBound inputs next) bound))
  /-- The build that the bound needs ran out of memory. -/
  | cut {maxBound : Nat} (built : t.built = some (direction, maxBound))
      (allowed : Allowed direction inputs.length maxBound bound) (stopped : interrupted = true) :
      Answer inputs t held interrupted direction bound w
        (some (.fault .indexOutOfBounds), w)

section Standing

variable {inputs : List Literal} {t : Totalizer} {held : List Clause} {interrupted : Bool}

theorem Standing.inputs_eq (standing : Standing inputs t held interrupted) : t.inputs = inputs := by
  cases standing with
  | fresh unbuilt steady => rw [unbuilt]; rfl
  | built same complete counted steady => exact same
  | cut same cut stopped => exact same

theorem Standing.mono (standing : Standing inputs t held interrupted) {more : List Clause}
    (subset : held ⊆ more) : Standing inputs t more interrupted := by
  cases standing with
  | fresh unbuilt steady => exact .fresh unbuilt steady
  | built same complete counted steady =>
      exact .built same complete (List.Subset.trans counted subset) steady
  | cut same cut stopped => exact .cut same cut stopped

theorem Standing.fresh_or_built (standing : Standing inputs t held interrupted) :
    (t = ofInputs inputs ∧ interrupted = false) ∨
      ∃ direction maxBound, t.built = some (direction, maxBound) := by
  cases standing with
  | fresh unbuilt steady => exact .inl ⟨unbuilt, steady⟩
  | built same complete counted steady => exact .inr ⟨_, _, complete.built⟩
  | cut same cut stopped => exact .inr ⟨_, _, cut.built⟩

/-- Whatever happened before, a totalizer tells its outputs and its depth. -/
theorem Standing.outputs_depth (standing : Standing inputs t held interrupted) :
    (∃ ls, t.outputs = .ok ls) ∧ ∃ n, t.depth = .ok n := by
  cases standing with
  | fresh unbuilt steady =>
      subst unbuilt
      exact ⟨⟨[], rfl⟩, 0, rfl⟩
  | built same complete counted steady =>
      exact ⟨⟨_, complete.outputs_eq⟩, exists_depth_of_outputs complete.outputs_eq⟩
  | cut same cut stopped => exact ⟨⟨_, cut.outputs_eq⟩, exists_depth_of_outputs cut.outputs_eq⟩

/-- A request to a totalizer that counts as built changes nothing. -/
theorem encode_of_built_steady {σ : Type} [Collector σ] {direction : Direction} {maxBound : Nat}
    (built : t.built = some (direction, maxBound)) (asked : Direction) (bound : Nat)
    (w : Workspace σ) :
    ∃ answer, t.encode asked bound w = ⟨answer, t, w⟩ ∧
      (answer == some .outOfMemory) = false ∧ ∀ f, answer ≠ some (.fault f) := by
  refine ⟨_, encode_of_built built w, ?_, fun f => ?_⟩
  · split
    · rfl
    · split <;> rfl
  · split
    · simp
    · split <;> simp

variable {σ : Type} [LawfulCollector σ] {w : Workspace σ}

/-- A request to build adds clauses to those held, and afterwards the totalizer stands as it
should. -/
theorem Standing.encode (standing : Standing inputs t (contents w.collector) interrupted)
    (direction : Direction) (maxBound : Nat)
    (fine : ∀ f, (t.encode direction maxBound w).failure ≠ some (.fault f)) :
    contents w.collector ⊆ contents (t.encode direction maxBound w).work.collector ∧
      Standing inputs (t.encode direction maxBound w).value
        (contents (t.encode direction maxBound w).work.collector)
        (interrupted || (t.encode direction maxBound w).failure == some .outOfMemory) := by
  rcases standing.fresh_or_built with ⟨rfl, rfl⟩ | ⟨builtDirection, builtMaximum, built⟩
  swap
  · obtain ⟨answer, eq, steady, -⟩ := encode_of_built_steady built direction maxBound w
    simpa [eq, steady] using standing
  by_cases nonempty : inputs = []
  · subst nonempty
    have complete : Complete ⟨[], [], none, some (direction, maxBound), ⟨0, 0⟩⟩ direction maxBound
        (builtOutputs direction maxBound [] 0) := ⟨rfl, rfl, Nat.min_le_left 0 _⟩
    exact ⟨List.Subset.refl _, .built rfl complete (List.nil_subset _) rfl⟩
  obtain ⟨failure, built, w', eq, ran, same, complete⟩ :=
    encode_ran direction maxBound nonempty w
  have stopped := @encode_interrupted _ _ inputs direction maxBound w
  rw [eq] at fine stopped ⊢
  obtain ⟨kept, k, grows, -, all⟩ := ran.exists_kept fine
  rw [grows.contents_eq]
  refine ⟨List.subset_append_left _ _, ?_⟩
  cases failure with
  | none =>
      rw [all rfl]
      exact .built same (complete rfl) (List.subset_append_right _ _) rfl
  | some why =>
      cases why with
      | refused why => cases ran
      | outOfMemory => exact .cut same (stopped rfl) rfl
      | fault f => exact absurd rfl (fine f)

/-- With room for its variables a request to build does not end in a fault. -/
theorem Standing.encode_fine (standing : Standing inputs t held interrupted)
    (direction : Direction) (maxBound : Nat)
    (room : w.supply.next + t.encodeDemand direction maxBound ≤ Variable.maxIndex + 1) (f : Fault) :
    (t.encode direction maxBound w).failure ≠ some (.fault f) := by
  rcases standing.fresh_or_built with ⟨rfl, rfl⟩ | ⟨builtDirection, builtMaximum, built⟩
  swap
  · obtain ⟨answer, eq, -, fine⟩ := encode_of_built_steady built direction maxBound w
    rw [eq]
    exact fine f
  by_cases nonempty : inputs = []
  · subst nonempty
    exact fun fault => by cases fault
  obtain ⟨failure, built, w', eq, ran, -, -⟩ := encode_ran direction maxBound nonempty w
  rw [eq]
  rintro rfl
  cases ran with
  | crowded full =>
      rw [plannedVariables_buildPlan] at full
      exact Nat.not_lt_of_le room full

/-- How a request to enforce a bound ends, as far as the build decides it. -/
theorem Standing.answer (standing : Standing inputs t held interrupted) (asked : Direction)
    (bound : Nat) (w : Workspace σ) :
    Answer inputs t held interrupted asked bound w (t.enforce asked bound w) := by
  have same := standing.inputs_eq
  by_cases trivial : (Constraint.mk asked inputs bound).isTautology = true
  · rw [enforce_of_isTautology (same ▸ trivial) w]
    exact .nothing trivial
  by_cases impossible : (Constraint.mk asked inputs bound).isUnsatisfiable = true
  · rw [enforce_of_isUnsatisfiable (same ▸ impossible) w]
    exact .refused _
  have proper : Allowed asked inputs.length bound bound :=
    Constraint.allowed_of_not_trivial (by simpa using trivial) (by simpa using impossible)
  cases standing with
  | fresh unbuilt steady =>
      subst unbuilt
      rw [enforce_fresh inputs proper]
      exact .refused _
  | @built direction maxBound next _ complete counted steady =>
      by_cases other : direction ≠ asked
      · rw [complete.enforce_other other (same ▸ proper)]
        exact .refused _
      obtain rfl := not_ne_iff.1 other
      by_cases le : bound ≤ maxBound
      · rw [complete.enforce_eq (same ▸ ⟨le, proper.2⟩)]
        exact .handed ⟨le, proper.2⟩ counted
      · rw [complete.enforce_beyond (same ▸ proper) (Nat.lt_of_not_le le)]
        exact .refused _
  | @cut direction maxBound _ cut stopped =>
      rw [cut.enforce_eq (same ▸ proper)]
      by_cases other : direction ≠ asked
      · rw [if_pos other]
        exact .refused _
      obtain rfl := not_ne_iff.1 other
      by_cases le : bound ≤ maxBound
      · rw [if_neg other, if_pos le]
        exact .cut cut.built ⟨le, proper.2⟩ stopped
      · rw [if_neg other, if_neg le]
        exact .refused _

/-- A request to enforce a bound adds clauses to those held, and if there was no failure, every
model of them meets the bound. -/
theorem Standing.enforce (standing : Standing inputs t (contents w.collector) interrupted)
    (direction : Direction) (bound : Nat) :
    contents w.collector ⊆ contents (t.enforce direction bound w).2.collector ∧
      ((t.enforce direction bound w).1 = none → ∀ v : Valuation,
        v.Models (contents (t.enforce direction bound w).2.collector) →
          (Constraint.mk direction inputs bound).holds v = true) := by
  have answer := standing.answer direction bound w
  generalize t.enforce direction bound w = result at answer ⊢
  cases answer with
  | nothing trivial =>
      exact ⟨List.Subset.refl _, fun _ v _ => Constraint.holds_of_isTautology trivial v⟩
  | refused why => exact ⟨List.Subset.refl _, fun success => by cases success⟩
  | cut built allowed stopped => exact ⟨List.Subset.refl _, fun success => by cases success⟩
  | @handed maxBound next allowed counted =>
      let limits := enforcing direction (builtOutputs direction maxBound inputs next) bound
      obtain ⟨kept, k, grows, -, all⟩ := (w.extend_ran limits).exists_kept (w.extend_fine limits)
      rw [grows.contents_eq]
      refine ⟨List.subset_append_left _ _, fun success v models => ?_⟩
      rw [all success, Workspace.plannedClauses_handing, Valuation.models_append] at models
      exact holds_of_buildPlan allowed (models.1.of_subset counted) models.2

/-- Enforcing ends in a fault exactly if the build that the bound needs ran out of memory. -/
theorem Standing.enforce_eq_fault_iff (standing : Standing inputs t held interrupted)
    (direction : Direction) (bound : Nat) (w : Workspace σ) (f : Fault) :
    (t.enforce direction bound w).1 = some (.fault f) ↔
      f = .indexOutOfBounds ∧ interrupted = true ∧ ∃ maxBound,
        t.built = some (direction, maxBound) ∧
          Allowed direction inputs.length maxBound bound := by
  constructor
  · intro fault
    have answer := standing.answer direction bound w
    generalize t.enforce direction bound w = result at answer fault
    cases answer with
    | nothing trivial => cases fault
    | refused why => cases fault
    | handed allowed counted => exact absurd fault (w.extend_fine _ f)
    | cut built allowed stopped =>
        cases fault
        exact ⟨rfl, stopped, _, built, allowed⟩
  · rintro ⟨rfl, stopped, maxBound, built, allowed⟩
    cases standing with
    | fresh unbuilt steady => exact absurd stopped (by simp [steady])
    | built same complete counted steady => exact absurd stopped (by simp [steady])
    | cut same cut _ =>
        obtain ⟨rfl, rfl⟩ : _ = direction ∧ _ = maxBound := by
          simpa using cut.built.symm.trans built
        rw [cut.enforce_eq (same ▸ ⟨le_rfl, allowed.2⟩)]
        simp [allowed.1]

end Standing

/-! ### Use -/

/-- A totalizer in use, with a record of what was asked of it. -/
structure Usage (σ : Type) where
  totalizer : Totalizer
  work : Workspace σ
  /-- Whether a build ran out of memory. -/
  interrupted : Bool
  /-- The bounds that were enforced without a failure. -/
  enforced : List (Direction × Nat)

namespace Usage

variable {σ : Type}

/-- The use of a totalizer before the first request. -/
def start (inputs : List Literal) (work : Workspace σ) : Usage σ :=
  ⟨ofInputs inputs, work, false, []⟩

/-- Somebody else uses the collector and the supply. -/
def withWork (u : Usage σ) (work : Workspace σ) : Usage σ :=
  { u with work := work }

variable [Collector σ]

/-- Asks for a build. -/
def encode (u : Usage σ) (direction : Direction) (maxBound : Nat) : Usage σ :=
  let ⟨failure, totalizer, work⟩ := u.totalizer.encode direction maxBound u.work
  ⟨totalizer, work, u.interrupted || failure == some .outOfMemory, u.enforced⟩

/-- Asks for a bound. -/
def enforce (u : Usage σ) (direction : Direction) (bound : Nat) : Usage σ :=
  let (failure, work) := u.totalizer.enforce direction bound u.work
  ⟨u.totalizer, work, u.interrupted,
    if failure = none then u.enforced ++ [(direction, bound)] else u.enforced⟩

end Usage

variable {σ : Type} [LawfulCollector σ] {inputs : List Literal}

/-- What can come of a fresh totalizer over some inputs after any requests, as long as no build
ends in a fault. The collector may fail at any call. -/
inductive Usage.Reached (inputs : List Literal) : Usage σ → Prop
  | start (w : Workspace σ) : Reached inputs (start inputs w)
  | encode {u : Usage σ} (direction : Direction) (maxBound : Nat) (reached : Reached inputs u)
      (fine : ∀ f, (u.totalizer.encode direction maxBound u.work).failure ≠ some (.fault f)) :
      Reached inputs (u.encode direction maxBound)
  | enforce {u : Usage σ} (direction : Direction) (bound : Nat) (reached : Reached inputs u) :
      Reached inputs (u.enforce direction bound)
  /-- In between the collector takes other clauses, and it gets or loses memory. -/
  | withWork {u : Usage σ} (w : Workspace σ) (reached : Reached inputs u)
      (more : contents u.work.collector ⊆ contents w.collector) : Reached inputs (u.withWork w)

namespace Usage

theorem Reached.standing {u : Usage σ} (reached : u.Reached inputs) :
    Standing inputs u.totalizer (contents u.work.collector) u.interrupted ∧
      ∀ v : Valuation, v.Models (contents u.work.collector) →
        ∀ b ∈ u.enforced, (Constraint.mk b.1 inputs b.2).holds v = true := by
  induction reached with
  | start w => exact ⟨.fresh rfl rfl, fun v _ b mem => by cases mem⟩
  | @encode u direction maxBound reached fine ih =>
      obtain ⟨standing, met⟩ := ih
      obtain ⟨more, standing'⟩ := standing.encode direction maxBound fine
      exact ⟨standing', fun v models => met v (models.of_subset more)⟩
  | @enforce u direction bound reached ih =>
      obtain ⟨standing, met⟩ := ih
      obtain ⟨more, means⟩ := standing.enforce direction bound
      refine ⟨standing.mono more, fun v models b mem => ?_⟩
      have before := met v (models.of_subset more)
      simp only [Usage.enforce] at mem
      split at mem
      · rename_i success
        rcases List.mem_append.1 mem with old | new
        · exact before b old
        · obtain rfl := List.mem_singleton.1 new
          exact means success v models
      · exact before b mem
  | withWork w reached more ih =>
      obtain ⟨standing, met⟩ := ih
      exact ⟨standing.mono more, fun v models => met v (models.of_subset more)⟩

/-- Builds with room for their variables do not end in a fault, and the outputs and the depth can
always be told. A bound cannot be enforced for a fault exactly if a build of its side ran out of
memory that should have made it enforceable. All bounds that were enforced without a failure are
met by every model of the clauses held. -/
theorem Reached.faults_and_bounds {u : Usage σ} (reached : u.Reached inputs) :
    (∀ direction maxBound,
      u.work.supply.next + u.totalizer.encodeDemand direction maxBound ≤ Variable.maxIndex + 1 →
        ∀ f, (u.totalizer.encode direction maxBound u.work).failure ≠ some (.fault f)) ∧
    (∃ ls, u.totalizer.outputs = .ok ls) ∧ (∃ n, u.totalizer.depth = .ok n) ∧
    (∀ direction bound f, (u.totalizer.enforce direction bound u.work).1 = some (.fault f) ↔
      f = .indexOutOfBounds ∧ u.interrupted = true ∧ ∃ maxBound,
        u.totalizer.built = some (direction, maxBound) ∧
          Allowed direction inputs.length maxBound bound) ∧
    ∀ v : Valuation, v.Models (contents u.work.collector) →
      ∀ b ∈ u.enforced, (Constraint.mk b.1 inputs b.2).holds v = true := by
  obtain ⟨standing, met⟩ := reached.standing
  obtain ⟨outputs, depth⟩ := standing.outputs_depth
  refine ⟨fun direction maxBound room f => ?_, outputs, depth, fun direction bound f => ?_, met⟩
  · exact standing.encode_fine direction maxBound room f
  · exact standing.enforce_eq_fault_iff direction bound u.work f

/-! ### Runs with little memory -/

open ModularTotalizer.Usage (threeInputs)

/-- From now on the collector takes so many more calls; without a number, any. -/
def withCalls (u : Usage LimitedFormula) (calls : Option Nat) : Usage LimitedFormula :=
  u.withWork { u.work with collector.calls := calls }

/-- A build over three inputs that finds no memory for its first call, and then there is memory
again. -/
def interruptedBuild : Usage LimitedFormula :=
  ((((start threeInputs ⟨.empty, ⟨3⟩, #[]⟩).withCalls (some 0)).encode .atMost 1).withCalls none)

theorem Reached.withCalls {u : Usage LimitedFormula} (reached : u.Reached inputs)
    (calls : Option Nat) : (u.withCalls calls).Reached inputs :=
  reached.withWork _ (List.Subset.refl _)

theorem reached_interruptedBuild : interruptedBuild.Reached threeInputs :=
  .withCalls (.encode _ _ (.withCalls (.start _) _) (ne_fault (by decide))) _

/-- A build over three inputs for which there is memory, and its bound. -/
def enforcedBuild : Usage LimitedFormula :=
  (((start threeInputs ⟨.empty, ⟨3⟩, #[]⟩).withCalls none).encode .atMost 1).enforce .atMost 1

theorem reached_enforcedBuild : enforcedBuild.Reached threeInputs :=
  .enforce _ _ (.encode _ _ (.withCalls (.start _) _) (ne_fault (by decide)))

/-- The theorem for a build that is repeated after it ran out of memory: the request is answered
by a success, and then only a bound that is met anyway can be enforced. The bound of a build that
did not run out of memory is met by all models of what the collector holds. -/
theorem faults_and_bounds_interruptedBuild :
    let u := (interruptedBuild.encode .atMost 1).enforce .atMost 3
    u.Reached threeInputs ∧ u.interrupted = true ∧ u.totalizer.built = some (.atMost, 1) ∧
    u.enforced = [(.atMost, 3)] ∧
    (∀ direction maxBound,
      u.work.supply.next + u.totalizer.encodeDemand direction maxBound ≤ Variable.maxIndex + 1 →
        ∀ f, (u.totalizer.encode direction maxBound u.work).failure ≠ some (.fault f)) ∧
    (∃ ls, u.totalizer.outputs = .ok ls) ∧ (∃ n, u.totalizer.depth = .ok n) ∧
    (∀ direction bound f, (u.totalizer.enforce direction bound u.work).1 = some (.fault f) ↔
      f = .indexOutOfBounds ∧ u.interrupted = true ∧ ∃ maxBound,
        u.totalizer.built = some (direction, maxBound) ∧
          Allowed direction threeInputs.length maxBound bound) ∧
    (∀ v : Valuation, v.Models (contents u.work.collector) →
      ∀ b ∈ u.enforced, (Constraint.mk b.1 threeInputs b.2).holds v = true) ∧
    enforcedBuild.enforced = [(.atMost, 1)] ∧
    ∀ v : Valuation, v.Models (contents enforcedBuild.work.collector) →
      (Constraint.mk .atMost threeInputs 1).holds v = true := by
  intro u
  have reached : u.Reached threeInputs :=
    .enforce _ _ (.encode _ _ reached_interruptedBuild (ne_fault (by decide)))
  obtain ⟨builds, outputs, depth, faults, met⟩ := reached.faults_and_bounds
  obtain ⟨-, -, -, -, enforced⟩ := reached_enforcedBuild.faults_and_bounds
  refine ⟨reached, by decide, by decide, by decide, builds, outputs, depth, faults, met,
    by decide, fun v models => ?_⟩
  exact enforced v models (.atMost, 1) (by decide)

/-- After the build ran out of memory, its bound cannot be enforced for a fault, also if the build
is repeated, which is answered by a success. -/
theorem enforce_faults_after_interruption :
    let retried := interruptedBuild.encode .atMost 1
    interruptedBuild.Reached threeInputs ∧ retried.Reached threeInputs ∧
      (interruptedBuild.totalizer.enforce .atMost 1 interruptedBuild.work).1 =
        some (.fault .indexOutOfBounds) ∧
      (interruptedBuild.totalizer.encode .atMost 1 interruptedBuild.work).failure = none ∧
      (retried.totalizer.enforce .atMost 1 retried.work).1 = some (.fault .indexOutOfBounds) :=
  ⟨reached_interruptedBuild, .encode _ _ reached_interruptedBuild (ne_fault (by decide)),
    by decide, by decide, by decide⟩

end Usage

end Totalizer

end CardinalityClauses
