import CardinalityClauses.Proofs.Encoding.Bounds
import CardinalityClauses.Proofs.Totalizer.Tree
import CardinalityClauses.Totalizer

/-!
Building a totalizer and enforcing bounds on it.

A build on a collector that never fails, with room for the fresh variables, keeps the outputs
of all nodes. Then every bound up to the maximum is enforced by a unit clause over an output of
the root.
-/

namespace CardinalityClauses.Totalizer

open Unary

/-! ### The layout of a complete tree -/

namespace Tree

/-- After a run of all pieces no outputs are dropped. -/
theorem keepOutputs_layout (direction : Direction) (tree : Tree) (n start : Nat)
    (rest : List Node) :
    Node.keepOutputs (n + (tree.pieces direction start).length) (tree.layout start ++ rest) =
      tree.layout start ++ Node.keepOutputs n rest := by
  induction tree generalizing n start rest with
  | leaf input => rfl
  | node outputs left right ihLeft ihRight =>
      simp only [pieces, layout, List.length_append, List.length_singleton, List.append_assoc]
      rw [show ∀ a b, n + (a + (b + 1)) = n + 1 + b + a by omega, ihLeft, ihRight]
      rfl

theorem length_layout (tree : Tree) (start : Nat) :
    (tree.layout start).length = tree.nodeCount := by
  induction tree generalizing start with
  | leaf input => rfl
  | node outputs left right ihLeft ihRight =>
      simp [layout, nodeCount, ihLeft, ihRight]
      omega

/-- The root stands at the end of the layout. -/
theorem getElem?_layout (tree : Tree) (start : Nat) :
    ∃ node, (tree.layout start)[tree.nodeCount - 1]? = some node ∧ node.outputs = tree.outputs := by
  cases tree with
  | leaf input => exact ⟨.leaf input, rfl, rfl⟩
  | node outputs left right =>
      have before : (left.layout start ++ right.layout (start + left.nodeCount)).length =
          left.nodeCount + right.nodeCount := by
        simp [length_layout]
      simp only [layout, nodeCount, Nat.add_sub_cancel]
      rw [List.getElem?_append_right (Nat.le_of_eq before), before, Nat.sub_self]
      exact ⟨_, rfl, rfl⟩

end Tree

/-! ### Bounds -/

/-- The unit clause that enforces a bound over given outputs of a root. -/
def enforcing (direction : Direction) (outputs : List Literal) (bound : Nat) : List Clause :=
  match direction with
  | .atMost => outputs[bound]?.toList.map fun output => .unit output.complement
  | .atLeast => outputs[bound - 1]?.toList.map .unit

/-- The bounds that a build can enforce and that are not trivial. -/
def Allowed (direction : Direction) (inputs maxBound bound : Nat) : Prop :=
  bound ≤ maxBound ∧
    match direction with
    | .atMost => bound < inputs
    | .atLeast => 0 < bound ∧ bound ≤ inputs

/-- A tree that was built to its end. -/
structure Complete (t : Totalizer) (direction : Direction) (maxBound : Nat)
    (outputs : List Literal) : Prop where
  built : t.built = some (direction, maxBound)
  outputs_eq : t.outputs = .ok outputs
  long : min t.inputs.length (countLimit direction maxBound) ≤ outputs.length

section Enforce

variable {direction : Direction} {maxBound bound : Nat} {inputs outputs : List Literal}

theorem literalsOver_enforcing {on : Nat → Prop} (about : LiteralsOver on outputs) :
    ClausesOver on (enforcing direction outputs bound) := by
  intro c hc
  cases direction with
  | atMost =>
      obtain ⟨output, found, rfl⟩ := List.mem_map.1 hc
      have := about output (List.mem_of_getElem? (Option.mem_toList.1 found))
      simpa [LiteralsOver, Clause.unit, Literal.complement] using this
  | atLeast =>
      obtain ⟨output, found, rfl⟩ := List.mem_map.1 hc
      have := about output (List.mem_of_getElem? (Option.mem_toList.1 found))
      simpa [LiteralsOver, Clause.unit] using this

variable {v : Valuation}

/-- Outputs that reach the count limit it. -/
theorem holds_of_enforcing_atMost (long : min inputs.length (maxBound + 1) ≤ outputs.length)
    (allowed : Allowed .atMost inputs.length maxBound bound)
    (reaches : Reaches v outputs (v.trueCount inputs))
    (models : v.Models (enforcing .atMost outputs bound)) : v.trueCount inputs ≤ bound := by
  obtain ⟨le, lt⟩ := allowed
  have lt : bound < inputs.length := lt
  have found : outputs[bound]? = some outputs[bound] := List.getElem?_eq_getElem (by omega)
  apply Nat.le_of_not_lt
  intro above
  have false := models (.unit outputs[bound].complement) (by simp [enforcing, found])
  rw [Clause.holds_unit, Literal.holds_complement, reaches bound _ found above] at false
  cases false

/-- Outputs that stay within the count limit it. -/
theorem holds_of_enforcing_atLeast (long : min inputs.length maxBound ≤ outputs.length)
    (allowed : Allowed .atLeast inputs.length maxBound bound)
    (within : StaysWithin v outputs (v.trueCount inputs))
    (models : v.Models (enforcing .atLeast outputs bound)) : bound ≤ v.trueCount inputs := by
  obtain ⟨le, positive, small⟩ := allowed
  have found : outputs[bound - 1]? = some outputs[bound - 1] :=
    List.getElem?_eq_getElem (by omega)
  apply Nat.le_of_not_lt
  intro below
  have true := models (.unit outputs[bound - 1]) (by simp [enforcing, found])
  rw [Clause.holds_unit, within (bound - 1) _ found (by omega)] at true
  cases true

/-- Outputs that count right satisfy the clause for a bound that is met. -/
theorem models_enforcing (allowed : Allowed direction inputs.length maxBound bound)
    (counts : Counts v outputs (v.trueCount inputs))
    (met : (Constraint.mk direction inputs bound).holds v = true) :
    v.Models (enforcing direction outputs bound) := by
  intro c hc
  cases direction with
  | atMost =>
      obtain ⟨output, found, rfl⟩ := List.mem_map.1 hc
      have met : v.trueCount inputs ≤ bound := by simpa [Constraint.holds] using met
      rw [Clause.holds_unit, Literal.holds_complement,
        counts.within bound output (Option.mem_toList.1 found) met]
      rfl
  | atLeast =>
      obtain ⟨output, found, rfl⟩ := List.mem_map.1 hc
      have met : bound ≤ v.trueCount inputs := by simpa [Constraint.holds] using met
      obtain ⟨-, positive, -⟩ := allowed
      rw [Clause.holds_unit]
      exact counts.reaches (bound - 1) output (Option.mem_toList.1 found) (by omega)

section

variable {σ : Type} [Collector σ] {t : Totalizer}

/-- On a complete tree a bound is enforced by handing its clause over. -/
theorem Complete.enforce_eq (complete : t.Complete direction maxBound outputs)
    (allowed : Allowed direction t.inputs.length maxBound bound) (w : Workspace σ) :
    t.enforce direction bound w = w.extend (enforcing direction outputs bound) := by
  obtain ⟨built, outputs_eq, long⟩ := complete
  cases direction with
  | atMost =>
      obtain ⟨le, lt⟩ := allowed
      have lt : bound < t.inputs.length := lt
      have inside : bound < outputs.length := by simp only [countLimit] at long; omega
      have found : outputs[bound]? = some outputs[bound] := List.getElem?_eq_getElem inside
      have supported : t.supports .atMost bound = .ok () := by simp [supports, built, le]
      simp [Totalizer.enforce, enforceUpper, Nat.not_le_of_lt lt, supported, enforceOutput,
        outputs_eq, found, enforcing]
  | atLeast =>
      obtain ⟨le, positive, small⟩ := allowed
      have inside : bound - 1 < outputs.length := by simp only [countLimit] at long; omega
      have found : outputs[bound - 1]? = some outputs[bound - 1] :=
        List.getElem?_eq_getElem inside
      have supported : t.supports .atLeast bound = .ok () := by simp [supports, built, le]
      simp [Totalizer.enforce, enforceLower, Nat.ne_of_gt positive, Nat.not_lt_of_le small,
        supported, enforceOutput, outputs_eq, found, enforcing]

/-- A bound that is not trivial is refused for the reason that the build does not support it. -/
theorem enforce_of_unsupported {why : Refusal}
    (unsupported : t.supports direction bound = .error why)
    (proper : Allowed direction t.inputs.length bound bound) (w : Workspace σ) :
    t.enforce direction bound w = (some (.refused why), w) := by
  cases direction with
  | atMost =>
      have lt : bound < t.inputs.length := proper.2
      simp [Totalizer.enforce, enforceUpper, Nat.not_le_of_lt lt, unsupported]
  | atLeast =>
      obtain ⟨-, positive, small⟩ := proper
      simp [Totalizer.enforce, enforceLower, Nat.ne_of_gt positive, Nat.not_lt_of_le small,
        unsupported]

/-- A bound beyond the maximum of the build is refused, unless it is trivial. -/
theorem Complete.enforce_beyond (complete : t.Complete direction maxBound outputs)
    (proper : Allowed direction t.inputs.length bound bound) (beyond : maxBound < bound)
    (w : Workspace σ) : t.enforce direction bound w = (some (.refused .notEncoded), w) := by
  have unsupported : t.supports direction bound = .error .notEncoded := by
    simp [supports, complete.built, Nat.not_le_of_lt beyond]
  exact enforce_of_unsupported unsupported proper w

end

variable {σ : Type} [ReliableCollector σ]

/-- On a complete tree every bound is enforced. -/
theorem Complete.enforce {t : Totalizer} (complete : t.Complete direction maxBound outputs)
    (allowed : Allowed direction t.inputs.length maxBound bound) (w : Workspace σ) :
    ∃ w', t.enforce direction bound w = (none, w') ∧
      w.Grows w' (enforcing direction outputs bound) 0 := by
  rw [complete.enforce_eq allowed]
  exact w.extend_spec _

end Enforce

/-! ### The build -/

section Build

variable {direction : Direction} {maxBound : Nat} {inputs : List Literal}

/-- How many variables a build takes. -/
def buildDemand (direction : Direction) (maxBound : Nat) (inputs : List Literal) : Nat :=
  match Halving.ofList? inputs with
  | none => 0
  | some shape => demand (outputCount direction maxBound) shape

/-- The clauses of a tree encode all bounds up to the maximum. -/
theorem boundEncoding_grow {shape : Halving Literal} {next : Nat}
    (list : shape.toList = inputs) (old : LiteralsOver (· < next) inputs)
    (room : next + demand (outputCount direction maxBound) shape ≤ Variable.maxIndex + 1) :
    let tree := (Tree.grow (outputCount direction maxBound) shape next).1
    BoundEncoding direction inputs next (next + demand (outputCount direction maxBound) shape)
      (tree.clauses direction) (Allowed direction inputs.length maxBound)
      (enforcing direction tree.outputs) := by
  intro tree
  subst list
  have sized := Tree.sized_grow direction maxBound shape next
  have listed : tree.inputs = shape.toList := Tree.inputs_grow _ shape next
  have long : min shape.toList.length (countLimit direction maxBound) ≤ tree.outputs.length := by
    rw [← listed, Tree.length_inputs]
    exact sized.le_length_outputs
  refine
    { first_le := Nat.le_add_right _ _
      about := Tree.clausesOver_grow old room
      over_enforcing := fun b _ =>
        literalsOver_enforcing (Tree.literalsOver_outputs_grow old room)
      sound := ?_
      exists_exact := ?_ }
  · intro v b allowed counted models
    cases direction with
    | atMost =>
        have reaches := listed ▸ sized.reaches counted
        simpa [Constraint.holds] using holds_of_enforcing_atMost long allowed reaches models
    | atLeast =>
        have within := listed ▸ sized.within counted
        simpa [Constraint.holds] using holds_of_enforcing_atLeast long allowed within models
  · intro v
    obtain ⟨w, agree, models, counts⟩ := Tree.exists_counts_grow old room v
    exact ⟨w, agree, models, fun b allowed met => models_enforcing allowed counts met⟩

/-- What a build does, from variable `next` on. -/
def buildPlan (direction : Direction) (maxBound : Nat) (inputs : List Literal) (next : Nat) :
    List Piece :=
  match Halving.ofList? inputs with
  | none => []
  | some shape => (Tree.grow (outputCount direction maxBound) shape next).1.pieces direction 0

/-- The outputs of the root after a build from variable `next` on. -/
def builtOutputs (direction : Direction) (maxBound : Nat) (inputs : List Literal) (next : Nat) :
    List Literal :=
  match Halving.ofList? inputs with
  | none => []
  | some shape => (Tree.grow (outputCount direction maxBound) shape next).1.outputs

/-- What is planned for some inputs, and which outputs the root has after it, are those of one
tree over these inputs. -/
theorem exists_builtTree (direction : Direction) (maxBound next : Nat) (nonempty : inputs ≠ []) :
    ∃ tree : Tree, plannedClauses (buildPlan direction maxBound inputs next) =
        tree.clauses direction ∧
      builtOutputs direction maxBound inputs next = tree.outputs ∧
      tree.Sized (countLimit direction maxBound) ∧ tree.inputs = inputs := by
  obtain ⟨shape, split, list⟩ := Halving.ofList?_spec nonempty
  refine ⟨(Tree.grow (outputCount direction maxBound) shape next).1, ?_, ?_,
    Tree.sized_grow direction maxBound shape next, (Tree.inputs_grow _ shape next).trans list⟩
  · simp only [buildPlan, split, Tree.plannedClauses_pieces]
  · simp only [builtOutputs, split]

theorem plannedVariables_buildPlan (direction : Direction) (maxBound : Nat)
    (inputs : List Literal) (next : Nat) :
    plannedVariables (buildPlan direction maxBound inputs next) =
      buildDemand direction maxBound inputs := by
  unfold buildPlan buildDemand
  split
  · rfl
  · exact Tree.plannedVariables_grow _ _ _ 0

theorem lenient_buildPlan (direction : Direction) (maxBound : Nat) {next : Nat}
    (old : LiteralsOver (· < next) inputs) :
    Lenient (fun _ => True) next (buildPlan direction maxBound inputs next) := by
  unfold buildPlan
  split
  · exact .nil _ next
  · rename_i shape split
    exact Tree.lenient_grow direction maxBound 0 (Halving.toList_of_ofList? split ▸ old)

/-- All that is planned encodes the bounds up to the maximum. -/
theorem boundEncoding_buildPlan {next : Nat} (nonempty : inputs ≠ [])
    (old : LiteralsOver (· < next) inputs)
    (room : next + buildDemand direction maxBound inputs ≤ Variable.maxIndex + 1) :
    BoundEncoding direction inputs next (next + buildDemand direction maxBound inputs)
      (plannedClauses (buildPlan direction maxBound inputs next))
      (Allowed direction inputs.length maxBound)
      (enforcing direction (builtOutputs direction maxBound inputs next)) := by
  obtain ⟨shape, split, list⟩ := Halving.ofList?_spec nonempty
  simp only [buildDemand, buildPlan, builtOutputs, split, Tree.plannedClauses_pieces] at room ⊢
  exact boundEncoding_grow list old room

/-- A build follows its plan, and if it comes to the end its tree is complete. -/
theorem encode_ran {σ : Type} [LawfulCollector σ] (direction : Direction) (maxBound : Nat)
    (nonempty : inputs ≠ []) (w : Workspace σ) :
    ∃ failure t w', (ofInputs inputs).encode direction maxBound w = ⟨failure, t, w'⟩ ∧
      w.Ran (buildPlan direction maxBound inputs w.supply.next) failure w' ∧
      t.inputs = inputs ∧ (failure = none →
        t.Complete direction maxBound (builtOutputs direction maxBound inputs w.supply.next)) := by
  obtain ⟨shape, split, list⟩ := Halving.ofList?_spec nonempty
  obtain ⟨tree, grown⟩ :
    ∃ tree, (Tree.grow (outputCount direction maxBound) shape w.supply.next).1 = tree := ⟨_, rfl⟩
  have planned : buildPlan direction maxBound inputs w.supply.next = tree.pieces direction 0 := by
    simp [buildPlan, split, grown]
  have outputs_eq : builtOutputs direction maxBound inputs w.supply.next = tree.outputs := by
    simp [builtOutputs, split, grown]
  have taken : plannedVariables (tree.pieces direction 0) =
      demand (outputCount direction maxBound) shape :=
    grown ▸ Tree.plannedVariables_grow _ shape _ 0
  have sized : tree.Sized (countLimit direction maxBound) :=
    grown ▸ Tree.sized_grow direction maxBound shape w.supply.next
  have listed : tree.inputs = inputs := (grown ▸ Tree.inputs_grow _ shape _).trans list
  rw [planned, outputs_eq]
  have pieces : ∀ p ∈ tree.pieces direction 0, p.Complete := sized.complete 0
  obtain ⟨ran, finished⟩ := w.runPieces_ran pieces
  obtain ⟨done, failure, w', eq⟩ : ∃ done failure w', w.runPieces (tree.pieces direction 0) =
    ⟨done, failure, w'⟩ := ⟨_, _, _, rfl⟩
  rw [eq] at ran finished
  have ran := ran.settle fun room => by
    rw [taken] at room
    rw [Tree.plannedClauses_pieces, ← grown]
    exact Tree.length_clauses_lt (by omega)
  have unsettled := Tally.settle_eq_or ⟨0, 0⟩ w.clauseCount w.supply.next w'.clauseCount
    w'.supply.next failure
  obtain ⟨failure', tally, settled⟩ : ∃ failure' tally, Tally.settle ⟨0, 0⟩ w.clauseCount
    w.supply.next w'.clauseCount w'.supply.next failure = (failure', tally) := ⟨_, _, rfl⟩
  rw [settled] at ran unsettled
  let built : Totalizer := ⟨inputs, Node.keepOutputs done (tree.layout 0),
    some (tree.nodeCount - 1), some (direction, maxBound), tally⟩
  have complete : failure' = none → built.Complete direction maxBound tree.outputs := by
    rintro rfl
    obtain rfl : none = failure := by simpa using unsettled
    obtain rfl := finished rfl
    have kept : Node.keepOutputs (tree.pieces direction 0).length (tree.layout 0) =
        tree.layout 0 := by
      simpa [Node.keepOutputs] using Tree.keepOutputs_layout direction tree 0 0 []
    obtain ⟨root, rootAt, rootOutputs⟩ := tree.getElem?_layout 0
    refine ⟨rfl, ?_, ?_⟩
    · simp only [outputs, rootNode, built, kept, rootAt]
      exact congrArg Except.ok rootOutputs
    · have long := sized.le_length_outputs
      rwa [← Tree.length_inputs, listed] at long
  cases failure' with
  | none =>
      refine ⟨none, built, w'.note (.totalizerBuilt inputs.length direction maxBound
        tally.clauseCount tally.variableCount), ?_, ran.note _, rfl, complete⟩
      simp only [encode, ofInputs, split, buildTree, List.length_nil, Nat.zero_add, grown, eq,
        settled, List.nil_append]
      rfl
  | some why =>
      refine ⟨some why, built, w', ?_, ran, rfl, complete⟩
      simp only [encode, ofInputs, split, buildTree, List.length_nil, Nat.zero_add, grown, eq,
        settled, List.nil_append]
      rfl

variable {σ : Type} [ReliableCollector σ]

/-- A build comes to its end, also one without inputs, or literals cannot carry all the indices it
takes. -/
theorem encode_done_or_crowded (direction : Direction) (maxBound : Nat) (inputs : List Literal)
    (w : Workspace σ) :
    (∃ t w', (ofInputs inputs).encode direction maxBound w = ⟨none, t, w'⟩ ∧
      w.Grows w' (plannedClauses (buildPlan direction maxBound inputs w.supply.next))
        (buildDemand direction maxBound inputs) ∧
      t.inputs = inputs ∧
      t.Complete direction maxBound (builtOutputs direction maxBound inputs w.supply.next)) ∨
    ∃ f t w', (ofInputs inputs).encode direction maxBound w = ⟨some (.fault f), t, w'⟩ ∧
      Variable.maxIndex + 1 < w.supply.next + buildDemand direction maxBound inputs := by
  rcases inputs with _ | ⟨first, rest⟩
  · exact .inl ⟨⟨[], [], none, some (direction, maxBound), ⟨0, 0⟩⟩, w, rfl, .refl w, rfl,
      ⟨rfl, rfl, Nat.min_le_left 0 _⟩⟩
  · obtain ⟨failure, t, w', encoded, ran, same, complete⟩ :=
      encode_ran direction maxBound (List.cons_ne_nil first rest) w
    have planned := plannedVariables_buildPlan direction maxBound (first :: rest) w.supply.next
    rcases ran.done_or_crowded (Collector.unfailing_of_reliable _) with rfl | ⟨⟨f, rfl⟩, full⟩
    · exact .inl ⟨t, w', encoded, planned ▸ ran.grows, same, complete rfl⟩
    · exact .inr ⟨f, t, w', encoded, planned ▸ full⟩

/-- A build with room for its variables comes to its end. -/
theorem encode_grows (direction : Direction) (maxBound : Nat) (inputs : List Literal)
    (w : Workspace σ)
    (room : w.supply.next + buildDemand direction maxBound inputs ≤ Variable.maxIndex + 1) :
    ∃ t w', (ofInputs inputs).encode direction maxBound w = ⟨none, t, w'⟩ ∧
      w.Grows w' (plannedClauses (buildPlan direction maxBound inputs w.supply.next))
        (buildDemand direction maxBound inputs) ∧
      t.inputs = inputs ∧
      t.Complete direction maxBound (builtOutputs direction maxBound inputs w.supply.next) := by
  rcases encode_done_or_crowded direction maxBound inputs w with done | ⟨f, t, w', -, full⟩
  · exact done
  · exact absurd full (Nat.not_lt_of_le room)

end Build

end CardinalityClauses.Totalizer
