import CardinalityClauses.Proofs.ModularTotalizer.Arena
import CardinalityClauses.Proofs.ModularTotalizer.Tidy
import CardinalityClauses.Proofs.Session.Safety
import CardinalityClauses.Proofs.Stored.Encoders
import CardinalityClauses.Proofs.Supply.Freshness
import CardinalityClauses.Proofs.Tightenable.Refusals
import CardinalityClauses.Proofs.Totalizer.Arena
import CardinalityClauses.Proofs.Totalizer.Tidy

/-!
Encoders that can be stored at any time.

An encoder that is made from literals with codes, no more of them than a list can hold, can be
stored, and so can what any call leaves of it, also one that runs out of memory or ends in a fault.
The nodes of a tree stand at positions in range, fresh literals have codes however far the supply
has come, and what is counted is counted within its range.

Main statement: a call leaves a bounded encoder bounded (`Encoder.Bounded.call`).
-/

namespace CardinalityClauses

open VariableSupply (block longestBlock)

/-- The literals of a block have codes, since indices no literal can carry are cut off. -/
theorem VariableSupply.carried_block (start n : Nat) :
    LiteralsOver (· ≤ Variable.maxIndex) (block start n) := by
  intro l hl
  obtain ⟨i, -, rfl⟩ := List.mem_map.1 hl
  exact Nat.le_of_lt_succ (Nat.mod_lt _ (by decide))

/-- A permutation is over the same variables. -/
theorem LiteralsOver.of_perm {on : Nat → Prop} {ls ms : List Literal} (about : LiteralsOver on ms)
    (perm : ls.Perm ms) : LiteralsOver on ls :=
  fun l hl => about l (perm.mem_iff.1 hl)

/-! ### Counts -/

theorem Tally.storable_zero : Storable ⟨0, 0⟩ :=
  ⟨by decide, by decide⟩

theorem addWithin_lt {range a b sum : Nat} (eq : addWithin range a b = .ok sum) : sum < range := by
  unfold addWithin at eq
  split at eq
  · cases eq
    assumption
  · cases eq

theorem Tally.Storable.add {t : Tally} (storable : t.Storable) (moreClauses moreVariables : Nat) :
    (t.add moreClauses moreVariables).2.Storable := by
  unfold Tally.add
  split
  · exact storable
  · rename_i clauseCount counted
    split
    · exact ⟨addWithin_lt counted, storable.variableCount_lt⟩
    · rename_i variableCount taken
      exact ⟨addWithin_lt counted, addWithin_lt taken⟩

/-- What a run used up is counted within the ranges, or not at all. -/
theorem Tally.Storable.settle {t : Tally} (storable : t.Storable)
    (clausesBefore variablesBefore clausesAfter variablesAfter : Nat) (failure : Option Failure) :
    (t.settle clausesBefore variablesBefore clausesAfter variablesAfter failure).2.Storable := by
  have added :=
    storable.add (clausesAfter - clausesBefore) (variablesAfter - variablesBefore)
  unfold Tally.settle
  split
  · exact storable
  · split <;> simp_all only

/-! ### Totalizers -/

namespace Totalizer

theorem Node.Storable.withoutOutputs {n : Node} (storable : n.Storable) :
    n.withoutOutputs.Storable := by
  cases n with
  | leaf input => exact storable
  | internal outputs depth maxValue left right => exact ⟨nofun, storable.2⟩

theorem Node.storable_keepOutputs {nodes : List Node} (storable : ∀ n ∈ nodes, n.Storable)
    (count : Nat) : ∀ n ∈ keepOutputs count nodes, n.Storable := by
  fun_induction keepOutputs count nodes <;>
    simp_all [Node.Storable.withoutOutputs]

namespace Tree

/-- No way down is longer than the number of nodes, and there are no more inputs. -/
theorem depth_inputCount_le (tree : Tree) :
    tree.depth ≤ tree.nodeCount ∧ tree.inputCount ≤ tree.nodeCount := by
  have := tree.nodeCount_eq
  have := tree.shape.size_pos
  have := tree.shape.depth_le_size
  rw [depth_eq_depth, inputCount_eq_size]
  omega

/-- The nodes of a layout can be stored if all positions are in range. -/
theorem storable_layout (tree : Tree) (start : Nat)
    (carried : LiteralsOver (· ≤ Variable.maxIndex) tree.literals)
    (room : start + tree.nodeCount ≤ sizeRange) : ∀ n ∈ tree.layout start, n.Storable := by
  induction tree generalizing start with
  | leaf input =>
      rw [layout, List.forall_mem_singleton]
      exact carried input List.mem_cons_self
  | node outputs left right ihLeft ihRight =>
      rw [literals, literalsOver_append, literalsOver_append] at carried
      obtain ⟨⟨carriedLeft, carriedRight⟩, carriedOutputs⟩ := carried
      rw [nodeCount] at room
      have := left.nodeCount_pos
      have := right.nodeCount_pos
      have := left.depth_inputCount_le
      have := right.depth_inputCount_le
      simp only [layout, List.forall_mem_append, List.forall_mem_singleton]
      refine ⟨⟨ihLeft start carriedLeft (by omega), ihRight _ carriedRight (by omega)⟩,
        carriedOutputs, ?_, ?_, ?_, ?_⟩ <;> omega

end Tree

/-- A totalizer that can be stored, over no more inputs than a list can hold; before a build it has
no nodes. -/
structure Bounded (t : Totalizer) : Prop extends Storable t where
  few : t.inputs.length ≤ longestBlock
  unbuilt : t.built = none → t.nodes = []

theorem bounded_ofInputs {inputs : List Literal}
    (carried : LiteralsOver (· ≤ Variable.maxIndex) inputs) (few : inputs.length ≤ longestBlock) :
    (ofInputs inputs).Bounded where
  inputs := carried
  nodes := nofun
  root := nofun
  built := nofun
  tally := Tally.storable_zero
  few := few
  unbuilt := fun _ => rfl

section Calls

variable {σ : Type} [Collector σ] {direction : Direction} {maxBound : Nat} {t : Totalizer}

theorem Bounded.buildTree (bounded : t.Bounded) (empty : t.nodes = [])
    (recorded : t.built = some (direction, maxBound)) {shape : Halving Literal}
    (split : Halving.ofList? t.inputs = some shape) (w : Workspace σ) :
    (t.buildTree direction maxBound shape w).value.Bounded := by
  obtain ⟨tree, grown⟩ :
    ∃ tree, (Tree.grow (outputCount direction maxBound) shape w.supply.next).1 = tree := ⟨_, rfl⟩
  have carried : LiteralsOver (· ≤ Variable.maxIndex) tree.literals := by
    have perm := Tree.literals_grow (outputCount direction maxBound) shape w.supply.next
    rw [grown, Halving.toList_of_ofList? split] at perm
    exact .of_perm (literalsOver_append.2 ⟨bounded.inputs, VariableSupply.carried_block _ _⟩) perm
  have room : 0 + tree.nodeCount ≤ sizeRange := by
    have count := tree.nodeCount_eq
    rw [← grown, Tree.shape_grow, grown, Halving.size_of_ofList? split] at count
    have few := bounded.few
    unfold longestBlock at few
    unfold sizeRange
    omega
  have stored := tree.storable_layout 0 carried room
  obtain ⟨finish, failure, w', ran⟩ :
    ∃ finish failure w', w.runPieces (tree.pieces direction 0) = ⟨finish, failure, w'⟩ :=
    ⟨_, _, _, rfl⟩
  have counted := bounded.tally.settle w.clauseCount w.supply.next w'.clauseCount w'.supply.next
    failure
  obtain ⟨failure', tally, settled⟩ : ∃ failure' tally, t.tally.settle w.clauseCount w.supply.next
    w'.clauseCount w'.supply.next failure = (failure', tally) := ⟨_, _, rfl⟩
  rw [settled] at counted
  have built : Bounded ⟨t.inputs, Node.keepOutputs finish (tree.layout 0),
      some (0 + tree.nodeCount - 1), t.built, tally⟩ :=
    { inputs := bounded.inputs
      nodes := Node.storable_keepOutputs stored finish
      root := by
        rintro _ ⟨⟩
        have := tree.nodeCount_pos
        omega
      built := bounded.built
      tally := counted
      few := bounded.few
      unbuilt := fun none => by rw [recorded] at none; cases none }
  simp only [Totalizer.buildTree, grown, empty, List.length_nil, ran, settled, List.nil_append]
  cases failure' <;> exact built

/-- A totalizer can be stored after any call for a build, however it ends. -/
theorem Bounded.encode (bounded : t.Bounded) (inRange : maxBound < sizeRange) (w : Workspace σ) :
    (t.encode direction maxBound w).value.Bounded := by
  unfold Totalizer.encode
  cases recorded : t.built with
  | some built =>
      simp only
      split
      · exact bounded
      · split <;> exact bounded
  | none =>
      have started : Bounded { t with built := some (direction, maxBound) } :=
        { bounded with
          built := by
            rintro _ ⟨⟩
            exact inRange
          unbuilt := nofun }
      simp only
      split
      · exact started
      · rename_i shape split
        exact started.buildTree (bounded.unbuilt recorded) rfl split w

end Calls

end Totalizer

/-! ### Modular totalizers -/

namespace ModularTotalizer

namespace Node

theorem Storable.unlinked {n : Node} (storable : n.Storable) : n.unlinked.Storable where
  upper := storable.upper
  lower := storable.lower
  carry := nofun
  children := nofun

theorem storable_keepFirst {nodes : List Node} (storable : ∀ n ∈ nodes, n.Storable)
    (start count : Nat) : ∀ n ∈ keepFirst start count nodes, n.Storable := by
  intro n hn
  obtain ⟨node, kept, rfl⟩ := List.mem_map.1 hn
  have stored := storable node (List.mem_of_mem_take kept)
  split
  · split
    · exact stored
    · exact stored.unlinked
  · exact stored

end Node

namespace Tree

/-- The root of a tree can be stored if the positions of its children are in range. -/
theorem storable_rootNode {tree : Tree} {start : Nat}
    (carried : LiteralsOver (· ≤ Variable.maxIndex) tree.literals)
    (room : start + tree.descendantCount ≤ sizeRange) : (tree.rootNode start).Storable := by
  cases tree with
  | leaf input => exact ⟨nofun, carried, nofun, nofun⟩
  | node upper lower carry left right =>
      simp only [literals, literalsOver_append] at carried
      obtain ⟨-, ⟨carriedLower, carriedCarry⟩, carriedUpper⟩ := carried
      refine ⟨carriedUpper, carriedLower, fun l hl => carriedCarry l (Option.mem_toList.2 hl), ?_⟩
      rintro _ ⟨⟩
      rw [descendantCount] at room
      omega

/-- The nodes below the root can be stored if all positions are in range. -/
theorem storable_descendants (tree : Tree) (start : Nat)
    (carried : LiteralsOver (· ≤ Variable.maxIndex) tree.literals)
    (room : start + tree.descendantCount ≤ sizeRange) :
    ∀ n ∈ tree.descendants start, n.Storable := by
  induction tree generalizing start with
  | leaf input => exact nofun
  | node upper lower carry left right ihLeft ihRight =>
      simp only [literals, literalsOver_append] at carried
      obtain ⟨⟨carriedLeft, carriedRight⟩, -⟩ := carried
      rw [descendantCount] at room
      simp only [descendants, List.forall_mem_cons, List.forall_mem_append]
      exact ⟨storable_rootNode carriedLeft (by omega), storable_rootNode carriedRight (by omega),
        ihLeft _ carriedLeft (by omega), ihRight _ carriedRight (by omega)⟩

theorem storable_layout {tree : Tree}
    (carried : LiteralsOver (· ≤ Variable.maxIndex) tree.literals)
    (room : 1 + tree.descendantCount ≤ sizeRange) : ∀ n ∈ tree.layout 0, n.Storable :=
  List.forall_mem_cons.2
    ⟨storable_rootNode carried room, tree.storable_descendants 1 carried room⟩

end Tree

/-- A modular totalizer that can be stored, over no more inputs than a list can hold; before a build
it has no nodes. -/
structure Bounded (t : ModularTotalizer) : Prop extends Storable t where
  few : t.inputs.length ≤ longestBlock
  fixed : ∀ m, t.modulus = some m → 2 ≤ m
  unbuilt : t.maxBound = none → t.nodes = []

theorem bounded_ofPreset {inputs : List Literal} {preset : Option Nat}
    (carried : LiteralsOver (· ≤ Variable.maxIndex) inputs) (few : inputs.length ≤ longestBlock)
    (fixed : ∀ m, preset = some m → 2 ≤ m) (inRange : ∀ modulus ∈ preset, modulus < sizeRange) :
    (ofPreset inputs preset).Bounded where
  inputs := carried
  modulus := inRange
  nodes := nofun
  root := nofun
  maxBound := nofun
  tally := Tally.storable_zero
  few := few
  fixed := fixed
  unbuilt := fun _ => rfl

theorem Bounded.withModulus {t : ModularTotalizer} (bounded : t.Bounded) {modulus : Nat}
    (two : 2 ≤ modulus) (inRange : modulus < sizeRange) :
    Bounded { t with modulus := some modulus } :=
  { bounded with
    modulus := by
      rintro _ ⟨⟩
      exact inRange
    fixed := by
      rintro _ ⟨⟩
      exact two }

theorem Bounded.setModulus {t t' : ModularTotalizer} (bounded : t.Bounded) {modulus : Nat}
    (inRange : modulus < sizeRange) (set : t.setModulus modulus = .ok t') : t'.Bounded := by
  unfold ModularTotalizer.setModulus at set
  split at set
  · cases set
  · rename_i two
    split at set
    · cases set
    · cases set
      exact bounded.withModulus (by omega) inRange

/-- The modulus that a build chooses is no more than the number beyond its maximum bound. -/
theorem Bounded.modulusFor_lt {t : ModularTotalizer} (bounded : t.Bounded) {maxBound : Nat}
    (room : maxBound + 1 < sizeRange) : modulusFor t.modulus maxBound < sizeRange := by
  cases preset : t.modulus with
  | none => exact Nat.lt_of_le_of_lt (Nat.succ_le_succ (Nat.sqrt_le_self maxBound)) room
  | some modulus => exact bounded.modulus modulus preset

/-- The literals that a request takes. -/
theorem takeLiterals_eq_ok {σ : Type} {w w' : Workspace σ} {n : Nat} {ls : List Literal}
    (taken : w.takeLiterals n = (.ok ls, w')) : ls = block w.supply.next n := by
  simp only [Workspace.takeLiterals, Prod.mk.injEq] at taken
  have supplied : w.supply.takeLiterals n = (.ok ls, (w.supply.takeLiterals n).2) :=
    Prod.ext taken.1 rfl
  exact (VariableSupply.takeLiterals_eq_ok_iff.1 supplied).2.2.1

section Calls

variable {σ : Type} [Collector σ] {modulus maxBound : Nat} {t : ModularTotalizer}
  {left right : Halving Literal}

theorem Bounded.buildTree (bounded : t.Bounded) (empty : t.nodes = [])
    (inRange : maxBound < sizeRange) (two : 2 ≤ modulus)
    (split : Halving.ofList? t.inputs = some (.fork left right)) {upper lower : List Literal}
    (fit : PartsFit modulus (.fork left right) upper lower)
    (carriedUpper : LiteralsOver (· ≤ Variable.maxIndex) upper)
    (carriedLower : LiteralsOver (· ≤ Variable.maxIndex) lower)
    (clausesBefore variablesBefore : Nat) (w : Workspace σ) :
    (t.buildTree modulus maxBound (.fork left right) upper lower clausesBefore variablesBefore
      w).value.Bounded := by
  obtain ⟨tree, grown⟩ : ∃ tree,
    (Tree.grow modulus (.fork left right) upper lower w.supply.next).1 = tree := ⟨_, rfl⟩
  have carried : LiteralsOver (· ≤ Variable.maxIndex) tree.literals := by
    have perm := Tree.literals_fork two fit (Tree.literals_child two left)
      (Tree.literals_child two right) w.supply.next
    rw [grown, Halving.toList_of_ofList? split] at perm
    exact .of_perm (literalsOver_append.2 ⟨literalsOver_append.2
      ⟨bounded.inputs, literalsOver_append.2 ⟨carriedUpper, carriedLower⟩⟩,
      VariableSupply.carried_block _ _⟩) perm
  have room : 1 + tree.descendantCount ≤ sizeRange := by
    have count := tree.descendantCount_eq
    rw [← grown, Tree.shape_grow two fit, grown, Halving.size_of_ofList? split] at count
    have few := bounded.few
    unfold longestBlock at few
    unfold sizeRange
    omega
  obtain ⟨finish, failure, w', ran⟩ :
    ∃ finish failure w', w.runPieces (tree.pieces modulus maxBound 0 1) = ⟨finish, failure, w'⟩ :=
    ⟨_, _, _, rfl⟩
  have counted := bounded.tally.settle clausesBefore variablesBefore w'.clauseCount w'.supply.next
    failure
  obtain ⟨failure', tally, settled⟩ : ∃ failure' tally, t.tally.settle clausesBefore variablesBefore
    w'.clauseCount w'.supply.next failure = (failure', tally) := ⟨_, _, rfl⟩
  rw [settled] at counted
  have built : Bounded ⟨t.inputs, t.modulus,
      Node.keepFirst 0 (1 + 2 * ((finish + 1) / 2)) (tree.layout 0), some 0, some maxBound,
      tally⟩ :=
    { inputs := bounded.inputs
      modulus := bounded.modulus
      nodes := Node.storable_keepFirst (Tree.storable_layout carried room) 0 _
      root := by
        rintro _ ⟨⟩
        decide
      maxBound := by
        rintro _ ⟨⟩
        exact inRange
      tally := counted
      few := bounded.few
      fixed := bounded.fixed
      unbuilt := nofun }
  simp only [ModularTotalizer.buildTree, grown, empty, List.length_nil, ran, settled,
    List.nil_append, Nat.zero_add]
  cases failure' <;> exact built

theorem Bounded.buildRoot (bounded : t.Bounded) (empty : t.nodes = [])
    (inRange : maxBound < sizeRange) (two : 2 ≤ modulus)
    (split : Halving.ofList? t.inputs = some (.fork left right)) (w : Workspace σ) :
    (t.buildRoot modulus maxBound (.fork left right) w).value.Bounded := by
  have divided : divWithin t.inputs.length modulus = .ok (t.inputs.length / modulus) :=
    if_neg (by omega)
  simp only [ModularTotalizer.buildRoot, divided]
  split
  · exact bounded
  · rename_i upper w₁ takenUpper
    split
    · exact bounded
    · rename_i lower w₂ takenLower
      obtain rfl := takeLiterals_eq_ok takenUpper
      obtain rfl := takeLiterals_eq_ok takenLower
      have size : left.size + right.size = t.inputs.length := Halving.size_of_ofList? split
      have fit : PartsFit modulus (.fork left right)
          (block w.supply.next (t.inputs.length / modulus))
          (block w₁.supply.next (modulus - 1)) := by
        simp only [PartsFit, VariableSupply.length_block, upperCount, size, true_and]
        omega
      exact bounded.buildTree empty inRange two split fit (VariableSupply.carried_block _ _)
        (VariableSupply.carried_block _ _) _ _ _

/-- A modular totalizer can be stored after any call for a build, however it ends. -/
theorem Bounded.encode (bounded : t.Bounded) (inRange : maxBound < sizeRange) (w : Workspace σ) :
    (t.encode maxBound w).value.Bounded := by
  unfold ModularTotalizer.encode
  cases recorded : t.maxBound with
  | some built =>
      simp only
      split <;> exact bounded
  | none =>
      by_cases wanted : maxBound = 0 ∨ t.inputs.length ≤ maxBound
      · simp only [wanted, if_true]
        exact bounded
      have positive : 0 < maxBound := by omega
      obtain ⟨left, right, split, -⟩ := Halving.exists_fork (by omega : 2 ≤ t.inputs.length)
      have few := bounded.few
      have room : maxBound + 1 < sizeRange := by
        unfold longestBlock at few
        unfold sizeRange
        omega
      have two := two_le_modulusFor bounded.fixed positive
      have built := (bounded.withModulus two (bounded.modulusFor_lt room)).buildRoot
        (bounded.unbuilt recorded) inRange two split w
      simp only [wanted, if_false, chooseModulus_eq room, split]
      rwa [recorded] at built

end Calls

end ModularTotalizer

/-! ### Tightenable constraints -/

namespace TightenableConstraint

/-- A constraint that can be stored, over no more literals than a list can hold and with a modulus
that a tree can have. -/
structure Bounded (c : TightenableConstraint) : Prop extends Storable c where
  few : c.literals.length ≤ longestBlock
  preset : c.PresetOk

theorem lt_sizeRange_of_few {n : Nat} (few : n ≤ longestBlock) : n < sizeRange :=
  Nat.lt_of_le_of_lt few (by decide)

section Calls

variable {σ : Type} [Collector σ] {c : TightenableConstraint} {w : Workspace σ}

theorem Bounded.countedLiterals (bounded : c.Bounded) :
    LiteralsOver (· ≤ Variable.maxIndex) c.countedLiterals ∧
      c.countedLiterals.length ≤ longestBlock := by
  unfold TightenableConstraint.countedLiterals
  split
  · exact ⟨bounded.literals, bounded.few⟩
  · rw [literalsOver_map_complement, List.length_map]
    exact ⟨bounded.literals, bounded.few⟩

theorem Bounded.countedBound_lt (bounded : c.Bounded) {counted : Nat}
    (eq : c.countedBound = .ok counted) : counted < sizeRange := by
  have := lt_sizeRange_of_few bounded.few
  unfold TightenableConstraint.countedBound subWithin at eq
  split at eq
  · cases eq
    exact bounded.bound
  · split at eq
    · cases eq
      omega
    · cases eq

theorem Bounded.highestBound_lt (bounded : c.Bounded) : c.highestBound < sizeRange := by
  unfold highestBound
  split
  · exact bounded.bound
  · exact lt_sizeRange_of_few bounded.few

/-- The tree that is made for a constraint can be stored. -/
theorem Bounded.storable_of_makeTree (bounded : c.Bounded) {tree : CountingTree}
    (made : (c.makeTree w).1 = .ok tree) : tree.Storable := by
  cases family : c.family with
  | totalizer =>
      rw [makeTree_totalizer family] at made
      obtain ⟨-, rfl⟩ := done_of_kept made
      have start := Totalizer.bounded_ofInputs bounded.literals bounded.few
      exact (start.encode bounded.highestBound_lt w).toStorable
  | modular =>
      obtain ⟨_, eq⟩ | ⟨_, eq⟩ | ⟨maxBound, counted, eq⟩ := makeTree_modular_cases family w
      · rw [eq] at made
        cases made
      · rw [eq] at made
        cases made
      · rw [eq] at made
        obtain ⟨-, rfl⟩ := done_of_kept made
        have start := ModularTotalizer.bounded_ofPreset bounded.countedLiterals.1
          bounded.countedLiterals.2 (bounded.preset family) bounded.presetModulus
        exact (start.encode (bounded.countedBound_lt counted) w).toStorable

theorem Bounded.withBound (bounded : c.Bounded) {bound : Nat} (inRange : bound < sizeRange) :
    (c.withBound bound).Bounded :=
  { bounded with bound := inRange }

theorem Bounded.materialize (bounded : c.Bounded) : (c.materialize w).value.Bounded := by
  unfold TightenableConstraint.materialize
  split
  · exact bounded
  · split
    · exact bounded
    · rename_i tree w' made
      exact { bounded with
        tree := by
          rintro _ ⟨⟩
          exact bounded.storable_of_makeTree (congrArg Prod.fst made) }

theorem Bounded.reach (bounded : c.Bounded) : (c.reach w).value.Bounded := by
  unfold TightenableConstraint.reach
  split
  · exact bounded
  · split
    · exact bounded
    · exact bounded.materialize

theorem Bounded.advance (bounded : c.Bounded) : (c.advance w).value.Bounded := by
  unfold TightenableConstraint.advance
  split
  · exact bounded
  · split
    · exact bounded
    · exact bounded.materialize

theorem Bounded.moveTo (bounded : c.Bounded) {bound : Nat} (inRange : bound < sizeRange) :
    (c.moveTo bound w).value.Bounded := by
  have advanced : ((c.withBound bound).advance w).value.Bounded :=
    (bounded.withBound inRange).advance
  unfold TightenableConstraint.moveTo
  split
  · rename_i moved w' eq
    rw [TightenableConstraint.withBound, eq] at advanced
    exact advanced
  · rename_i f moved w' eq
    rw [TightenableConstraint.withBound, eq] at advanced
    exact advanced
  · rename_i failure moved w' _ eq
    rw [TightenableConstraint.withBound, eq] at advanced
    exact advanced.withBound bounded.bound

theorem Bounded.tighten (bounded : c.Bounded) {direction : Direction} {bound : Nat}
    (inRange : bound < sizeRange) : (c.tighten direction bound w).value.Bounded := by
  unfold TightenableConstraint.tighten
  split
  · exact bounded
  · exact bounded.moveTo inRange

theorem bounded_of_build {literals : List Literal} {direction : Direction} {bound : Nat}
    {configuration : Configuration} {w' : Workspace σ}
    (carried : LiteralsOver (· ≤ Variable.maxIndex) literals) (few : literals.length ≤ longestBlock)
    (modulusIn : ∀ modulus ∈ configuration.modulus, modulus < sizeRange)
    (built : build literals direction bound configuration w = (.ok c, w')) : c.Bounded := by
  obtain ⟨inRange, preset, w₁, reached, -⟩ := reach_of_build built
  have start : (blank literals direction bound configuration).Bounded :=
    { literals := carried
      bound := Nat.lt_of_le_of_lt inRange (lt_sizeRange_of_few few)
      presetModulus := modulusIn
      tree := nofun
      few := few
      preset := preset }
  have bounded : ((blank literals direction bound configuration).reach w).value.Bounded :=
    start.reach
  rwa [reached] at bounded

end Calls

end TightenableConstraint

/-! ### Encoders of any kind -/

namespace Encoder

/-- The number of a call is a size. -/
def Call.InRange : Call → Prop
  | .setModulus modulus => modulus < sizeRange
  | .encode _ maxBound => maxBound < sizeRange
  | .enforce _ bound => bound < sizeRange
  | .tighten _ bound => bound < sizeRange
  | .summarize => True

/-- The encoder can be stored, and so can what any call leaves of it. -/
def Bounded : Encoder → Prop
  | totalizer t => t.Bounded
  | modular t => t.Bounded
  | constraint c => c.Bounded

theorem Bounded.storable {e : Encoder} (bounded : e.Bounded) : e.Storable := by
  cases e with
  | totalizer t => exact Totalizer.Bounded.toStorable bounded
  | modular t => exact ModularTotalizer.Bounded.toStorable bounded
  | constraint c => exact TightenableConstraint.Bounded.toStorable bounded

section Calls

variable {σ : Type} [Collector σ] {e : Encoder} {r : Call} {w : Workspace σ}
  {o : Outcome Encoder σ}

/-- A call leaves a bounded encoder bounded, however it ends. -/
theorem Bounded.call (bounded : e.Bounded) (inRange : r.InRange) (asked : e.call? r w = some o) :
    o.value.Bounded := by
  cases r with
  | setModulus modulus =>
      cases e with
      | modular t =>
          cases set : t.setModulus modulus with
          | error why =>
              simp only [call?, setModulus?, set, Option.map_some, Except.map,
                Option.some.injEq] at asked
              subst asked
              exact bounded
          | ok t' =>
              simp only [call?, setModulus?, set, Option.map_some, Except.map,
                Option.some.injEq] at asked
              subst asked
              exact ModularTotalizer.Bounded.setModulus bounded inRange set
      | totalizer t => cases asked
      | constraint c => cases asked
  | encode direction maxBound =>
      cases e with
      | totalizer t =>
          cases asked
          exact Totalizer.Bounded.encode bounded inRange w
      | modular t =>
          cases direction with
          | atMost =>
              cases asked
              exact ModularTotalizer.Bounded.encode bounded inRange w
          | atLeast => cases asked
      | constraint c => cases direction <;> cases asked
  | enforce direction bound =>
      obtain ⟨enforce, -, rfl⟩ := Option.map_eq_some_iff.1 asked
      exact bounded
  | tighten direction bound =>
      cases e with
      | constraint c =>
          cases asked
          exact TightenableConstraint.Bounded.tighten bounded inRange
      | totalizer t => cases asked
      | modular t => cases asked
  | summarize =>
      simp only [call?] at asked
      split at asked <;> (cases asked; exact bounded)

end Calls

end Encoder

end CardinalityClauses
