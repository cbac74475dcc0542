import CardinalityClauses.Proofs.Encoding.Halving
import CardinalityClauses.Proofs.Encoding.Lenient
import CardinalityClauses.Proofs.Totalizer.Adder
import Mathlib.Tactic.Linarith

/-!
The clauses of a whole tree.

Facts about what the clauses say go by induction over the tree, from the widths of its nodes.
Facts about fresh variables go by induction over the shape, along with the growth of the tree.
-/

namespace CardinalityClauses.Totalizer

open Unary

/-- Up to which number the nodes of a tree count. -/
def countLimit : Direction → (maxBound : Nat) → Nat
  | .atMost, maxBound => maxBound + 1
  | .atLeast, maxBound => maxBound

theorem outputCount_eq (direction : Direction) (maxBound inputs : Nat) :
    outputCount direction maxBound inputs = min inputs (countLimit direction maxBound) := by
  cases direction <;> rfl

/-- How many variables the tree over halved inputs takes. -/
def demand (width : Nat → Nat) : Halving Literal → Nat
  | .tip _ => 0
  | .fork left right => demand width left + demand width right + width (left.size + right.size)

namespace Tree

/-- The inputs from left to right. -/
def inputs : Tree → List Literal
  | leaf input => [input]
  | node _ left right => left.inputs ++ right.inputs

/-- The clauses of all adders. -/
def clauses (direction : Direction) : Tree → List Clause
  | leaf _ => []
  | node outputs left right =>
      left.clauses direction ++ right.clauses direction ++
        (adder direction left.outputs right.outputs outputs).clauses

/-- Every inner node has an output for every count up to a limit. -/
def Sized (limit : Nat) : Tree → Prop
  | leaf _ => True
  | node outputs left right =>
      outputs.length = min (left.inputCount + right.inputCount) limit ∧
        left.Sized limit ∧ right.Sized limit

/-! ### Trees as they are planned -/

theorem length_inputs (tree : Tree) : tree.inputs.length = tree.inputCount := by
  induction tree with
  | leaf input => rfl
  | node outputs left right ihLeft ihRight =>
      simp [inputs, inputCount, ihLeft, ihRight]

theorem plannedClauses_pieces (direction : Direction) (tree : Tree) (start : Nat) :
    plannedClauses (tree.pieces direction start) = tree.clauses direction := by
  induction tree generalizing start with
  | leaf input => rfl
  | node outputs left right ihLeft ihRight =>
      simp only [pieces, plannedClauses_append, ihLeft, ihRight, clauses]
      simp [plannedClauses, Piece.clauses]

section Sized

variable {limit : Nat} {tree left right : Tree} {outputs : List Literal} {direction : Direction}

theorem Sized.le_length_outputs (sized : tree.Sized limit) :
    min tree.inputCount limit ≤ tree.outputs.length := by
  cases tree with
  | leaf input => exact Nat.min_le_left _ _
  | node outputs left right => exact Nat.le_of_eq sized.1.symm

theorem Sized.narrow (sized : (node outputs left right).Sized limit) :
    outputs.length ≤ left.outputs.length + right.outputs.length := by
  obtain ⟨length, sizedLeft, sizedRight⟩ := sized
  have := sizedLeft.le_length_outputs
  have := sizedRight.le_length_outputs
  omega

/-- The clauses of an inner node are those of its children and of its adder. -/
theorem clauses_node_subset {cs : List Clause} :
    (node outputs left right).clauses direction ⊆ cs ↔
      left.clauses direction ⊆ cs ∧ right.clauses direction ⊆ cs ∧
        (adder direction left.outputs right.outputs outputs).clauses ⊆ cs := by
  rw [clauses, List.append_subset, List.append_subset, and_assoc]

/-- A child has outputs for any number of its inputs that matters to the node. -/
theorem Sized.wide_of_le (sized : (node outputs left right).Sized limit) {l r : Nat}
    (leLeft : l ≤ left.inputs.length) (leRight : r ≤ right.inputs.length) :
    min l outputs.length ≤ left.outputs.length ∧ min r outputs.length ≤ right.outputs.length := by
  obtain ⟨length, sizedLeft, sizedRight⟩ := sized
  have := sizedLeft.le_length_outputs
  have := sizedRight.le_length_outputs
  rw [length_inputs] at leLeft leRight
  omega

/-- In particular it has outputs for as many inputs as satisfy `p`. -/
theorem Sized.wide_countP (sized : (node outputs left right).Sized limit) (p : Literal → Bool) :
    min (left.inputs.countP p) outputs.length ≤ left.outputs.length ∧
      min (right.inputs.countP p) outputs.length ≤ right.outputs.length :=
  sized.wide_of_le List.countP_le_length List.countP_le_length

theorem Sized.wide (sized : (node outputs left right).Sized limit) (v : Valuation) :
    min (v.trueCount left.inputs) outputs.length ≤ left.outputs.length ∧
      min (v.trueCount right.inputs) outputs.length ≤ right.outputs.length :=
  sized.wide_countP _

theorem Sized.complete (sized : tree.Sized limit) (start : Nat) :
    ∀ p ∈ tree.pieces direction start, p.Complete := by
  induction tree generalizing start with
  | leaf input => simp [pieces]
  | node outputs left right ihLeft ihRight =>
      simp only [pieces, List.forall_mem_append, List.forall_mem_singleton]
      refine ⟨⟨ihLeft sized.2.1 _, ihRight sized.2.2 _⟩, ?_⟩
      simpa [Piece.Complete] using adder_stop sized.narrow

/-- The root reaches the number of true inputs. -/
theorem Sized.reaches (sized : tree.Sized limit) {v : Valuation}
    (models : v.Models (tree.clauses .atMost)) :
    Reaches v tree.outputs (v.trueCount tree.inputs) := by
  induction tree with
  | leaf input => exact (counts_singleton v input).reaches
  | node outputs left right ihLeft ihRight =>
      rw [clauses, Valuation.models_append, Valuation.models_append] at models
      rw [inputs, Valuation.trueCount_append]
      exact reaches_adder models.2 (ihLeft sized.2.1 models.1.1) (ihRight sized.2.2 models.1.2)
        (sized.wide v).1 (sized.wide v).2

/-- The root stays within the number of true inputs. -/
theorem Sized.within (sized : tree.Sized limit) {v : Valuation}
    (models : v.Models (tree.clauses .atLeast)) :
    StaysWithin v tree.outputs (v.trueCount tree.inputs) := by
  induction tree with
  | leaf input => exact (counts_singleton v input).within
  | node outputs left right ihLeft ihRight =>
      rw [clauses, Valuation.models_append, Valuation.models_append] at models
      rw [inputs, Valuation.trueCount_append]
      exact within_adder models.2 (ihLeft sized.2.1 models.1.1) (ihRight sized.2.2 models.1.2)
        (sized.wide v).1 (sized.wide v).2 sized.narrow

/-- The outputs of all nodes together with the inputs. -/
def weight : Tree → Nat
  | leaf _ => 1
  | node outputs left right => left.weight + right.weight + outputs.length

theorem length_outputs_le_weight (tree : Tree) : tree.outputs.length ≤ tree.weight := by
  cases tree with
  | leaf input => exact Nat.le_refl _
  | node outputs left right => exact Nat.le_add_left _ _

theorem length_clauses_le (direction : Direction) (tree : Tree) :
    2 * (tree.clauses direction).length + 1 ≤ tree.weight * tree.weight := by
  induction tree with
  | leaf input => exact Nat.le_refl _
  | node outputs left right ihLeft ihRight =>
      simp only [clauses, List.length_append, weight]
      cases outputs with
      | nil =>
          simp only [adder_nil, List.length_nil]
          nlinarith [Nat.zero_le (left.weight * right.weight)]
      | cons output rest =>
          have own : (adder direction left.outputs right.outputs (output :: rest)).clauses.length ≤
              (left.weight + 1) * (right.weight + 1) :=
            Nat.le_trans length_adder_le (Nat.mul_le_mul
              (Nat.succ_le_succ left.length_outputs_le_weight)
              (Nat.succ_le_succ right.length_outputs_le_weight))
          have grows : left.weight + right.weight + 1 ≤
              left.weight + right.weight + (output :: rest).length := by simp
          have square := Nat.mul_le_mul grows grows
          nlinarith

/-- Without outputs there are no clauses. -/
theorem Sized.clauses_eq_nil (sized : tree.Sized 0) : tree.clauses direction = [] := by
  induction tree with
  | leaf input => rfl
  | node outputs left right ihLeft ihRight =>
      have none : outputs = [] := List.eq_nil_of_length_eq_zero (by simpa using sized.1)
      simp [clauses, ihLeft sized.2.1, ihRight sized.2.2, none, adder_nil]

end Sized

/-! ### Trees as they grow -/

section Grow

variable {direction : Direction} {maxBound next : Nat} {shape : Halving Literal}

theorem grow_next (width : Nat → Nat) (shape : Halving Literal) (next : Nat) :
    (grow width shape next).2 = next + demand width shape := by
  induction shape generalizing next with
  | tip input => rfl
  | fork left right ihLeft ihRight =>
      simp only [grow, demand, ihLeft, ihRight]
      omega

/-- The tree of a fork, with the variables from which its parts are taken. -/
theorem grow_fork (width : Nat → Nat) (left right : Halving Literal) (next : Nat) :
    (grow width (.fork left right) next).1 =
      node
        (VariableSupply.block (next + demand width left + demand width right)
          (width (left.size + right.size)))
        (grow width left next).1 (grow width right (next + demand width left)).1 := by
  simp only [grow, grow_next]

theorem inputs_grow (width : Nat → Nat) (shape : Halving Literal) (next : Nat) :
    (grow width shape next).1.inputs = shape.toList := by
  induction shape generalizing next with
  | tip input => rfl
  | fork left right ihLeft ihRight =>
      rw [grow_fork, inputs, ihLeft, ihRight, Halving.toList]

theorem inputCount_grow (width : Nat → Nat) (shape : Halving Literal) (next : Nat) :
    (grow width shape next).1.inputCount = shape.size := by
  rw [← length_inputs, inputs_grow, Halving.length_toList]

theorem sized_grow (direction : Direction) (maxBound : Nat) (shape : Halving Literal)
    (next : Nat) :
    (grow (outputCount direction maxBound) shape next).1.Sized (countLimit direction maxBound) := by
  induction shape generalizing next with
  | tip input => trivial
  | fork left right ihLeft ihRight =>
      rw [grow_fork]
      refine ⟨?_, ihLeft _, ihRight _⟩
      rw [VariableSupply.length_block, outputCount_eq, inputCount_grow, inputCount_grow]

theorem plannedVariables_grow (width : Nat → Nat) (shape : Halving Literal) (next start : Nat) :
    plannedVariables ((grow width shape next).1.pieces direction start) = demand width shape := by
  induction shape generalizing next start with
  | tip input => rfl
  | fork left right ihLeft ihRight =>
      rw [grow_fork]
      simp only [pieces, plannedVariables_append, ihLeft, ihRight, demand]
      simp [plannedVariables]

theorem weight_grow (width : Nat → Nat) (shape : Halving Literal) (next : Nat) :
    (grow width shape next).1.weight = shape.size + demand width shape := by
  induction shape generalizing next with
  | tip input => rfl
  | fork left right ihLeft ihRight =>
      rw [grow_fork, weight, ihLeft, ihRight, VariableSupply.length_block, Halving.size, demand]
      omega

/-- Every inner node takes a variable, unless nothing is to be counted. -/
theorem size_le_demand (positive : 0 < countLimit direction maxBound) (shape : Halving Literal) :
    shape.size ≤ demand (outputCount direction maxBound) shape + 1 := by
  induction shape with
  | tip input => exact Nat.le_refl _
  | fork left right ihLeft ihRight =>
      have := left.size_pos
      simp only [Halving.size, demand, outputCount_eq]
      omega

/-- A tree whose variables can be carried by literals has no more clauses than can be
counted. -/
theorem length_clauses_lt
    (room : demand (outputCount direction maxBound) shape ≤ Variable.maxIndex + 1) :
    ((grow (outputCount direction maxBound) shape next).1.clauses direction).length <
      sizeRange := by
  have sized := sized_grow direction maxBound shape next
  rcases Nat.eq_zero_or_pos (countLimit direction maxBound) with zero | positive
  · rw [zero] at sized
    simp [sized.clauses_eq_nil, sizeRange]
  · have few := length_clauses_le direction (grow (outputCount direction maxBound) shape next).1
    have := size_le_demand positive shape
    rw [weight_grow] at few
    have bound : shape.size + demand (outputCount direction maxBound) shape ≤ 4294967297 := by
      simp only [Variable.maxIndex] at room
      omega
    have square := Nat.mul_le_mul bound bound
    simp only [sizeRange]
    omega

variable (old : LiteralsOver (· < next) shape.toList)
  (room : next + demand (outputCount direction maxBound) shape ≤ Variable.maxIndex + 1)

include old room

/-- The outputs of the tree are inputs or fresh. -/
theorem literalsOver_outputs_grow :
    LiteralsOver (· < next + demand (outputCount direction maxBound) shape)
      (grow (outputCount direction maxBound) shape next).1.outputs := by
  cases shape with
  | tip input => simpa [grow, demand, outputs, Halving.toList] using old
  | fork left right =>
      rw [grow_fork]
      simp only [demand] at room ⊢
      refine (VariableSupply.literalsOver_block (by omega)).mono fun i hi => ?_
      omega

theorem clausesOver_grow :
    ClausesOver (· < next + demand (outputCount direction maxBound) shape)
      ((grow (outputCount direction maxBound) shape next).1.clauses direction) := by
  induction shape generalizing next with
  | tip input => simp [grow, clauses, ClausesOver]
  | fork left right ihLeft ihRight =>
      rw [Halving.toList, literalsOver_append] at old
      have sized := sized_grow direction maxBound (.fork left right) next
      have oldFork : LiteralsOver (· < next) (Halving.fork left right).toList :=
        literalsOver_append.2 old
      have own := literalsOver_outputs_grow oldFork room
      rw [grow_fork] at sized own ⊢
      simp only [demand] at room own ⊢
      have oldRight := old.2.mono fun i (hi : i < next) =>
        Nat.lt_add_right (demand (outputCount direction maxBound) left) hi
      simp only [clauses, clausesOver_append]
      refine ⟨⟨?_, ?_⟩, literalsOver_adder ?_ ?_ own sized.narrow⟩
      · exact (ihLeft old.1 (by omega)).upTo (by omega)
      · exact (ihRight oldRight (by omega)).upTo (by omega)
      · exact (literalsOver_outputs_grow old.1 (by omega)).upTo (by omega)
      · exact (literalsOver_outputs_grow oldRight (by omega)).upTo (by omega)

/-- The fresh variables can be given the values of a right count. -/
theorem exists_counts_grow (v : Valuation) :
    ∃ w, v.AgreeOutside next (next + demand (outputCount direction maxBound) shape) w ∧
      w.Models ((grow (outputCount direction maxBound) shape next).1.clauses direction) ∧
      Counts w (grow (outputCount direction maxBound) shape next).1.outputs
        (w.trueCount shape.toList) := by
  induction shape generalizing next v with
  | tip input => exact ⟨v, .refl _ v, by simp [grow, clauses, Valuation.models_nil],
      counts_singleton v input⟩
  | fork left right ihLeft ihRight =>
      rw [Halving.toList, literalsOver_append] at old
      have sized := sized_grow direction maxBound (.fork left right) next
      rw [grow_fork] at sized ⊢
      simp only [demand] at room ⊢
      have roomHere : next + demand (outputCount direction maxBound) left +
          demand (outputCount direction maxBound) right +
            outputCount direction maxBound (left.size + right.size) ≤ Variable.maxIndex + 1 := by
        omega
      have oldRight := old.2.mono fun i (hi : i < next) =>
        Nat.lt_add_right (demand (outputCount direction maxBound) left) hi
      -- The values are chosen on the left, on the right, and at the node.
      obtain ⟨u, agreeU, modelsLeft, countsLeft⟩ := ihLeft old.1 (by omega) v
      obtain ⟨x, agreeX, modelsRight, countsRight⟩ := ihRight oldRight (by omega) u
      obtain ⟨w, agreeW, own⟩ := VariableSupply.exists_agreeOutside_block roomHere x fun k =>
        decide (k < x.trueCount (left.toList ++ right.toList))
      -- What was chosen before stays.
      have keepLeft : Valuation.Agree (· < next + demand (outputCount direction maxBound) left)
          u w := agreeX.below.trans (agreeW.below.downTo (by omega))
      have keepRight : Valuation.Agree
          (· < next + demand (outputCount direction maxBound) left +
            demand (outputCount direction maxBound) right) x w := agreeW.below
      have oldHere : LiteralsOver (· < next + demand (outputCount direction maxBound) left +
          demand (outputCount direction maxBound) right) (left.toList ++ right.toList) :=
        (literalsOver_append.2 old).upTo (by omega)
      rw [keepLeft.trueCount_eq (old.1.upTo (by omega))] at countsLeft
      rw [keepRight.trueCount_eq (oldRight.upTo (by omega))] at countsRight
      rw [keepRight.trueCount_eq oldHere] at own
      replace countsLeft := countsLeft.of_agree keepLeft
        (literalsOver_outputs_grow old.1 (by omega))
      replace countsRight := countsRight.of_agree keepRight
        (literalsOver_outputs_grow oldRight (by omega))
      have countsHere := counts_of_eq_decide own
      refine ⟨w, ?_, ?_, countsHere⟩
      · exact ((agreeU.mono (by omega) (by omega)).trans
          (agreeX.mono (by omega) (by omega))).trans (agreeW.mono (by omega) (by omega))
      · rw [Valuation.trueCount_append] at countsHere
        have wide := sized.wide w
        simp only [inputs_grow] at wide
        simp only [clauses, Valuation.models_append]
        exact ⟨⟨keepLeft.models (clausesOver_grow old.1 (by omega)) modelsLeft,
            keepRight.models (clausesOver_grow oldRight (by omega)) modelsRight⟩,
          models_adder countsLeft countsRight countsHere wide.1 wide.2 sized.narrow⟩

end Grow

/-- An adder with fresh outputs leaves the older variables alone. -/
theorem allows_adder {direction : Direction} {left right : List Literal} {first n : Nat}
    (room : first + n ≤ Variable.maxIndex + 1) (overLeft : LiteralsOver (· < first) left)
    (overRight : LiteralsOver (· < first) right) (narrow : n ≤ left.length + right.length) :
    Allows (fun _ => True) first (first + n)
      (adder direction left right (VariableSupply.block first n)).clauses := by
  have narrow : (VariableSupply.block first n).length ≤ left.length + right.length := by
    rwa [VariableSupply.length_block]
  refine ⟨literalsOver_adder ?_ ?_ ?_ narrow, fun v _ => ?_⟩
  · exact overLeft.upTo (Nat.le_add_right _ _)
  · exact overRight.upTo (Nat.le_add_right _ _)
  · exact (VariableSupply.literalsOver_block room).mono fun i hi => hi.2
  · obtain ⟨w, agree, set⟩ := VariableSupply.exists_agreeOutside_block room v
      fun _ => decide (direction = .atMost)
    refine ⟨w, agree, models_adder_of_pushed narrow fun output mem => ?_⟩
    obtain ⟨k, found⟩ := List.getElem?_of_mem mem
    exact set k output found

/-- However far the nodes are built, the older variables are left alone. -/
theorem lenient_grow (direction : Direction) (maxBound : Nat) {shape : Halving Literal}
    {next : Nat} (start : Nat) (old : LiteralsOver (· < next) shape.toList) :
    Lenient (fun _ => True) next
      ((grow (outputCount direction maxBound) shape next).1.pieces direction start) := by
  induction shape generalizing next start with
  | tip input => exact .nil _ next
  | fork left right ihLeft ihRight =>
      have sized := sized_grow direction maxBound (.fork left right) next
      rw [Halving.toList, literalsOver_append] at old
      obtain ⟨oldLeft, oldRight⟩ := old
      rw [grow_fork] at sized ⊢
      obtain ⟨atRight, hRight⟩ :
        ∃ n, n = next + demand (outputCount direction maxBound) left := ⟨_, rfl⟩
      obtain ⟨own, hOwn⟩ :
        ∃ n, n = atRight + demand (outputCount direction maxBound) right := ⟨_, rfl⟩
      simp only [← hRight, ← hOwn] at sized ⊢
      replace oldRight : LiteralsOver (· < atRight) right.toList := oldRight.upTo (by omega)
      have node (e : Option Event) : Lenient (fun _ => True) own [⟨(VariableSupply.block own
          (outputCount direction maxBound (left.size + right.size))).length, [adder direction
            (grow (outputCount direction maxBound) left next).1.outputs
            (grow (outputCount direction maxBound) right atRight).1.outputs
            (VariableSupply.block own (outputCount direction maxBound (left.size + right.size)))],
          e⟩] := by
        refine .single fun room => ?_
        have narrow := sized.narrow
        simp only [VariableSupply.length_block] at room narrow ⊢
        simp only [Piece.clauses, List.flatMap_singleton]
        refine allows_adder room ?_ ?_ narrow
        · exact (literalsOver_outputs_grow oldLeft (by omega)).upTo (by omega)
        · exact (literalsOver_outputs_grow oldRight (by omega)).upTo (by omega)
      rw [pieces, List.append_assoc]
      refine (ihLeft _ oldLeft).append ((ihRight _ oldRight).append (node _) ?_ ?_) ?_ ?_
      · rw [plannedVariables_grow, hOwn]
      · exact fun _ _ _ _ _ => trivial
      · rw [plannedVariables_grow, hRight]
      · exact fun _ _ _ _ _ => trivial

end Tree

end CardinalityClauses.Totalizer
