import CardinalityClauses.Proofs.Encoding.Halving
import CardinalityClauses.Proofs.ModularTotalizer.Tree
import Mathlib.Tactic.Linarith

/-!
The fresh variables of a modular totalizer.

A step takes the parts of both children, then the carry, then what is below on the left and on
the right. Along with the numbers of variables go the widths of all parts, and from the widths
follows how many clauses there are.
-/

namespace CardinalityClauses.ModularTotalizer

open Unary
open VariableSupply (block length_block)

/-! ### How many variables are taken -/

/-- The number of literals in the upper part of a child. -/
def upperWidth (modulus : Nat) : Halving Literal → Nat
  | .tip _ => 0
  | .fork left right => upperCount modulus (left.size + right.size)

/-- The number of fresh literals in the lower part of a child. -/
def lowerWidth (modulus : Nat) : Halving Literal → Nat
  | .tip _ => 0
  | .fork left right => lowerCount modulus (left.size + right.size)

/-- The number of fresh literals in both parts of a child. -/
def partsDemand (modulus : Nat) (shape : Halving Literal) : Nat :=
  upperWidth modulus shape + lowerWidth modulus shape

/-- How many variables are taken below a node whose parts are there. -/
def demandBelow (modulus : Nat) : Halving Literal → Nat
  | .tip _ => 0
  | .fork left right =>
      partsDemand modulus left + partsDemand modulus right +
        min 1 (upperCount modulus (left.size + right.size)) +
          demandBelow modulus left + demandBelow modulus right

/-- The parts that a node is given fit the inputs below it; an input has none. -/
def PartsFit (modulus : Nat) : Halving Literal → (upper lower : List Literal) → Prop
  | .tip _, upper, _ => upper = []
  | .fork left right, upper, lower =>
      upper.length = upperCount modulus (left.size + right.size) ∧
        min (left.size + right.size) (modulus - 1) ≤ lower.length ∧ lower.length < modulus

section Widths

variable {modulus : Nat}

theorem freshParts_eq (modulus : Nat) (shape : Halving Literal) (next : Nat) :
    freshParts modulus shape next =
      (block next (upperWidth modulus shape),
        block (next + upperWidth modulus shape) (lowerWidth modulus shape),
        next + partsDemand modulus shape) := by
  cases shape with
  | tip input => rfl
  | fork left right =>
      simp [freshParts, upperWidth, lowerWidth, partsDemand, Halving.size, Nat.add_assoc]

theorem freshCarry_eq {upper : List Literal} {n : Nat} (length : upper.length = n) (next : Nat) :
    freshCarry upper next = ((block next (min 1 n))[0]?, next + min 1 n) := by
  subst length
  cases upper with
  | nil => rfl
  | cons first rest =>
      have one : min 1 (first :: rest).length = 1 := by simp
      rw [one]
      rfl

/-- The parts that a child takes fit. -/
theorem partsFit_fresh (two : 2 ≤ modulus) (shape : Halving Literal) (next : Nat) :
    PartsFit modulus shape (block next (upperWidth modulus shape))
      (block (next + upperWidth modulus shape) (lowerWidth modulus shape)) := by
  cases shape with
  | tip input => rfl
  | fork left right =>
      simp only [PartsFit, upperWidth, lowerWidth, lowerCount, length_block, true_and]
      omega

/-- Every node takes a variable for its own lower part. -/
theorem size_le_demand (two : 2 ≤ modulus) (shape : Halving Literal) :
    shape.size ≤ partsDemand modulus shape + demandBelow modulus shape + 1 := by
  induction shape with
  | tip input => exact Nat.le_refl _
  | fork left right ihLeft ihRight =>
      have := left.size_pos
      simp only [Halving.size, demandBelow]
      simp only [partsDemand, lowerWidth, lowerCount] at *
      omega

end Widths

namespace Tree

/-- A child with its parts from variable `parts` on and what is below it from `rest` on. -/
def child (modulus : Nat) (shape : Halving Literal) (parts rest : Nat) : Tree :=
  (grow modulus shape (block parts (upperWidth modulus shape))
    (block (parts + upperWidth modulus shape) (lowerWidth modulus shape)) rest).1

/-- All literals of the tree: the inputs, the parts and the carries. -/
def weight : Tree → Nat
  | leaf _ => 1
  | node upper lower carry left right =>
      left.weight + right.weight + upper.length + lower.length + carry.toList.length

/-! ### The shape of the tree -/

section Shape

variable {modulus maxBound : Nat} {shape left right : Halving Literal}
  {upper lower : List Literal}

theorem grow_next (two : 2 ≤ modulus) (fit : PartsFit modulus shape upper lower) (next : Nat) :
    (grow modulus shape upper lower next).2 = next + demandBelow modulus shape := by
  induction shape generalizing upper lower next with
  | tip input => rfl
  | fork left right ihLeft ihRight =>
      simp only [grow, freshParts_eq, freshCarry_eq fit.1, demandBelow,
        ihLeft (partsFit_fresh two left _), ihRight (partsFit_fresh two right _)]
      omega

/-- The tree of a fork, with the variables from which its parts are taken. -/
theorem grow_fork (two : 2 ≤ modulus) (fit : PartsFit modulus (.fork left right) upper lower)
    (next : Nat) :
    let right' := next + partsDemand modulus left
    let carry' := right' + partsDemand modulus right
    let below := carry' + min 1 (upperCount modulus (left.size + right.size))
    (grow modulus (.fork left right) upper lower next).1 =
      node upper lower (block carry' (min 1 (upperCount modulus (left.size + right.size))))[0]?
        (child modulus left next below)
        (child modulus right right' (below + demandBelow modulus left)) := by
  simp only [grow, freshParts_eq, freshCarry_eq fit.1, grow_next two (partsFit_fresh two left _),
    child]

theorem inputs_grow (two : 2 ≤ modulus) (fit : PartsFit modulus shape upper lower) (next : Nat) :
    (grow modulus shape upper lower next).1.inputs = shape.toList := by
  induction shape generalizing upper lower next with
  | tip input => rfl
  | fork left right ihLeft ihRight =>
      rw [grow_fork two fit, inputs, child, child, ihLeft (partsFit_fresh two left _),
        ihRight (partsFit_fresh two right _), Halving.toList]

theorem inputs_child (two : 2 ≤ modulus) (shape : Halving Literal) (parts rest : Nat) :
    (child modulus shape parts rest).inputs = shape.toList :=
  inputs_grow two (partsFit_fresh two shape parts) rest

theorem upper_grow (fit : PartsFit modulus shape upper lower) (next : Nat) :
    (grow modulus shape upper lower next).1.upper = upper := by
  cases shape with
  | tip input => exact fit.symm
  | fork left right => rfl

theorem upper_child (two : 2 ≤ modulus) (shape : Halving Literal) (parts rest : Nat) :
    (child modulus shape parts rest).upper = block parts (upperWidth modulus shape) :=
  upper_grow (partsFit_fresh two shape parts) rest

/-- The lower part of an input is the input. -/
theorem lower_child (modulus : Nat) (shape : Halving Literal) (parts rest : Nat) :
    (child modulus shape parts rest).lower =
      match shape with
      | .tip input => [input]
      | .fork .. => block (parts + upperWidth modulus shape) (lowerWidth modulus shape) := by
  cases shape <;> rfl

theorem length_lower_child_le (modulus : Nat) (shape : Halving Literal) (parts rest : Nat) :
    (child modulus shape parts rest).lower.length ≤ shape.size := by
  cases shape with
  | tip input => exact Nat.le_refl _
  | fork left right =>
      simp only [lower_child, length_block, lowerWidth, lowerCount, Halving.size]
      exact Nat.min_le_right _ _

theorem freshCount_child (modulus : Nat) (shape : Halving Literal) (parts rest : Nat) :
    (child modulus shape parts rest).freshCount = partsDemand modulus shape := by
  cases shape with
  | tip input => rfl
  | fork left right =>
      simp [child, grow, freshCount, partsDemand]

theorem sized_grow (two : 2 ≤ modulus) (fit : PartsFit modulus shape upper lower) (next : Nat) :
    (grow modulus shape upper lower next).1.Sized modulus := by
  induction shape generalizing upper lower next with
  | tip input => trivial
  | fork left right ihLeft ihRight =>
      rw [grow_fork two fit]
      refine ⟨?_, ihLeft (partsFit_fresh two left _) _, ihRight (partsFit_fresh two right _) _⟩
      obtain ⟨length, le, lt⟩ := fit
      constructor
      · simpa [inputs_child two, upperCount] using length
      · simpa [inputs_child two] using le
      · exact lt
      · rw [List.getElem?_eq_none_iff, length_block, ← List.length_eq_zero_iff, length]
        omega
      · rw [inputs_child two, Halving.length_toList]
        exact length_lower_child_le modulus left _ _
      · rw [inputs_child two, Halving.length_toList]
        exact length_lower_child_le modulus right _ _

theorem length_toList_carry (next n : Nat) :
    (block next (min 1 n))[0]?.toList.length = min 1 n := by
  rcases Nat.eq_zero_or_pos n with rfl | positive
  · rfl
  · rw [Nat.min_eq_left positive]
    rfl

theorem plannedVariables_grow (two : 2 ≤ modulus) (fit : PartsFit modulus shape upper lower)
    (next position start : Nat) :
    plannedVariables ((grow modulus shape upper lower next).1.pieces modulus maxBound position
      start) = demandBelow modulus shape := by
  induction shape generalizing upper lower next position start with
  | tip input => rfl
  | fork left right ihLeft ihRight =>
      rw [grow_fork two fit]
      simp only [pieces, plannedVariables_cons, plannedVariables_append, freshCount_child,
        length_toList_carry, demandBelow]
      rw [child, ihLeft (partsFit_fresh two left _), child, ihRight (partsFit_fresh two right _)]
      omega

end Shape

/-! ### How many clauses there are -/

section Count

variable {modulus maxBound : Nat} {tree left right : Tree} {upper lower : List Literal}
  {carry : Option Literal}

theorem length_inputs_pos (tree : Tree) : 0 < tree.inputs.length := by
  induction tree with
  | leaf input => exact Nat.one_pos
  | node upper lower carry left right ihLeft ihRight =>
      simp only [inputs, List.length_append]
      omega

theorem length_inputs_le_weight (tree : Tree) : tree.inputs.length ≤ tree.weight := by
  induction tree with
  | leaf input => exact Nat.le_refl _
  | node upper lower carry left right ihLeft ihRight =>
      simp only [inputs, List.length_append, weight]
      omega

/-- An upper literal stands for two inputs at least. -/
theorem Sized.le_weight (two : 2 ≤ modulus) (sized : tree.Sized modulus) :
    tree.lower.length + 2 * tree.upper.length ≤ tree.weight := by
  cases tree with
  | leaf input => exact Nat.le_refl _
  | node upper lower carry left right =>
      have := left.length_inputs_le_weight
      have := right.length_inputs_le_weight
      have half : (left.inputs.length + right.inputs.length) / modulus ≤
          (left.inputs.length + right.inputs.length) / 2 := Nat.div_le_div_left two (by decide)
      rw [← sized.1.length_upper] at half
      simp only [Tree.upper, Tree.lower, weight]
      omega

theorem length_adderClauses_le :
    (adderClauses modulus maxBound left right upper lower carry).length ≤
      (left.lower.length + 1) * (right.lower.length + 1) +
        carry.toList.length * (2 * ((left.upper.length + 1) * (right.upper.length + 1))) := by
  cases carry with
  | none => simpa [adderClauses, adder] using length_lowerAdder_le
  | some k =>
      simp only [adderClauses, adder, List.flatMap_cons, List.flatMap_nil, List.append_nil,
        List.length_append, Option.toList_some, List.length_singleton, Nat.one_mul]
      exact Nat.add_le_add length_lowerAdder_le length_upperAdder_le

theorem Sized.length_clauses_le (two : 2 ≤ modulus) (sized : tree.Sized modulus) :
    2 * (tree.clauses modulus maxBound).length + 1 ≤ tree.weight * tree.weight := by
  induction tree with
  | leaf input => exact Nat.le_refl _
  | node upper lower carry left right ihLeft ihRight =>
      have ihLeft := ihLeft sized.2.1
      have ihRight := ihRight sized.2.2
      have own : (adderClauses modulus maxBound left right upper lower carry).length ≤ _ :=
        length_adderClauses_le
      have product := Nat.mul_le_mul (sized.2.1.le_weight two) (sized.2.2.le_weight two)
      have leftLe := sized.2.1.le_weight two
      have rightLe := sized.2.2.le_weight two
      have positive : 1 ≤ lower.length := by
        have := sized.1.le_lower
        have := left.length_inputs_pos
        omega
      simp only [clauses, List.length_append, weight]
      cases carry with
      | none =>
          simp only [Option.toList_none, List.length_nil, Nat.zero_mul, Nat.add_zero] at own ⊢
          have grows : left.weight + right.weight + 1 ≤
              left.weight + right.weight + upper.length + lower.length := by omega
          have square := Nat.mul_le_mul grows grows
          nlinarith
      | some k =>
          simp only [Option.toList_some, List.length_singleton, Nat.one_mul] at own ⊢
          have parts := sized.parts rfl
          have grows : left.weight + right.weight + 3 ≤
              left.weight + right.weight + upper.length + lower.length + 1 := by omega
          have square := Nat.mul_le_mul grows grows
          nlinarith

/-- The inputs and all fresh variables make up the weight. -/
theorem weight_child (two : 2 ≤ modulus) (shape : Halving Literal) (parts rest : Nat) :
    (child modulus shape parts rest).weight =
      shape.size + partsDemand modulus shape + demandBelow modulus shape := by
  induction shape generalizing parts rest with
  | tip input => rfl
  | fork left right ihLeft ihRight =>
      have own : partsDemand modulus (.fork left right) =
          upperWidth modulus (.fork left right) + lowerWidth modulus (.fork left right) := rfl
      rw [child, grow_fork two (partsFit_fresh two _ _), weight, ihLeft, ihRight,
        length_toList_carry, length_block, length_block, own]
      simp only [Halving.size, demandBelow]
      omega

/-- A tree whose variables can be carried by literals has no more clauses than can be
counted. -/
theorem length_clauses_lt {left right : Halving Literal} {upper lower : List Literal}
    (two : 2 ≤ modulus) (fit : PartsFit modulus (.fork left right) upper lower) (next : Nat)
    (room : upper.length + lower.length + demandBelow modulus (.fork left right) ≤
      Variable.maxIndex + 1) :
    ((grow modulus (.fork left right) upper lower next).1.clauses modulus maxBound).length <
      sizeRange := by
  have few : 2 * ((grow modulus (.fork left right) upper lower next).1.clauses modulus
      maxBound).length + 1 ≤ _ := (sized_grow two fit next).length_clauses_le two
  have bound : (grow modulus (.fork left right) upper lower next).1.weight ≤ 4294967297 := by
    have := size_le_demand two left
    have := size_le_demand two right
    rw [grow_fork two fit, weight, weight_child two, weight_child two, length_toList_carry]
    have := left.size_pos
    have := right.size_pos
    simp only [demandBelow, Variable.maxIndex] at room ⊢
    have := fit.2.1
    omega
  have square := Nat.mul_le_mul bound bound
  simp only [sizeRange]
  omega

end Count

end Tree

end CardinalityClauses.ModularTotalizer
