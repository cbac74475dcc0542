import Mathlib.Data.List.Count
import CardinalityClauses.Propagation
import CardinalityClauses.Proofs.Totalizer.Counting

/-!
Unit propagation through a built totalizer.

Propagation first climbs and then descends. What is assumed of the inputs below a node forces the
outputs of the node as far as they count it. At the root the unit clause of a bound fixes the next
output the other way round; from there each node passes on to its children that none of them goes
beyond what is assumed below it, until all other inputs are reached.

An adder that lacked the clause for one pair of counts could still be right and would break the
descent at this pair. So the climb asks for some clause for every count, and the descent for the
clause of each pair.

Main statement: whatever bounds are enforced after a build, unit propagation is complete for each of
them (`encode_enforceEach_propagates`).
-/

namespace CardinalityClauses

/-! ### Literals for a number in a counter -/

namespace Unary

variable {cs : List Clause} {counter : List Literal} {l : Literal} {i n : Nat}

theorem forced_atLeast (le : i ≤ n) (climb : ∀ m ∈ counter.take n, Forced cs m) :
    ∀ p ∈ atLeast counter i, Forced cs p := by
  intro p hp
  unfold atLeast at hp
  split at hp
  · cases hp
  · rename_i positive
    have found : counter[i - 1]? = some p := by simpa using hp
    refine climb p (List.mem_of_getElem? (i := i - 1) ?_)
    rw [List.getElem?_take_of_lt (by omega), found]

theorem forced_atMost (le : n ≤ i) (climb : ∀ m ∈ counter.drop n, Forced cs m.complement) :
    ∀ p ∈ atMost counter i, Forced cs p := by
  intro p hp
  obtain ⟨m, found, rfl⟩ := List.mem_map.1 hp
  refine climb m (List.mem_of_getElem? (i := i - n) ?_)
  rw [List.getElem?_drop, show n + (i - n) = i by omega]
  simpa using found

theorem atLeast_succ (found : counter[i]? = some l) : atLeast counter (i + 1) = [l] := by
  simp [atLeast, found]

theorem atMost_eq (found : counter[i]? = some l) : atMost counter i = [l.complement] := by
  simp [atMost, found]

end Unary

namespace Totalizer

open LawfulCollector (contents)
open Unary

/-! ### One adder -/

section Adder

variable {cs : List Clause} {left right outputs : List Literal} {l r : Nat} {output child : Literal}

/-- What is forced to be reached on both sides is forced to be reached together. -/
theorem forced_take_adder (subset : (adder .atMost left right outputs).clauses ⊆ cs)
    (climbLeft : ∀ m ∈ left.take l, Forced cs m) (climbRight : ∀ m ∈ right.take r, Forced cs m)
    (wideLeft : min l outputs.length ≤ left.length)
    (wideRight : min r outputs.length ≤ right.length) :
    ∀ m ∈ outputs.take (l + r), Forced cs m := by
  intro m hm
  obtain ⟨k, inside, rfl⟩ := List.mem_take_iff_getElem.1 hm
  have found : outputs[k]? = some outputs[k] := List.getElem?_eq_getElem _
  obtain ⟨i, hi, j, hj, mem⟩ := exists_mem_adder_atMost found (by omega) wideLeft wideRight
  refine .of_implication (subset mem) (List.forall_mem_append.2 ⟨?_, ?_⟩)
  · exact forced_atLeast hi climbLeft
  · exact forced_atLeast hj climbRight

/-- What is forced not to be exceeded on both sides is forced not to be exceeded together. -/
theorem forced_drop_adder (subset : (adder .atLeast left right outputs).clauses ⊆ cs)
    (climbLeft : ∀ m ∈ left.drop l, Forced cs m.complement)
    (climbRight : ∀ m ∈ right.drop r, Forced cs m.complement)
    (wideLeft : min l outputs.length ≤ left.length)
    (wideRight : min r outputs.length ≤ right.length)
    (narrow : outputs.length ≤ left.length + right.length) :
    ∀ m ∈ outputs.drop (l + r), Forced cs m.complement := by
  intro m hm
  obtain ⟨k, inside, rfl⟩ := List.mem_drop_iff_getElem.1 hm
  have found : outputs[l + r + k]? = some outputs[l + r + k] := List.getElem?_eq_getElem _
  obtain ⟨i, hi, j, hj, mem⟩ :=
    exists_mem_adder_atLeast found (Nat.le_add_right _ _) wideLeft wideRight narrow
  refine .of_implication (subset mem) (List.forall_mem_append.2 ⟨?_, ?_⟩)
  · exact forced_atMost hi climbLeft
  · exact forced_atMost hj climbRight

/-- Where the node is not to exceed what the children reach, neither child is to exceed it. -/
theorem forced_children_atMost (subset : (adder .atMost left right outputs).clauses ⊆ cs)
    (climbLeft : ∀ m ∈ left.take l, Forced cs m) (climbRight : ∀ m ∈ right.take r, Forced cs m)
    (le : l ≤ left.length) (le' : r ≤ right.length) (found : outputs[l + r]? = some output)
    (fails : Forced cs output.complement) :
    (∀ child, left[l]? = some child → Forced cs child.complement) ∧
      ∀ child, right[r]? = some child → Forced cs child.complement := by
  constructor
  · intro child next
    have lt : l < left.length := (List.getElem?_eq_some_iff.1 next).1
    have mem : .implication ([child] ++ atLeast right r) output ∈
        (adder .atMost left right outputs).clauses := by
      refine mem_adder_atMost.2 ⟨l + 1, lt, r, le', by omega, output, ?_, ?_⟩
      · rw [show l + 1 + r - 1 = l + r by omega, found]
      · rw [atLeast_succ next]
    refine .of_contrapositive (subset mem) (by simp) (List.forall_mem_append.2 ⟨?_, ?_⟩) fails
    · exact List.forall_mem_singleton.2 (.inl rfl)
    · exact fun p hp => .inr (forced_atLeast (Nat.le_refl _) climbRight p hp)
  · intro child next
    have lt : r < right.length := (List.getElem?_eq_some_iff.1 next).1
    have mem : .implication (atLeast left l ++ [child]) output ∈
        (adder .atMost left right outputs).clauses := by
      refine mem_adder_atMost.2 ⟨l, le, r + 1, lt, by omega, output, ?_, ?_⟩
      · rw [show l + (r + 1) - 1 = l + r by omega, found]
      · rw [atLeast_succ next]
    refine .of_contrapositive (subset mem) (by simp) (List.forall_mem_append.2 ⟨?_, ?_⟩) fails
    · exact fun p hp => .inr (forced_atLeast (Nat.le_refl _) climbLeft p hp)
    · exact List.forall_mem_singleton.2 (.inl rfl)

/-- Where the node is to reach all that its children are not to exceed, each child is to reach
it. -/
theorem forced_children_atLeast {k : Nat}
    (subset : (adder .atLeast left right outputs).clauses ⊆ cs)
    (climbLeft : ∀ m ∈ left.drop l, Forced cs m.complement)
    (climbRight : ∀ m ∈ right.drop r, Forced cs m.complement)
    (le : l ≤ left.length) (le' : r ≤ right.length)
    (narrow : outputs.length ≤ left.length + right.length) (found : outputs[k]? = some output)
    (reached : Forced cs output) :
    (∀ i child, i + r = k → left[i]? = some child → Forced cs child) ∧
      ∀ j child, l + j = k → right[j]? = some child → Forced cs child := by
  rw [← output.complement_complement] at reached
  constructor
  · rintro i child rfl next
    have lt : i < left.length := (List.getElem?_eq_some_iff.1 next).1
    have mem : .implication ([child.complement] ++ atMost right r) output.complement ∈
        (adder .atLeast left right outputs).clauses :=
      (mem_adder_atLeast narrow).2
        ⟨i, Nat.le_of_lt lt, r, le', output, found, by rw [atMost_eq next]⟩
    rw [← child.complement_complement]
    refine .of_contrapositive (subset mem) (by simp) (List.forall_mem_append.2 ⟨?_, ?_⟩) reached
    · exact List.forall_mem_singleton.2 (.inl rfl)
    · exact fun p hp => .inr (forced_atMost (Nat.le_refl _) climbRight p hp)
  · rintro j child rfl next
    have lt : j < right.length := (List.getElem?_eq_some_iff.1 next).1
    have mem : .implication (atMost left l ++ [child.complement]) output.complement ∈
        (adder .atLeast left right outputs).clauses :=
      (mem_adder_atLeast narrow).2
        ⟨l, le, j, Nat.le_of_lt lt, output, found, by rw [atMost_eq next]⟩
    rw [← child.complement_complement]
    refine .of_contrapositive (subset mem) (by simp) (List.forall_mem_append.2 ⟨?_, ?_⟩) reached
    · exact fun p hp => .inr (forced_atMost (Nat.le_refl _) climbLeft p hp)
    · exact List.forall_mem_singleton.2 (.inl rfl)

end Adder

/-! ### A whole tree -/

namespace Tree

variable {cs : List Clause} {assumed : List Literal} {limit : Nat} {tree : Tree} {output : Literal}

/-- What is assumed to be true climbs to the root. -/
theorem Sized.forced_take (sized : tree.Sized limit) (subset : tree.clauses .atMost ⊆ cs)
    (forced : ∀ l ∈ assumed, Forced cs l) :
    ∀ m ∈ tree.outputs.take (tree.inputs.countP (· ∈ assumed)), Forced cs m := by
  induction tree with
  | leaf input =>
      intro m hm
      by_cases mem : input ∈ assumed
      · have single : m = input := by simpa [outputs, inputs, mem] using hm
        exact single ▸ forced input mem
      · simp [inputs, mem] at hm
  | node outputs left right ihLeft ihRight =>
      obtain ⟨below, below', own⟩ := clauses_node_subset.1 subset
      have wide := sized.wide_countP fun l => decide (l ∈ assumed)
      rw [inputs, List.countP_append]
      exact forced_take_adder own (ihLeft sized.2.1 below) (ihRight sized.2.2 below') wide.1 wide.2

/-- What is assumed to be false climbs to the root: no more than the others can be true. -/
theorem Sized.forced_drop (sized : tree.Sized limit) (subset : tree.clauses .atLeast ⊆ cs)
    (forced : ∀ l ∈ assumed, Forced cs l.complement) :
    ∀ m ∈ tree.outputs.drop (tree.inputs.countP (· ∉ assumed)), Forced cs m.complement := by
  induction tree with
  | leaf input =>
      intro m hm
      by_cases mem : input ∈ assumed
      · have single : m = input := by simpa [outputs, inputs, mem] using hm
        exact single ▸ forced input mem
      · simp [outputs, inputs, mem] at hm
  | node outputs left right ihLeft ihRight =>
      obtain ⟨below, below', own⟩ := clauses_node_subset.1 subset
      have wide := sized.wide_countP fun l => decide (l ∉ assumed)
      rw [inputs, List.countP_append]
      exact forced_drop_adder own (ihLeft sized.2.1 below) (ihRight sized.2.2 below') wide.1 wide.2
        sized.narrow

/-- If the root is not to exceed what is assumed to be true, the other inputs are forced to be
false. -/
theorem Sized.forced_complement (sized : tree.Sized limit) (subset : tree.clauses .atMost ⊆ cs)
    (forced : ∀ l ∈ assumed, Forced cs l)
    (found : tree.outputs[tree.inputs.countP (· ∈ assumed)]? = some output)
    (fails : Forced cs output.complement) :
    ∀ l ∈ tree.inputs, l ∉ assumed → Forced cs l.complement := by
  induction tree generalizing output with
  | leaf input =>
      intro l hl free
      rw [inputs, List.mem_singleton] at hl
      subst hl
      have single : output = l := by simpa [outputs, inputs, free, eq_comm] using found
      exact single ▸ fails
  | node outputs left right ihLeft ihRight =>
      obtain ⟨below, below', own⟩ := clauses_node_subset.1 subset
      rw [inputs, List.countP_append] at found
      have inside : _ < outputs.length := (List.getElem?_eq_some_iff.1 found).1
      have wide := sized.wide_countP fun l => decide (l ∈ assumed)
      obtain ⟨toLeft, toRight⟩ := forced_children_atMost own (sized.2.1.forced_take below forced)
        (sized.2.2.forced_take below' forced) (by omega) (by omega) found fails
      intro l hl free
      -- The child that has the input below it has an output above all that is assumed there.
      rcases List.mem_append.1 hl with hl | hl
      · have more : left.inputs.countP (· ∈ assumed) < left.inputs.length :=
          List.countP_lt_length_iff.2 ⟨l, hl, by simpa using free⟩
        have long := (sized.wide_of_le (r := 0) more (Nat.zero_le _)).1
        have next := List.getElem?_eq_getElem (l := left.outputs)
          (i := left.inputs.countP (· ∈ assumed)) (by omega)
        exact ihLeft sized.2.1 below next (toLeft _ next) l hl free
      · have more : right.inputs.countP (· ∈ assumed) < right.inputs.length :=
          List.countP_lt_length_iff.2 ⟨l, hl, by simpa using free⟩
        have long := (sized.wide_of_le (l := 0) (Nat.zero_le _) more).2
        have next := List.getElem?_eq_getElem (l := right.outputs)
          (i := right.inputs.countP (· ∈ assumed)) (by omega)
        exact ihRight sized.2.2 below' next (toRight _ next) l hl free

/-- If the root is to reach all that is not assumed to be false, these inputs are forced to be
true. -/
theorem Sized.forced_inputs {k : Nat} (sized : tree.Sized limit)
    (subset : tree.clauses .atLeast ⊆ cs) (forced : ∀ l ∈ assumed, Forced cs l.complement)
    (count : tree.inputs.countP (· ∉ assumed) = k + 1) (found : tree.outputs[k]? = some output)
    (reached : Forced cs output) : ∀ l ∈ tree.inputs, l ∉ assumed → Forced cs l := by
  induction tree generalizing k output with
  | leaf input =>
      intro l hl free
      rw [inputs, List.mem_singleton] at hl
      subst hl
      have single : output = l := by
        have zero : k = 0 := by simpa [inputs, free] using count.symm
        simpa [outputs, zero, eq_comm] using found
      exact single ▸ reached
  | node outputs left right ihLeft ihRight =>
      obtain ⟨below, below', own⟩ := clauses_node_subset.1 subset
      rw [inputs, List.countP_append] at count
      have inside : k < outputs.length := (List.getElem?_eq_some_iff.1 found).1
      have wide := sized.wide_countP fun l => decide (l ∉ assumed)
      obtain ⟨toLeft, toRight⟩ := forced_children_atLeast own (sized.2.1.forced_drop below forced)
        (sized.2.2.forced_drop below' forced) (by omega) (by omega) sized.narrow found reached
      intro l hl free
      -- The child that has the input below it is asked for all that is left there, at least one.
      rcases List.mem_append.1 hl with hl | hl
      · have positive : 0 < left.inputs.countP (· ∉ assumed) :=
          List.countP_pos_iff.2 ⟨l, hl, by simpa using free⟩
        obtain ⟨i, succ⟩ := Nat.exists_eq_succ_of_ne_zero (Nat.ne_of_gt positive)
        have next := List.getElem?_eq_getElem (l := left.outputs) (i := i) (by omega)
        exact ihLeft sized.2.1 below succ next (toLeft i _ (by omega) next) l hl free
      · have positive : 0 < right.inputs.countP (· ∉ assumed) :=
          List.countP_pos_iff.2 ⟨l, hl, by simpa using free⟩
        obtain ⟨j, succ⟩ := Nat.exists_eq_succ_of_ne_zero (Nat.ne_of_gt positive)
        have next := List.getElem?_eq_getElem (l := right.outputs) (i := j) (by omega)
        exact ihRight sized.2.2 below' succ next (toRight j _ (by omega) next) l hl free

/-! ### A whole tree with a bound -/

/-- A tree for upper bounds is complete for a bound on its inputs once its root is limited. -/
theorem Sized.propagatedBy_atMost {maxBound bound : Nat} (sized : tree.Sized (maxBound + 1))
    (allowed : Allowed .atMost tree.inputs.length maxBound bound)
    (subset : tree.clauses .atMost ⊆ cs) (limited : enforcing .atMost tree.outputs bound ⊆ cs) :
    (Constraint.mk .atMost tree.inputs bound).PropagatedBy cs := by
  intro assumed
  obtain ⟨le, lt⟩ := allowed
  have inside : bound < tree.outputs.length := by
    have := sized.le_length_outputs
    have lt : bound < tree.inputs.length := lt
    rw [length_inputs] at lt
    omega
  have found : tree.outputs[bound]? = some tree.outputs[bound] := List.getElem?_eq_getElem inside
  have unit : .unit tree.outputs[bound].complement ∈ cs ++ assumed.map .unit :=
    List.mem_append_left _ (limited (by simp [enforcing, found]))
  have subset : tree.clauses .atMost ⊆ cs ++ assumed.map .unit :=
    List.subset_append_of_subset_left _ subset
  have given : ∀ l ∈ assumed, Forced (cs ++ assumed.map .unit) l := fun l hl =>
    .ofUnit (List.mem_append_right _ (List.mem_map_of_mem hl))
  constructor
  · intro full
    exact sized.forced_complement subset given (full ▸ found) (.ofUnit unit)
  · intro above
    have above : bound < tree.inputs.countP (· ∈ assumed) := above
    have reached := sized.forced_take subset given tree.outputs[bound]
      (List.mem_take_iff_getElem.2 ⟨bound, by omega, rfl⟩)
    exact ⟨_, unit, by simpa [Clause.unit] using reached⟩

/-- A tree for lower bounds is complete for a bound on its inputs once its root is limited. -/
theorem Sized.propagatedBy_atLeast {maxBound bound : Nat} (sized : tree.Sized maxBound)
    (allowed : Allowed .atLeast tree.inputs.length maxBound bound)
    (subset : tree.clauses .atLeast ⊆ cs) (limited : enforcing .atLeast tree.outputs bound ⊆ cs) :
    (Constraint.mk .atLeast tree.inputs bound).PropagatedBy cs := by
  intro assumed
  obtain ⟨le, positive, small⟩ := allowed
  have inside : bound - 1 < tree.outputs.length := by
    have := sized.le_length_outputs
    rw [length_inputs] at small
    omega
  have found : tree.outputs[bound - 1]? = some tree.outputs[bound - 1] :=
    List.getElem?_eq_getElem inside
  have unit : .unit tree.outputs[bound - 1] ∈ cs ++ assumed.map fun m => .unit m.complement :=
    List.mem_append_left _ (limited (by simp [enforcing, found]))
  have subset : tree.clauses .atLeast ⊆ cs ++ assumed.map fun m => .unit m.complement :=
    List.subset_append_of_subset_left _ subset
  have given : ∀ l ∈ assumed,
      Forced (cs ++ assumed.map fun m => .unit m.complement) l.complement := fun l hl =>
    .ofUnit (List.mem_append_right _ (List.mem_map.2 ⟨l, hl, rfl⟩))
  -- All inputs that are not assumed to be false are left to meet the bound.
  have split : tree.inputs.length =
      tree.inputs.countP (· ∈ assumed) + tree.inputs.countP (· ∉ assumed) := by
    simpa using List.length_eq_countP_add_countP (fun l => decide (l ∈ assumed)) (l := tree.inputs)
  constructor
  · intro full
    have full : tree.inputs.countP (· ∈ assumed) = tree.inputs.length - bound := full
    exact sized.forced_inputs subset given (by omega) found (.ofUnit unit)
  · intro above
    have above : tree.inputs.length - bound < tree.inputs.countP (· ∈ assumed) := above
    have exceeded := sized.forced_drop subset given tree.outputs[bound - 1]
      (List.mem_drop_iff_getElem.2 ⟨bound - 1 - tree.inputs.countP (· ∉ assumed), by omega,
        by congr 1; omega⟩)
    exact ⟨_, unit, by simpa [Clause.unit] using exceeded⟩

end Tree

/-! ### Bounds after a build -/

/-- A build is complete for every bound that the outputs can enforce, once it is enforced. -/
theorem propagatedBy_enforcing {direction : Direction} {maxBound bound : Nat}
    {inputs : List Literal} (next : Nat) {cs : List Clause}
    (allowed : Allowed direction inputs.length maxBound bound)
    (subset : plannedClauses (buildPlan direction maxBound inputs next) ⊆ cs)
    (limited : enforcing direction (builtOutputs direction maxBound inputs next) bound ⊆ cs) :
    (Constraint.mk direction inputs bound).PropagatedBy cs := by
  have nonempty : inputs ≠ [] := by
    rintro rfl
    exact not_allowed_zero allowed
  obtain ⟨tree, clauses, outputs, sized, rfl⟩ := exists_builtTree direction maxBound next nonempty
  rw [clauses] at subset
  rw [outputs] at limited
  cases direction with
  | atMost => exact sized.propagatedBy_atMost allowed subset limited
  | atLeast => exact sized.propagatedBy_atLeast allowed subset limited

/-- However many bounds are enforced after a build, in any order, unit propagation over the clauses
is complete for each of them that is not met anyway. -/
theorem encode_enforceEach_propagates {σ : Type} [ReliableCollector σ] {inputs : List Literal}
    {maxBound : Nat} {w : Workspace σ} (direction : Direction)
    (old : LiteralsOver (· < w.supply.next) inputs)
    (room : w.supply.next + buildDemand direction maxBound inputs ≤ Variable.maxIndex + 1) :
    ∃ built w₁ counting, (ofInputs inputs).encode direction maxBound w = ⟨none, built, w₁⟩ ∧
      contents w₁.collector = contents w.collector ++ counting ∧
      ∀ bounds, (∀ b ∈ bounds, Supported direction inputs.length maxBound b) →
        ∃ w₂ limits, enforceEach (built.enforce direction) bounds w₁ = (none, w₂) ∧
          contents w₂.collector = contents w₁.collector ++ limits ∧
          ∀ b ∈ bounds, Allowed direction inputs.length maxBound b →
            (Constraint.mk direction inputs b).PropagatedBy (counting ++ limits) := by
  obtain ⟨built, w₁, encoded, grows, -, enforced⟩ := encode_supported direction old room
  refine ⟨built, w₁, _, encoded, grows.contents_eq, fun bounds supported => ?_⟩
  obtain ⟨w₂, done, grows₂, -⟩ := enforced bounds supported
  refine ⟨w₂, _, done, grows₂.contents_eq, fun b hb allowed => ?_⟩
  refine propagatedBy_enforcing w.supply.next allowed (List.subset_append_left _ _) fun c hc => ?_
  refine List.mem_append_right _ (List.mem_flatMap.2 ⟨b, hb, ?_⟩)
  rwa [limiting_eq_of_allowed allowed]

/-- The theorem for an upper bound on three inputs that is tightened from two to one: assuming one
of them forces the two others, and assuming two ends in a conflict. -/
theorem encode_enforceEach_propagates_threeInputs :
    let inputs : List Literal := [⟨0, false⟩, ⟨1, true⟩, ⟨2, false⟩]
    let w : Workspace Formula := ⟨.empty, ⟨3⟩, #[]⟩
    LiteralsOver (· < 3) inputs ∧ 3 + buildDemand .atMost 2 inputs ≤ Variable.maxIndex + 1 ∧
      (∀ b ∈ [2, 1], Supported .atMost 3 2 b) ∧ Allowed .atMost 3 2 1 ∧
      ∃ built w₁ counting, (ofInputs inputs).encode .atMost 2 w = ⟨none, built, w₁⟩ ∧
        contents w₁.collector = contents w.collector ++ counting ∧
        ∃ w₂ limits, enforceEach (built.enforce .atMost) [2, 1] w₁ = (none, w₂) ∧
          contents w₂.collector = contents w₁.collector ++ limits ∧
          Forced (counting ++ limits ++ [.unit ⟨1, true⟩]) ⟨0, true⟩ ∧
          Forced (counting ++ limits ++ [.unit ⟨1, true⟩]) ⟨2, true⟩ ∧
          Conflict (counting ++ limits ++ [.unit ⟨0, false⟩, .unit ⟨2, false⟩]) := by
  intro inputs w
  have about : LiteralsOver (· < 3) inputs := by simp [inputs, LiteralsOver]
  have room : 3 + buildDemand .atMost 2 inputs ≤ Variable.maxIndex + 1 := by decide
  have supported : ∀ b ∈ [2, 1], Supported .atMost 3 2 b := by simp [Supported]
  have allowed : Allowed .atMost 3 2 1 := by simp [Allowed]
  obtain ⟨built, w₁, counting, encoded, counted, each⟩ :=
    encode_enforceEach_propagates (w := w) .atMost about room
  obtain ⟨w₂, limits, enforced, limited, propagated⟩ := each [2, 1] supported
  have propagated := propagated 1 (by decide) allowed
  have one := (propagated [⟨1, true⟩]).1 (by decide)
  have two := (propagated [⟨0, false⟩, ⟨2, false⟩]).2 (by decide)
  exact ⟨about, room, supported, allowed, built, w₁, counting, encoded, counted, w₂, limits,
    enforced, limited, one ⟨0, false⟩ (by decide) (by decide),
    one ⟨2, false⟩ (by decide) (by decide), two⟩

end Totalizer

end CardinalityClauses
