import CardinalityClauses.Proofs.Encoding.Run
import CardinalityClauses.Proofs.Encoding.Unary
import CardinalityClauses.Totalizer.Tree
import Mathlib.Algebra.Order.BigOperators.Group.List
import Mathlib.Algebra.Order.Group.Nat

/-!
The clauses of one adder.

Clauses for upper bounds carry what the children reach over to the node; clauses for lower
bounds carry over what the children stay within. Counters that count right satisfy both.
-/

namespace CardinalityClauses.Totalizer

open Unary

section Adder

variable {left right outputs : List Literal} {direction : Direction}

theorem mem_forCounts {α : Type} {entry : Nat → Nat → Option α} {x : α} :
    x ∈ forCounts left right entry ↔
      ∃ l ≤ left.length, ∃ r ≤ right.length, entry l r = some x := by
  simp only [forCounts, List.mem_flatMap, List.mem_range, List.mem_filterMap, Nat.lt_succ_iff]

theorem length_forCounts_le {α : Type} (entry : Nat → Nat → Option α) :
    (forCounts left right entry).length ≤ (left.length + 1) * (right.length + 1) := by
  have row (l : Nat) :
      ((List.range (right.length + 1)).filterMap fun r => entry l r).length ≤ right.length + 1 := by
    simpa using List.length_filterMap_le (fun r => entry l r) (List.range (right.length + 1))
  rw [forCounts, List.length_flatMap]
  simpa using List.sum_le_card_nsmul _ (right.length + 1)
    (List.forall_mem_map.2 fun l (_ : l ∈ List.range (left.length + 1)) => row l)

theorem reachClause_eq_some {l r : Nat} {c : Clause} :
    reachClause left right outputs l r = some c ↔
      0 < l + r ∧ ∃ output, outputs[l + r - 1]? = some output ∧
        c = .implication (atLeast left l ++ atLeast right r) output := by
  unfold reachClause
  by_cases zero : l + r = 0
  · simp [zero]
  · simp only [zero, if_false, Option.map_eq_some_iff, Nat.pos_of_ne_zero zero, true_and]
    exact exists_congr fun output => and_congr_right fun _ => eq_comm

/-- Where a node has no more outputs than its children together, every clause for lower bounds
can be made. -/
theorem exceedClause_eq_some (narrow : outputs.length ≤ left.length + right.length) {l r : Nat}
    {made : Except Fault Clause} :
    exceedClause left right outputs l r = some made ↔
      ∃ output, outputs[l + r]? = some output ∧
        made = .ok (.implication (atMost left l ++ atMost right r) output.complement) := by
  unfold exceedClause
  rw [Option.map_eq_some_iff]
  refine exists_congr fun output => and_congr_right fun found => ?_
  have inside : l + r < outputs.length := (List.getElem?_eq_some_iff.1 found).1
  have premise : (atMost left l ++ atMost right r).isEmpty = false := by
    rcases Nat.lt_or_ge l left.length with lt | ge
    · simp [atMost, lt]
    · have lt : r < right.length := by omega
      simp [atMost, lt]
  simp only [premise, Bool.false_eq_true, if_false]
  exact eq_comm

/-- No fault stops the making of an adder. -/
theorem adder_stop (narrow : outputs.length ≤ left.length + right.length) :
    (adder direction left right outputs).stop = none := by
  cases direction with
  | atMost => rfl
  | atLeast =>
      refine (Batch.ofMade_spec fun made mem => ?_).1
      obtain ⟨l, -, r, -, eq⟩ := mem_forCounts.1 mem
      obtain ⟨output, -, rfl⟩ := (exceedClause_eq_some narrow).1 eq
      exact ⟨_, rfl⟩

theorem mem_adder_atMost {c : Clause} :
    c ∈ (adder .atMost left right outputs).clauses ↔
      ∃ l ≤ left.length, ∃ r ≤ right.length, 0 < l + r ∧
        ∃ output, outputs[l + r - 1]? = some output ∧
          c = .implication (atLeast left l ++ atLeast right r) output := by
  simp only [adder, mem_forCounts, reachClause_eq_some]

theorem mem_adder_atLeast (narrow : outputs.length ≤ left.length + right.length) {c : Clause} :
    c ∈ (adder .atLeast left right outputs).clauses ↔
      ∃ l ≤ left.length, ∃ r ≤ right.length, ∃ output, outputs[l + r]? = some output ∧
        c = .implication (atMost left l ++ atMost right r) output.complement := by
  have made : ∀ m ∈ forCounts left right (exceedClause left right outputs), ∃ c, m = .ok c := by
    intro m mem
    obtain ⟨l, -, r, -, eq⟩ := mem_forCounts.1 mem
    obtain ⟨output, -, rfl⟩ := (exceedClause_eq_some narrow).1 eq
    exact ⟨_, rfl⟩
  rw [adder, (Batch.ofMade_spec made).2, mem_forCounts]
  simp only [exceedClause_eq_some narrow, Except.ok.injEq]

theorem literalsOver_adder {on : Nat → Prop} (overLeft : LiteralsOver on left)
    (overRight : LiteralsOver on right) (overOutputs : LiteralsOver on outputs)
    (narrow : outputs.length ≤ left.length + right.length) :
    ClausesOver on (adder direction left right outputs).clauses := by
  intro c hc
  cases direction with
  | atMost =>
      obtain ⟨l, -, r, -, -, output, found, rfl⟩ := mem_adder_atMost.1 hc
      exact literalsOver_implication.2
        ⟨literalsOver_append.2 ⟨literalsOver_atLeast overLeft l, literalsOver_atLeast overRight r⟩,
          overOutputs _ (List.mem_of_getElem? found)⟩
  | atLeast =>
      obtain ⟨l, -, r, -, output, found, rfl⟩ := (mem_adder_atLeast narrow).1 hc
      exact literalsOver_implication.2
        ⟨literalsOver_append.2 ⟨literalsOver_atMost overLeft l, literalsOver_atMost overRight r⟩,
          overOutputs output (List.mem_of_getElem? found)⟩

/-- An adder has one clause at most for every pair of counts. -/
theorem length_adder_le :
    (adder direction left right outputs).clauses.length ≤
      (left.length + 1) * (right.length + 1) := by
  cases direction with
  | atMost => exact length_forCounts_le _
  | atLeast => exact Nat.le_trans (Batch.length_ofMade_le _) (length_forCounts_le _)

/-- An adder without outputs has no clauses. -/
theorem adder_nil : (adder direction left right []).clauses = [] := by
  apply List.eq_nil_iff_forall_not_mem.2
  intro c hc
  cases direction with
  | atMost =>
      obtain ⟨l, -, r, -, -, output, found, -⟩ := mem_adder_atMost.1 hc
      simp at found
  | atLeast =>
      obtain ⟨l, -, r, -, output, found, -⟩ := (mem_adder_atLeast (Nat.zero_le _)).1 hc
      simp at found

/-! ### What an adder says -/

variable {v : Valuation} {l r : Nat}

/-- For every number below the sum there is a clause whose premises the children reach. -/
theorem exists_mem_adder_atMost {k : Nat} {output : Literal} (found : outputs[k]? = some output)
    (below : k < l + r) (wideLeft : min l outputs.length ≤ left.length)
    (wideRight : min r outputs.length ≤ right.length) :
    ∃ i ≤ l, ∃ j ≤ r, .implication (atLeast left i ++ atLeast right j) output ∈
      (adder .atMost left right outputs).clauses := by
  have inside : k < outputs.length := (List.getElem?_eq_some_iff.1 found).1
  -- Both children have literals for their shares of `k + 1`.
  refine ⟨min l (k + 1), by omega, k + 1 - min l (k + 1), by omega, ?_⟩
  refine mem_adder_atMost.2 ⟨_, by omega, _, by omega, by omega, output, ?_, rfl⟩
  rw [show min l (k + 1) + (k + 1 - min l (k + 1)) - 1 = k by omega, found]

/-- For every number from the sum on there is a clause whose premises the children stay within. -/
theorem exists_mem_adder_atLeast {k : Nat} {output : Literal} (found : outputs[k]? = some output)
    (above : l + r ≤ k) (wideLeft : min l outputs.length ≤ left.length)
    (wideRight : min r outputs.length ≤ right.length)
    (narrow : outputs.length ≤ left.length + right.length) :
    ∃ i ≥ l, ∃ j ≥ r, .implication (atMost left i ++ atMost right j) output.complement ∈
      (adder .atLeast left right outputs).clauses := by
  have inside : k < outputs.length := (List.getElem?_eq_some_iff.1 found).1
  -- `k` is shared out such that the children have literals for their shares.
  refine ⟨min left.length (k - r), by omega, k - min left.length (k - r), by omega, ?_⟩
  refine (mem_adder_atLeast narrow).2 ⟨_, by omega, _, by omega, output, ?_, rfl⟩
  rw [show min left.length (k - r) + (k - min left.length (k - r)) = k by omega, found]

/-- The node reaches what its children reach together. -/
theorem reaches_adder (models : v.Models (adder .atMost left right outputs).clauses)
    (reachesLeft : Reaches v left l) (reachesRight : Reaches v right r)
    (wideLeft : min l outputs.length ≤ left.length)
    (wideRight : min r outputs.length ≤ right.length) : Reaches v outputs (l + r) := by
  intro k output found below
  obtain ⟨i, hi, j, hj, mem⟩ := exists_mem_adder_atMost found below wideLeft wideRight
  refine Clause.holds_implication.1 (models _ mem) (List.forall_mem_append.2 ⟨?_, ?_⟩)
  · exact reachesLeft.atLeast hi
  · exact reachesRight.atLeast hj

/-- The node stays within what its children stay within together. -/
theorem within_adder (models : v.Models (adder .atLeast left right outputs).clauses)
    (withinLeft : StaysWithin v left l) (withinRight : StaysWithin v right r)
    (wideLeft : min l outputs.length ≤ left.length)
    (wideRight : min r outputs.length ≤ right.length)
    (narrow : outputs.length ≤ left.length + right.length) : StaysWithin v outputs (l + r) := by
  intro k output found above
  obtain ⟨i, hi, j, hj, mem⟩ := exists_mem_adder_atLeast found above wideLeft wideRight narrow
  have false := Clause.holds_implication.1 (models _ mem) (List.forall_mem_append.2 ⟨?_, ?_⟩)
  · simpa using false
  · exact withinLeft.atMost hi
  · exact withinRight.atMost hj

/-- What a child is said to have no more of than `i` it has no more of; at the end of its
outputs this goes without saying. -/
theorem le_of_atMost_of_wide {counter : List Literal} {n i : Nat} (reaches : Reaches v counter n)
    (wide : min n outputs.length ≤ counter.length) (inside : i ≤ counter.length)
    (short : i < outputs.length) (holds : ∀ m ∈ atMost counter i, m.holds v = true) : n ≤ i := by
  rcases Nat.lt_or_eq_of_le inside with lt | eq
  · exact reaches.le_of_atMost lt holds
  · omega

/-- Counters that count right satisfy the adder. -/
theorem models_adder (countsLeft : Counts v left l) (countsRight : Counts v right r)
    (countsOutputs : Counts v outputs (l + r))
    (wideLeft : min l outputs.length ≤ left.length)
    (wideRight : min r outputs.length ≤ right.length)
    (narrow : outputs.length ≤ left.length + right.length) :
    v.Models (adder direction left right outputs).clauses := by
  intro c hc
  cases direction with
  | atMost =>
      obtain ⟨i, hi, j, hj, positive, output, found, rfl⟩ := mem_adder_atMost.1 hc
      rw [Clause.holds_implication, List.forall_mem_append]
      intro ⟨premisesLeft, premisesRight⟩
      have := countsLeft.within.le_of_atLeast hi premisesLeft
      have := countsRight.within.le_of_atLeast hj premisesRight
      exact countsOutputs.reaches _ output found (by omega)
  | atLeast =>
      obtain ⟨i, hi, j, hj, output, found, rfl⟩ := (mem_adder_atLeast narrow).1 hc
      have short : i + j < outputs.length := (List.getElem?_eq_some_iff.1 found).1
      rw [Clause.holds_implication, List.forall_mem_append]
      intro ⟨premisesLeft, premisesRight⟩
      have := le_of_atMost_of_wide countsLeft.reaches wideLeft hi (by omega) premisesLeft
      have := le_of_atMost_of_wide countsRight.reaches wideRight hj (by omega) premisesRight
      rw [Literal.holds_complement, countsOutputs.within _ output found (by omega)]
      rfl

/-- Outputs that all have the value to which the clauses push them satisfy the adder, no matter
what the children count. -/
theorem models_adder_of_pushed (narrow : outputs.length ≤ left.length + right.length)
    (pushed : ∀ output ∈ outputs, output.holds v = decide (direction = .atMost)) :
    v.Models (adder direction left right outputs).clauses := by
  intro c hc
  cases direction with
  | atMost =>
      obtain ⟨i, -, j, -, -, output, found, rfl⟩ := mem_adder_atMost.1 hc
      exact Clause.holds_implication.2 fun _ => pushed output (List.mem_of_getElem? found)
  | atLeast =>
      obtain ⟨i, -, j, -, output, found, rfl⟩ := (mem_adder_atLeast narrow).1 hc
      refine Clause.holds_implication.2 fun _ => ?_
      rw [Literal.holds_complement, pushed output (List.mem_of_getElem? found)]
      rfl

end Adder

end CardinalityClauses.Totalizer
