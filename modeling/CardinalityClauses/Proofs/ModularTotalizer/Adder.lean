import CardinalityClauses.ModularTotalizer.Tree
import CardinalityClauses.Proofs.Encoding.Run
import CardinalityClauses.Proofs.Encoding.Unary
import Mathlib.Algebra.Order.BigOperators.Group.List
import Mathlib.Algebra.Order.Group.Nat

/-!
The clauses of one adder of a modular totalizer.

The sum of two lower parts is at most twice the modulus less two, so it overflows once at most.
Below the overflow the clauses carry it over to the lower part of the node as it is, and above
it reduced by the modulus, which the carry makes up for. Both adders leave clauses out; what is
left out concerns sums that are beyond every bound already.
-/

namespace CardinalityClauses.ModularTotalizer

open Unary

/-! ### The clauses over the lower parts -/

section Lower

variable {modulus maxBound : Nat} {left right lower : List Literal} {carry : Option Literal}

/-- The parts of a node fit those of its children. -/
structure LowerSized (modulus : Nat) (left right lower : List Literal) (carry : Option Literal) :
    Prop where
  two_le : 2 ≤ modulus
  left_lt : left.length < modulus
  right_lt : right.length < modulus
  wide : min (left.length + right.length) (modulus - 1) ≤ lower.length
  carries : modulus ≤ left.length + right.length → ∃ l, carry = some l

/-- A sum that is not left out. -/
def Matters (modulus maxBound sum : Nat) : Prop :=
  0 < sum ∧ (sum ≤ maxBound + 2 ∨ modulus ≤ maxBound + 2)

theorem literalFor_eq_ok {part : List Literal} {n : Nat} {l : Literal} (positive : 0 < n) :
    literalFor part n = .ok l ↔ part[n - 1]? = some l := by
  unfold literalFor
  rw [if_neg (Nat.ne_of_gt positive)]
  cases part[n - 1]? <;> simp

/-- Where parts fit, the clause for a sum can be made. -/
theorem LowerSized.lowerClause_eq_some (sized : LowerSized modulus left right lower carry)
    {i j : Nat} (hi : i ≤ left.length) (hj : j ≤ right.length) {made : Except Fault Clause} :
    lowerClause modulus maxBound left right lower carry i j = some made ↔
      Matters modulus maxBound (i + j) ∧
        let premises := atLeast left i ++ atLeast right j
        ((i + j < modulus ∧ ∃ l, lower[i + j - 1]? = some l ∧
            made = .ok ((Clause.implication premises l).append carry.toList)) ∨
          (i + j = modulus ∧ ∃ l, carry = some l ∧ made = .ok (.implication premises l)) ∨
          (modulus < i + j ∧ ∃ l, lower[i + j - modulus - 1]? = some l ∧
            made = .ok (.implication premises l))) := by
  obtain ⟨two, leftLt, rightLt, wide, carries⟩ := sized
  unfold lowerClause Matters
  by_cases out : i + j = 0 ∨ (maxBound + 2 < i + j ∧ maxBound + 2 < modulus)
  · rw [if_pos out]
    simp only [reduceCtorEq, false_iff]
    omega
  rw [if_neg out]
  have matters : 0 < i + j ∧ (i + j ≤ maxBound + 2 ∨ modulus ≤ maxBound + 2) := by omega
  simp only [matters, and_self, true_and]
  rcases Nat.lt_trichotomy (i + j) modulus with lt | eq | gt
  · have inside : i + j - 1 < lower.length := by omega
    have found : lower[i + j - 1]? = some lower[i + j - 1] := List.getElem?_eq_getElem inside
    have made_eq := (literalFor_eq_ok matters.1).2 found
    rw [if_pos lt, made_eq]
    simp only [lt, true_and, found, Nat.ne_of_lt lt, false_and, Nat.lt_asymm lt, or_false,
      Except.map, Option.some.injEq, exists_eq_left']
    exact eq_comm
  · obtain ⟨l, rfl⟩ := carries (by omega)
    rw [if_neg (by omega), if_pos eq]
    simp [eq, eq_comm]
  · have rest : (i + j) % modulus = i + j - modulus := by
      rw [Nat.mod_eq_sub_mod (by omega), Nat.mod_eq_of_lt (by omega)]
    have inside : i + j - modulus - 1 < lower.length := by omega
    have found : lower[i + j - modulus - 1]? = some lower[i + j - modulus - 1] :=
      List.getElem?_eq_getElem inside
    have made_eq := (literalFor_eq_ok (by omega : 0 < i + j - modulus)).2 found
    rw [if_neg (by omega), if_neg (by omega), rest, made_eq]
    simp only [Nat.lt_asymm gt, false_and, Nat.ne_of_gt gt, gt, true_and, found, false_or,
      Except.map, Option.some.injEq, exists_eq_left']
    exact eq_comm

theorem mem_lowerMade {made : Except Fault Clause} :
    made ∈ ((List.range (left.length + 1)).flatMap fun i =>
        (List.range (right.length + 1)).filterMap fun j =>
          lowerClause modulus maxBound left right lower carry i j) ↔
      ∃ i ≤ left.length, ∃ j ≤ right.length,
        lowerClause modulus maxBound left right lower carry i j = some made := by
  simp only [List.mem_flatMap, List.mem_range, List.mem_filterMap, Nat.lt_succ_iff]

theorem LowerSized.made_ok (sized : LowerSized modulus left right lower carry)
    {made : Except Fault Clause}
    (mem : ∃ i ≤ left.length, ∃ j ≤ right.length,
      lowerClause modulus maxBound left right lower carry i j = some made) :
    ∃ c, made = .ok c := by
  obtain ⟨i, hi, j, hj, eq⟩ := mem
  obtain ⟨-, ⟨-, l, -, rfl⟩ | ⟨-, l, -, rfl⟩ | ⟨-, l, -, rfl⟩⟩ :=
    (sized.lowerClause_eq_some hi hj).1 eq <;> exact ⟨_, rfl⟩

/-- No fault stops the making of the clauses. -/
theorem LowerSized.stop (sized : LowerSized modulus left right lower carry) :
    (lowerAdder modulus maxBound left right lower carry).stop = none :=
  (Batch.ofMade_spec fun _ mem => sized.made_ok (mem_lowerMade.1 mem)).1

theorem LowerSized.mem_lowerAdder (sized : LowerSized modulus left right lower carry)
    {c : Clause} :
    c ∈ (lowerAdder modulus maxBound left right lower carry).clauses ↔
      ∃ i ≤ left.length, ∃ j ≤ right.length, Matters modulus maxBound (i + j) ∧
        let premises := atLeast left i ++ atLeast right j
        ((i + j < modulus ∧ ∃ l, lower[i + j - 1]? = some l ∧
            c = (Clause.implication premises l).append carry.toList) ∨
          (i + j = modulus ∧ ∃ l, carry = some l ∧ c = .implication premises l) ∨
          (modulus < i + j ∧ ∃ l, lower[i + j - modulus - 1]? = some l ∧
            c = .implication premises l)) := by
  rw [lowerAdder, (Batch.ofMade_spec fun _ mem => sized.made_ok (mem_lowerMade.1 mem)).2,
    mem_lowerMade]
  refine exists_congr fun i => and_congr_right fun hi => exists_congr fun j =>
    and_congr_right fun hj => ?_
  simp only [sized.lowerClause_eq_some hi hj, Except.ok.injEq]

theorem LowerSized.clausesOver_lowerAdder {on : Nat → Prop}
    (sized : LowerSized modulus left right lower carry) (overLeft : LiteralsOver on left)
    (overRight : LiteralsOver on right) (overLower : LiteralsOver on lower)
    (overCarry : ∀ l, carry = some l → on l.index) :
    ClausesOver on (lowerAdder modulus maxBound left right lower carry).clauses := by
  intro c hc
  obtain ⟨i, -, j, -, -, cases⟩ := sized.mem_lowerAdder.1 hc
  have premises : LiteralsOver on (atLeast left i ++ atLeast right j) :=
    literalsOver_append.2 ⟨literalsOver_atLeast overLeft i, literalsOver_atLeast overRight j⟩
  obtain ⟨-, l, found, rfl⟩ | ⟨-, l, found, rfl⟩ | ⟨-, l, found, rfl⟩ := cases
  · refine literalsOver_append.2 ⟨literalsOver_implication.2
      ⟨premises, overLower l (List.mem_of_getElem? found)⟩, fun m hm => ?_⟩
    exact overCarry m (Option.mem_toList.1 hm)
  · exact literalsOver_implication.2 ⟨premises, overCarry l found⟩
  · exact literalsOver_implication.2 ⟨premises, overLower l (List.mem_of_getElem? found)⟩

theorem length_lowerAdder_le :
    (lowerAdder modulus maxBound left right lower carry).clauses.length ≤
      (left.length + 1) * (right.length + 1) := by
  refine Nat.le_trans (Batch.length_ofMade_le _) ?_
  have row (i : Nat) : ((List.range (right.length + 1)).filterMap fun j =>
      lowerClause modulus maxBound left right lower carry i j).length ≤ right.length + 1 := by
    simpa using List.length_filterMap_le
      (fun j => lowerClause modulus maxBound left right lower carry i j)
      (List.range (right.length + 1))
  rw [List.length_flatMap]
  simpa using List.sum_le_card_nsmul _ (right.length + 1)
    (List.forall_mem_map.2 fun i (_ : i ∈ List.range (left.length + 1)) => row i)

variable {v : Valuation} {l r : Nat}

/-- Parts that count right satisfy the clauses. -/
theorem LowerSized.models_lowerAdder (sized : LowerSized modulus left right lower carry)
    (countsLeft : Counts v left l) (countsRight : Counts v right r)
    (countsLower : Counts v lower ((l + r) % modulus))
    (carrySet : ∀ k, carry = some k → k.holds v = decide (modulus ≤ l + r))
    (noCarry : carry = none → l + r < modulus) (small : l + r < 2 * modulus) :
    v.Models (lowerAdder modulus maxBound left right lower carry).clauses := by
  intro c hc
  obtain ⟨i, hi, j, hj, ⟨positive, -⟩, cases⟩ := sized.mem_lowerAdder.1 hc
  have below : (∀ m ∈ atLeast left i ++ atLeast right j, m.holds v = true) → i + j ≤ l + r := by
    intro premises
    rw [List.forall_mem_append] at premises
    have := countsLeft.within.le_of_atLeast hi premises.1
    have := countsRight.within.le_of_atLeast hj premises.2
    omega
  obtain ⟨lt, m, found, rfl⟩ | ⟨eq, m, found, rfl⟩ | ⟨gt, m, found, rfl⟩ := cases
  · rw [Clause.holds_implication_append]
    intro premises
    have below := below premises
    cases carry with
    | none =>
        left
        refine countsLower.reaches _ m found ?_
        rw [Nat.mod_eq_of_lt (noCarry rfl)]
        omega
    | some k =>
        by_cases overflow : modulus ≤ l + r
        · right
          simpa [overflow] using carrySet k rfl
        · left
          refine countsLower.reaches _ m found ?_
          rw [Nat.mod_eq_of_lt (by omega)]
          omega
  · rw [Clause.holds_implication]
    intro premises
    have below := below premises
    rw [carrySet m found, decide_eq_true_eq]
    omega
  · rw [Clause.holds_implication]
    intro premises
    have below := below premises
    refine countsLower.reaches _ m found ?_
    rw [Nat.mod_eq_sub_mod (by omega), Nat.mod_eq_of_lt (by omega)]
    omega

variable {reached : Nat}

/-- Two numbers whose sum is given, with which the children are reached. -/
theorem exists_shares {n : Nat} (le : n ≤ l + r) (insideLeft : l ≤ left.length)
    (insideRight : r ≤ right.length) (reachesLeft : Reaches v left l)
    (reachesRight : Reaches v right r) :
    ∃ i ≤ left.length, ∃ j ≤ right.length, i + j = n ∧
      ∀ m ∈ atLeast left i ++ atLeast right j, m.holds v = true := by
  refine ⟨min l n, by omega, n - min l n, by omega, by omega, ?_⟩
  exact List.forall_mem_append.2
    ⟨reachesLeft.atLeast (Nat.min_le_left _ _), reachesRight.atLeast (by omega)⟩

section Sound

variable (sized : LowerSized modulus left right lower carry)
  (models : v.Models (lowerAdder modulus maxBound left right lower carry).clauses)
  (insideLeft : l ≤ left.length) (insideRight : r ≤ right.length)
  (reachesLeft : Reaches v left l) (reachesRight : Reaches v right r)

include sized models insideLeft insideRight reachesLeft reachesRight

/-- Without the carry the lower part reaches what the children reach, as far as it matters. -/
theorem LowerSized.reaches_of_not_carry (unset : ∀ k, carry = some k → k.holds v = false)
    {n : Nat} (le : n ≤ l + r) (lt : n < modulus)
    (matters : n ≤ maxBound + 2 ∨ modulus ≤ maxBound + 2) : Reaches v lower n := by
  intro k m found below
  obtain ⟨i, hi, j, hj, sum, premises⟩ :=
    exists_shares (n := k + 1) (by omega) insideLeft insideRight reachesLeft reachesRight
  have holds := models _ (sized.mem_lowerAdder.2 ⟨i, hi, j, hj, ⟨by omega, by omega⟩,
    .inl ⟨by omega, m, by rwa [sum], rfl⟩⟩)
  rw [Clause.holds_implication_append] at holds
  refine (holds premises).resolve_right ?_
  rintro ⟨k, mem, set⟩
  simp [unset k (Option.mem_toList.1 mem)] at set

/-- Without the carry the children stay below the modulus, if that matters. -/
theorem LowerSized.lt_of_not_carry (unset : ∀ k, carry = some k → k.holds v = false)
    (matters : modulus ≤ maxBound + 2) : l + r < modulus := by
  apply Nat.lt_of_not_le
  intro overflow
  obtain ⟨k, set⟩ := sized.carries (by omega)
  obtain ⟨i, hi, j, hj, sum, premises⟩ :=
    exists_shares (n := modulus) overflow insideLeft insideRight reachesLeft reachesRight
  have two := sized.two_le
  have holds := models _ (sized.mem_lowerAdder.2 ⟨i, hi, j, hj, ⟨by omega, by omega⟩,
    .inr (.inl ⟨sum, k, set, rfl⟩)⟩)
  have true := Clause.holds_implication.1 holds premises
  simp [unset k set] at true

/-- What the children reach above the modulus the lower part reaches, if that matters. -/
theorem LowerSized.reaches_overflow (matters : modulus ≤ maxBound + 2) :
    Reaches v lower (l + r - modulus) := by
  intro k m found below
  obtain ⟨i, hi, j, hj, sum, premises⟩ :=
    exists_shares (n := modulus + k + 1) (by omega) insideLeft insideRight reachesLeft
      reachesRight
  have holds := models _ (sized.mem_lowerAdder.2 ⟨i, hi, j, hj, ⟨by omega, by omega⟩,
    .inr (.inr ⟨by omega, m, by rw [show i + j - modulus - 1 = k by omega, found], rfl⟩)⟩)
  exact Clause.holds_implication.1 holds premises

end Sound

end Lower

/-! ### The clauses over the upper parts -/

section Upper

variable {modulus maxBound : Nat} {left right upper : List Literal} {carry : Literal}

/-- The clause that passes the carry on: with it set the sum is one higher, if the node has a
literal for that. -/
def carriedClause (left right upper : List Literal) (carry : Literal) (i j : Nat) : Clause :=
  (Clause.implication (atLeast left i ++ atLeast right j) carry.complement).append
    upper[i + j]?.toList

theorem atLeast_ne_nil {part : List Literal} {n : Nat} (positive : 0 < n)
    (inside : n ≤ part.length) : atLeast part n ≠ [] := by
  have found : part[n - 1]? = some part[n - 1] := List.getElem?_eq_getElem (by omega)
  simp [atLeast, Nat.ne_of_gt positive, found]

/-- A sum other than zero has a premise. -/
theorem one_le_length_premises {i j : Nat} (positive : 0 < i + j) (hi : i ≤ left.length)
    (hj : j ≤ right.length) : 1 ≤ (atLeast left i ++ atLeast right j).length := by
  apply List.length_pos_of_ne_nil
  intro none
  obtain ⟨noneLeft, noneRight⟩ := List.append_eq_nil_iff.1 none
  rcases Nat.eq_zero_or_pos i with zero | one
  · exact atLeast_ne_nil (by omega) hj noneRight
  · exact atLeast_ne_nil one hi noneLeft

/-- Where the node has an upper part, no clause is dropped. -/
theorem mem_upperClauses (parts : 0 < upper.length) {i j : Nat} (hi : i ≤ left.length)
    (hj : j ≤ right.length) {c : Clause} :
    c ∈ upperClauses left right upper carry i j ↔
      (0 < i + j ∧ ∃ l, upper[i + j - 1]? = some l ∧
        c = .implication (atLeast left i ++ atLeast right j) l) ∨
      c = carriedClause left right upper carry i j := by
  have carried : 1 < (carriedClause left right upper carry i j).length := by
    simp only [carriedClause, Clause.length, Clause.append, Clause.implication,
      List.length_append, List.length_map, List.length_singleton]
    rcases Nat.eq_zero_or_pos (i + j) with zero | positive
    · simp [zero, parts]
    · have := one_le_length_premises positive hi hj
      rw [List.length_append] at this
      omega
  simp only [upperClauses, List.mem_filter, List.mem_append, List.mem_singleton,
    decide_eq_true_eq, Option.mem_toList]
  constructor
  · rintro ⟨plain | rfl, -⟩
    · left
      split at plain
      · cases plain
      · obtain ⟨l, found, rfl⟩ := Option.map_eq_some_iff.1 plain
        exact ⟨by omega, l, found, rfl⟩
    · exact .inr rfl
  · rintro (⟨positive, l, found, rfl⟩ | rfl)
    · refine ⟨.inl ?_, ?_⟩
      · rw [if_neg (Nat.ne_of_gt positive), found]
        rfl
      · have := one_le_length_premises positive hi hj
        simp only [Clause.length, Clause.implication, List.length_append, List.length_map,
          List.length_singleton] at this ⊢
        omega
    · exact ⟨.inr rfl, carried⟩

theorem length_upperClauses_le (left right upper : List Literal) (carry : Literal) (i j : Nat) :
    (upperClauses left right upper carry i j).length ≤ 2 := by
  refine Nat.le_trans (List.length_filter_le _ _) ?_
  rw [List.length_append, List.length_singleton]
  exact Nat.succ_le_succ Option.length_toList_le

/-- The quotient, rounded up, is no less than the quotient. -/
theorem le_ceilDiv_mul {a b : Nat} (positive : 0 < b) : a ≤ ceilDiv a b * b := by
  have := Nat.lt_mul_div_succ (a + b - 1) positive
  rw [Nat.mul_comm, Nat.succ_mul] at this
  unfold ceilDiv
  omega

theorem mem_upperAdder (parts : 0 < upper.length) {c : Clause} :
    c ∈ (upperAdder modulus maxBound left right upper carry).clauses ↔
      ∃ i ≤ left.length, ∃ j ≤ right.length, i + j ≤ ceilDiv (maxBound + 1) modulus ∧
        ((0 < i + j ∧ ∃ l, upper[i + j - 1]? = some l ∧
            c = .implication (atLeast left i ++ atLeast right j) l) ∨
          c = carriedClause left right upper carry i j) := by
  simp only [upperAdder, List.mem_flatMap, List.mem_range, Nat.lt_succ_iff]
  refine exists_congr fun i => and_congr_right fun hi => exists_congr fun j =>
    and_congr_right fun hj => ?_
  by_cases within : i + j ≤ ceilDiv (maxBound + 1) modulus
  · rw [if_pos within, mem_upperClauses parts hi hj]
    simp only [within, true_and]
  · simp [within]

theorem length_upperAdder_le :
    (upperAdder modulus maxBound left right upper carry).clauses.length ≤
      2 * ((left.length + 1) * (right.length + 1)) := by
  let limit := ceilDiv (maxBound + 1) modulus
  let clauses (i j : Nat) : List Clause :=
    if i + j ≤ limit then upperClauses left right upper carry i j else []
  have entry (i j : Nat) : (clauses i j).length ≤ 2 := by
    simp only [clauses]
    split
    · exact length_upperClauses_le left right upper carry i j
    · exact Nat.zero_le 2
  have row (i : Nat) : ((List.range (right.length + 1)).flatMap (clauses i)).length ≤
      (right.length + 1) * 2 := by
    rw [List.length_flatMap]
    simpa using List.sum_le_card_nsmul _ 2
      (List.forall_mem_map.2 fun j (_ : j ∈ List.range (right.length + 1)) => entry i j)
  have all : ((List.range (left.length + 1)).flatMap fun i =>
      (List.range (right.length + 1)).flatMap (clauses i)).length ≤
        (left.length + 1) * ((right.length + 1) * 2) := by
    rw [List.length_flatMap]
    simpa using List.sum_le_card_nsmul _ ((right.length + 1) * 2)
      (List.forall_mem_map.2 fun i (_ : i ∈ List.range (left.length + 1)) => row i)
  rw [Nat.mul_comm 2, Nat.mul_assoc]
  exact all

theorem clausesOver_upperAdder {on : Nat → Prop} (parts : 0 < upper.length)
    (overLeft : LiteralsOver on left) (overRight : LiteralsOver on right)
    (overUpper : LiteralsOver on upper) (overCarry : on carry.index) :
    ClausesOver on (upperAdder modulus maxBound left right upper carry).clauses := by
  intro c hc
  obtain ⟨i, -, j, -, -, cases⟩ := (mem_upperAdder parts).1 hc
  have premises : LiteralsOver on (atLeast left i ++ atLeast right j) :=
    literalsOver_append.2 ⟨literalsOver_atLeast overLeft i, literalsOver_atLeast overRight j⟩
  obtain ⟨-, l, found, rfl⟩ | rfl := cases
  · exact literalsOver_implication.2 ⟨premises, overUpper l (List.mem_of_getElem? found)⟩
  · refine literalsOver_append.2 ⟨literalsOver_implication.2 ⟨premises, overCarry⟩, ?_⟩
    exact fun m hm => overUpper m (List.mem_of_getElem? (Option.mem_toList.1 hm))

variable {v : Valuation} {l r : Nat}

/-- Parts that count right satisfy the clauses. -/
theorem models_upperAdder (parts : 0 < upper.length) (countsLeft : Counts v left l)
    (countsRight : Counts v right r)
    (countsUpper : Counts v upper (l + r + (carry.holds v).toNat))
    (wide : l + r + (carry.holds v).toNat ≤ upper.length) :
    v.Models (upperAdder modulus maxBound left right upper carry).clauses := by
  intro c hc
  obtain ⟨i, hi, j, hj, -, cases⟩ := (mem_upperAdder parts).1 hc
  have below : (∀ m ∈ atLeast left i ++ atLeast right j, m.holds v = true) → i + j ≤ l + r := by
    intro premises
    rw [List.forall_mem_append] at premises
    have := countsLeft.within.le_of_atLeast hi premises.1
    have := countsRight.within.le_of_atLeast hj premises.2
    omega
  obtain ⟨positive, m, found, rfl⟩ | rfl := cases
  · rw [Clause.holds_implication]
    intro premises
    have := below premises
    exact countsUpper.reaches _ m found (by omega)
  · rw [carriedClause, Clause.holds_implication_append]
    intro premises
    have := below premises
    cases set : carry.holds v with
    | false => exact .inl (by rw [Literal.holds_complement, set]; rfl)
    | true =>
        rw [set, Bool.toNat_true] at wide countsUpper
        have inside : i + j < upper.length := by omega
        have found : upper[i + j]? = some upper[i + j] := List.getElem?_eq_getElem inside
        exact .inr ⟨_, Option.mem_toList.2 found, countsUpper.reaches _ _ found (by omega)⟩

section Sound

variable (parts : 0 < upper.length)
  (models : v.Models (upperAdder modulus maxBound left right upper carry).clauses)
  (insideLeft : l ≤ left.length) (insideRight : r ≤ right.length)
  (reachesLeft : Reaches v left l) (reachesRight : Reaches v right r)

include parts models insideLeft insideRight reachesLeft reachesRight

/-- The upper part reaches what the children reach, up to the limit. -/
theorem reaches_upperAdder {n : Nat} (le : n ≤ l + r)
    (limit : n ≤ ceilDiv (maxBound + 1) modulus) : Reaches v upper n := by
  intro k m found below
  obtain ⟨i, hi, j, hj, sum, premises⟩ :=
    exists_shares (n := k + 1) (by omega) insideLeft insideRight reachesLeft reachesRight
  have holds := models _ ((mem_upperAdder parts).2 ⟨i, hi, j, hj, by omega,
    .inl ⟨by omega, m, by rwa [sum], rfl⟩⟩)
  exact Clause.holds_implication.1 holds premises

/-- With the carry set it reaches one more. -/
theorem reaches_succ_upperAdder (set : carry.holds v = true) {n : Nat} (le : n ≤ l + r)
    (limit : n ≤ ceilDiv (maxBound + 1) modulus) :
    n + 1 ≤ upper.length ∧ Reaches v upper (n + 1) := by
  obtain ⟨i, hi, j, hj, sum, premises⟩ :=
    exists_shares le insideLeft insideRight reachesLeft reachesRight
  have holds := models _ ((mem_upperAdder parts).2 ⟨i, hi, j, hj, by omega, .inr rfl⟩)
  rw [carriedClause, Clause.holds_implication_append, sum] at holds
  obtain unset | ⟨m, mem, true⟩ := holds premises
  · rw [Literal.holds_complement, set] at unset
    cases unset
  have found := Option.mem_toList.1 mem
  refine ⟨(List.getElem?_eq_some_iff.1 found).1, fun k u foundK below => ?_⟩
  rcases Nat.lt_or_eq_of_le (Nat.le_of_lt_succ below) with lt | eq
  · exact reaches_upperAdder parts models insideLeft insideRight reachesLeft reachesRight le limit
      k u foundK lt
  · subst eq
    rw [found] at foundK
    cases foundK
    exact true

end Sound

end Upper

end CardinalityClauses.ModularTotalizer
