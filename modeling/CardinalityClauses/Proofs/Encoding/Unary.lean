import CardinalityClauses.Encoding.Unary
import CardinalityClauses.Proofs.Encoding.Fresh

/-!
What unary counters say about a number.

A counter reaches `n` if its literals for the first `n` numbers are true, and it stays within
`n` if all others are false. A counter that does both counts `n`. Where a counter ends is left
open: a counter that is too short to speak of `n` reaches it all the same.
-/

namespace CardinalityClauses.Unary

/-- The literals that say that more than `0`, …, `n - 1` is counted are true. -/
def Reaches (v : Valuation) (counter : List Literal) (n : Nat) : Prop :=
  ∀ k l, counter[k]? = some l → k < n → l.holds v = true

/-- The literals that say that `n` or more is exceeded are false. -/
def StaysWithin (v : Valuation) (counter : List Literal) (n : Nat) : Prop :=
  ∀ k l, counter[k]? = some l → n ≤ k → l.holds v = false

/-- The counter says what `n` is, as far as it goes. -/
structure Counts (v : Valuation) (counter : List Literal) (n : Nat) : Prop where
  reaches : Reaches v counter n
  within : StaysWithin v counter n

section

variable {v w : Valuation} {counter : List Literal} {n i : Nat}

theorem counts_of_eq_decide
    (eq : ∀ k l, counter[k]? = some l → l.holds v = decide (k < n)) : Counts v counter n where
  reaches k l found lt := by simp [eq k l found, lt]
  within k l found le := by simpa [eq k l found] using le

theorem Reaches.of_agree {on : Nat → Prop} (reaches : Reaches v counter n)
    (agree : Valuation.Agree on v w) (about : LiteralsOver on counter) :
    Reaches w counter n := by
  intro k l found lt
  rw [← agree.holds_eq (about l (List.mem_of_getElem? found))]
  exact reaches k l found lt

theorem StaysWithin.of_agree {on : Nat → Prop} (within : StaysWithin v counter n)
    (agree : Valuation.Agree on v w) (about : LiteralsOver on counter) :
    StaysWithin w counter n := by
  intro k l found le
  rw [← agree.holds_eq (about l (List.mem_of_getElem? found))]
  exact within k l found le

theorem Counts.of_agree {on : Nat → Prop} (counts : Counts v counter n)
    (agree : Valuation.Agree on v w) (about : LiteralsOver on counter) : Counts w counter n :=
  ⟨counts.reaches.of_agree agree about, counts.within.of_agree agree about⟩

/-- A single literal counts itself. -/
theorem counts_singleton (v : Valuation) (l : Literal) : Counts v [l] (v.trueCount [l]) := by
  apply counts_of_eq_decide
  intro k m found
  obtain ⟨rfl, rfl⟩ : k = 0 ∧ m = l := by
    cases k <;> simp_all
  cases value : m.holds v <;> simp [Valuation.trueCount, value]

/-! ### The literals for a number -/

theorem literalsOver_atLeast {on : Nat → Prop} (about : LiteralsOver on counter) (i : Nat) :
    LiteralsOver on (atLeast counter i) := by
  intro l hl
  unfold atLeast at hl
  split at hl
  · simp at hl
  · exact about l (List.mem_of_getElem? (by simpa using hl))

theorem literalsOver_atMost {on : Nat → Prop} (about : LiteralsOver on counter) (i : Nat) :
    LiteralsOver on (atMost counter i) := by
  rw [atMost, literalsOver_map_complement]
  intro l hl
  exact about l (List.mem_of_getElem? (by simpa using hl))

/-- A counter that reaches `n` says so of every number up to `n`. -/
theorem Reaches.atLeast (reaches : Reaches v counter n) (le : i ≤ n) :
    ∀ l ∈ atLeast counter i, l.holds v = true := by
  intro l hl
  unfold Unary.atLeast at hl
  split at hl
  · simp at hl
  · exact reaches (i - 1) l (by simpa using hl) (by omega)

/-- What a counter that stays within `n` says to be reached is reached. -/
theorem StaysWithin.le_of_atLeast (within : StaysWithin v counter n) (inside : i ≤ counter.length)
    (holds : ∀ l ∈ Unary.atLeast counter i, l.holds v = true) : i ≤ n := by
  rcases Nat.eq_zero_or_pos i with rfl | positive
  · exact Nat.zero_le n
  have found : counter[i - 1]? = some counter[i - 1] := List.getElem?_eq_getElem (by omega)
  have mem : counter[i - 1] ∈ Unary.atLeast counter i := by
    simp [Unary.atLeast, Nat.ne_of_gt positive]
  apply Nat.le_of_not_lt
  intro above
  have := within (i - 1) _ found (by omega)
  simp [holds _ mem] at this

/-- A counter that stays within `n` says so of every number from `n` on. -/
theorem StaysWithin.atMost (within : StaysWithin v counter n) (le : n ≤ i) :
    ∀ l ∈ atMost counter i, l.holds v = true := by
  intro l hl
  obtain ⟨m, found, rfl⟩ := List.mem_map.1 hl
  rw [Literal.holds_complement, within i m (by simpa using found) le]
  rfl

/-- What a counter that reaches `n` says to be no more than `i` is no more. -/
theorem Reaches.le_of_atMost (reaches : Reaches v counter n) (inside : i < counter.length)
    (holds : ∀ l ∈ Unary.atMost counter i, l.holds v = true) : n ≤ i := by
  have found : counter[i]? = some counter[i] := List.getElem?_eq_getElem inside
  have mem : counter[i].complement ∈ Unary.atMost counter i := by
    simp [Unary.atMost, inside]
  apply Nat.le_of_not_lt
  intro above
  have false := holds _ mem
  rw [Literal.holds_complement, reaches i _ found (by omega)] at false
  cases false

end

end CardinalityClauses.Unary
