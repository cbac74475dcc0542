import CardinalityClauses.Arithmetic.CeilSqrt
import Mathlib.Order.Bounds.Basic
import Mathlib.Tactic.Linarith

/-!
The square root is right and never leaves its range.

A guess that is not below the root stays so: the mean of the guess and its quotient is above
the root rounded down. Where the mean is no smaller than the guess, the guess is not above
the root either.

`Descent` is the descent without a limit on its steps. The descent from a guess that is not below
the root comes to an end (`exists_descent`), and any amount of fuel from the size of the guess on
follows it to there (`Descent.descendToRoot_eq`).
-/

namespace CardinalityClauses

/-! ### One step -/

section Step

variable {number guess : Nat}

/-- The mean of a guess and its quotient is not below the root. -/
theorem lt_square_mean (positive : 0 < guess) :
    number < ((guess + number / guess) / 2 + 1) * ((guess + number / guess) / 2 + 1) := by
  have below : number < guess * (number / guess + 1) := Nat.lt_mul_div_succ number positive
  generalize number / guess = quotient at below ⊢
  -- Four times the product is no more than the square of the sum.
  have mean : 4 * (guess * (quotient + 1)) ≤ (guess + quotient + 1) * (guess + quotient + 1) := by
    rcases Nat.le_total guess (quotient + 1) with le | le
    · obtain ⟨d, eq⟩ := Nat.exists_eq_add_of_le le
      rw [Nat.add_assoc, eq]
      nlinarith
    · obtain ⟨d, eq⟩ := Nat.exists_eq_add_of_le le
      rw [eq]
      nlinarith
  have half : guess + quotient + 1 ≤ 2 * ((guess + quotient) / 2 + 1) := by omega
  have square := Nat.mul_le_mul half half
  nlinarith

/-- The mean can be divided by. -/
theorem mean_pos (large : 0 < number) (positive : 0 < guess) :
    0 < (guess + number / guess) / 2 := by
  by_cases one : guess = 1
  · subst one
    rw [Nat.div_one]
    omega
  · have := Nat.zero_le (number / guess)
    omega

/-- The mean can be computed. -/
theorem add_quotient_lt (positive : 0 < guess) (above : number < (guess + 1) * (guess + 1))
    (inRange : number < sizeRange) (small : guess ≤ 9223372036854775808) :
    guess + number / guess < sizeRange := by
  unfold sizeRange at *
  rcases Nat.lt_or_ge guess 8589934592 with low | high
  · have : number / guess < guess + 3 := by
      rw [Nat.div_lt_iff_lt_mul positive]
      nlinarith
    omega
  · have : number / guess ≤ number / 8589934592 := Nat.div_le_div_left high (by decide)
    omega

end Step

/-! ### The descent -/

/-- The descent from a guess to the guess that stops it. No step divides by zero or leaves the
range of sizes. -/
inductive Descent (number : Nat) : (guess floor : Nat) → Prop
  /-- The mean is no smaller than the guess. -/
  | rest {guess : Nat} (positive : 0 < guess) (inRange : guess + number / guess < sizeRange)
      (stop : guess ≤ (guess + number / guess) / 2) : Descent number guess guess
  | step {guess floor : Nat} (positive : 0 < guess)
      (inRange : guess + number / guess < sizeRange)
      (smaller : (guess + number / guess) / 2 < guess)
      (later : Descent number ((guess + number / guess) / 2) floor) : Descent number guess floor

section Descending

variable {number guess floor fuel : Nat}

theorem Descent.pos (descent : Descent number guess floor) : 0 < floor := by
  induction descent with
  | rest positive => exact positive
  | step _ _ _ _ ih => exact ih

theorem Descent.le (descent : Descent number guess floor) : floor ≤ guess := by
  induction descent with
  | rest => exact Nat.le_refl _
  | step _ _ smaller _ ih => exact Nat.le_trans ih (Nat.le_of_lt smaller)

/-- Where the descent stops is not above the root. -/
theorem Descent.square_le (descent : Descent number guess floor) : floor * floor ≤ number := by
  induction descent with
  | @rest guess positive _ stop =>
      have le : guess ≤ number / guess := by omega
      exact (Nat.le_div_iff_mul_le positive).1 le
  | step _ _ _ _ ih => exact ih

/-- Where the descent stops is not below the root rounded down. -/
theorem Descent.lt_square (descent : Descent number guess floor)
    (above : number < (guess + 1) * (guess + 1)) : number < (floor + 1) * (floor + 1) := by
  induction descent with
  | rest => exact above
  | step positive _ _ _ ih => exact ih (lt_square_mean positive)

theorem descendToRoot_succ (positive : 0 < guess) (inRange : guess + number / guess < sizeRange) :
    descendToRoot number (fuel + 1) guess =
      if (guess + number / guess) / 2 < guess then
        descendToRoot number fuel ((guess + number / guess) / 2)
      else .ok guess := by
  have quotient : divWithin number guess = .ok (number / guess) :=
    if_neg (Nat.ne_of_gt positive)
  have sum : addWithin sizeRange guess (number / guess) = .ok (guess + number / guess) :=
    if_pos inRange
  simp only [descendToRoot, quotient, sum, bind, Except.bind]

/-- Fuel at the size of the guess is enough to follow the descent. -/
theorem Descent.descendToRoot_eq (descent : Descent number guess floor) (enough : guess ≤ fuel) :
    descendToRoot number fuel guess = .ok floor := by
  induction descent generalizing fuel with
  | rest positive inRange stop =>
      obtain ⟨fuel, rfl⟩ := Nat.exists_eq_succ_of_ne_zero (by omega : fuel ≠ 0)
      rw [descendToRoot_succ positive inRange, if_neg (Nat.not_lt_of_le stop)]
  | step positive inRange smaller _ ih =>
      obtain ⟨fuel, rfl⟩ := Nat.exists_eq_succ_of_ne_zero (by omega : fuel ≠ 0)
      rw [descendToRoot_succ positive inRange, if_pos smaller]
      exact ih (by omega)

/-- What is found with enough fuel is where the descent stops by itself. -/
theorem descent_of_descendToRoot (large : 0 < number) (positive : 0 < guess)
    (enough : guess ≤ fuel) (found : descendToRoot number fuel guess = .ok floor) :
    Descent number guess floor := by
  induction fuel generalizing guess with
  | zero => omega
  | succ fuel ih =>
      by_cases inRange : guess + number / guess < sizeRange
      · rw [descendToRoot_succ positive inRange] at found
        split at found
        · rename_i smaller
          exact .step positive inRange smaller
            (ih (mean_pos large positive) (by omega) found)
        · rename_i stop
          cases found
          exact .rest positive inRange (Nat.le_of_not_lt stop)
      · simp [descendToRoot, divWithin, addWithin, Nat.ne_of_gt positive, inRange, bind,
          Except.bind] at found

/-- From a guess that is not below the root the descent comes to an end. -/
theorem exists_descent (large : 0 < number) (inRange : number < sizeRange) (positive : 0 < guess)
    (above : number < (guess + 1) * (guess + 1)) (small : guess ≤ 9223372036854775808) :
    ∃ floor, Descent number guess floor := by
  induction guess using Nat.strong_induction_on with
  | h guess ih =>
      have sum := add_quotient_lt positive above inRange small
      by_cases smaller : (guess + number / guess) / 2 < guess
      · obtain ⟨floor, later⟩ :=
          ih _ smaller (mean_pos large positive) (lt_square_mean positive) (by omega)
        exact ⟨floor, .step positive sum smaller later⟩
      · exact ⟨guess, .rest positive sum (Nat.le_of_not_lt smaller)⟩

end Descending

/-! ### The root -/

section Root

variable {number : Nat}

/-- Half of a number is not below its root. -/
theorem lt_square_half (number : Nat) :
    number < ((number + 1) / 2 + 1) * ((number + 1) / 2 + 1) := by
  have : number + 1 < 2 * ((number + 1) / 2 + 1) := by omega
  nlinarith

/-- The descent from half of a number comes to an end. -/
theorem exists_descent_half (large : 1 < number) (inRange : number < sizeRange) :
    ∃ floor, Descent number ((number + 1) / 2) floor := by
  unfold sizeRange at inRange
  exact exists_descent (by omega) inRange (by omega) (lt_square_half number) (by omega)

/-- The least number whose square is not below a number in range. -/
theorem ceilSqrt_spec (inRange : number < sizeRange) :
    ∃ r, ceilSqrt number = .ok r ∧ number ≤ r * r ∧ (0 < number → (r - 1) * (r - 1) < number) ∧
      r ≤ number := by
  by_cases trivial : number ≤ 1
  · refine ⟨number, if_pos trivial, ?_, ?_, Nat.le_refl _⟩ <;>
      rcases Nat.le_one_iff_eq_zero_or_eq_one.1 trivial with rfl | rfl <;> decide
  obtain ⟨floor, descent⟩ := exists_descent_half (Nat.lt_of_not_le trivial) inRange
  have small := descent.le
  have le := descent.square_le
  have lt := descent.lt_square (lt_square_half number)
  have square : mulWithin sizeRange floor floor = .ok (floor * floor) := if_pos (by omega)
  have eq : ceilSqrt number =
      if floor * floor = number then .ok floor else addWithin sizeRange floor 1 := by
    simp only [ceilSqrt, trivial, if_false, descent.descendToRoot_eq (Nat.le_refl _), square, bind,
      Except.bind]
  rw [eq]
  by_cases exact_ : floor * floor = number
  · refine ⟨floor, if_pos exact_, by omega, fun _ => ?_, by omega⟩
    obtain ⟨k, rfl⟩ := Nat.exists_eq_succ_of_ne_zero (Nat.ne_of_gt descent.pos)
    simp only [Nat.succ_eq_add_one, Nat.add_sub_cancel] at exact_ ⊢
    nlinarith
  · have next : addWithin sizeRange floor 1 = .ok (floor + 1) :=
      if_pos (by unfold sizeRange at *; omega)
    refine ⟨floor + 1, by rw [if_neg exact_, next], by omega, fun _ => ?_, ?_⟩
    · simp only [Nat.add_sub_cancel]
      omega
    · omega

/-- The same as a least element. -/
theorem ceilSqrt_isLeast (inRange : number < sizeRange) :
    ∃ r, ceilSqrt number = .ok r ∧ IsLeast {s | number ≤ s * s} r := by
  obtain ⟨r, root, le, least, small⟩ := ceilSqrt_spec inRange
  refine ⟨r, root, le, fun s hs => Nat.le_of_not_lt fun lt => ?_⟩
  have hs : number ≤ s * s := hs
  have below : s * s ≤ (r - 1) * (r - 1) := Nat.mul_self_le_mul_self (by omega)
  have := least (by omega)
  omega

/-- The root of two or more is at least two. -/
theorem two_le_of_isLeast {r : Nat} (large : 1 < number) (least : IsLeast {s | number ≤ s * s} r) :
    2 ≤ r := by
  have le : number ≤ r * r := least.1
  by_contra small
  have : r * r ≤ 1 * 1 := Nat.mul_self_le_mul_self (by omega)
  omega

/-- No root is above its number. -/
theorem le_of_isLeast {r : Nat} (least : IsLeast {s | number ≤ s * s} r) : r ≤ number :=
  least.2 (Nat.le_mul_self number)

/-- Beyond the range of sizes no root is found. -/
theorem ceilSqrt_of_sizeRange_le (beyond : sizeRange ≤ number) :
    ∃ f, ceilSqrt number = .error f := by
  have large : 1 < number := Nat.lt_of_lt_of_le (by decide) beyond
  rw [ceilSqrt, if_neg (Nat.not_le_of_lt large)]
  cases found : descendToRoot number ((number + 1) / 2) ((number + 1) / 2) with
  | error f => exact ⟨f, by simp only [found, bind, Except.bind]⟩
  | ok floor =>
      have descent := descent_of_descendToRoot (by omega) (by omega) (Nat.le_refl _) found
      have above := descent.lt_square (lt_square_half number)
      -- The root rounded down has a square that leaves the range.
      have square : ¬floor * floor < sizeRange := by
        unfold sizeRange at *
        intro inside
        have : floor < 4294967296 := by nlinarith
        nlinarith
      refine ⟨.arithmeticOverflow, ?_⟩
      simp only [found, bind, Except.bind, mulWithin, if_neg square]

end Root

end CardinalityClauses
