import CardinalityClauses.Formula
import CardinalityClauses.ModularTotalizer
import CardinalityClauses.Proofs.Arithmetic.CeilSqrt
import CardinalityClauses.Proofs.Encoding.Halving

/-!
The modulus that a modular totalizer chooses for itself.

Main statement: the square root of every size, rounded up, is found, by a descent that comes to an
end and never leaves the range of sizes. So every build that is left to choose its modulus finds
one, at least two and at most one more than the maximum bound, and it stays with the encoder
however the build ends (`modulus_least_root`).
-/

namespace CardinalityClauses.ModularTotalizer

/-! ### The chosen modulus stays -/

section Kept

variable {σ : Type} [Collector σ] {t : ModularTotalizer} {modulus maxBound : Nat}
  {w : Workspace σ}

theorem modulus_buildTree (shape : Halving Literal) (upper lower : List Literal)
    (clausesBefore variablesBefore : Nat) :
    (t.buildTree modulus maxBound shape upper lower clausesBefore variablesBefore
      w).value.modulus = t.modulus := by
  simp only [buildTree]
  split <;> rfl

/-- A build keeps the modulus that it starts with, also if it fails. -/
theorem modulus_buildRoot (shape : Halving Literal) :
    (t.buildRoot modulus maxBound shape w).value.modulus = t.modulus := by
  simp only [buildRoot]
  split
  · rfl
  split
  · rfl
  split
  · rfl
  · exact modulus_buildTree _ _ _ _ _

/-- Nothing is chosen for a bound that every assignment meets. -/
theorem modulus_encode_of_length_le (unbuilt : t.maxBound = none)
    (met : t.inputs.length ≤ maxBound) : (t.encode maxBound w).value.modulus = t.modulus := by
  simp only [encode, unbuilt, if_pos (Or.inr met : maxBound = 0 ∨ _)]

/-- The first build for a bound that can be broken stays with the modulus it chose. -/
theorem modulus_encode_of_lt (unbuilt : t.maxBound = none) (positive : 0 < maxBound)
    (lt : maxBound < t.inputs.length) (chosen : t.chooseModulus maxBound = .ok modulus) :
    (t.encode maxBound w).value.modulus = some modulus := by
  have wanted : ¬(maxBound = 0 ∨ t.inputs.length ≤ maxBound) := by omega
  have nonempty : t.inputs ≠ [] := List.ne_nil_of_length_pos (Nat.zero_lt_of_lt lt)
  obtain ⟨shape, halved, -⟩ := Halving.ofList?_spec nonempty
  simp only [encode, unbuilt, if_neg wanted, chosen, halved]
  exact modulus_buildRoot shape

end Kept

/-! ### The choice -/

/-- The root of every number in the range of sizes is found: the descent to it comes to an end,
which any fuel from the size of the first guess on follows, no step on the way leaves the range or
divides by zero, and the result is the least number whose square is not below the given one.

An encoder without a modulus chooses this root of the first number beyond its maximum bound when it
is first built for a bound that can be broken. It is at least two and no higher than that number,
and the encoder keeps it, whatever the surroundings let the build come to. -/
theorem modulus_least_root (σ : Type) [Collector σ] :
    (∀ number < sizeRange,
      (∃ r, ceilSqrt number = .ok r ∧ IsLeast {s | number ≤ s * s} r) ∧
      (1 < number → ∃ floor, Descent number ((number + 1) / 2) floor ∧
        ∀ fuel, (number + 1) / 2 ≤ fuel →
          descendToRoot number fuel ((number + 1) / 2) = .ok floor)) ∧
    ∀ (t : ModularTotalizer) (maxBound : Nat) (w : Workspace σ),
      t.modulus = none → t.maxBound = none → t.inputs.length < sizeRange → 0 < maxBound →
        if maxBound < t.inputs.length then
          ∃ modulus, ceilSqrt (maxBound + 1) = .ok modulus ∧
            (t.encode maxBound w).value.modulus = some modulus ∧
            2 ≤ modulus ∧ modulus ≤ maxBound + 1
        else (t.encode maxBound w).value.modulus = none := by
  refine ⟨fun number inRange => ⟨ceilSqrt_isLeast inRange, fun large => ?_⟩, ?_⟩
  · obtain ⟨floor, descent⟩ := exists_descent_half large inRange
    exact ⟨floor, descent, fun fuel enough => descent.descendToRoot_eq enough⟩
  intro t maxBound w unset unbuilt few positive
  split
  · rename_i lt
    obtain ⟨modulus, root, least⟩ := ceilSqrt_isLeast (Nat.lt_of_le_of_lt lt few)
    have chosen : t.chooseModulus maxBound = .ok modulus := by
      simp only [chooseModulus, unset, root]
    exact ⟨modulus, root, modulus_encode_of_lt unbuilt positive lt chosen,
      two_le_of_isLeast (Nat.succ_lt_succ positive) least, le_of_isLeast least⟩
  · rename_i met
    rw [modulus_encode_of_length_le unbuilt (Nat.le_of_not_lt met), unset]

/-- The theorem at the largest size, and for a build over three inputs that the supply of variables
has nothing left for. -/
theorem modulus_least_root_largest :
    let t := ofInputs [⟨0, false⟩, ⟨1, false⟩, ⟨2, true⟩]
    let w : Workspace Formula := ⟨.empty, ⟨4294967295⟩, #[]⟩
    18446744073709551615 < sizeRange ∧ ceilSqrt 18446744073709551615 = .ok 4294967296 ∧
    (∃ floor, Descent 18446744073709551615 9223372036854775808 floor) ∧
    2 < t.inputs.length ∧ (t.encode 2 w).value.modulus = some 2 ∧
    (t.encode 3 w).value.modulus = none := by
  intro t w
  obtain ⟨roots, choices⟩ := modulus_least_root Formula
  obtain ⟨⟨r, root, least⟩, descends⟩ := roots 18446744073709551615 (by decide)
  have square : IsLeast {s | 18446744073709551615 ≤ s * s} 4294967296 := by
    refine ⟨by decide, fun s hs => Nat.le_of_not_lt fun lt => ?_⟩
    have hs : 18446744073709551615 ≤ s * s := hs
    have : s * s ≤ 4294967295 * 4294967295 := Nat.mul_self_le_mul_self (by omega)
    omega
  obtain ⟨floor, descent, -⟩ := descends (by decide)
  refine ⟨by decide, least.unique square ▸ root, ⟨floor, descent⟩, by decide, ?_, ?_⟩
  · have chosen := choices t 2 w rfl rfl (by decide) (by decide)
    rw [if_pos (by decide)] at chosen
    obtain ⟨modulus, root, kept, -, -⟩ := chosen
    have two : ceilSqrt 3 = .ok 2 := rfl
    cases root.symm.trans two
    exact kept
  · have unchosen := choices t 3 w rfl rfl (by decide) (by decide)
    rwa [if_neg (by decide)] at unchosen

end CardinalityClauses.ModularTotalizer
