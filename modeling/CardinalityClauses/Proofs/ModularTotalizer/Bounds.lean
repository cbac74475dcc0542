import CardinalityClauses.Proofs.ModularTotalizer.Build

/-!
Upper bounds on a modular totalizer.

Main statement: after a build every assignment of the inputs extends to a model, and after any
bounds up to the maximum are enforced, in any order, the assignments that do are those that meet
all of them (`encode_enforceEach`).
-/

namespace CardinalityClauses.ModularTotalizer

open LawfulCollector (contents)

/-- An encoder that was not built, with a modulus fixed beforehand or without one. -/
theorem exists_ofPreset {t : ModularTotalizer} {inputs : List Literal}
    (start : t = ofInputs inputs ∨ ∃ m, (ofInputs inputs).setModulus m = .ok t) :
    t = ofPreset inputs t.modulus ∧ ∀ m, t.modulus = some m → 2 ≤ m := by
  rcases start with rfl | ⟨m, fixed⟩
  · exact ⟨rfl, fun m none => by cases none⟩
  · unfold setModulus at fixed
    split at fixed
    · cases fixed
    · rename_i two
      simp only [isBuilt, ofInputs, Option.isSome_none, Bool.false_eq_true, if_false,
        Except.ok.injEq] at fixed
      subst fixed
      exact ⟨rfl, fun k eq => by cases eq; omega⟩

section

variable {σ : Type} [ReliableCollector σ]

/-- The clauses of a build leave the inputs free, and together with those for any bounds up to
the maximum they say that all of these bounds are met. -/
theorem encode_enforceEach {t : ModularTotalizer} {inputs : List Literal} {maxBound : Nat}
    {w : Workspace σ} {on : Nat → Prop}
    (start : t = ofInputs inputs ∨ ∃ m, (ofInputs inputs).setModulus m = .ok t)
    (positive : 0 < maxBound) (lt : maxBound < inputs.length)
    (about : LiteralsOver on inputs) (old : ∀ i, on i → i < w.supply.next)
    (room : w.supply.next + buildDemand (modulusFor t.modulus maxBound) inputs ≤
      Variable.maxIndex + 1) :
    ∃ built w₁ counting, t.encode maxBound w = ⟨none, built, w₁⟩ ∧
      w₁.supply.next =
        w.supply.next + buildDemand (modulusFor t.modulus maxBound) inputs ∧
      contents w₁.collector = contents w.collector ++ counting ∧
      (∀ v : Valuation, v.Extends on counting) ∧
      ∀ bounds, (∀ b ∈ bounds, b ≤ maxBound) →
        ∃ w₂ limiting, enforceEach built.enforceUpper bounds w₁ = (none, w₂) ∧
          contents w₂.collector = contents w₁.collector ++ limiting ∧
          ∀ v : Valuation, v.Extends on (counting ++ limiting) ↔
            ∀ b ∈ bounds, v.trueCount inputs ≤ b := by
  obtain ⟨preset, fixed⟩ := exists_ofPreset start
  generalize t.modulus = modulus at *
  subst preset
  obtain ⟨built, w₁, counting, upper, lower, encoded, grows, same, complete, encoding⟩ :=
    encode_spec positive lt fixed w (about.mono old) room
  refine ⟨built, w₁, counting, encoded, grows.next_eq, grows.contents_eq, encoding.extends old, ?_⟩
  intro bounds allowed
  obtain ⟨w₂, enforced, grows₂⟩ := enforceEach_spec
    (fun b hb w => complete.enforceUpper (allowed b hb) w) w₁
  refine ⟨w₂, _, enforced, grows₂.contents_eq, ?_⟩
  intro v
  rw [encoding.extends_iff old about allowed v]
  simp [Constraint.holds]

/-- The theorem for three inputs of which two are literals of one variable, with a fixed
modulus. -/
theorem encode_enforceEach_threeInputs :
    let inputs : List Literal := [⟨0, false⟩, ⟨0, true⟩, ⟨1, false⟩]
    let t := ofPreset inputs (some 2)
    let w : Workspace Formula := ⟨.empty, ⟨2⟩, #[]⟩
    (ofInputs inputs).setModulus 2 = .ok t ∧
      ∃ built w₁ counting, t.encode 1 w = ⟨none, built, w₁⟩ ∧
        w₁.supply.next = 2 + buildDemand 2 inputs ∧
        contents w₁.collector = contents w.collector ++ counting ∧
        (∀ v : Valuation, v.Extends (· < 2) counting) ∧
        ∀ bounds, (∀ b ∈ bounds, b ≤ 1) →
          ∃ w₂ limiting, enforceEach built.enforceUpper bounds w₁ = (none, w₂) ∧
            contents w₂.collector = contents w₁.collector ++ limiting ∧
            ∀ v : Valuation, v.Extends (· < 2) (counting ++ limiting) ↔
              ∀ b ∈ bounds, v.trueCount inputs ≤ b :=
  ⟨rfl, encode_enforceEach (.inr ⟨2, rfl⟩) (by decide) (by decide)
    (by simp [LiteralsOver]) (fun _ hi => hi) (by decide)⟩

end

end CardinalityClauses.ModularTotalizer
