import CardinalityClauses.Proofs.Session.Safety
import CardinalityClauses.Proofs.Tightenable.Refusals

/-!
Refused requests change nothing.

Main statement: a request that is refused leaves the encoder, the collector and the supply exactly
as they were, and no event is reported (`Encoder.unchanged_of_refused`). This needs nothing from the
state of the encoder, so it holds after failures of any kind.
-/

namespace CardinalityClauses.Encoder

section

variable {σ : Type} [Collector σ] {e : Encoder} {r : Call} {w : Workspace σ} {o : Outcome Encoder σ}
  {why : Refusal}

theorem summarize_accepted (asked : e.call? .summarize w = some o) : Accepted o.failure := by
  simp only [call?] at asked
  split at asked <;> cases asked
  · exact accepted_fault _
  · exact accepted_none

theorem call_totalizer_of_refused {t : Totalizer} (asked : (totalizer t).call? r w = some o)
    (refused : o.failure = some (.refused why)) : o.value = totalizer t ∧ o.work = w := by
  cases r with
  | setModulus modulus => cases asked
  | encode direction maxBound =>
      cases asked
      obtain ⟨-, value, work⟩ := Outcome.mk.inj (Totalizer.encode_eq_of_refused refused)
      exact ⟨congrArg totalizer value, work⟩
  | enforce direction bound =>
      cases asked
      exact ⟨rfl, (Prod.mk.inj (Totalizer.enforce_eq_of_refused refused)).2⟩
  | tighten direction bound => cases asked
  | summarize => exact absurd refused ((summarize_accepted asked).ne_refused why)

theorem call_modular_of_refused {t : ModularTotalizer} (asked : (modular t).call? r w = some o)
    (refused : o.failure = some (.refused why)) : o.value = modular t ∧ o.work = w := by
  cases r with
  | setModulus modulus =>
      simp only [call?, setModulus?, Option.map_some, Option.some.injEq] at asked
      split at asked <;> subst asked
      · exact ⟨rfl, rfl⟩
      · cases refused
  | encode direction maxBound =>
      cases direction with
      | atMost =>
          cases asked
          obtain ⟨-, value, work⟩ := Outcome.mk.inj (ModularTotalizer.encode_eq_of_refused refused)
          exact ⟨congrArg modular value, work⟩
      | atLeast => cases asked
  | enforce direction bound =>
      cases direction with
      | atMost =>
          cases asked
          exact ⟨rfl, (Prod.mk.inj (ModularTotalizer.enforceUpper_eq_of_refused refused)).2⟩
      | atLeast => cases asked
  | tighten direction bound => cases asked
  | summarize => exact absurd refused ((summarize_accepted asked).ne_refused why)

theorem call_constraint_of_refused {c : TightenableConstraint}
    (asked : (constraint c).call? r w = some o) (refused : o.failure = some (.refused why)) :
    o.value = constraint c ∧ o.work = w := by
  cases r with
  | setModulus modulus => cases asked
  | encode direction maxBound => cases direction <;> cases asked
  | enforce direction bound => cases direction <;> cases asked
  | tighten direction bound =>
      cases asked
      obtain ⟨-, value, work⟩ :=
        Outcome.mk.inj (TightenableConstraint.tighten_eq_of_refused refused)
      exact ⟨congrArg constraint value, work⟩
  | summarize => exact absurd refused ((summarize_accepted asked).ne_refused why)

end

/-- Whatever an encoder went through before, a request that it turns down leaves it and the
workspace exactly as they were. The same goes for the building of a constraint, which has no
encoder yet. -/
theorem unchanged_of_refused (σ : Type) [Collector σ] (w : Workspace σ) (why : Refusal) :
    (∀ (e : Encoder) (r : Call) (o : Outcome Encoder σ), e.call? r w = some o →
      o.failure = some (.refused why) → o.value = e ∧ o.work = w) ∧
    ∀ literals direction bound configuration,
      (TightenableConstraint.build literals direction bound configuration w).1 =
          .error (.refused why) →
        (TightenableConstraint.build literals direction bound configuration w).2 = w := by
  constructor
  · intro e r o asked refused
    cases e with
    | totalizer t => exact call_totalizer_of_refused asked refused
    | modular t => exact call_modular_of_refused asked refused
    | constraint c => exact call_constraint_of_refused asked refused
  · intro literals direction bound configuration refused
    exact TightenableConstraint.build_of_refused refused

/-- Three literals are to be true at most three times. Tightened to one, they get a tree, but the
collector has no room left for the clause that enforces the bound. -/
def halfway : Outcome Encoder LimitedFormula :=
  let literals : List Literal := [⟨0, false⟩, ⟨1, false⟩, ⟨2, false⟩]
  let c : TightenableConstraint := ⟨literals, .atMost, 3, .totalizer, none, none⟩
  let ⟨failure, c, w⟩ := c.tighten .atMost 1 ⟨⟨.empty, some 2, none⟩, ⟨3⟩, #[]⟩
  ⟨failure, constraint c, w⟩

/-- The theorem for that constraint, which cannot be tightened to two any more, and for a bound
above the number of literals. -/
theorem unchanged_of_refused_halfway :
    halfway.failure = some .outOfMemory ∧
      (∃ o, halfway.value.call? (.tighten .atMost 2) halfway.work = some o ∧
        o.failure = some (.refused .notEncoded) ∧ o.value = halfway.value ∧
        o.work = halfway.work) ∧
      (TightenableConstraint.build [⟨0, false⟩] .atLeast 2 ⟨.totalizer, .modular, none⟩
        halfway.work).2 = halfway.work := by
  obtain ⟨o, asked⟩ : ∃ o, halfway.value.call? (.tighten .atMost 2) halfway.work = some o :=
    ⟨_, rfl⟩
  have refused : o.failure = some (.refused .notEncoded) := by
    cases asked
    decide
  refine ⟨by decide, ⟨o, asked, refused, ?_⟩, ?_⟩
  · exact (unchanged_of_refused LimitedFormula halfway.work .notEncoded).1 _ _ o asked refused
  · exact (unchanged_of_refused LimitedFormula halfway.work (.boundOutOfRange 2 1)).2 _ _ _ _ rfl

end CardinalityClauses.Encoder
