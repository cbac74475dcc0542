import CardinalityClauses.Formula
import CardinalityClauses.Proofs.Evaluation.Assignments

/-!
The value of a clause under a partial assignment.

The literals are read in order, but their order does not count: a clause is true if one of its
literals is, false if all of them are, and open otherwise. What is not open stays as it is when
more variables are fixed.

Main statement: `Clause.evaluate_faithful`.
-/

namespace CardinalityClauses

open Assignment

namespace Clause

/-! ### Reading the literals -/

section Reading

variable {a b : Assignment} {c d : Clause} {known value : Ternary} {v : Valuation}

theorem join_eq_holds_iff : join known value = .holds ↔ known = .holds ∨ value = .holds := by
  cases known <;> cases value <;> decide

theorem join_eq_fails_iff : join known value = .fails ↔ known = .fails ∧ value = .fails := by
  cases known <;> cases value <;> decide

theorem foldl_join_eq_holds_iff (ls : List Literal) (known : Ternary) :
    ls.foldl (fun known l => join known (a.literalValue l)) known = .holds ↔
      known = .holds ∨ ∃ l ∈ ls, a.literalValue l = .holds := by
  induction ls generalizing known with
  | nil => simp
  | cons l ls ih => simp [ih, join_eq_holds_iff, or_assoc]

theorem foldl_join_eq_fails_iff (ls : List Literal) (known : Ternary) :
    ls.foldl (fun known l => join known (a.literalValue l)) known = .fails ↔
      known = .fails ∧ ∀ l ∈ ls, a.literalValue l = .fails := by
  induction ls generalizing known with
  | nil => simp
  | cons l ls ih => simp [ih, join_eq_fails_iff, and_assoc]

theorem evaluate_eq_holds_iff :
    c.evaluate a = .holds ↔ ∃ l ∈ c.literals, a.literalValue l = .holds := by
  simp [evaluate, foldl_join_eq_holds_iff]

theorem evaluate_eq_fails_iff :
    c.evaluate a = .fails ↔ ∀ l ∈ c.literals, a.literalValue l = .fails := by
  simp [evaluate, foldl_join_eq_fails_iff]

theorem evaluate_eq_dontCare_iff :
    c.evaluate a = .dontCare ↔
      (∀ l ∈ c.literals, a.literalValue l ≠ .holds) ∧
        ∃ l ∈ c.literals, a.literalValue l = .dontCare := by
  have otherwise : c.evaluate a = .dontCare ↔ c.evaluate a ≠ .holds ∧ c.evaluate a ≠ .fails := by
    cases c.evaluate a <;> decide
  rw [otherwise, ne_eq, ne_eq, evaluate_eq_holds_iff, evaluate_eq_fails_iff]
  constructor
  · rintro ⟨unmet, unmissed⟩
    have unmet : ∀ l ∈ c.literals, a.literalValue l ≠ .holds := fun l hl met => unmet ⟨l, hl, met⟩
    refine ⟨unmet, ?_⟩
    by_contra fixed
    refine unmissed fun l hl => ?_
    cases value : a.literalValue l with
    | holds => exact absurd value (unmet l hl)
    | fails => rfl
    | dontCare => exact absurd ⟨l, hl, value⟩ fixed
  · rintro ⟨unmet, l, hl, free⟩
    refine ⟨fun ⟨m, hm, met⟩ => unmet m hm met, fun missed => ?_⟩
    rw [missed l hl] at free
    cases free

/-! ### What the value does not depend on -/

/-- Only which literals a clause has counts, not their order nor how often they are repeated. -/
theorem evaluate_congr (same : ∀ l, l ∈ d.literals ↔ l ∈ c.literals) :
    d.evaluate a = c.evaluate a := by
  cases value : c.evaluate a with
  | holds =>
      rw [evaluate_eq_holds_iff] at value ⊢
      simpa only [same] using value
  | fails =>
      rw [evaluate_eq_fails_iff] at value ⊢
      simpa only [same] using value
  | dontCare =>
      rw [evaluate_eq_dontCare_iff] at value ⊢
      simpa only [same] using value

/-- Fixing more variables keeps the value of a clause that is not open. -/
theorem evaluate_of_extendedBy (extended : a.ExtendedBy b) (decided : c.evaluate a ≠ .dontCare) :
    c.evaluate b = c.evaluate a := by
  cases value : c.evaluate a with
  | holds =>
      obtain ⟨l, hl, met⟩ := evaluate_eq_holds_iff.1 value
      have kept := extended.literalValue_eq (l := l) (by rw [met]; decide)
      exact evaluate_eq_holds_iff.2 ⟨l, hl, kept.trans met⟩
  | fails =>
      have missed := evaluate_eq_fails_iff.1 value
      refine evaluate_eq_fails_iff.2 fun l hl => ?_
      have kept := extended.literalValue_eq (l := l) (by rw [missed l hl]; decide)
      exact kept.trans (missed l hl)
  | dontCare => exact absurd value decided

/-- What is true already holds in every valuation that keeps the fixed values. -/
theorem holds_of_evaluate (admits : a.Admits v) (value : c.evaluate a = .holds) :
    c.holds v = true := by
  obtain ⟨l, hl, met⟩ := evaluate_eq_holds_iff.1 value
  exact holds_iff.2 ⟨l, hl, admits.holds_of_literalValue met⟩

end Reading

end Clause

/-! ### Formulas -/

theorem Formula.isSatisfied_iff {f : Formula} {a : Assignment} :
    f.isSatisfied a = true ↔ ∀ c ∈ f.toList, c.evaluate a = .holds := by
  rw [isSatisfied, ← Array.all_toList, List.all_eq_true]
  simp only [Clause.isSatisfied, beq_iff_eq, toList]

/-- Of an assignment that is built literal by literal the last literal of each variable counts.

Under any assignment a clause is true if one of its literals is, false if all of them are, and open
otherwise; the order of the literals and their repetitions do not count. Extending the assignment
keeps every value of a clause that is not open. So a formula that is satisfied stays so, and every
valuation with the fixed values is a model of it. -/
theorem Clause.evaluate_faithful :
    (∀ (ls : List Literal) (l : Literal),
      ((ofLiterals ls).literalValue l = .holds ↔ lastOf? ls l.index = some l) ∧
      ((ofLiterals ls).literalValue l = .fails ↔ lastOf? ls l.index = some l.complement) ∧
      ((ofLiterals ls).literalValue l = .dontCare ↔ ∀ m ∈ ls, m.index ≠ l.index)) ∧
    ∀ a : Assignment,
      (∀ c : Clause,
        (c.evaluate a = .holds ↔ ∃ l ∈ c.literals, a.literalValue l = .holds) ∧
        (c.evaluate a = .fails ↔ ∀ l ∈ c.literals, a.literalValue l = .fails) ∧
        (c.evaluate a = .dontCare ↔ (∀ l ∈ c.literals, a.literalValue l ≠ .holds) ∧
          ∃ l ∈ c.literals, a.literalValue l = .dontCare) ∧
        ∀ d : Clause, (∀ l, l ∈ d.literals ↔ l ∈ c.literals) → d.evaluate a = c.evaluate a) ∧
      (∀ b : Assignment, a.ExtendedBy b →
        (∀ c : Clause, c.evaluate a ≠ .dontCare → c.evaluate b = c.evaluate a) ∧
        ∀ f : Formula, f.isSatisfied a = true → f.isSatisfied b = true) ∧
      ∀ v : Valuation, a.Admits v → ∀ f : Formula, f.isSatisfied a = true → v.Models f.toList := by
  refine ⟨fun ls l => ?_, fun a => ⟨fun c => ?_, fun b extended => ?_, fun v admits f met => ?_⟩⟩
  · exact ⟨literalValue_ofLiterals_eq_holds_iff, literalValue_ofLiterals_eq_fails_iff,
      literalValue_ofLiterals_eq_dontCare_iff⟩
  · exact ⟨evaluate_eq_holds_iff, evaluate_eq_fails_iff, evaluate_eq_dontCare_iff,
      fun d same => evaluate_congr same⟩
  · refine ⟨fun c decided => evaluate_of_extendedBy extended decided, fun f met => ?_⟩
    rw [Formula.isSatisfied_iff] at met ⊢
    intro c hc
    have value := met c hc
    rw [evaluate_of_extendedBy extended (by rw [value]; decide), value]
  · exact fun c hc => holds_of_evaluate admits (Formula.isSatisfied_iff.1 met c hc)

/-- The theorem for an assignment that sets a variable twice, for clauses with repeated and with
complementary literals, and for an extension by one more variable. -/
theorem Clause.evaluate_faithful_overridden :
    let set : List Literal := [⟨0, false⟩, ⟨1, true⟩, ⟨0, true⟩]
    let a := ofLiterals set
    let b := ofLiterals (set ++ [⟨2, false⟩])
    let c : Clause := ⟨[⟨2, false⟩, ⟨0, true⟩, ⟨2, true⟩, ⟨0, true⟩]⟩
    let f : Formula := .ofList [c, .unit ⟨1, true⟩]
    a.literalValue ⟨0, false⟩ = .fails ∧ c.evaluate a = .holds ∧
    (⟨[⟨0, true⟩, ⟨2, true⟩, ⟨2, false⟩]⟩ : Clause).evaluate a = .holds ∧
    (⟨[⟨2, false⟩, ⟨0, false⟩, ⟨2, true⟩]⟩ : Clause).evaluate a = .dontCare ∧
    a.ExtendedBy b ∧ (⟨[⟨0, false⟩, ⟨1, false⟩, ⟨0, false⟩]⟩ : Clause).evaluate b = .fails ∧
    f.isSatisfied b = true ∧ Valuation.Models (fun i => i == 2) f.toList := by
  intro set a b c f
  obtain ⟨values, clauses⟩ := Clause.evaluate_faithful
  obtain ⟨evaluated, kept, modelled⟩ := clauses a
  have missed (i : Nat) (last : lastOf? set i = some ⟨i, true⟩) :
      a.literalValue ⟨i, false⟩ = .fails := (values set ⟨i, false⟩).2.1.2 last
  have met (i : Nat) (last : lastOf? set i = some ⟨i, true⟩) :
      a.literalValue ⟨i, true⟩ = .holds := (values set ⟨i, true⟩).1.2 last
  have free (negated : Bool) : a.literalValue ⟨2, negated⟩ = .dontCare :=
    (values set ⟨2, negated⟩).2.2.2 (by simp [set])
  have holds : c.evaluate a = .holds := (evaluated c).1.2 ⟨⟨0, true⟩, by simp [c], met 0 rfl⟩
  have fails : (⟨[⟨0, false⟩, ⟨1, false⟩, ⟨0, false⟩]⟩ : Clause).evaluate a = .fails :=
    (evaluated _).2.1.2 (by simp [missed 0 rfl, missed 1 rfl])
  have satisfied : f.isSatisfied a = true := by
    refine Formula.isSatisfied_iff.2 fun d hd => ?_
    obtain rfl | rfl : d = c ∨ d = .unit ⟨1, true⟩ := by
      simpa [f, Formula.toList, Formula.ofList] using hd
    · exact holds
    · exact (evaluated _).1.2 ⟨⟨1, true⟩, by simp [unit], met 1 rfl⟩
  have extended : a.ExtendedBy b := extendedBy_ofLiterals_append (by simp [set])
  have admits : a.Admits (fun i => i == 2) := by
    rintro (_ | _ | i) fixed
    · rfl
    · rfl
    · exact absurd rfl fixed
  refine ⟨missed 0 rfl, holds, ?_, ?_, extended, ?_, (kept b extended).2 f satisfied,
    modelled _ admits f satisfied⟩
  · rw [← holds]
    refine (evaluated c).2.2.2 _ fun l => ?_
    simp only [c, List.mem_cons]
    tauto
  · exact (evaluated _).2.2.1.2 ⟨by simp [free, missed 0 rfl], ⟨2, false⟩, by simp, free false⟩
  · rw [(kept b extended).1 _ (by rw [fails]; decide), fails]

end CardinalityClauses
