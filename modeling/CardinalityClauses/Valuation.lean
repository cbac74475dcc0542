import CardinalityClauses.Constraint

/-!
Valuations: what clauses and constraints mean.

A valuation gives every variable a value. It satisfies a clause if it makes one of the
literals true, and it is a model of clauses if it satisfies all of them. An encoding adds
clauses over variables of its own. What these say about the other variables is which values
of theirs extend to a model.
-/

namespace CardinalityClauses

/-- A value for the variable of every index. -/
abbrev Valuation := Nat → Bool

/-! ### Literals -/

@[simp]
theorem Literal.complement_complement (l : Literal) : l.complement.complement = l := by
  simp [complement]

/-- Whether a valuation makes a literal true. -/
def Literal.holds (l : Literal) (v : Valuation) : Bool :=
  v l.index != l.negated

@[simp]
theorem Literal.holds_complement (l : Literal) (v : Valuation) :
    l.complement.holds v = !l.holds v := by
  cases hv : v l.index <;> cases hn : l.negated <;> simp [holds, complement, hv, hn]

/-- How many of the literals a valuation makes true; a literal listed twice counts twice. -/
def Valuation.trueCount (v : Valuation) (ls : List Literal) : Nat :=
  ls.countP fun l => l.holds v

theorem Valuation.trueCount_append (v : Valuation) (ls ms : List Literal) :
    v.trueCount (ls ++ ms) = v.trueCount ls + v.trueCount ms :=
  List.countP_append

theorem Valuation.trueCount_le_length (v : Valuation) (ls : List Literal) :
    v.trueCount ls ≤ ls.length :=
  List.countP_le_length

/-- Of every literal and its complement exactly one is true. -/
theorem Valuation.trueCount_add_trueCount_complement (v : Valuation) (ls : List Literal) :
    v.trueCount ls + v.trueCount (ls.map Literal.complement) = ls.length := by
  induction ls with
  | nil => rfl
  | cons l ls ih =>
      cases h : l.holds v <;> simp_all [trueCount] <;> omega

/-! ### Clauses -/

/-- Whether a valuation satisfies a clause. -/
def Clause.holds (c : Clause) (v : Valuation) : Bool :=
  c.literals.any fun l => l.holds v

theorem Clause.holds_iff {c : Clause} {v : Valuation} :
    c.holds v = true ↔ ∃ l ∈ c.literals, l.holds v = true :=
  List.any_eq_true

@[simp]
theorem Clause.holds_unit (l : Literal) (v : Valuation) : (unit l).holds v = l.holds v := by
  simp [holds, unit]

/-- An implication holds if its conclusion does wherever all its premises do. -/
theorem Clause.holds_implication {premises : List Literal} {conclusion : Literal}
    {v : Valuation} :
    (implication premises conclusion).holds v = true ↔
      ((∀ l ∈ premises, l.holds v = true) → conclusion.holds v = true) := by
  induction premises with
  | nil => simp [implication, holds]
  | cons l premises ih =>
      cases h : l.holds v <;> simp_all [implication, holds]

namespace Valuation

/-- Whether a valuation satisfies all of the clauses. -/
def Models (v : Valuation) (cs : List Clause) : Prop :=
  ∀ c ∈ cs, c.holds v = true

theorem models_nil (v : Valuation) : v.Models [] := by
  simp [Models]

theorem models_append {v : Valuation} {cs ds : List Clause} :
    v.Models (cs ++ ds) ↔ v.Models cs ∧ v.Models ds :=
  List.forall_mem_append

/-- Fewer clauses have more models. -/
theorem Models.of_subset {v : Valuation} {cs ds : List Clause} (h : v.Models ds)
    (subset : cs ⊆ ds) : v.Models cs :=
  fun c hc => h c (subset hc)

/-! ### Extending values of some variables to a model -/

/-- Two valuations have the same values for the variables in `on`. -/
def Agree (on : Nat → Prop) (v w : Valuation) : Prop :=
  ∀ i, on i → v i = w i

theorem Agree.refl (on : Nat → Prop) (v : Valuation) : Agree on v v :=
  fun _ _ => rfl

theorem Agree.symm {on : Nat → Prop} {v w : Valuation} (h : Agree on v w) : Agree on w v :=
  fun i hi => (h i hi).symm

theorem Agree.trans {on : Nat → Prop} {u v w : Valuation} (h : Agree on u v)
    (k : Agree on v w) : Agree on u w :=
  fun i hi => (h i hi).trans (k i hi)

theorem Agree.holds_eq {on : Nat → Prop} {v w : Valuation} (h : Agree on v w) {l : Literal}
    (hl : on l.index) : l.holds v = l.holds w := by
  simp [Literal.holds, h l.index hl]

/-- The values of the variables in `on` extend to a model. -/
def Extends (on : Nat → Prop) (v : Valuation) (cs : List Clause) : Prop :=
  ∃ w, Agree on v w ∧ Models w cs

/-- A model extends itself. -/
theorem Models.extends {v : Valuation} {cs : List Clause} (h : v.Models cs)
    (on : Nat → Prop) : v.Extends on cs :=
  ⟨v, .refl on v, h⟩

end Valuation

/-- Whether a valuation satisfies a constraint. -/
def Constraint.holds (c : Constraint) (v : Valuation) : Bool :=
  match c.direction with
  | .atMost => v.trueCount c.literals ≤ c.bound
  | .atLeast => c.bound ≤ v.trueCount c.literals

end CardinalityClauses
