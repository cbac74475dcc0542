import CardinalityClauses.Assignment
import CardinalityClauses.Valuation
import Mathlib.Data.List.Induction

/-!
Partial assignments that are built literal by literal.

Such an assignment gives every variable the sign of the last of its literals and fixes no other
variable. An assignment extends another one if it keeps all values that the other one fixes. The
largest extensions are valuations.
-/

namespace CardinalityClauses.Assignment

/-! ### The values of one literal after the other -/

section Values

variable {a : Assignment} {ls ms : List Literal} {l : Literal} {u v : Variable} {t : Ternary}
  {index : Nat}

/-- Filling up fixes nothing. -/
theorem getD_padded (a : Assignment) (n i : Nat) :
    (a.padded n)[i]?.getD .dontCare = a.values[i]?.getD .dontCare := by
  unfold padded
  rcases Nat.lt_or_ge i a.values.length with inside | beyond
  · rw [List.getElem?_append_left inside]
  · rw [List.getElem?_append_right beyond, List.getElem?_eq_none beyond, List.getElem?_replicate]
    split <;> rfl

@[simp]
theorem variableValue_assignVariable_self : (a.assignVariable v t).variableValue v = t := by
  have inside : v.index < (a.padded (v.index + 1)).length := by
    simp only [padded, List.length_append, List.length_replicate]
    omega
  simp [variableValue, assignVariable, List.getElem?_set_self inside]

theorem variableValue_assignVariable_of_ne (ne : u.index ≠ v.index) :
    (a.assignVariable u t).variableValue v = a.variableValue v := by
  simp only [variableValue, assignVariable, List.getElem?_set_ne ne, getD_padded]

theorem literalValue_complement (a : Assignment) (l : Literal) :
    a.literalValue l.complement = (a.literalValue l).complement := by
  obtain ⟨i, negated⟩ := l
  cases negated <;>
    simp [literalValue, Literal.complement, Literal.var, Ternary.complement_complement]

/-- The last of the literals of a variable. -/
def lastOf? (ls : List Literal) (index : Nat) : Option Literal :=
  (ls.filter fun l => l.index == index).getLast?

theorem lastOf?_append : lastOf? (ls ++ ms) index = (lastOf? ms index).or (lastOf? ls index) := by
  rw [lastOf?, List.filter_append, List.getLast?_append]
  rfl

theorem lastOf?_eq_none_iff : lastOf? ls index = none ↔ ∀ l ∈ ls, l.index ≠ index := by
  simp [lastOf?]

theorem index_of_lastOf? (found : lastOf? ls index = some l) : l.index = index := by
  have mem := List.mem_of_getLast? found
  simpa using (List.mem_filter.1 mem).2

/-- The last literal of a variable gives it its value. -/
theorem variableValue_ofLiterals (ls : List Literal) (v : Variable) :
    (ofLiterals ls).variableValue v =
      .ofBool? ((lastOf? ls v.index).map fun l => !l.negated) := by
  -- The assignment grows at the end of the list.
  induction ls using List.reverseRecOn with
  | nil => rfl
  | append_singleton ls m ih =>
      have assigned : ofLiterals (ls ++ [m]) = (ofLiterals ls).assignLiteral m :=
        List.foldl_append
      rw [assigned, assignLiteral, lastOf?_append]
      by_cases same : m.index = v.index
      · have var : m.var = v := by rw [Literal.var, same]
        have last : lastOf? [m] v.index = some m := by simp [lastOf?, same]
        rw [var, variableValue_assignVariable_self, last]
        rfl
      · have absent : lastOf? [m] v.index = none := by simp [lastOf?, same]
        rw [variableValue_assignVariable_of_ne same, ih, absent, Option.none_or]

/-- A literal is true if it is the last one of its variable. -/
theorem literalValue_ofLiterals_eq_holds_iff :
    (ofLiterals ls).literalValue l = .holds ↔ lastOf? ls l.index = some l := by
  rw [literalValue, variableValue_ofLiterals]
  obtain ⟨i, negated⟩ := l
  cases found : lastOf? ls i with
  | none => cases negated <;> simp [Literal.var, found, Ternary.ofBool?, Ternary.complement]
  | some m =>
      obtain rfl := index_of_lastOf? found
      obtain ⟨j, sign⟩ := m
      cases negated <;> cases sign <;>
        simp_all [Literal.var, Ternary.ofBool?, Ternary.ofBool, Ternary.complement]

/-- A literal is false if its complement is the last one of its variable. -/
theorem literalValue_ofLiterals_eq_fails_iff :
    (ofLiterals ls).literalValue l = .fails ↔ lastOf? ls l.index = some l.complement := by
  have other : (ofLiterals ls).literalValue l = .fails ↔
      (ofLiterals ls).literalValue l.complement = .holds := by
    rw [literalValue_complement]
    cases (ofLiterals ls).literalValue l <;> simp [Ternary.complement]
  rw [other, literalValue_ofLiterals_eq_holds_iff]
  rfl

/-- A literal is not fixed if there is no literal of its variable. -/
theorem literalValue_ofLiterals_eq_dontCare_iff :
    (ofLiterals ls).literalValue l = .dontCare ↔ ∀ m ∈ ls, m.index ≠ l.index := by
  rw [← lastOf?_eq_none_iff, literalValue, variableValue_ofLiterals]
  show _ ↔ lastOf? ls l.var.index = none
  cases lastOf? ls l.var.index with
  | none => cases l.negated <;> simp [Ternary.ofBool?, Ternary.complement]
  | some m =>
      obtain ⟨j, sign⟩ := m
      cases l.negated <;> cases sign <;>
        simp [Ternary.ofBool?, Ternary.ofBool, Ternary.complement]

end Values

/-! ### Extensions -/

section Extensions

variable {a b : Assignment} {ls ms : List Literal} {l : Literal} {v : Valuation}

/-- The second assignment has all values that the first one fixes; what the first one leaves open
may have any value. -/
def ExtendedBy (a b : Assignment) : Prop :=
  ∀ v, a.variableValue v ≠ .dontCare → b.variableValue v = a.variableValue v

theorem ExtendedBy.literalValue_eq (extended : a.ExtendedBy b)
    (fixed : a.literalValue l ≠ .dontCare) : b.literalValue l = a.literalValue l := by
  have listed : a.variableValue l.var ≠ .dontCare := by
    intro free
    apply fixed
    rw [literalValue, free]
    cases l.negated <;> rfl
  rw [literalValue, literalValue, extended l.var listed]

/-- Further literals of variables that are not fixed extend an assignment. -/
theorem extendedBy_ofLiterals_append (free : ∀ m ∈ ms, ∀ l ∈ ls, l.index ≠ m.index) :
    (ofLiterals ls).ExtendedBy (ofLiterals (ls ++ ms)) := by
  intro v fixed
  rw [variableValue_ofLiterals] at fixed
  rw [variableValue_ofLiterals, variableValue_ofLiterals, lastOf?_append]
  cases found : lastOf? ms v.index with
  | none => rfl
  | some m =>
      have mem := List.mem_filter.1 (List.mem_of_getLast? found)
      have index := index_of_lastOf? found
      have absent : lastOf? ls v.index = none :=
        lastOf?_eq_none_iff.2 fun l hl => index ▸ free m mem.1 l hl
      simp [absent, Ternary.ofBool?] at fixed

/-- A valuation has all values that an assignment fixes. -/
def Admits (a : Assignment) (v : Valuation) : Prop :=
  ∀ i, a.variableValue ⟨i⟩ ≠ .dontCare → a.variableValue ⟨i⟩ = .ofBool (v i)

theorem Admits.holds_of_literalValue (admits : a.Admits v) (value : a.literalValue l = .holds) :
    l.holds v = true := by
  obtain ⟨i, negated⟩ := l
  have kept := admits i
  cases negated <;> cases a_i : a.variableValue ⟨i⟩ <;> cases v_i : v i <;>
    simp_all [literalValue, Literal.var, Literal.holds, Ternary.ofBool, Ternary.complement]

end Extensions

end CardinalityClauses.Assignment
