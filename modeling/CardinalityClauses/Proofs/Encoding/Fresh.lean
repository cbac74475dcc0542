import CardinalityClauses.Valuation
import CardinalityClauses.VariableSupply

/-!
Fresh variables and what they leave alone.

What clauses say depends only on the variables in them. So the values of fresh variables can
be chosen without a thought for older clauses.
-/

namespace CardinalityClauses

/-! ### The variables in clauses -/

/-- All literals are over variables in `on`. -/
def LiteralsOver (on : Nat → Prop) (ls : List Literal) : Prop :=
  ∀ l ∈ ls, on l.index

/-- All literals of the clauses are over variables in `on`. -/
def ClausesOver (on : Nat → Prop) (cs : List Clause) : Prop :=
  ∀ c ∈ cs, LiteralsOver on c.literals

section Over

variable {on wide : Nat → Prop}

theorem LiteralsOver.mono {ls : List Literal} (about : LiteralsOver on ls)
    (le : ∀ i, on i → wide i) : LiteralsOver wide ls :=
  fun l hl => le _ (about l hl)

theorem ClausesOver.mono {cs : List Clause} (about : ClausesOver on cs)
    (le : ∀ i, on i → wide i) : ClausesOver wide cs :=
  fun c hc => (about c hc).mono le

/-- Variables below a limit are below a higher one. -/
theorem LiteralsOver.upTo {ls : List Literal} {low high : Nat} (about : LiteralsOver (· < low) ls)
    (le : low ≤ high) : LiteralsOver (· < high) ls :=
  about.mono fun _ lt => Nat.lt_of_lt_of_le lt le

theorem ClausesOver.upTo {cs : List Clause} {low high : Nat} (about : ClausesOver (· < low) cs)
    (le : low ≤ high) : ClausesOver (· < high) cs :=
  about.mono fun _ lt => Nat.lt_of_lt_of_le lt le

theorem literalsOver_append {ls ms : List Literal} :
    LiteralsOver on (ls ++ ms) ↔ LiteralsOver on ls ∧ LiteralsOver on ms :=
  List.forall_mem_append

theorem clausesOver_append {cs ds : List Clause} :
    ClausesOver on (cs ++ ds) ↔ ClausesOver on cs ∧ ClausesOver on ds :=
  List.forall_mem_append

/-- A complement is over the same variable. -/
theorem literalsOver_map_complement {ls : List Literal} :
    LiteralsOver on (ls.map Literal.complement) ↔ LiteralsOver on ls := by
  simp [LiteralsOver, Literal.complement]

theorem literalsOver_implication {premises : List Literal} {conclusion : Literal} :
    LiteralsOver on (Clause.implication premises conclusion).literals ↔
      LiteralsOver on premises ∧ on conclusion.index := by
  rw [Clause.implication, literalsOver_append, literalsOver_map_complement]
  simp [LiteralsOver]

end Over

/-- An implication with further literals at its end. -/
theorem Clause.holds_implication_append {premises others : List Literal} {conclusion : Literal}
    {v : Valuation} :
    ((implication premises conclusion).append others).holds v = true ↔
      ((∀ l ∈ premises, l.holds v = true) →
        conclusion.holds v = true ∨ ∃ l ∈ others, l.holds v = true) := by
  have split : ((implication premises conclusion).append others).holds v =
      ((implication premises conclusion).holds v || others.any fun l => l.holds v) := by
    simp [holds, append]
  rw [split, Bool.or_eq_true, holds_implication, List.any_eq_true]
  constructor
  · rintro (implied | other) premises
    · exact .inl (implied premises)
    · exact .inr other
  · intro implied
    by_cases all : ∀ l ∈ premises, l.holds v = true
    · exact (implied all).imp_left fun holds _ => holds
    · exact .inl fun premises => absurd premises all

namespace Valuation

/-! ### Valuations that agree -/

section Agree

variable {on : Nat → Prop} {v w : Valuation}

theorem Agree.mono {narrow : Nat → Prop} (agree : Agree on v w) (le : ∀ i, narrow i → on i) :
    Agree narrow v w :=
  fun i hi => agree i (le i hi)

theorem Agree.trueCount_eq (agree : Agree on v w) {ls : List Literal}
    (about : LiteralsOver on ls) : v.trueCount ls = w.trueCount ls :=
  List.countP_congr fun l hl => by rw [agree.holds_eq (about l hl)]

theorem Agree.models (agree : Agree on v w) {cs : List Clause} (about : ClausesOver on cs)
    (models : v.Models cs) : w.Models cs := by
  intro c hc
  obtain ⟨l, hl, holds⟩ := Clause.holds_iff.1 (models c hc)
  exact Clause.holds_iff.2 ⟨l, hl, by rw [← agree.holds_eq (about c hc l hl), holds]⟩

theorem Agree.downTo {low high : Nat} (agree : Agree (· < high) v w) (le : low ≤ high) :
    Agree (· < low) v w :=
  agree.mono fun _ lt => Nat.lt_of_lt_of_le lt le

/-- Two valuations differ at most on the variables from `first` up to `last`. -/
def AgreeOutside (first last : Nat) (v w : Valuation) : Prop :=
  Agree (fun i => i < first ∨ last ≤ i) v w

variable {first last : Nat}

theorem AgreeOutside.mono (agree : AgreeOutside first last v w) {lower higher : Nat}
    (le : lower ≤ first) (ge : last ≤ higher) : AgreeOutside lower higher v w :=
  Agree.mono agree fun _ hi => by omega

theorem AgreeOutside.trans {u : Valuation} (first' : AgreeOutside first last u v)
    (second : AgreeOutside first last v w) : AgreeOutside first last u w :=
  Agree.trans first' second

theorem AgreeOutside.below (agree : AgreeOutside first last v w) : Agree (· < first) v w :=
  Agree.mono agree fun _ hi => .inl hi

end Agree

end Valuation

/-! ### Blocks of fresh variables -/

namespace VariableSupply

section Block

variable {start n : Nat}

@[simp]
theorem length_block (start n : Nat) : (block start n).length = n := by
  simp [block]

/-- As long as literals can carry them, the variables of a block are those from `start` on. -/
theorem getElem?_block (room : start + n ≤ Variable.maxIndex + 1) {k : Nat} (inside : k < n) :
    (block start n)[k]? = some ⟨start + k, false⟩ := by
  have low : (start + k) % 2147483648 = start + k :=
    Nat.mod_eq_of_lt (by simp only [Variable.maxIndex] at room; omega)
  simp [block, inside, Variable.positive, Literal.truncated, low]

theorem literalsOver_block (room : start + n ≤ Variable.maxIndex + 1) :
    LiteralsOver (fun i => start ≤ i ∧ i < start + n) (block start n) := by
  intro l hl
  obtain ⟨k, inside, eq⟩ := List.mem_iff_getElem.1 hl
  rw [length_block] at inside
  have found := getElem?_block room inside
  rw [List.getElem?_eq_getElem (by simpa using inside), eq] at found
  cases found
  exact ⟨Nat.le_add_right _ _, Nat.add_lt_add_left inside _⟩

/-- The variables of a block can be given any values. -/
theorem exists_agreeOutside_block (room : start + n ≤ Variable.maxIndex + 1) (v : Valuation)
    (values : Nat → Bool) :
    ∃ w, v.AgreeOutside start (start + n) w ∧
      ∀ k l, (block start n)[k]? = some l → l.holds w = values k := by
  refine ⟨fun i => if start ≤ i ∧ i < start + n then values (i - start) else v i, ?_, ?_⟩
  · intro i hi
    have outside : ¬(start ≤ i ∧ i < start + n) := by omega
    exact (if_neg outside).symm
  · intro k l found
    have inside : k < n := by
      have := (List.getElem?_eq_some_iff.1 found).1
      rwa [length_block] at this
    rw [getElem?_block room inside] at found
    cases found
    simp [Literal.holds, inside]

/-- A supply that does not leave the indices of literals hands out every block. -/
theorem takeLiterals_of_room {s : VariableSupply} (room : s.next + n ≤ Variable.maxIndex + 1) :
    s.takeLiterals n = (.ok (block s.next n), ⟨s.next + n⟩) := by
  simp only [Variable.maxIndex] at room
  have short : ¬longestBlock < n := by simp only [longestBlock]; omega
  have within : s.next + n ≤ last := by simp only [last, indexRange]; omega
  simp [takeLiterals, short, within]

end Block

end VariableSupply

end CardinalityClauses
