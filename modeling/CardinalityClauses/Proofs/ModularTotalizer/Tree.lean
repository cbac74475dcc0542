import CardinalityClauses.Proofs.ModularTotalizer.Adder

/-!
What the clauses of a whole tree say.

Every node keeps one invariant: the number that its parts reach together, an upper literal
counting for the modulus, is no less than the number of true inputs below it, unless it is
beyond every bound (`ReachesParts`). In the other direction, parts that count right satisfy the
clauses of all nodes.
-/

namespace CardinalityClauses.ModularTotalizer

open Unary

/-- The parts reach numbers that come to the count together, or to `limit`. -/
def ReachesParts (v : Valuation) (modulus limit : Nat) (upper lower : List Literal)
    (count : Nat) : Prop :=
  ∃ u ≤ upper.length, ∃ l ≤ lower.length, Reaches v upper u ∧ Reaches v lower l ∧
    min count limit ≤ u * modulus + l

/-- The parts say how many multiples of the modulus there are in a count and what is left
over. -/
structure CountsParts (v : Valuation) (modulus : Nat) (upper lower : List Literal)
    (count : Nat) : Prop where
  upper : Counts v upper (count / modulus)
  lower : Counts v lower (count % modulus)

theorem CountsParts.of_agree {v w : Valuation} {modulus count : Nat} {upper lower : List Literal}
    {on : Nat → Prop} (counts : CountsParts v modulus upper lower count)
    (agree : Valuation.Agree on v w) (overUpper : LiteralsOver on upper)
    (overLower : LiteralsOver on lower) : CountsParts w modulus upper lower count :=
  ⟨counts.upper.of_agree agree overUpper, counts.lower.of_agree agree overLower⟩

namespace Tree

/-- The inputs from left to right. -/
def inputs : Tree → List Literal
  | leaf input => [input]
  | node _ _ _ left right => left.inputs ++ right.inputs

/-- The clauses of the adder of a node. -/
def adderClauses (modulus maxBound : Nat) (left right : Tree) (upper lower : List Literal)
    (carry : Option Literal) : List Clause :=
  (adder modulus maxBound left right upper lower carry).flatMap Batch.clauses

/-- The clauses of all adders, parents first. -/
def clauses (modulus maxBound : Nat) : Tree → List Clause
  | leaf _ => []
  | node upper lower carry left right =>
      adderClauses modulus maxBound left right upper lower carry ++
        (left.clauses modulus maxBound ++ right.clauses modulus maxBound)

/-- The parts of a node fit the numbers of inputs below its children. -/
structure Fits (modulus : Nat) (upper lower : List Literal) (carry : Option Literal)
    (left right : Tree) : Prop where
  length_upper : upper.length = (left.inputs.length + right.inputs.length) / modulus
  le_lower : min (left.inputs.length + right.inputs.length) (modulus - 1) ≤ lower.length
  lower_lt : lower.length < modulus
  carry_iff : carry = none ↔ upper = []
  left_le : left.lower.length ≤ left.inputs.length
  right_le : right.lower.length ≤ right.inputs.length

/-- The parts of all nodes fit. -/
def Sized (modulus : Nat) : Tree → Prop
  | leaf _ => True
  | node upper lower carry left right =>
      Fits modulus upper lower carry left right ∧ left.Sized modulus ∧ right.Sized modulus

section Sized

variable {modulus maxBound : Nat} {tree left right : Tree} {upper lower : List Literal}
  {carry : Option Literal}

theorem Sized.length_upper (two : 2 ≤ modulus) (sized : tree.Sized modulus) :
    tree.upper.length = tree.inputs.length / modulus := by
  cases tree with
  | leaf input => exact (Nat.div_eq_of_lt two).symm
  | node upper lower carry left right =>
      rw [inputs, List.length_append]
      exact sized.1.length_upper

theorem Sized.length_lower (two : 2 ≤ modulus) (sized : tree.Sized modulus) :
    min tree.inputs.length (modulus - 1) ≤ tree.lower.length ∧ tree.lower.length < modulus := by
  cases tree with
  | leaf input => exact ⟨Nat.min_le_left _ _, two⟩
  | node upper lower carry left right =>
      rw [inputs, List.length_append]
      exact ⟨sized.1.le_lower, sized.1.lower_lt⟩

theorem Sized.lowerSized (two : 2 ≤ modulus)
    (sized : (node upper lower carry left right).Sized modulus) :
    LowerSized modulus left.lower right.lower lower carry := by
  obtain ⟨fits, sizedLeft, sizedRight⟩ := sized
  refine
    { two_le := two
      left_lt := (sizedLeft.length_lower two).2
      right_lt := (sizedRight.length_lower two).2
      wide := ?_
      carries := ?_ }
  · have := fits.left_le
    have := fits.right_le
    have := fits.le_lower
    omega
  · intro overflow
    apply Option.ne_none_iff_exists'.1
    intro none
    have empty := fits.length_upper
    rw [fits.carry_iff.1 none, List.length_nil, eq_comm, Nat.div_eq_zero_iff] at empty
    have := fits.left_le
    have := fits.right_le
    omega

/-- A node has upper literals for all of those of its children. -/
theorem Sized.upper_wide (two : 2 ≤ modulus)
    (sized : (node upper lower carry left right).Sized modulus) :
    left.upper.length + right.upper.length ≤ upper.length := by
  obtain ⟨fits, sizedLeft, sizedRight⟩ := sized
  rw [fits.length_upper, sizedLeft.length_upper two, sizedRight.length_upper two]
  exact Nat.div_add_div_le_add_div

theorem mem_adderClauses {c : Clause} :
    c ∈ adderClauses modulus maxBound left right upper lower carry ↔
      c ∈ (lowerAdder modulus maxBound left.lower right.lower lower carry).clauses ∨
        ∃ k, carry = some k ∧
          c ∈ (upperAdder modulus maxBound left.upper right.upper upper k).clauses := by
  cases carry <;> simp [adderClauses, adder]

theorem models_adderClauses {v : Valuation} :
    v.Models (adderClauses modulus maxBound left right upper lower carry) ↔
      v.Models (lowerAdder modulus maxBound left.lower right.lower lower carry).clauses ∧
        ∀ k, carry = some k →
          v.Models (upperAdder modulus maxBound left.upper right.upper upper k).clauses := by
  simp only [Valuation.Models, mem_adderClauses]
  constructor
  · exact fun all => ⟨fun c hc => all c (.inl hc), fun k set c hc => all c (.inr ⟨k, set, hc⟩)⟩
  · rintro ⟨low, up⟩ c (hc | ⟨k, set, hc⟩)
    · exact low c hc
    · exact up k set c hc

/-- A node with a carry has an upper part. -/
theorem Sized.parts (sized : (node upper lower carry left right).Sized modulus) {k : Literal}
    (set : carry = some k) : 0 < upper.length := by
  apply List.length_pos_iff.2
  intro empty
  simp [sized.1.carry_iff.2 empty] at set

theorem Sized.complete (two : 2 ≤ modulus) (sized : tree.Sized modulus) (position start : Nat) :
    ∀ p ∈ tree.pieces modulus maxBound position start, p.Complete := by
  induction tree generalizing position start with
  | leaf input => simp [pieces]
  | node upper lower carry left right ihLeft ihRight =>
      simp only [pieces, List.forall_mem_cons, List.forall_mem_append]
      refine ⟨by simp [Piece.Complete], ?_, ihLeft sized.2.1 _ _, ihRight sized.2.2 _ _⟩
      intro b hb
      rcases List.mem_cons.1 hb with rfl | hb
      · exact (sized.lowerSized two).stop
      · cases carry with
        | none => simp at hb
        | some k =>
            rw [List.mem_singleton.1 hb]
            rfl

theorem plannedClauses_pieces (tree : Tree) (position start : Nat) :
    plannedClauses (tree.pieces modulus maxBound position start) =
      tree.clauses modulus maxBound := by
  induction tree generalizing position start with
  | leaf input => rfl
  | node upper lower carry left right ihLeft ihRight =>
      simp only [pieces, plannedClauses_cons, plannedClauses_append, ihLeft, ihRight, clauses]
      rfl

/-! ### No violation is lost -/

section Sound

variable {v : Valuation} {u u' l l' : Nat}

/-- What the lower part of a node reaches, by what those of its children reach. -/
theorem Sized.exists_reaches_lower (two : 2 ≤ modulus)
    (sized : (node upper lower carry left right).Sized modulus)
    (models : v.Models (lowerAdder modulus maxBound left.lower right.lower lower carry).clauses)
    (insideLeft : l ≤ left.lower.length) (insideRight : l' ≤ right.lower.length)
    (reachesLeft : Reaches v left.lower l) (reachesRight : Reaches v right.lower l') :
    ∃ n ≤ lower.length, Reaches v lower n ∧
      ((∃ k, carry = some k ∧ k.holds v = true) ∧ (l + l' ≤ n + modulus ∨ maxBound < modulus) ∨
        (∀ k, carry = some k → k.holds v = false) ∧ (l + l' ≤ n ∨ maxBound < n)) := by
  have parts := sized.lowerSized two
  have wide := parts.wide
  have leftLt := parts.left_lt
  have rightLt := parts.right_lt
  by_cases unset : ∀ k, carry = some k → k.holds v = false
  · by_cases matters : modulus ≤ maxBound + 2
    · have lt := parts.lt_of_not_carry models insideLeft insideRight reachesLeft reachesRight
        unset matters
      refine ⟨l + l', by omega, ?_, .inr ⟨unset, .inl (Nat.le_refl _)⟩⟩
      exact parts.reaches_of_not_carry models insideLeft insideRight reachesLeft reachesRight
        unset (Nat.le_refl _) lt (.inr matters)
    · refine ⟨min (l + l') (maxBound + 2), by omega, ?_, .inr ⟨unset, by omega⟩⟩
      exact parts.reaches_of_not_carry models insideLeft insideRight reachesLeft reachesRight
        unset (Nat.min_le_left _ _) (by omega) (.inl (Nat.min_le_right _ _))
  · have set : ∃ k, carry = some k ∧ k.holds v = true := by
      simpa using unset
    by_cases matters : modulus ≤ maxBound + 2
    · refine ⟨l + l' - modulus, by omega, ?_, .inl ⟨set, .inl (by omega)⟩⟩
      exact parts.reaches_overflow models insideLeft insideRight reachesLeft reachesRight matters
    · exact ⟨0, Nat.zero_le _, fun k m _ lt => absurd lt (Nat.not_lt_zero k),
        .inl ⟨set, .inr (by omega)⟩⟩

/-- What the upper part of a node reaches, by what those of its children reach. -/
theorem Sized.exists_reaches_upper (two : 2 ≤ modulus)
    (sized : (node upper lower carry left right).Sized modulus)
    (models : ∀ k, carry = some k →
      v.Models (upperAdder modulus maxBound left.upper right.upper upper k).clauses)
    (insideLeft : u ≤ left.upper.length) (insideRight : u' ≤ right.upper.length)
    (reachesLeft : Reaches v left.upper u) (reachesRight : Reaches v right.upper u') :
    ∃ n ≤ upper.length, Reaches v upper n ∧ (maxBound < n * modulus ∨ u + u' ≤ n ∧
      ((∃ k, carry = some k ∧ k.holds v = true) → u + u' + 1 ≤ n)) := by
  have wide := sized.upper_wide two
  cases carry with
  | none =>
      have empty : upper = [] := sized.1.carry_iff.1 rfl
      subst empty
      rw [List.length_nil] at wide
      refine ⟨0, Nat.zero_le _, fun k m found => by simp at found, .inr ⟨by omega, ?_⟩⟩
      rintro ⟨k, none, -⟩
      cases none
  | some k =>
      have parts := sized.parts rfl
      have models := models k rfl
      by_cases limit : u + u' ≤ ceilDiv (maxBound + 1) modulus
      · cases set : k.holds v with
        | true =>
            obtain ⟨inside, reaches⟩ := reaches_succ_upperAdder parts models insideLeft
              insideRight reachesLeft reachesRight set (Nat.le_refl _) limit
            exact ⟨u + u' + 1, inside, reaches, .inr ⟨Nat.le_succ _, fun _ => Nat.le_refl _⟩⟩
        | false =>
            refine ⟨u + u', by omega, ?_, .inr ⟨Nat.le_refl _, ?_⟩⟩
            · exact reaches_upperAdder parts models insideLeft insideRight reachesLeft
                reachesRight (Nat.le_refl _) limit
            · rintro ⟨_, same, holds⟩
              cases same
              simp [set] at holds
      · -- The multiple of the modulus beyond every bound is reached.
        refine ⟨ceilDiv (maxBound + 1) modulus, by omega, ?_,
          .inl (le_ceilDiv_mul (by omega : 0 < modulus))⟩
        exact reaches_upperAdder parts models insideLeft insideRight reachesLeft reachesRight
          (by omega) (Nat.le_refl _)

/-- The parts of every node reach the number of true inputs below it. -/
theorem Sized.reachesParts (two : 2 ≤ modulus) (sized : tree.Sized modulus)
    (models : v.Models (tree.clauses modulus maxBound)) :
    ReachesParts v modulus (maxBound + 1) tree.upper tree.lower (v.trueCount tree.inputs) := by
  induction tree with
  | leaf input =>
      refine ⟨0, Nat.le_refl _, v.trueCount [input], v.trueCount_le_length _, ?_,
        (counts_singleton v input).reaches, ?_⟩
      · exact fun k m _ lt => absurd lt (Nat.not_lt_zero k)
      · rw [inputs]
        omega
  | node upper lower carry left right ihLeft ihRight =>
      rw [clauses, Valuation.models_append, Valuation.models_append, models_adderClauses] at models
      obtain ⟨⟨low, up⟩, modelsLeft, modelsRight⟩ := models
      obtain ⟨u, hu, l, hl, reachesU, reachesL, boundLeft⟩ := ihLeft sized.2.1 modelsLeft
      obtain ⟨u', hu', l', hl', reachesU', reachesL', boundRight⟩ := ihRight sized.2.2 modelsRight
      obtain ⟨n, hn, reachesN, lowSum⟩ :=
        sized.exists_reaches_lower two low hl hl' reachesL reachesL'
      obtain ⟨m, hm, reachesM, upSum⟩ :=
        sized.exists_reaches_upper two up hu hu' reachesU reachesU'
      refine ⟨m, hm, n, hn, reachesM, reachesN, ?_⟩
      rw [inputs, Valuation.trueCount_append]
      obtain beyond | ⟨plain, carried⟩ := upSum
      · omega
      have plain := Nat.mul_le_mul_right modulus plain
      rw [Nat.add_mul] at plain
      obtain ⟨set, overflow⟩ | ⟨-, stays⟩ := lowSum
      · have carried := Nat.mul_le_mul_right modulus (carried set)
        rw [Nat.add_mul, Nat.add_mul, Nat.one_mul] at carried
        omega
      · omega

end Sound

/-! ### Nothing more is asked for -/

/-- Parts that count right satisfy the clauses of a node. -/
theorem Sized.models_adderClauses_of_counts {v : Valuation} (two : 2 ≤ modulus)
    (sized : (node upper lower carry left right).Sized modulus)
    (countsLeft : CountsParts v modulus left.upper left.lower (v.trueCount left.inputs))
    (countsRight : CountsParts v modulus right.upper right.lower (v.trueCount right.inputs))
    (counts : CountsParts v modulus upper lower
      (v.trueCount left.inputs + v.trueCount right.inputs))
    (carrySet : ∀ k, carry = some k → k.holds v =
      decide (modulus ≤ v.trueCount left.inputs % modulus + v.trueCount right.inputs % modulus)) :
    v.Models (adderClauses modulus maxBound left right upper lower carry) := by
  have few := Nat.add_le_add (v.trueCount_le_length left.inputs)
    (v.trueCount_le_length right.inputs)
  have enough := sized.1.length_upper
  generalize v.trueCount left.inputs = l at *
  generalize v.trueCount right.inputs = r at *
  have positive : 0 < modulus := by omega
  have restLeft := Nat.mod_lt l positive
  have restRight := Nat.mod_lt r positive
  refine models_adderClauses.2 ⟨?_, fun k set => ?_⟩
  · refine (sized.lowerSized two).models_lowerAdder countsLeft.lower countsRight.lower ?_ carrySet
      ?_ (by omega)
    · rw [← Nat.add_mod]
      exact counts.lower
    · intro none
      have empty := enough
      rw [sized.1.carry_iff.1 none, List.length_nil, eq_comm, Nat.div_eq_zero_iff] at empty
      have := Nat.mod_le l modulus
      have := Nat.mod_le r modulus
      omega
  · have quotient : l / modulus + r / modulus + (k.holds v).toNat = (l + r) / modulus := by
      rw [Nat.add_div positive, carrySet k set]
      by_cases overflow : modulus ≤ l % modulus + r % modulus <;> simp [overflow]
    refine models_upperAdder (sized.parts set) countsLeft.upper countsRight.upper ?_ ?_
    · rw [quotient]
      exact counts.upper
    · rw [quotient, enough]
      exact Nat.div_le_div_right few

end Sized

end Tree

end CardinalityClauses.ModularTotalizer
