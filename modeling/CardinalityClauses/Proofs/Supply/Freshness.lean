import Mathlib.Data.List.Nodup
import Mathlib.Order.Interval.Set.Basic
import Mathlib.Order.MinMax
import CardinalityClauses.Proofs.Encoding.Fresh

/-!
How far fresh variables are fresh.

A run of requests to a supply is followed together with a record of the variables it has
given away: those it handed out, those marked as used, and without those taken back. The
record is kept from the answers alone and never looks at the counter.

The counter stays above the record, so a variable is never handed out twice
(`Reached.untaken_of_takeVariable`). Literals are
different: they carry an index up to `Variable.maxIndex` only, and the counter goes on for
as long again. What it hands out there are literals of variables that are taken already.
The main statement (`Reached.fresh_iff_room`) draws the line: literals are fresh exactly
if the counter, after the request, has not gone past the indices of literals, and up to
there no request is turned down. `exists_taken_literal` is a run of two requests that
leads across.
-/

namespace CardinalityClauses

namespace VariableSupply

/-! ### Runs and their record -/

/-- The supplies that a run of requests can lead to, each with the variables that are taken
there. All variables in the requests are such that a literal can carry them. -/
inductive Reached : VariableSupply → Set Nat → Prop
  | initial : Reached initial ∅
  | startingAt {v : Variable} (carried : v.index ≤ Variable.maxIndex) :
      Reached (startingAt v) (Set.Iio v.index)
  | takeVariable {s t : VariableSupply} {taken : Set Nat} {v : Variable} (before : Reached s taken)
      (given : s.takeVariable = (.ok v, t)) : Reached t (insert v.index taken)
  | takeLiteral {s t : VariableSupply} {taken : Set Nat} {l : Literal} (before : Reached s taken)
      (given : s.takeLiteral = (.ok l, t)) : Reached t (insert l.index taken)
  | takeLiterals {s t : VariableSupply} {taken : Set Nat} {n : Nat} {ls : List Literal}
      (before : Reached s taken) (given : s.takeLiterals n = (.ok ls, t)) :
      Reached t (taken ∪ {i | ∃ l ∈ ls, l.index = i})
  /-- A list that breaks off has used up the variables of its first part. -/
  | brokenOff {s t : VariableSupply} {taken : Set Nat} {n : Nat} {f : Fault}
      (before : Reached s taken) (given : s.takeLiterals n = (.error f, t)) :
      Reached t (taken ∪ Set.Ico s.next t.next)
  | raiseTo {s : VariableSupply} {taken : Set Nat} {v : Variable} (before : Reached s taken)
      (carried : v.index ≤ Variable.maxIndex) : Reached (s.raiseTo v).2 (taken ∪ Set.Iio v.index)
  | markUsed {s : VariableSupply} {taken : Set Nat} {v : Variable} (before : Reached s taken)
      (carried : v.index ≤ Variable.maxIndex) : Reached (s.markUsed v).2 (taken ∪ Set.Iic v.index)
  | forgetFrom {s : VariableSupply} {taken : Set Nat} {v : Variable} (before : Reached s taken)
      (carried : v.index ≤ Variable.maxIndex) :
      Reached (s.forgetFrom v) (taken ∩ Set.Iio v.index)

/-- The literals are over different variables, none of which is taken. -/
structure Fresh (taken : Set Nat) (ls : List Literal) : Prop where
  untaken : ∀ l ∈ ls, l.index ∉ taken
  distinct : (ls.map Literal.index).Nodup

/-- The counter agrees with a record: what is taken lies below it, and everything below it
that a literal can carry is taken. -/
structure Agrees (s : VariableSupply) (taken : Set Nat) : Prop where
  inside : s.next ≤ last
  below : ∀ i ∈ taken, i < s.next
  filled : ∀ i < s.next, i ≤ Variable.maxIndex → i ∈ taken

/-! ### What the requests do to the counter -/

section Requests

variable {s t : VariableSupply} {taken : Set Nat}

theorem takeVariable_eq_ok_iff {v : Variable} :
    s.takeVariable = (.ok v, t) ↔ s.next < last ∧ v = ⟨s.next⟩ ∧ t = ⟨s.next + 1⟩ := by
  rw [takeVariable]
  split <;> simp_all [eq_comm]

theorem takeLiteral_eq_ok_iff {l : Literal} :
    s.takeLiteral = (.ok l, t) ↔
      s.next < last ∧ l = Variable.positive ⟨s.next⟩ ∧ t = ⟨s.next + 1⟩ := by
  by_cases inside : s.next < last
  · simp [takeLiteral, takeVariable, inside, Except.map, eq_comm]
  · simp [takeLiteral, takeVariable, inside, Except.map]

theorem takeLiterals_eq_ok_iff {n : Nat} {ls : List Literal} :
    s.takeLiterals n = (.ok ls, t) ↔
      n ≤ longestBlock ∧ s.next + n ≤ last ∧ ls = block s.next n ∧ t = ⟨s.next + n⟩ := by
  rw [takeLiterals]
  split
  · simp_all
  · split <;> simp_all [eq_comm]

@[simp]
theorem next_raiseTo (s : VariableSupply) (v : Variable) :
    (s.raiseTo v).2.next = max s.next v.index := by
  rw [raiseTo]
  split <;> simp <;> omega

/-- The variable above one that literals can carry is still in the range of the counter. -/
theorem next_markUsed {v : Variable} (carried : v.index ≤ Variable.maxIndex) :
    (s.markUsed v).2.next = max s.next (v.index + 1) := by
  have above : v.shift 1 = .ok ⟨v.index + 1⟩ := by
    have inside : v.index + 1 < indexRange := by
      simp only [Variable.maxIndex] at carried
      simp only [indexRange]
      omega
    simp [Variable.shift, addWithin, inside, bind, Except.bind, pure, Except.pure]
  rw [markUsed, above]
  exact next_raiseTo s _

/-- A list that breaks off leaves the counter where it was or moves it to its end. -/
theorem next_of_takeLiterals_eq_error {n : Nat} {f : Fault}
    (given : s.takeLiterals n = (.error f, t)) : t.next = s.next ∨ t.next = last := by
  rw [takeLiterals] at given
  split at given
  · cases given
    exact .inl rfl
  · split at given
    · cases given
    · cases given
      exact .inr rfl

end Requests

/-! ### The indices of literals -/

theorem map_index_block (start n : Nat) :
    (block start n).map Literal.index =
      (List.range n).map fun k => (start + k) % (Variable.maxIndex + 1) := by
  rw [block, List.map_map]
  rfl

theorem mem_index_block {start n i : Nat} :
    (∃ l ∈ block start n, l.index = i) ↔ ∃ k < n, (start + k) % (Variable.maxIndex + 1) = i := by
  rw [← List.mem_map, map_index_block]
  simp

/-! ### The counter agrees with the record -/

section Agrees

variable {s t : VariableSupply} {taken : Set Nat}

/-- The variable above the counter is the next one to be taken. -/
theorem Agrees.next {i : Nat} (agrees : Agrees s taken) (inside : s.next < last)
    (same : i = s.next % (Variable.maxIndex + 1) ∨ i = s.next) :
    Agrees ⟨s.next + 1⟩ (insert i taken) where
  inside := inside
  below := by
    rintro j (rfl | old)
    · have := Nat.mod_le s.next (Variable.maxIndex + 1)
      change j < s.next + 1
      omega
    · exact Nat.lt_succ_of_lt (agrees.below j old)
  filled := by
    intro j low carried
    rcases Nat.lt_succ_iff_lt_or_eq.1 low with lower | rfl
    · exact .inr (agrees.filled j lower carried)
    · rcases same with rfl | rfl
      · exact .inl (Nat.mod_eq_of_lt (Nat.lt_succ_of_le carried)).symm
      · exact .inl rfl

/-- A block takes the variables from the counter on, under the indices of their literals. -/
theorem Agrees.takeBlock {n : Nat} (agrees : Agrees s taken) (inside : s.next + n ≤ last) :
    Agrees ⟨s.next + n⟩ (taken ∪ {i | ∃ l ∈ block s.next n, l.index = i}) where
  inside := inside
  below := by
    rintro i (old | new)
    · exact Nat.lt_add_right n (agrees.below i old)
    · obtain ⟨k, low, rfl⟩ := mem_index_block.1 new
      have := Nat.mod_le (s.next + k) (Variable.maxIndex + 1)
      change _ < s.next + n
      omega
  filled := by
    intro i low carried
    rcases Nat.lt_or_ge i s.next with old | new
    · exact .inl (agrees.filled i old carried)
    · refine .inr (mem_index_block.2 ⟨i - s.next, ?_, ?_⟩)
      · exact Nat.sub_lt_left_of_lt_add new low
      · rw [Nat.add_sub_cancel' new]
        exact Nat.mod_eq_of_lt (Nat.lt_succ_of_le carried)

/-- When the counter goes up and everything it passes counts as taken, they still agree. -/
theorem Agrees.upTo {passed : Set Nat} (agrees : Agrees s taken) (inside : t.next ≤ last)
    (up : s.next ≤ t.next) (below : ∀ i ∈ passed, i < t.next)
    (filled : ∀ i, s.next ≤ i → i < t.next → i ∈ passed) : Agrees t (taken ∪ passed) where
  inside := inside
  below := by
    rintro i (old | new)
    · exact Nat.lt_of_lt_of_le (agrees.below i old) up
    · exact below i new
  filled := by
    intro i low carried
    rcases Nat.lt_or_ge i s.next with old | new
    · exact .inl (agrees.filled i old carried)
    · exact .inr (filled i new low)

theorem Agrees.forgetFrom (agrees : Agrees s taken) (v : Variable) :
    Agrees (s.forgetFrom v) (taken ∩ Set.Iio v.index) where
  inside := (min_le_left _ _).trans agrees.inside
  below := fun i ⟨old, low⟩ => lt_min (agrees.below i old) low
  filled := fun i low carried =>
    ⟨agrees.filled i (lt_min_iff.1 low).1 carried, (lt_min_iff.1 low).2⟩

/-- The counter agrees with the record all along a run: one case for each request. -/
theorem Reached.agrees (reached : Reached s taken) : Agrees s taken := by
  induction reached with
  | initial =>
    exact ⟨Nat.zero_le _, fun _ none => none.elim, fun _ low => absurd low (Nat.not_lt_zero _)⟩
  | startingAt carried =>
    exact ⟨carried.trans (by decide), fun _ low => low, fun _ low _ => low⟩
  | takeVariable _ given agrees =>
    obtain ⟨inside, rfl, rfl⟩ := takeVariable_eq_ok_iff.1 given
    exact agrees.next inside (.inr rfl)
  | takeLiteral _ given agrees =>
    obtain ⟨inside, rfl, rfl⟩ := takeLiteral_eq_ok_iff.1 given
    exact agrees.next inside (.inl rfl)
  | takeLiterals _ given agrees =>
    obtain ⟨-, inside, rfl, rfl⟩ := takeLiterals_eq_ok_iff.1 given
    exact agrees.takeBlock inside
  | @brokenOff s t _ _ _ _ given agrees =>
    have inside : t.next ≤ last ∧ s.next ≤ t.next := by
      rcases next_of_takeLiterals_eq_error given with same | atEnd
      · exact ⟨same.trans_le agrees.inside, same.ge⟩
      · exact ⟨atEnd.le, agrees.inside.trans atEnd.ge⟩
    exact agrees.upTo inside.1 inside.2 (fun _ hi => hi.2) fun _ low high => ⟨low, high⟩
  | @raiseTo s _ v _ carried agrees =>
    apply agrees.upTo
    · rw [next_raiseTo]
      exact max_le agrees.inside (carried.trans (by decide))
    · rw [next_raiseTo]
      exact le_max_left _ _
    · intro i low
      rw [next_raiseTo]
      exact lt_max_of_lt_right low
    · intro i passed low
      rw [next_raiseTo] at low
      exact (lt_max_iff.1 low).resolve_left passed.not_gt
  | @markUsed s _ v _ carried agrees =>
    have up := next_markUsed (s := s) carried
    apply agrees.upTo
    · rw [up]
      exact max_le agrees.inside ((Nat.succ_le_succ carried).trans (by decide))
    · rw [up]
      exact le_max_left _ _
    · intro i low
      rw [up]
      exact lt_max_of_lt_right (Nat.lt_succ_of_le low)
    · intro i passed low
      rw [up] at low
      exact Nat.le_of_lt_succ ((lt_max_iff.1 low).resolve_left passed.not_gt)
  | forgetFrom _ _ agrees => exact agrees.forgetFrom _

end Agrees

/-! ### Where freshness ends -/

section Fresh

variable {s t : VariableSupply} {taken : Set Nat}

/-- A variable is never handed out twice, however high its index. -/
theorem Reached.untaken_of_takeVariable (reached : Reached s taken) {v : Variable}
    (given : s.takeVariable = (.ok v, t)) : v.index ∉ taken := by
  obtain ⟨-, rfl, rfl⟩ := takeVariable_eq_ok_iff.1 given
  intro old
  exact absurd (reached.agrees.below _ old) (Nat.lt_irrefl _)

/-- Within the indices of literals, the literals of a block are fresh. -/
theorem Agrees.fresh_block {n : Nat} (agrees : Agrees s taken)
    (room : s.next + n ≤ Variable.maxIndex + 1) : Fresh taken (block s.next n) where
  untaken := by
    intro l given old
    have new := (literalsOver_block room l given).1
    exact absurd (agrees.below _ old) new.not_gt
  distinct := by
    rw [map_index_block]
    refine List.Nodup.map_on ?_ List.nodup_range
    intro j hj k hk same
    have bounded : ∀ k ∈ List.range n, s.next + k < Variable.maxIndex + 1 :=
      fun k hk => Nat.lt_of_lt_of_le (Nat.add_lt_add_left (List.mem_range.1 hk) _) room
    rw [Nat.mod_eq_of_lt (bounded j hj), Nat.mod_eq_of_lt (bounded k hk)] at same
    exact Nat.add_left_cancel same

/-- A block that reaches past the indices of literals is not fresh. The literal of its last
variable has a lower index than the variable. Either that index is taken, or it is the one
of another literal of the block. -/
theorem Agrees.not_fresh_block {n : Nat} (agrees : Agrees s taken)
    (past : Variable.maxIndex < s.next + n) : ¬Fresh taken (block s.next (n + 1)) := by
  rintro ⟨untaken, distinct⟩
  obtain ⟨repeated, eq⟩ : ∃ i, i = (s.next + n) % (Variable.maxIndex + 1) := ⟨_, rfl⟩
  have carried : repeated ≤ Variable.maxIndex :=
    eq ▸ Nat.le_of_lt_succ (Nat.mod_lt _ (Nat.succ_pos _))
  rcases Nat.lt_or_ge repeated s.next with old | new
  · obtain ⟨l, given, same⟩ := mem_index_block.2 ⟨n, Nat.lt_succ_self n, eq.symm⟩
    exact untaken l given (same ▸ agrees.filled repeated old carried)
  · rw [map_index_block, List.range_succ, List.map_append, List.nodup_append] at distinct
    have earlier : repeated - s.next < n := by omega
    refine distinct.2.2 repeated ?_ repeated ?_ rfl
    · refine List.mem_map.2 ⟨repeated - s.next, List.mem_range.2 earlier, ?_⟩
      rw [Nat.add_sub_cancel' new]
      exact Nat.mod_eq_of_lt (Nat.lt_succ_of_le carried)
    · exact List.mem_map.2 ⟨n, List.mem_singleton_self n, eq.symm⟩

/-- A block is fresh exactly if it is empty or within the indices of literals. -/
theorem Agrees.fresh_block_iff {n : Nat} (agrees : Agrees s taken) :
    Fresh taken (block s.next n) ↔ n = 0 ∨ s.next + n ≤ Variable.maxIndex + 1 := by
  cases n with
  | zero => simp [block, Fresh.mk]
  | succ n =>
    constructor
    · intro fresh
      right
      by_contra past
      exact agrees.not_fresh_block (by omega) fresh
    · rintro (none | room)
      · cases none
      · exact agrees.fresh_block room

/-- A single literal is a block of one. -/
theorem block_one (start : Nat) : block start 1 = [Variable.positive ⟨start⟩] :=
  rfl

/-- After every run, a literal is fresh exactly if the counter stood within the indices of
literals, and a list of literals exactly if the counter stays there; the empty list always
is. The requests that stay there are granted. -/
theorem Reached.fresh_iff_room (reached : Reached s taken) :
    (∀ l t, s.takeLiteral = (.ok l, t) → (Fresh taken [l] ↔ s.next ≤ Variable.maxIndex)) ∧
    (∀ n ls t, s.takeLiterals n = (.ok ls, t) →
      (Fresh taken ls ↔ n = 0 ∨ s.next + n ≤ Variable.maxIndex + 1)) ∧
    (s.next ≤ Variable.maxIndex → ∃ l t, s.takeLiteral = (.ok l, t)) ∧
    ∀ n, s.next + n ≤ Variable.maxIndex + 1 →
      ∃ ls t, s.takeLiterals n = (.ok ls, t) ∧ ls.length = n := by
  refine ⟨?_, ?_, ?_, ?_⟩
  · intro l t given
    obtain ⟨-, rfl, rfl⟩ := takeLiteral_eq_ok_iff.1 given
    rw [← block_one, reached.agrees.fresh_block_iff]
    simp
  · intro n ls t given
    obtain ⟨-, -, rfl, rfl⟩ := takeLiterals_eq_ok_iff.1 given
    exact reached.agrees.fresh_block_iff
  · intro room
    have inside : s.next < last := Nat.lt_of_le_of_lt room (by decide)
    exact ⟨_, _, takeLiteral_eq_ok_iff.2 ⟨inside, rfl, rfl⟩⟩
  · intro n room
    exact ⟨_, _, takeLiterals_of_room room, length_block _ _⟩

/-- The run that hands out the first literal and marks all variables of literals as used. -/
theorem reached_past : Reached ⟨Variable.maxIndex + 1⟩ (insert 0 ∅ ∪ Set.Iic Variable.maxIndex) :=
  (Reached.initial.takeLiteral (l := ⟨0, false⟩) (t := ⟨1⟩) rfl).markUsed (v := ⟨Variable.maxIndex⟩)
    le_rfl

/-- After one literal, the second one is fresh. After marking all variables of literals as
used, the next one is not. -/
theorem fresh_second_not_past :
    Fresh (insert 0 ∅) [⟨1, false⟩] ∧
      ¬Fresh (insert 0 ∅ ∪ Set.Iic Variable.maxIndex) [⟨0, false⟩] := by
  have second : Reached ⟨1⟩ (insert 0 ∅) :=
    Reached.initial.takeLiteral (l := ⟨0, false⟩) (t := ⟨1⟩) rfl
  constructor
  · exact (second.fresh_iff_room.1 ⟨1, false⟩ ⟨2⟩ rfl).2 (by decide)
  · intro fresh
    have room := (reached_past.fresh_iff_room.1 ⟨0, false⟩ ⟨Variable.maxIndex + 2⟩ rfl).1 fresh
    exact absurd room (Nat.not_succ_le_self _)

/-- A supply can hand out a literal that is taken: it does not turn the request down. -/
theorem exists_taken_literal :
    ¬∀ s taken, Reached s taken → ∀ l t, s.takeLiteral = (.ok l, t) → l.index ∉ taken := by
  intro fresh
  exact fresh _ _ reached_past ⟨0, false⟩ ⟨Variable.maxIndex + 2⟩ rfl (.inl (.inl rfl))

end Fresh

end VariableSupply

end CardinalityClauses
