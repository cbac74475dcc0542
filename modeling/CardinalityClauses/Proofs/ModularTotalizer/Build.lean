import CardinalityClauses.ModularTotalizer
import CardinalityClauses.Proofs.Arithmetic.CeilSqrt
import CardinalityClauses.Proofs.Encoding.Bounds
import CardinalityClauses.Proofs.ModularTotalizer.Values
import Mathlib.Data.Nat.Sqrt

/-!
Building a modular totalizer and enforcing bounds on it.

A bound is split by the modulus like the count. The clauses for it forbid the multiples of the
modulus beyond the bound and, where those within it are reached, what would be left over beyond
it.
-/

namespace CardinalityClauses.ModularTotalizer

open Unary
open VariableSupply (block length_block)

/-! ### The clauses for a bound -/

/-- The clauses that enforce a bound over given parts of a root. -/
def enforcing (modulus : Nat) (upper lower : List Literal) (bound : Nat) : List Clause :=
  let upperLimit := (bound + 1) / modulus
  let lowerLimit := (bound + 1) % modulus
  (upper.drop upperLimit).map (fun u => .unit u.complement) ++
    match atLeast upper upperLimit with
    | [] => (lower.drop (lowerLimit - 1)).map fun l => .unit l.complement
    | u :: _ =>
        if lowerLimit = 0 then [.unit u.complement]
        else (lower.drop (lowerLimit - 1)).map fun l => ⟨[u.complement, l.complement]⟩

section Enforcing

variable {modulus bound : Nat} {upper lower : List Literal}

theorem clausesOver_enforcing {on : Nat → Prop} (overUpper : LiteralsOver on upper)
    (overLower : LiteralsOver on lower) :
    ClausesOver on (enforcing modulus upper lower bound) := by
  have unit {l : Literal} (hl : on l.index) :
      LiteralsOver on (Clause.unit l.complement).literals := by
    simpa [LiteralsOver, Clause.unit, Literal.complement] using hl
  refine clausesOver_append.2 ⟨?_, ?_⟩
  · intro c hc
    obtain ⟨u, mem, rfl⟩ := List.mem_map.1 hc
    exact unit (overUpper u (List.mem_of_mem_drop mem))
  · intro c hc
    cases split : atLeast upper ((bound + 1) / modulus) with
    | nil =>
        simp only [split] at hc
        obtain ⟨l, mem, rfl⟩ := List.mem_map.1 hc
        exact unit (overLower l (List.mem_of_mem_drop mem))
    | cons u rest =>
        have overU : on u.index := literalsOver_atLeast overUpper _ u (by rw [split]; simp)
        simp only [split] at hc
        split at hc
        · rw [List.mem_singleton.1 hc]
          exact unit overU
        · obtain ⟨l, mem, rfl⟩ := List.mem_map.1 hc
          have overL := overLower l (List.mem_of_mem_drop mem)
          simpa [LiteralsOver, Literal.complement] using ⟨overU, overL⟩

variable {v : Valuation} {count limit : Nat}

/-- A counter whose literals from position `n` on are false reaches no more than `n`. -/
theorem le_of_reaches_of_drop {counter : List Literal} {n reached : Nat}
    (inside : reached ≤ counter.length) (reaches : Reaches v counter reached)
    (false : ∀ l ∈ counter.drop n, l.holds v = false) : reached ≤ n := by
  apply Nat.le_of_not_lt
  intro above
  have found : counter[n]? = some counter[n] := List.getElem?_eq_getElem (by omega)
  have mem : counter[n] ∈ counter.drop n :=
    List.mem_of_getElem? (i := 0) (by simp)
  have true := reaches n _ found above
  simp [false _ mem] at true

/-- Parts that reach the count limit it. -/
theorem le_of_enforcing (short : lower.length < modulus)
    (parts : (bound + 1) / modulus ≤ upper.length) (within : bound < limit)
    (reaches : ReachesParts v modulus limit upper lower count)
    (models : v.Models (enforcing modulus upper lower bound)) : count ≤ bound := by
  obtain ⟨u, hu, l, hl, reachesU, reachesL, sum⟩ := reaches
  have split := Nat.div_add_mod (bound + 1) modulus
  rw [enforcing, Valuation.models_append] at models
  generalize (bound + 1) / modulus = q at *
  generalize (bound + 1) % modulus = r at *
  rw [Nat.mul_comm] at split
  have few : u ≤ q := by
    apply le_of_reaches_of_drop hu reachesU
    intro m mem
    simpa only [Clause.holds_unit, Literal.holds_complement, Bool.not_eq_true'] using
      models.1 _ (List.mem_map_of_mem mem)
  rcases Nat.eq_zero_or_pos q with rfl | one
  · have rest : l ≤ r - 1 := by
      apply le_of_reaches_of_drop hl reachesL
      intro m mem
      simpa only [Clause.holds_unit, Literal.holds_complement, Bool.not_eq_true'] using
        models.2 _ (List.mem_map_of_mem mem)
    obtain rfl : u = 0 := by omega
    rw [Nat.zero_mul] at sum split
    omega
  · obtain ⟨k, rfl⟩ : ∃ k, q = k + 1 := ⟨q - 1, by omega⟩
    have found : upper[k]? = some upper[k] := List.getElem?_eq_getElem (by omega)
    have top : atLeast upper (k + 1) = [upper[k]] := by
      simp [atLeast, found]
    simp only [top] at models
    rw [Nat.add_mul, Nat.one_mul] at split
    rcases Nat.lt_or_eq_of_le few with lt | rfl
    · have := Nat.mul_le_mul_right modulus (Nat.le_of_lt_succ lt)
      omega
    · have reached := reachesU k _ found (Nat.lt_succ_self k)
      rw [Nat.add_mul, Nat.one_mul] at sum
      by_cases zero : r = 0
      · have false := models.2 (.unit upper[k].complement) (by simp [zero])
        simp [reached] at false
      · have rest : l ≤ r - 1 := by
          apply le_of_reaches_of_drop hl reachesL
          intro m mem
          have either := models.2 ⟨[upper[k].complement, m.complement]⟩
            (by rw [if_neg zero]; exact List.mem_map_of_mem mem)
          simpa [Clause.holds, reached] using either
        omega

/-- The literals that a counter has from position `n` on are false if it stays within `n`. -/
theorem holds_eq_false_of_mem_drop {counter : List Literal} {n k : Nat}
    (within : StaysWithin v counter n) (le : n ≤ k) {l : Literal} (mem : l ∈ counter.drop k) :
    l.holds v = false := by
  obtain ⟨i, found⟩ := List.mem_iff_getElem?.1 mem
  rw [List.getElem?_drop] at found
  exact within _ l found (by omega)

/-- Parts that count right satisfy the clauses for a bound that is met. -/
theorem models_enforcing (parts : (bound + 1) / modulus ≤ upper.length)
    (counts : CountsParts v modulus upper lower count) (met : count ≤ bound) :
    v.Models (enforcing modulus upper lower bound) := by
  have split := Nat.div_add_mod (bound + 1) modulus
  have splitCount := Nat.div_add_mod count modulus
  have quotient : count / modulus ≤ (bound + 1) / modulus := Nat.div_le_div_right (by omega)
  have whole : count < modulus * ((bound + 1) / modulus) →
      count / modulus < (bound + 1) / modulus := Nat.div_lt_of_lt_mul
  rw [enforcing, Valuation.models_append]
  generalize (bound + 1) / modulus = q at *
  generalize (bound + 1) % modulus = r at *
  refine ⟨fun c hc => ?_, fun c hc => ?_⟩
  · obtain ⟨u, mem, rfl⟩ := List.mem_map.1 hc
    rw [Clause.holds_unit, Literal.holds_complement,
      holds_eq_false_of_mem_drop counts.upper.within quotient mem]
    rfl
  rcases Nat.eq_zero_or_pos q with rfl | one
  · obtain ⟨l, mem, rfl⟩ := List.mem_map.1 hc
    have rest : count % modulus ≤ r - 1 := Nat.le_trans (Nat.mod_le _ _) (by omega)
    rw [Clause.holds_unit, Literal.holds_complement,
      holds_eq_false_of_mem_drop counts.lower.within rest mem]
    rfl
  · obtain ⟨k, rfl⟩ : ∃ k, q = k + 1 := ⟨q - 1, by omega⟩
    have found : upper[k]? = some upper[k] := List.getElem?_eq_getElem (by omega)
    have top : atLeast upper (k + 1) = [upper[k]] := by
      simp [atLeast, found]
    simp only [top] at hc
    by_cases zero : r = 0
    · have below : upper[k].holds v = false :=
        counts.upper.within k _ found (Nat.le_of_lt_succ (whole (by omega)))
      simp only [zero, if_true, List.mem_singleton] at hc
      simp [hc, below]
    · rw [if_neg zero] at hc
      obtain ⟨l, mem, rfl⟩ := List.mem_map.1 hc
      cases reached : upper[k].holds v with
      | false => simp [Clause.holds, reached]
      | true =>
          have eq : count / modulus = k + 1 := by
            refine Nat.le_antisymm quotient (Nat.lt_of_not_le fun le => ?_)
            simp [counts.upper.within k _ found le] at reached
          rw [eq] at splitCount
          have rest : count % modulus ≤ r - 1 := by omega
          simp [Clause.holds, holds_eq_false_of_mem_drop counts.lower.within rest mem]

end Enforcing

/-! ### Enforcing a bound -/

/-- The modulus of a build: the fixed one, or the root of the first number beyond the maximum
bound, rounded up. -/
def modulusFor (preset : Option Nat) (maxBound : Nat) : Nat :=
  preset.getD (Nat.sqrt maxBound + 1)

/-- The encoder over some inputs before its build, with a fixed modulus or without one. -/
def ofPreset (inputs : List Literal) (preset : Option Nat) : ModularTotalizer :=
  ⟨inputs, preset, [], none, none, ⟨0, 0⟩⟩

/-- How many variables a build takes: both parts of the root, and what is below it. -/
def buildDemand (modulus : Nat) (inputs : List Literal) : Nat :=
  match Halving.ofList? inputs with
  | none => 0
  | some shape => inputs.length / modulus + (modulus - 1) + demandBelow modulus shape

/-- A tree that was built to its end. -/
structure Complete (t : ModularTotalizer) (modulus maxBound : Nat) (upper lower : List Literal) :
    Prop where
  two_le : 2 ≤ modulus
  modulus_eq : t.modulus = some modulus
  maxBound_eq : t.maxBound = some maxBound
  maxBound_lt : maxBound < t.inputs.length
  root : ∃ position root, t.root = some position ∧ t.nodes[position]? = some root ∧
    root.upper = upper ∧ root.lower = lower
  length_upper : upper.length = t.inputs.length / modulus
  length_lower : lower.length = modulus - 1

section Enforce

variable {modulus maxBound bound : Nat} {upper lower : List Literal} {t : ModularTotalizer}

theorem Complete.quotient_le (complete : t.Complete modulus maxBound upper lower)
    (le : bound ≤ maxBound) : (bound + 1) / modulus ≤ upper.length := by
  have := complete.maxBound_lt
  rw [complete.length_upper]
  exact Nat.div_le_div_right (by omega)

/-- The calls by which a bound is enforced over given parts of a root. -/
def limits (modulus : Nat) (upper lower : List Literal) (bound : Nat) : List Batch :=
  let upperLimit := (bound + 1) / modulus
  let lowerLimit := (bound + 1) % modulus
  [⟨(upper.drop upperLimit).map fun u => .unit u.complement, none⟩,
    ⟨match atLeast upper upperLimit with
      | [] => (lower.drop (lowerLimit - 1)).map fun l => .unit l.complement
      | u :: _ =>
          if lowerLimit = 0 then [.unit u.complement]
          else (lower.drop (lowerLimit - 1)).map fun l => ⟨[u.complement, l.complement]⟩, none⟩]

theorem flatMap_limits (modulus : Nat) (upper lower : List Literal) (bound : Nat) :
    (limits modulus upper lower bound).flatMap Batch.clauses =
      enforcing modulus upper lower bound := by
  simp [limits, enforcing]

theorem limits_complete (modulus : Nat) (upper lower : List Literal) (bound : Nat) :
    ∀ b ∈ limits modulus upper lower bound, b.stop = none := by
  simp [limits]

/-- The parts of a root that are long enough enforce a bound. -/
theorem enforceParts_eq {σ : Type} [Collector σ] {root : Node}
    (upperLong : (bound + 1) / modulus ≤ root.upper.length)
    (lowerLong : (bound + 1) % modulus ≤ root.lower.length) (w : Workspace σ) :
    enforceParts modulus root bound w = w.handAll (limits modulus root.upper root.lower bound) := by
  have long : ¬(root.upper.length < (bound + 1) / modulus ∨
      root.lower.length < (bound + 1) % modulus) := by omega
  obtain ⟨failure, w₁, first⟩ : ∃ failure w₁, w.extend ((root.upper.drop
    ((bound + 1) / modulus)).map fun u => .unit u.complement) = (failure, w₁) := ⟨_, _, rfl⟩
  unfold enforceParts limits
  rw [Workspace.handAll, Workspace.hand]
  simp only [if_neg long, first]
  cases failure with
  | some why => rfl
  | none =>
      simp only [Option.map_none, Workspace.handAll_singleton]
      cases atLeast root.upper ((bound + 1) / modulus) with
      | nil => rfl
      | cons u rest => by_cases zero : (bound + 1) % modulus = 0 <;> simp [zero]

/-- The root keeps its parts, no matter how far the build came. -/
theorem Tree.getElem?_keepFirst_layout (tree : Tree) (n start : Nat) :
    ∃ root, (Node.keepFirst start (1 + n) (tree.layout start))[0]? = some root ∧
      root.upper = tree.upper ∧ root.lower = tree.lower := by
  rw [Nat.add_comm 1 n, Node.keepFirst, Tree.layout, List.take_succ_cons, List.map_cons]
  refine ⟨_, rfl, ?_⟩
  cases tree with
  | leaf input => exact ⟨rfl, rfl⟩
  | node upper lower carry left right =>
      simp only [Tree.rootNode]
      split <;> exact ⟨rfl, rfl⟩

/-- On a complete tree a bound up to the maximum is enforced in two calls. -/
theorem Complete.enforceUpper_eq {σ : Type} [Collector σ]
    (complete : t.Complete modulus maxBound upper lower) (le : bound ≤ maxBound)
    (w : Workspace σ) :
    t.enforceUpper bound w = w.handAll (limits modulus upper lower bound) := by
  have upperLong := complete.quotient_le le
  obtain ⟨two, modulus_eq, maxBound_eq, lt, ⟨position, root, at_, found, rfl, rfl⟩, -, short⟩ :=
    complete
  have rest := Nat.mod_lt (bound + 1) (by omega : 0 < modulus)
  rw [← enforceParts_eq upperLong (by omega)]
  have some : ¬t.inputs.length ≤ bound := by omega
  have nonzero : modulus ≠ 0 := by omega
  simp only [ModularTotalizer.enforceUpper, if_neg some, at_, maxBound_eq, if_pos le,
    enforceAtRoot, modulus_eq, found, if_neg nonzero]

/-- A bound beyond the maximum of the build is refused, unless every assignment meets it. -/
theorem Complete.enforceUpper_beyond {σ : Type} [Collector σ]
    (complete : t.Complete modulus maxBound upper lower) (beyond : maxBound < bound)
    (lt : bound < t.inputs.length) (w : Workspace σ) :
    t.enforceUpper bound w = (some (.refused .notEncoded), w) := by
  obtain ⟨position, root, at_, found, -, -⟩ := complete.root
  simp [ModularTotalizer.enforceUpper, Nat.not_le_of_lt lt, at_, complete.maxBound_eq,
    Nat.not_le_of_lt beyond]

/-- On a complete tree every bound up to the maximum is enforced. -/
theorem Complete.enforceUpper {σ : Type} [ReliableCollector σ]
    (complete : t.Complete modulus maxBound upper lower) (le : bound ≤ maxBound)
    (w : Workspace σ) :
    ∃ w', t.enforceUpper bound w = (none, w') ∧
      w.Grows w' (enforcing modulus upper lower bound) 0 := by
  rw [complete.enforceUpper_eq le, ← flatMap_limits]
  exact w.handAll_spec (limits_complete modulus upper lower bound)

end Enforce

/-! ### The build -/

section Build

variable {maxBound modulus next : Nat} {preset : Option Nat} {inputs : List Literal}

theorem ceilSqrt_succ (inRange : maxBound + 1 < sizeRange) :
    ceilSqrt (maxBound + 1) = .ok (Nat.sqrt maxBound + 1) := by
  obtain ⟨r, root, le, least, -⟩ := ceilSqrt_spec inRange
  have least := least (Nat.succ_pos maxBound)
  have positive : 0 < r := Nat.pos_of_ne_zero (by rintro rfl; omega)
  obtain ⟨k, rfl⟩ : ∃ k, r = k + 1 := ⟨r - 1, by omega⟩
  rw [Nat.add_sub_cancel] at least
  rw [root, Nat.eq_sqrt.2 ⟨Nat.le_of_lt_succ least, by omega⟩]

theorem chooseModulus_eq {t : ModularTotalizer} (inRange : maxBound + 1 < sizeRange) :
    t.chooseModulus maxBound = .ok (modulusFor t.modulus maxBound) := by
  unfold chooseModulus modulusFor
  cases t.modulus with
  | none => exact ceilSqrt_succ inRange
  | some modulus => rfl

theorem two_le_modulusFor (fixed : ∀ m, preset = some m → 2 ≤ m) (positive : 0 < maxBound) :
    2 ≤ modulusFor preset maxBound := by
  cases preset with
  | none => exact Nat.succ_le_succ (Nat.sqrt_pos.2 positive)
  | some m => exact fixed m rfl

theorem partsFit_root (two : 2 ≤ modulus) {left right : Halving Literal} {top : Nat}
    (quotient : (Halving.fork left right).size / modulus = top) (next : Nat) :
    PartsFit modulus (.fork left right) (block next top) (block (next + top) (modulus - 1)) := by
  subst quotient
  simp only [PartsFit, length_block, upperCount, Halving.size, true_and]
  omega

/-- What the clauses of a tree and those for a bound say about the inputs, no matter which variables
they use. -/
theorem le_of_grow {left right : Halving Literal} {top bound below : Nat} (two : 2 ≤ modulus)
    (list : (Halving.fork left right).toList = inputs) (whole : inputs.length / modulus = top)
    (lt : maxBound < inputs.length) (le : bound ≤ maxBound) {v : Valuation}
    (counted : v.Models ((Tree.grow modulus (.fork left right) (block next top)
      (block (next + top) (modulus - 1)) below).1.clauses modulus maxBound))
    (limited : v.Models
      (enforcing modulus (block next top) (block (next + top) (modulus - 1)) bound)) :
    v.trueCount inputs ≤ bound := by
  have size : (Halving.fork left right).size = inputs.length := by
    rw [← list, Halving.length_toList]
  have fit := partsFit_root two (size ▸ whole) next
  have reaches := (Tree.sized_grow two fit _).reachesParts two counted
  rw [Tree.inputs_grow two fit, list, Tree.upper_grow fit] at reaches
  have short : (block (next + top) (modulus - 1)).length < modulus := by
    rw [length_block]
    omega
  have quotient : (bound + 1) / modulus ≤ (block next top).length := by
    rw [length_block, ← whole]
    exact Nat.div_le_div_right (by omega)
  exact le_of_enforcing short quotient (Nat.lt_succ_of_le le) reaches limited

/-- The clauses of a tree encode all upper bounds up to the maximum. -/
theorem boundEncoding_grow {left right : Halving Literal} {top : Nat} (two : 2 ≤ modulus)
    (list : (Halving.fork left right).toList = inputs) (whole : inputs.length / modulus = top)
    {upper lower : List Literal} (hUpper : upper = block next top)
    (hLower : lower = block (next + top) (modulus - 1))
    (old : LiteralsOver (· < next) inputs) (lt : maxBound < inputs.length)
    (room : next + (top + (modulus - 1) + demandBelow modulus (.fork left right)) ≤
      Variable.maxIndex + 1) :
    BoundEncoding .atMost inputs next
      (next + (top + (modulus - 1) + demandBelow modulus (.fork left right)))
      ((Tree.grow modulus (.fork left right) upper lower
        (next + top + (modulus - 1))).1.clauses modulus maxBound)
      (· ≤ maxBound) (enforcing modulus upper lower) := by
  subst hUpper hLower
  have size : (Halving.fork left right).size = inputs.length := by
    rw [← list, Halving.length_toList]
  have fit := partsFit_root two (size ▸ whole) next
  have roomUpper : next + top ≤ Variable.maxIndex + 1 := by omega
  have roomLower : next + top + (modulus - 1) ≤ Variable.maxIndex + 1 := by omega
  have overUpper {last : Nat} (le : next + top ≤ last) : LiteralsOver (· < last) (block next top) :=
    (VariableSupply.literalsOver_block roomUpper).mono fun i hi => by omega
  have overLower {last : Nat} (le : next + top + (modulus - 1) ≤ last) :
      LiteralsOver (· < last) (block (next + top) (modulus - 1)) :=
    (VariableSupply.literalsOver_block roomLower).mono fun i hi => by omega
  have oldBelow : LiteralsOver (· < next + top + (modulus - 1))
      (Halving.fork left right).toList := by
    rw [list]
    exact old.upTo (by omega)
  have quotient {b : Nat} (le : b ≤ maxBound) : (b + 1) / modulus ≤ (block next top).length := by
    rw [length_block, ← whole]
    exact Nat.div_le_div_right (by omega)
  have below : Allows _ (next + top + (modulus - 1)) _
      ((Tree.grow modulus (.fork left right) (block next top) (block (next + top) (modulus - 1))
        (next + top + (modulus - 1))).1.clauses modulus maxBound) :=
    Tree.allows_grow two fit oldBelow (overUpper (by omega)) (overLower (Nat.le_refl _)) (by omega)
  refine
    { first_le := Nat.le_add_right _ _
      about := below.about.mono fun i hi => by omega
      over_enforcing := fun b _ =>
        clausesOver_enforcing (overUpper (by omega)) (overLower (by omega))
      sound := ?_
      exists_exact := ?_ }
  · intro v b le counted models
    have bounded := le_of_grow two list whole lt le counted models
    simpa [Constraint.holds] using bounded
  · intro v
    obtain ⟨v₁, agree₁, parts⟩ := Tree.exists_countsParts_blocks roomLower v (v.trueCount inputs)
    rw [agree₁.below.trueCount_eq old] at parts
    obtain ⟨w, agree₂, models⟩ := below.exists_models v₁ (by rw [list]; exact parts)
    refine ⟨w, ?_, models, fun b le met => ?_⟩
    · refine (agree₁.mono ?_ ?_).trans (agree₂.mono ?_ ?_) <;> omega
    · have counts := parts.of_agree agree₂.below (overUpper (by omega)) (overLower (by omega))
      have same : v₁.trueCount inputs = w.trueCount inputs :=
        agree₂.below.trueCount_eq (old.upTo (by omega))
      rw [same] at counts
      exact models_enforcing (quotient le) counts (by simpa [Constraint.holds] using met)

/-- The modulus is chosen, or the maximum bound is beyond the range of sizes. -/
theorem chooseModulus_eq_or (t : ModularTotalizer) (maxBound : Nat) :
    t.chooseModulus maxBound = .ok (modulusFor t.modulus maxBound) ∨
      sizeRange ≤ maxBound + 1 ∧ ∃ f, t.chooseModulus maxBound = .error f := by
  by_cases inRange : maxBound + 1 < sizeRange
  · exact .inl (chooseModulus_eq inRange)
  unfold chooseModulus modulusFor
  cases t.modulus with
  | none =>
      have beyond := Nat.le_of_not_lt inRange
      exact .inr ⟨beyond, ceilSqrt_of_sizeRange_le beyond⟩
  | some modulus => exact .inl rfl

/-- Every input but two costs a variable. -/
theorem length_le_buildDemand (two : 2 ≤ modulus) (many : 2 ≤ inputs.length) :
    inputs.length ≤ buildDemand modulus inputs + 2 := by
  obtain ⟨left, right, split, -⟩ := Halving.exists_fork many
  have size : left.size + right.size = inputs.length := Halving.size_of_ofList? split
  have := size_le_demand two left
  have := size_le_demand two right
  simp only [buildDemand, split, demandBelow]
  generalize inputs.length / modulus = top
  omega

/-- Where there is room for a build, two more than its maximum bound is in the range of sizes. -/
theorem add_two_lt_sizeRange (two : 2 ≤ modulus) (positive : 0 < maxBound)
    (lt : maxBound < inputs.length)
    (room : next + buildDemand modulus inputs ≤ Variable.maxIndex + 1) :
    maxBound + 2 < sizeRange := by
  have few := length_le_buildDemand two (Nat.lt_of_le_of_lt positive lt)
  simp only [Variable.maxIndex, sizeRange] at room ⊢
  omega

/-- The upper part of the root after a build from variable `next` on. -/
def rootUpper (modulus : Nat) (inputs : List Literal) (next : Nat) : List Literal :=
  block next (inputs.length / modulus)

/-- The lower part of the root after a build from variable `next` on. -/
def rootLower (modulus : Nat) (inputs : List Literal) (next : Nat) : List Literal :=
  block (next + inputs.length / modulus) (modulus - 1)

/-- The tree below the root after a build from variable `next` on. -/
def builtTree (modulus : Nat) (inputs : List Literal) (shape : Halving Literal) (next : Nat) :
    Tree :=
  (Tree.grow modulus shape (rootUpper modulus inputs next) (rootLower modulus inputs next)
    (next + inputs.length / modulus + (modulus - 1))).1

/-- What a build does, from variable `next` on: first the parts of the root are taken, then
everything below it. -/
def buildPlan (modulus maxBound : Nat) (inputs : List Literal) (next : Nat) : List Piece :=
  match Halving.ofList? inputs with
  | none => []
  | some shape =>
      ⟨inputs.length / modulus, [], none⟩ :: ⟨modulus - 1, [], none⟩ ::
        (builtTree modulus inputs shape next).pieces modulus maxBound 0 1

section Plan

variable {left right : Halving Literal}

theorem partsFit_builtTree (two : 2 ≤ modulus)
    (split : Halving.ofList? inputs = some (.fork left right)) (next : Nat) :
    PartsFit modulus (.fork left right) (rootUpper modulus inputs next)
      (rootLower modulus inputs next) :=
  partsFit_root two (by rw [Halving.size_of_ofList? split]) next

theorem plannedVariables_buildPlan (two : 2 ≤ modulus) (maxBound : Nat) (inputs : List Literal)
    (next : Nat) :
    plannedVariables (buildPlan modulus maxBound inputs next) = buildDemand modulus inputs := by
  unfold buildPlan buildDemand
  split
  · rfl
  rename_i shape split
  simp only [plannedVariables_cons]
  cases shape with
  | tip input => simp [builtTree, Tree.grow, Tree.pieces, demandBelow]
  | fork left right =>
      rw [builtTree, Tree.plannedVariables_grow two (partsFit_builtTree two split next)]
      omega

theorem plannedClauses_buildPlan {shape : Halving Literal}
    (split : Halving.ofList? inputs = some shape) (next : Nat) :
    plannedClauses (buildPlan modulus maxBound inputs next) =
      (builtTree modulus inputs shape next).clauses modulus maxBound := by
  simp only [buildPlan, split, plannedClauses_cons, Tree.plannedClauses_pieces]
  rfl

/-- However far a build comes, the older variables are left alone. -/
theorem lenient_buildPlan (two : 2 ≤ modulus) (many : 2 ≤ inputs.length)
    (old : LiteralsOver (· < next) inputs) :
    Lenient (fun _ => True) next (buildPlan modulus maxBound inputs next) := by
  obtain ⟨left, right, split, list⟩ := Halving.exists_fork many
  have fit := partsFit_builtTree two split next
  simp only [buildPlan, split]
  refine .cons_cons rfl fun begun part room => ?_
  have quotient : 0 ≤ inputs.length / modulus := Nat.zero_le _
  simp only [builtTree, rootUpper, rootLower] at fit part room ⊢
  generalize inputs.length / modulus = top at *
  have roomRoot : next + top + (modulus - 1) ≤ Variable.maxIndex + 1 := by omega
  have overUpper : LiteralsOver (· < next + top + (modulus - 1)) (block next top) :=
    (VariableSupply.literalsOver_block (by omega)).mono fun i hi => by omega
  have overLower : LiteralsOver (· < next + top + (modulus - 1))
      (block (next + top) (modulus - 1)) :=
    (VariableSupply.literalsOver_block roomRoot).mono fun i hi => hi.2
  have oldRoot : LiteralsOver (· < next + top + (modulus - 1))
      (Halving.fork left right).toList := by
    rw [list]
    exact old.upTo (by omega)
  have below := Tree.lenient_grow two fit oldRoot overUpper overLower 0 1 begun part room
  refine ⟨below.about, fun v _ => ?_⟩
  obtain ⟨v₁, agree₁, parts⟩ := Tree.exists_countsParts_blocks roomRoot v (v.trueCount inputs)
  rw [agree₁.below.trueCount_eq old] at parts
  obtain ⟨w, agree₂, models⟩ := below.exists_models v₁ (by rw [list]; exact parts)
  refine ⟨w, ?_, models⟩
  refine (agree₁.mono ?_ ?_).trans (agree₂.mono ?_ ?_) <;> omega

/-- All that is planned counts the inputs, no matter which variables it uses. -/
theorem le_of_buildPlan {bound : Nat} (two : 2 ≤ modulus) (many : 2 ≤ inputs.length)
    (lt : maxBound < inputs.length) (le : bound ≤ maxBound) {v : Valuation}
    (counted : v.Models (plannedClauses (buildPlan modulus maxBound inputs next)))
    (limited : v.Models
      (enforcing modulus (rootUpper modulus inputs next) (rootLower modulus inputs next) bound)) :
    v.trueCount inputs ≤ bound := by
  obtain ⟨left, right, split, list⟩ := Halving.exists_fork many
  rw [plannedClauses_buildPlan split] at counted
  exact le_of_grow two list rfl lt le counted limited

/-- All that is planned encodes the upper bounds up to the maximum. -/
theorem boundEncoding_buildPlan (two : 2 ≤ modulus) (many : 2 ≤ inputs.length)
    (old : LiteralsOver (· < next) inputs) (lt : maxBound < inputs.length)
    (room : next + buildDemand modulus inputs ≤ Variable.maxIndex + 1) :
    BoundEncoding .atMost inputs next (next + buildDemand modulus inputs)
      (plannedClauses (buildPlan modulus maxBound inputs next)) (· ≤ maxBound)
      (enforcing modulus (rootUpper modulus inputs next) (rootLower modulus inputs next)) := by
  obtain ⟨left, right, split, list⟩ := Halving.exists_fork many
  have demanded : buildDemand modulus inputs =
      inputs.length / modulus + (modulus - 1) + demandBelow modulus (.fork left right) := by
    simp [buildDemand, split]
  rw [demanded] at room ⊢
  rw [plannedClauses_buildPlan split]
  exact boundEncoding_grow two list rfl rfl rfl old lt room

end Plan

section Run

variable {σ : Type} [LawfulCollector σ]

/-- Below parts that were taken, a build follows its plan. Unless it ends in a fault, the root
has its parts, no matter how far the build came. -/
theorem buildTree_ran (two : 2 ≤ modulus) (lt : maxBound < inputs.length)
    {left right : Halving Literal} {upper lower : List Literal}
    (fit : PartsFit modulus (.fork left right) upper lower)
    (lengthUpper : upper.length = inputs.length / modulus)
    (lengthLower : lower.length = modulus - 1)
    {before w : Workspace σ} {first second : Piece} (silent : plannedClauses [first, second] = [])
    (fresh : plannedVariables [first, second] = upper.length + lower.length)
    (taken : before.Ran [first, second] none w) :
    ∃ failure t w', (ofPreset inputs (some modulus)).buildTree modulus maxBound (.fork left right)
        upper lower before.clauseCount before.supply.next w = ⟨failure, t, w'⟩ ∧
      before.Ran (first :: second :: (Tree.grow modulus (.fork left right) upper lower
        w.supply.next).1.pieces modulus maxBound 0 1) failure w' ∧ t.inputs = inputs ∧
      ((∀ f, failure ≠ some (.fault f)) → t.Complete modulus maxBound upper lower) := by
  obtain ⟨tree, grown⟩ : ∃ tree,
    (Tree.grow modulus (.fork left right) upper lower w.supply.next).1 = tree := ⟨_, rfl⟩
  have sized : tree.Sized modulus := grown ▸ Tree.sized_grow two fit _
  have planned : plannedVariables (tree.pieces modulus maxBound 0 1) =
      demandBelow modulus (.fork left right) :=
    grown ▸ Tree.plannedVariables_grow two fit _ 0 1
  have upper_eq : tree.upper = upper := grown ▸ Tree.upper_grow fit _
  have lower_eq : tree.lower = lower := grown ▸ rfl
  have pieces : ∀ p ∈ tree.pieces modulus maxBound 0 1, p.Complete := sized.complete two 0 1
  obtain ⟨ran, -⟩ := w.runPieces_ran pieces
  obtain ⟨done, failure, w', eq⟩ : ∃ done failure w',
    w.runPieces (tree.pieces modulus maxBound 0 1) = ⟨done, failure, w'⟩ := ⟨_, _, _, rfl⟩
  rw [eq] at ran
  have ran := (taken.trans ran).settle fun room => by
    rw [plannedVariables_append, fresh, planned] at room
    rw [plannedClauses_append, silent, List.nil_append, Tree.plannedClauses_pieces, ← grown]
    exact Tree.length_clauses_lt two fit _ (by omega)
  obtain ⟨failure', tally, settled⟩ : ∃ failure' tally, Tally.settle ⟨0, 0⟩ before.clauseCount
    before.supply.next w'.clauseCount w'.supply.next failure = (failure', tally) := ⟨_, _, rfl⟩
  rw [settled] at ran
  let built : ModularTotalizer := ⟨inputs, some modulus,
    Node.keepFirst 0 (1 + 2 * ((done + 1) / 2)) (tree.layout 0), some 0, some maxBound, tally⟩
  have complete : built.Complete modulus maxBound upper lower := by
    obtain ⟨root, found, upperAt, lowerAt⟩ :=
      tree.getElem?_keepFirst_layout (2 * ((done + 1) / 2)) 0
    exact ⟨two, rfl, rfl, lt, ⟨0, root, rfl, found, upperAt.trans upper_eq, lowerAt.trans lower_eq⟩,
      lengthUpper, lengthLower⟩
  rw [grown]
  cases failure' with
  | none =>
      refine ⟨none, built, w'.note (.modularBuilt inputs.length maxBound modulus
        tally.clauseCount tally.variableCount), ?_, ran.note _, rfl, fun _ => complete⟩
      simp only [buildTree, ofPreset, List.length_nil, Nat.zero_add, grown, eq, settled,
        List.nil_append]
      rfl
  | some why =>
      refine ⟨some why, built, w', ?_, ran, rfl, fun _ => complete⟩
      simp only [buildTree, ofPreset, List.length_nil, Nat.zero_add, grown, eq, settled,
        List.nil_append]
      rfl

/-- A build follows its plan. Unless it ends in a fault, the root has its parts, no matter how
far the build came. -/
theorem encode_ran (positive : 0 < maxBound) (lt : maxBound < inputs.length)
    (fixed : ∀ m, preset = some m → 2 ≤ m) (w : Workspace σ) :
    ∃ failure t w', (ofPreset inputs preset).encode maxBound w = ⟨failure, t, w'⟩ ∧
      w.Ran (buildPlan (modulusFor preset maxBound) maxBound inputs w.supply.next) failure w' ∧
      t.inputs = inputs ∧ ((∀ f, failure ≠ some (.fault f)) →
        t.Complete (modulusFor preset maxBound) maxBound
          (rootUpper (modulusFor preset maxBound) inputs w.supply.next)
          (rootLower (modulusFor preset maxBound) inputs w.supply.next)) := by
  have two := two_le_modulusFor fixed positive
  have chosen := chooseModulus_eq_or (ofPreset inputs preset) maxBound
  have open_ : ¬(maxBound = 0 ∨ inputs.length ≤ maxBound) := by omega
  obtain ⟨left, right, split, list⟩ := Halving.exists_fork (by omega : 2 ≤ inputs.length)
  obtain ⟨modulus, hModulus⟩ : ∃ m, m = modulusFor preset maxBound := ⟨_, rfl⟩
  rw [show modulusFor (ofPreset inputs preset).modulus maxBound = modulus from hModulus.symm]
    at chosen
  rw [← hModulus] at two ⊢
  obtain chosen | ⟨beyond, f, chosen⟩ := chosen
  swap
  · -- More inputs than sizes can count do not fit anyway.
    refine ⟨some (.fault f), ofPreset inputs preset, w, ?_, .crowded ?_, rfl, fun fine => ?_⟩
    · unfold encode
      rw [chosen]
      exact if_neg open_
    · apply Nat.lt_of_not_le
      intro room
      rw [plannedVariables_buildPlan two] at room
      have := add_two_lt_sizeRange two positive lt room
      omega
    · exact absurd rfl (fine f)
  have divided : divWithin inputs.length modulus = .ok (inputs.length / modulus) :=
    if_neg (by omega)
  have encode_eq : (ofPreset inputs preset).encode maxBound w =
      (ofPreset inputs (some modulus)).buildRoot modulus maxBound (.fork left right) w := by
    unfold encode
    rw [chosen]
    simp only [ofPreset, split]
    exact if_neg open_
  rw [encode_eq, buildPlan]
  simp only [split, buildRoot, ofPreset, divided, builtTree]
  obtain ⟨w₁, takenUpper, ran₁⟩ | ⟨f, w₁, takenUpper, ran₁⟩ :=
    w.takeLiterals_ran (inputs.length / modulus) none
  swap
  · exact ⟨_, _, w₁, by simp only [takenUpper]; rfl, ran₁.append _, rfl,
      fun fine => absurd rfl (fine f)⟩
  obtain ⟨w₂, takenLower, ran₂⟩ | ⟨f, w₂, takenLower, ran₂⟩ :=
    w₁.takeLiterals_ran (modulus - 1) none
  swap
  · exact ⟨_, _, w₂, by simp only [takenUpper, takenLower]; rfl, ran₁.trans (ran₂.append _), rfl,
      fun fine => absurd rfl (fine f)⟩
  have next₁ : w₁.supply.next = w.supply.next + inputs.length / modulus := ran₁.grows.next_eq
  have next₂ : w₂.supply.next = w.supply.next + inputs.length / modulus + (modulus - 1) := by
    rw [← next₁]
    exact ran₂.grows.next_eq
  have fresh : plannedVariables [⟨inputs.length / modulus, [], none⟩, ⟨modulus - 1, [], none⟩] =
      (rootUpper modulus inputs w.supply.next).length +
        (rootLower modulus inputs w.supply.next).length := by
    simp [rootUpper, rootLower, plannedVariables]
  obtain ⟨failure, t, w', built, ran, same, complete⟩ := buildTree_ran two lt
    (partsFit_builtTree two split w.supply.next) (by simp [rootUpper]) (by simp [rootLower]) rfl
    fresh (ran₁.trans ran₂)
  rw [next₂] at ran
  refine ⟨failure, t, w', ?_, ran, same, complete⟩
  rw [next₁] at takenLower
  simp only [takenUpper, takenLower]
  exact built

end Run

variable {σ : Type} [ReliableCollector σ]

/-- A build with room for its variables succeeds, and its tree is complete. -/
theorem encode_spec (positive : 0 < maxBound) (lt : maxBound < inputs.length)
    (fixed : ∀ m, preset = some m → 2 ≤ m) (w : Workspace σ)
    (old : LiteralsOver (· < w.supply.next) inputs)
    (room : w.supply.next + buildDemand (modulusFor preset maxBound) inputs ≤
      Variable.maxIndex + 1) :
    ∃ t w' clauses upper lower,
      (ofPreset inputs preset).encode maxBound w = ⟨none, t, w'⟩ ∧
      w.Grows w' clauses (buildDemand (modulusFor preset maxBound) inputs) ∧ t.inputs = inputs ∧
      t.Complete (modulusFor preset maxBound) maxBound upper lower ∧
      BoundEncoding .atMost inputs w.supply.next w'.supply.next clauses (· ≤ maxBound)
        (enforcing (modulusFor preset maxBound) upper lower) := by
  have two := two_le_modulusFor fixed positive
  obtain ⟨failure, t, w', encoded, ran, same, complete⟩ := encode_ran positive lt fixed w
  have planned := plannedVariables_buildPlan two maxBound inputs w.supply.next
  obtain ⟨rfl, grows⟩ := ran.of_unfailing (Collector.unfailing_of_reliable _) (by rwa [planned])
  rw [planned] at grows
  refine ⟨t, w', _, _, _, encoded, grows, same, complete (by simp), ?_⟩
  rw [grows.next_eq]
  exact boundEncoding_buildPlan two (by omega) old lt room

end Build

end CardinalityClauses.ModularTotalizer
