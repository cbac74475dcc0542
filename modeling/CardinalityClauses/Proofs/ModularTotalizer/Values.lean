import CardinalityClauses.Proofs.Encoding.Lenient
import CardinalityClauses.Proofs.ModularTotalizer.Grow

/-!
Values for the fresh variables of a modular totalizer.

The parts of a node are taken before what is below it. So once the parts of the root count
right, values are chosen from the root downwards: for the parts of both children, for the
carry, and then below. Every choice leaves the earlier ones alone.
-/

namespace CardinalityClauses.ModularTotalizer.Tree

open Unary
open VariableSupply (block)

/-! ### Which variables the clauses are over -/

section Over

variable {modulus maxBound next : Nat} {upper lower : List Literal} {carry : Option Literal}

theorem clausesOver_adderClauses {on : Nat → Prop} {left right : Tree} (two : 2 ≤ modulus)
    (sized : (node upper lower carry left right).Sized modulus)
    (overLeft : LiteralsOver on left.upper ∧ LiteralsOver on left.lower)
    (overRight : LiteralsOver on right.upper ∧ LiteralsOver on right.lower)
    (overUpper : LiteralsOver on upper) (overLower : LiteralsOver on lower)
    (overCarry : ∀ k, carry = some k → on k.index) :
    ClausesOver on (adderClauses modulus maxBound left right upper lower carry) := by
  intro c hc
  obtain low | ⟨k, set, up⟩ := mem_adderClauses.1 hc
  · exact (sized.lowerSized two).clausesOver_lowerAdder overLeft.2 overRight.2 overLower overCarry
      c low
  · exact clausesOver_upperAdder (sized.parts set) overLeft.1 overRight.1 overUpper
      (overCarry k set) c up

/-- The fresh literals of the parts of a child. -/
theorem literalsOver_fresh {shape : Halving Literal} {parts last : Nat}
    (room : parts + partsDemand modulus shape ≤ Variable.maxIndex + 1)
    (le : parts + partsDemand modulus shape ≤ last) :
    LiteralsOver (· < last) (block parts (upperWidth modulus shape)) ∧
      LiteralsOver (· < last)
        (block (parts + upperWidth modulus shape) (lowerWidth modulus shape)) := by
  rw [partsDemand] at room le
  exact ⟨(VariableSupply.literalsOver_block (by omega)).mono fun i hi => by omega,
    (VariableSupply.literalsOver_block (by omega)).mono fun i hi => by omega⟩

/-- The literals of the parts of a child are inputs or fresh. -/
theorem literalsOver_child (two : 2 ≤ modulus) {shape : Halving Literal} (parts rest : Nat)
    {last : Nat} (old : LiteralsOver (· < last) shape.toList)
    (room : parts + partsDemand modulus shape ≤ Variable.maxIndex + 1)
    (le : parts + partsDemand modulus shape ≤ last) :
    LiteralsOver (· < last) (child modulus shape parts rest).upper ∧
      LiteralsOver (· < last) (child modulus shape parts rest).lower := by
  obtain ⟨upper, lower⟩ := literalsOver_fresh room le
  rw [upper_child two, lower_child]
  refine ⟨upper, ?_⟩
  cases shape with
  | tip input => exact old
  | fork left right => exact lower

theorem carry_lt {n : Nat} (room : next + min 1 n ≤ Variable.maxIndex + 1) {k : Literal}
    (found : (block next (min 1 n))[0]? = some k) : k.index < next + min 1 n :=
  (VariableSupply.literalsOver_block room k (List.mem_of_getElem? found)).2

/-- The adder above two children is over their parts, its own and the carry. -/
theorem clausesOver_adder_children (two : 2 ≤ modulus) {left right : Halving Literal}
    {partsLeft restLeft partsRight restRight carry n last : Nat}
    (sized : (node upper lower (block carry (min 1 n))[0]? (child modulus left partsLeft restLeft)
      (child modulus right partsRight restRight)).Sized modulus)
    (oldLeft : LiteralsOver (· < last) left.toList)
    (oldRight : LiteralsOver (· < last) right.toList)
    (overUpper : LiteralsOver (· < last) upper) (overLower : LiteralsOver (· < last) lower)
    (room : last ≤ Variable.maxIndex + 1) (leLeft : partsLeft + partsDemand modulus left ≤ last)
    (leRight : partsRight + partsDemand modulus right ≤ last) (leCarry : carry + min 1 n ≤ last) :
    ClausesOver (· < last) (adderClauses modulus maxBound (child modulus left partsLeft restLeft)
      (child modulus right partsRight restRight) upper lower (block carry (min 1 n))[0]?) := by
  refine clausesOver_adderClauses two sized ?_ ?_ overUpper overLower ?_
  · exact literalsOver_child two _ _ oldLeft (by omega) leLeft
  · exact literalsOver_child two _ _ oldRight (by omega) leRight
  · intro k found
    exact Nat.lt_of_lt_of_le (carry_lt (by omega) found) leCarry

end Over

/-! ### Choosing values -/

section Values

variable {modulus maxBound next : Nat} {upper lower : List Literal} {shape : Halving Literal}

/-- Two fresh parts, one after the other, can be given the values of any count. -/
theorem exists_countsParts_blocks {start upperLength lowerLength : Nat}
    (room : start + upperLength + lowerLength ≤ Variable.maxIndex + 1) (v : Valuation)
    (count : Nat) :
    ∃ w, v.AgreeOutside start (start + upperLength + lowerLength) w ∧
      CountsParts w modulus (block start upperLength) (block (start + upperLength) lowerLength)
        count := by
  have roomUpper : start + upperLength ≤ Variable.maxIndex + 1 := by omega
  obtain ⟨u, agreeU, upperSet⟩ := VariableSupply.exists_agreeOutside_block roomUpper v
    fun k => decide (k < count / modulus)
  obtain ⟨w, agreeW, lowerSet⟩ := VariableSupply.exists_agreeOutside_block room u
    fun k => decide (k < count % modulus)
  refine ⟨w, ?_, ?_, counts_of_eq_decide lowerSet⟩
  · exact (agreeU.mono (Nat.le_refl _) (by omega)).trans (agreeW.mono (by omega) (Nat.le_refl _))
  · refine (counts_of_eq_decide upperSet).of_agree agreeW.below ?_
    exact (VariableSupply.literalsOver_block roomUpper).mono fun i hi => hi.2

/-- The parts of a child count its inputs. -/
def ChildCounts (modulus : Nat) (shape : Halving Literal) (parts rest : Nat) (v : Valuation) :
    Prop :=
  CountsParts v modulus (child modulus shape parts rest).upper
    (child modulus shape parts rest).lower (v.trueCount shape.toList)

theorem ChildCounts.of_agree (two : 2 ≤ modulus) {parts rest last : Nat} {v w : Valuation}
    (counts : ChildCounts modulus shape parts rest v) (agree : Valuation.Agree (· < last) v w)
    (old : LiteralsOver (· < last) shape.toList)
    (room : parts + partsDemand modulus shape ≤ Variable.maxIndex + 1)
    (le : parts + partsDemand modulus shape ≤ last) : ChildCounts modulus shape parts rest w := by
  obtain ⟨upper, lower⟩ := literalsOver_child two parts rest old room le
  unfold ChildCounts
  rw [← agree.trueCount_eq old]
  exact CountsParts.of_agree counts agree upper lower

/-- The parts of a child can be given the values of a right count. -/
theorem exists_childCounts (two : 2 ≤ modulus) (shape : Halving Literal) (parts : Nat)
    (old : LiteralsOver (· < parts) shape.toList)
    (room : parts + partsDemand modulus shape ≤ Variable.maxIndex + 1) (v : Valuation) :
    ∃ w, v.AgreeOutside parts (parts + partsDemand modulus shape) w ∧
      ∀ rest, ChildCounts modulus shape parts rest w := by
  cases shape with
  | tip input =>
      refine ⟨v, .refl _ v, fun rest => ⟨counts_of_eq_decide (by simp [upper_child two,
        upperWidth, VariableSupply.block]), ?_⟩⟩
      have one : v.trueCount [input] < modulus :=
        Nat.lt_of_le_of_lt (v.trueCount_le_length [input]) two
      rw [Halving.toList, Nat.mod_eq_of_lt one]
      exact counts_singleton v input
  | fork left right =>
      rw [partsDemand, ← Nat.add_assoc] at room ⊢
      obtain ⟨w, agree, counts⟩ := exists_countsParts_blocks room v
        (v.trueCount (Halving.fork left right).toList)
      refine ⟨w, agree, ?_⟩
      intro rest
      unfold ChildCounts
      rw [← agree.below.trueCount_eq old, upper_child two, lower_child]
      exact counts

/-- The carry can be given any value. -/
theorem exists_carry (next n : Nat) (room : next + min 1 n ≤ Variable.maxIndex + 1)
    (v : Valuation) (value : Bool) : ∃ w, v.AgreeOutside next (next + min 1 n) w ∧
      ∀ k, (block next (min 1 n))[0]? = some k → k.holds w = value := by
  obtain ⟨w, agree, set⟩ := VariableSupply.exists_agreeOutside_block room v fun _ => value
  exact ⟨w, agree, fun k found => set 0 k found⟩

/-- If the parts of a node count right, then those of its children and the carry can be given
values with which its adder holds. -/
theorem exists_models_adder (two : 2 ≤ modulus) {left right : Halving Literal}
    {atRight atCarry below n restLeft restRight : Nat}
    (sized : (node upper lower (block atCarry (min 1 n))[0]? (child modulus left next restLeft)
      (child modulus right atRight restRight)).Sized modulus)
    (hRight : atRight = next + partsDemand modulus left)
    (hCarry : atCarry = atRight + partsDemand modulus right) (hBelow : below = atCarry + min 1 n)
    (oldLeft : LiteralsOver (· < next) left.toList)
    (oldRight : LiteralsOver (· < next) right.toList) (overUpper : LiteralsOver (· < next) upper)
    (overLower : LiteralsOver (· < next) lower) (room : below ≤ Variable.maxIndex + 1)
    (v : Valuation) (counts : CountsParts v modulus upper lower
      (v.trueCount left.toList + v.trueCount right.toList)) :
    ∃ w, v.AgreeOutside next below w ∧ ChildCounts modulus left next restLeft w ∧
      ChildCounts modulus right atRight restRight w ∧
      w.Models (adderClauses modulus maxBound (child modulus left next restLeft)
        (child modulus right atRight restRight) upper lower (block atCarry (min 1 n))[0]?) := by
  -- Values are chosen in the order in which the variables are taken.
  obtain ⟨v₁, agree₁, countsLeft⟩ := exists_childCounts two left next oldLeft (by omega) v
  obtain ⟨v₂, agree₂, countsRight⟩ := exists_childCounts two right atRight
    (oldRight.upTo (by omega)) (by omega) v₁
  obtain ⟨w, agree₃, carrySet⟩ := exists_carry atCarry n (by omega) v₂
    (decide (modulus ≤ v.trueCount left.toList % modulus + v.trueCount right.toList % modulus))
  have keepLeft : Valuation.Agree (· < atRight) v₁ w :=
    agree₂.below.trans (agree₃.below.downTo (by omega))
  have keep : Valuation.Agree (· < next) v w :=
    agree₁.below.trans (keepLeft.downTo (by omega))
  have partsLeft : ChildCounts modulus left next restLeft w :=
    (countsLeft restLeft).of_agree two keepLeft (oldLeft.upTo (by omega)) (by omega)
      (by omega)
  have partsRight : ChildCounts modulus right atRight restRight w :=
    (countsRight restRight).of_agree two agree₃.below (oldRight.upTo (by omega))
      (by omega) (by omega)
  refine ⟨w, ?_, partsLeft, partsRight, ?_⟩
  · refine (agree₁.mono ?_ ?_).trans ((agree₂.mono ?_ ?_).trans (agree₃.mono ?_ ?_)) <;> omega
  · refine sized.models_adderClauses_of_counts two ?_ ?_ ?_ ?_ <;> simp only [inputs_child two]
    · exact partsLeft
    · exact partsRight
    · rw [← keep.trueCount_eq oldLeft, ← keep.trueCount_eq oldRight]
      exact counts.of_agree keep overUpper overLower
    · rwa [← keep.trueCount_eq oldLeft, ← keep.trueCount_eq oldRight]

/-- If the parts of the root count right, then however far the nodes are built, what is below
can be given values with which all clauses hold. -/
theorem lenient_grow (two : 2 ≤ modulus) (fit : PartsFit modulus shape upper lower)
    (old : LiteralsOver (· < next) shape.toList) (overUpper : LiteralsOver (· < next) upper)
    (overLower : LiteralsOver (· < next) lower) (position start : Nat) :
    Lenient (fun v => CountsParts v modulus (grow modulus shape upper lower next).1.upper
        (grow modulus shape upper lower next).1.lower (v.trueCount shape.toList)) next
      ((grow modulus shape upper lower next).1.pieces modulus maxBound position start) := by
  induction shape generalizing upper lower next position start with
  | tip input => exact .nil _ next
  | fork left right ihLeft ihRight =>
      rw [Halving.toList, literalsOver_append] at old
      obtain ⟨oldLeft, oldRight⟩ := old
      have sized := sized_grow two fit next
      rw [grow_fork two fit] at sized ⊢
      -- The variables from which the parts on the right, the carry and the rest are taken.
      obtain ⟨atRight, hRight⟩ : ∃ n, n = next + partsDemand modulus left := ⟨_, rfl⟩
      obtain ⟨atCarry, hCarry⟩ : ∃ n, n = atRight + partsDemand modulus right := ⟨_, rfl⟩
      obtain ⟨below, hBelow⟩ : ∃ n, n = atCarry +
        min 1 (upperCount modulus (left.size + right.size)) := ⟨_, rfl⟩
      simp only [← hRight, ← hCarry, ← hBelow] at sized ⊢
      have inLeft : LiteralsOver (· < below) left.toList := oldLeft.upTo (by omega)
      have inRight : LiteralsOver (· < below) right.toList := oldRight.upTo (by omega)
      refine .cons_cons rfl fun begun part room => ?_
      simp only [freshCount_child, length_toList_carry] at room ⊢
      rw [show next + (partsDemand modulus left + partsDemand modulus right) +
        min 1 (upperCount modulus (left.size + right.size)) = below by omega] at room ⊢
      have roomHere : below ≤ Variable.maxIndex + 1 := by omega
      have freshLeft : LiteralsOver (· < below) (block next (upperWidth modulus left)) ∧
          LiteralsOver (· < below)
            (block (next + upperWidth modulus left) (lowerWidth modulus left)) :=
        literalsOver_fresh (by omega) (by omega)
      have freshRight : LiteralsOver (· < below) (block atRight (upperWidth modulus right)) ∧
          LiteralsOver (· < below)
            (block (atRight + upperWidth modulus right) (lowerWidth modulus right)) :=
        literalsOver_fresh (by omega) (by omega)
      have own : ClausesOver (· < below) (adderClauses modulus maxBound
          (child modulus left next below)
          (child modulus right atRight (below + demandBelow modulus left)) upper lower
          (block atCarry (min 1 (upperCount modulus (left.size + right.size))))[0]?) := by
        refine clausesOver_adder_children two sized inLeft inRight ?_ ?_ roomHere ?_ ?_ ?_
        · exact overUpper.upTo (by omega)
        · exact overLower.upTo (by omega)
        all_goals omega
      have belowLeft : Lenient (ChildCounts modulus left next below) below
          ((child modulus left next below).pieces modulus maxBound start (start + 2)) :=
        ihLeft (partsFit_fresh two left next) inLeft freshLeft.1 freshLeft.2 _ _
      have belowRight :
          Lenient (ChildCounts modulus right atRight (below + demandBelow modulus left))
          (below + demandBelow modulus left)
          ((child modulus right atRight (below + demandBelow modulus left)).pieces modulus maxBound
            (start + 1) (start + 2 + (child modulus left next below).descendantCount)) := by
        refine ihRight (partsFit_fresh two right atRight) (inRight.upTo ?_) (freshRight.1.upTo ?_)
          (freshRight.2.upTo ?_) _ _ <;> omega
      have planned : plannedVariables ((child modulus left next below).pieces modulus maxBound start
          (start + 2)) = demandBelow modulus left :=
        plannedVariables_grow two (partsFit_fresh two left next) below start (start + 2)
      -- The values below the left child leave the parts of the right one alone.
      have children := Lenient.append (belowLeft.mono fun v (both : _ ∧ ChildCounts modulus right
        atRight (below + demandBelow modulus left) v) => both.1) belowRight (by rw [planned])
          fun _ v w both agree => both.2.of_agree two agree inRight (by omega) (by omega)
      have rest := children begun part room
      have about := clausesOver_append.2 ⟨own.upTo (Nat.le_add_right _ _), rest.about⟩
      refine ⟨about, fun v counts => ?_⟩
      rw [Halving.toList, Valuation.trueCount_append] at counts
      obtain ⟨v₁, agree₁, countsLeft, countsRight, models⟩ := exists_models_adder two sized hRight
        hCarry hBelow oldLeft oldRight overUpper overLower roomHere v counts
      obtain ⟨v₂, agree₂, modelsRest⟩ := rest.exists_models v₁ ⟨countsLeft, countsRight⟩
      refine ⟨v₂, ?_, Valuation.models_append.2 ⟨agree₂.below.models own models, modelsRest⟩⟩
      refine (agree₁.mono ?_ ?_).trans (agree₂.mono ?_ ?_) <;> omega

/-- If the parts of the root count right, then what is below can be given values with which
all clauses hold. -/
theorem allows_grow (two : 2 ≤ modulus) (fit : PartsFit modulus shape upper lower)
    (old : LiteralsOver (· < next) shape.toList) (overUpper : LiteralsOver (· < next) upper)
    (overLower : LiteralsOver (· < next) lower)
    (room : next + demandBelow modulus shape ≤ Variable.maxIndex + 1) :
    Allows (fun v => CountsParts v modulus (grow modulus shape upper lower next).1.upper
        (grow modulus shape upper lower next).1.lower (v.trueCount shape.toList)) next
      (next + demandBelow modulus shape)
      ((grow modulus shape upper lower next).1.clauses modulus maxBound) := by
  have allows := lenient_grow two fit old overUpper overLower 0 1
    ((grow modulus shape upper lower next).1.pieces modulus maxBound 0 1) List.prefix_rfl
  rw [plannedVariables_grow two fit, plannedClauses_pieces] at allows
  exact allows room

end Values

end CardinalityClauses.ModularTotalizer.Tree
