import CardinalityClauses.Proofs.Encoding.Fresh
import CardinalityClauses.Stored.Formula

/-!
Parts that are read as they were written.

What is written of a number or a literal is read back if the number is within its range and the
literal has a code; a list or an optional part is read back if what is in it is.
-/

namespace CardinalityClauses

/-! ### Shared forms -/

namespace Data

variable {α : Type} {write : α → Data} {read : Data → Option α}

theorem toNumber?_count {range n : Nat} (lt : n < range) : toNumber? range (count n) = some n :=
  if_pos lt

theorem toList?_ofList {items : List α} (kept : ∀ a ∈ items, read (write a) = some a) :
    toList? read (ofList write items) = some items := by
  change (items.map write).mapM read = some items
  induction items with
  | nil => rfl
  | cons a rest ih =>
      rw [List.map_cons, List.mapM_cons, kept a List.mem_cons_self,
        ih fun b hb => kept b (List.mem_cons_of_mem a hb)]
      rfl

/-- A part that is there must not be written as one that is missing. -/
theorem toOption?_ofOption {part : Option α} (kept : ∀ a ∈ part, read (write a) = some a)
    (content : ∀ a, write a ≠ null) :
    toOption? read (some (ofOption write part)) = some part := by
  cases part with
  | none => rfl
  | some a =>
      rw [ofOption, toOption?, kept a rfl]
      · rfl
      · exact content a

theorem toOption?_count {range : Nat} {part : Option Nat} (inRange : ∀ n ∈ part, n < range) :
    toOption? (toNumber? range) (some (ofOption count part)) = some part :=
  toOption?_ofOption (fun n hn => toNumber?_count (inRange n hn)) nofun

end Data

/-! ### Literals -/

namespace Literal

theorem ofCode_code (l : Literal) : ofCode l.code = l := by
  obtain ⟨index, negated⟩ := l
  cases negated
  · have half : 2 * index / 2 = index := Nat.mul_div_cancel_left index Nat.two_pos
    simp [ofCode, code, half]
  · have half : (2 * index + 1) / 2 = index := by omega
    simp [ofCode, code, half]

theorem code_lt {l : Literal} (carried : l.index ≤ Variable.maxIndex) : l.code < indexRange := by
  have := Bool.toNat_le l.negated
  unfold code indexRange
  unfold Variable.maxIndex at carried
  omega

theorem ofData?_toData {l : Literal} (carried : l.index ≤ Variable.maxIndex) :
    ofData? l.toData = some l := by
  have parts : l.toData.parts? ["lidx"] = some [some (.count l.code)] := by
    simp [toData, Data.parts?, Data.field?]
  simp only [ofData?, parts, Data.required, Data.toNumber?_count (code_lt carried),
    Option.map_some, ofCode_code]

theorem ofList_toData {ls : List Literal} (carried : LiteralsOver (· ≤ Variable.maxIndex) ls) :
    Data.toList? ofData? (.ofList toData ls) = some ls :=
  Data.toList?_ofList fun l hl => ofData?_toData (carried l hl)

end Literal

/-! ### Names -/

theorem Direction.ofData?_toData (d : Direction) : ofData? d.toData = some d := by
  cases d <;> simp [ofData?, toData, Data.toName?, Data.form?]

theorem Family.ofData?_toData (f : Family) : ofData? f.toData = some f := by
  cases f <;> simp [ofData?, toData, name, Data.toName?, Data.form?]

end CardinalityClauses
