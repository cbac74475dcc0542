import CardinalityClauses.Proofs.Stored.Parts
import CardinalityClauses.Session.Encoder

/-!
Encoders that are read as they were written.

An encoder can be stored if its literals have codes and its numbers are within the ranges they are
read with. Then it is read back as it was, whether it is built or not, in part or to its end. As
the kinds of encoders have different fields, encoders that are written alike are equal
(`Encoder.eq_of_toData_eq`).
-/

namespace CardinalityClauses

/-- Both counts are within their ranges. -/
structure Tally.Storable (t : Tally) : Prop where
  clauseCount_lt : t.clauseCount < sizeRange
  variableCount_lt : t.variableCount < indexRange

/-! ### Totalizers -/

namespace Totalizer

/-- The outputs have codes, and the numbers are sizes. -/
def Node.Storable : Node → Prop
  | leaf input => input.index ≤ Variable.maxIndex
  | internal outputs depth maxValue left right =>
      LiteralsOver (· ≤ Variable.maxIndex) outputs ∧ depth < sizeRange ∧ maxValue < sizeRange ∧
        left < sizeRange ∧ right < sizeRange

theorem Node.ofData?_toData {n : Node} (storable : n.Storable) : ofData? n.toData = some n := by
  cases n with
  | leaf input =>
      simp only [ofData?, toData, Data.form?, Literal.ofData?_toData storable, Option.map_some]
  | internal outputs depth maxValue left right =>
      obtain ⟨carried, deep, high, leftIn, rightIn⟩ := storable
      have parts : (Data.record [("out_lits", .ofList Literal.toData outputs),
          ("depth", .count depth), ("max_val", .count maxValue), ("left", .count left),
          ("right", .count right)]).recordParts? ["out_lits", "depth", "max_val", "left", "right"] =
          some [some (.ofList Literal.toData outputs), some (.count depth), some (.count maxValue),
            some (.count left), some (.count right)] := by
        simp [Data.recordParts?, Data.field?]
      simp only [ofData?, toData, Data.form?, internalOfData?, parts, Data.required,
        Literal.ofList_toData carried, Data.toNumber?_count deep, Data.toNumber?_count high,
        Data.toNumber?_count leftIn, Data.toNumber?_count rightIn]
      rfl

theorem builtOfData?_builtToData {built : Direction × Nat} (lt : built.2 < sizeRange) :
    builtOfData? (builtToData built) = some built := by
  simp only [builtToData, builtOfData?, Direction.ofData?_toData, Data.toNumber?_count lt]
  rfl

/-- A totalizer of which all literals have codes and all numbers are within their ranges. -/
structure Storable (t : Totalizer) : Prop where
  inputs : LiteralsOver (· ≤ Variable.maxIndex) t.inputs
  nodes : ∀ n ∈ t.nodes, n.Storable
  root : ∀ position ∈ t.root, position < sizeRange
  built : ∀ built ∈ t.built, built.2 < sizeRange
  tally : t.tally.Storable

theorem ofData?_toData {t : Totalizer} (storable : t.Storable) : ofData? t.toData = some t := by
  have parts : t.toData.parts? ["in_lits", "nodes", "root", "encoded", "n_clauses", "n_vars"] =
      some [some (.ofList Literal.toData t.inputs), some (.ofList Node.toData t.nodes),
        some (.ofOption .count t.root), some (.ofOption builtToData t.built),
        some (.count t.tally.clauseCount), some (.count t.tally.variableCount)] := by
    simp [toData, Data.parts?, Data.field?]
  have nodes : Data.toList? Node.ofData? (.ofList Node.toData t.nodes) = some t.nodes :=
    Data.toList?_ofList fun n hn => Node.ofData?_toData (storable.nodes n hn)
  have built : Data.toOption? builtOfData? (some (.ofOption builtToData t.built)) = some t.built :=
    Data.toOption?_ofOption (fun b hb => builtOfData?_builtToData (storable.built b hb))
      fun _ null => by cases null
  simp only [ofData?, parts, Data.required, Literal.ofList_toData storable.inputs, nodes,
    Data.toOption?_count storable.root, built, Data.toNumber?_count storable.tally.clauseCount_lt,
    Data.toNumber?_count storable.tally.variableCount_lt]
  rfl

end Totalizer

/-! ### Modular totalizers -/

namespace ModularTotalizer

/-- The literals of the parts have codes, and the children stand at positions in range. -/
structure Node.Storable (n : Node) : Prop where
  upper : LiteralsOver (· ≤ Variable.maxIndex) n.upper
  lower : LiteralsOver (· ≤ Variable.maxIndex) n.lower
  carry : ∀ carry ∈ n.carry, carry.index ≤ Variable.maxIndex
  children : ∀ children ∈ n.children, children.1 < sizeRange ∧ children.2 < sizeRange

theorem childrenOfData?_childrenToData {children : Nat × Nat}
    (inRange : children.1 < sizeRange ∧ children.2 < sizeRange) :
    childrenOfData? (childrenToData children) = some children := by
  simp only [childrenToData, childrenOfData?, Data.toNumber?_count inRange.1,
    Data.toNumber?_count inRange.2]
  rfl

theorem Node.ofData?_toData {n : Node} (storable : n.Storable) : ofData? n.toData = some n := by
  have parts : n.toData.parts? ["upper", "lower", "carry", "children"] =
      some [some (.ofList Literal.toData n.upper), some (.ofList Literal.toData n.lower),
        some (.ofOption Literal.toData n.carry),
        some (.ofOption childrenToData n.children)] := by
    simp [toData, Data.parts?, Data.field?]
  have carry : Data.toOption? Literal.ofData? (some (.ofOption Literal.toData n.carry)) =
      some n.carry :=
    Data.toOption?_ofOption (fun l hl => Literal.ofData?_toData (storable.carry l hl))
      fun _ null => by cases null
  have children : Data.toOption? childrenOfData? (some (.ofOption childrenToData n.children)) =
      some n.children :=
    Data.toOption?_ofOption
      (fun c hc => childrenOfData?_childrenToData (storable.children c hc))
      fun _ null => by cases null
  simp only [ofData?, parts, Data.required, Literal.ofList_toData storable.upper,
    Literal.ofList_toData storable.lower, carry, children]
  rfl

/-- A modular totalizer of which all literals have codes and all numbers are within their
ranges. -/
structure Storable (t : ModularTotalizer) : Prop where
  inputs : LiteralsOver (· ≤ Variable.maxIndex) t.inputs
  modulus : ∀ modulus ∈ t.modulus, modulus < sizeRange
  nodes : ∀ n ∈ t.nodes, n.Storable
  root : ∀ position ∈ t.root, position < sizeRange
  maxBound : ∀ maxBound ∈ t.maxBound, maxBound < sizeRange
  tally : t.tally.Storable

theorem ofData?_toData {t : ModularTotalizer} (storable : t.Storable) :
    ofData? t.toData = some t := by
  have parts : t.toData.parts?
      ["in_lits", "modulus", "nodes", "root", "max_ub", "n_clauses", "n_vars"] =
      some [some (.ofList Literal.toData t.inputs), some (.ofOption .count t.modulus),
        some (.ofList Node.toData t.nodes), some (.ofOption .count t.root),
        some (.ofOption .count t.maxBound), some (.count t.tally.clauseCount),
        some (.count t.tally.variableCount)] := by
    simp [toData, Data.parts?, Data.field?]
  have nodes : Data.toList? Node.ofData? (.ofList Node.toData t.nodes) = some t.nodes :=
    Data.toList?_ofList fun n hn => Node.ofData?_toData (storable.nodes n hn)
  simp only [ofData?, parts, Data.required, Literal.ofList_toData storable.inputs,
    Data.toOption?_count storable.modulus, nodes, Data.toOption?_count storable.root,
    Data.toOption?_count storable.maxBound, Data.toNumber?_count storable.tally.clauseCount_lt,
    Data.toNumber?_count storable.tally.variableCount_lt]
  rfl

end ModularTotalizer

/-! ### Tightenable constraints -/

namespace CountingTree

/-- The tree can be stored. -/
def Storable : CountingTree → Prop
  | totalizer t => t.Storable
  | modular t => t.Storable

theorem ofData?_toData {tree : CountingTree} (storable : tree.Storable) :
    ofData? tree.toData = some tree := by
  cases tree with
  | totalizer t =>
      simp only [ofData?, toData, Data.form?, Totalizer.ofData?_toData storable, Option.map_some]
  | modular t =>
      simp only [ofData?, toData, Data.form?, ModularTotalizer.ofData?_toData storable,
        Option.map_some]

end CountingTree

namespace TightenableConstraint

/-- A constraint of which all literals have codes and all numbers are within their ranges. -/
structure Storable (c : TightenableConstraint) : Prop where
  literals : LiteralsOver (· ≤ Variable.maxIndex) c.literals
  bound : c.bound < sizeRange
  presetModulus : ∀ modulus ∈ c.presetModulus, modulus < sizeRange
  tree : ∀ tree ∈ c.tree, tree.Storable

theorem ofData?_toData {c : TightenableConstraint} (storable : c.Storable) :
    ofData? c.toData = some c := by
  have parts : c.toData.parts? ["lits", "kind", "bound", "encoding", "modulus", "enc"] =
      some [some (.ofList Literal.toData c.literals), some c.direction.toData,
        some (.count c.bound), some c.family.toData, some (.ofOption .count c.presetModulus),
        some (.ofOption CountingTree.toData c.tree)] := by
    simp [toData, Data.parts?, Data.field?]
  have tree : Data.toOption? CountingTree.ofData? (some (.ofOption CountingTree.toData c.tree)) =
      some c.tree :=
    Data.toOption?_ofOption (fun t ht => CountingTree.ofData?_toData (storable.tree t ht))
      fun tree null => by cases tree <;> cases null
  simp only [ofData?, parts, Data.required, Literal.ofList_toData storable.literals,
    Direction.ofData?_toData, Data.toNumber?_count storable.bound, Family.ofData?_toData,
    Data.toOption?_count storable.presetModulus, tree]
  rfl

end TightenableConstraint

/-! ### Encoders of any kind -/

namespace Encoder

/-- The encoder can be stored. -/
def Storable : Encoder → Prop
  | totalizer t => t.Storable
  | modular t => t.Storable
  | constraint c => c.Storable

/-- An encoder that can be stored is read back as it was. -/
theorem ofData?_toData {e : Encoder} (storable : e.Storable) :
    ofData? e.kind e.toData = some e := by
  cases e with
  | totalizer t =>
      simp only [ofData?, kind, toData, Totalizer.ofData?_toData storable, Option.map_some]
  | modular t =>
      simp only [ofData?, kind, toData, ModularTotalizer.ofData?_toData storable, Option.map_some]
  | constraint c =>
      simp only [ofData?, kind, toData, TightenableConstraint.ofData?_toData storable,
        Option.map_some]

/-- The names of the fields tell the kinds apart. -/
theorem kind_eq_of_toData_eq {e e' : Encoder} (eq : e.toData = e'.toData) : e.kind = e'.kind := by
  cases e <;> cases e' <;>
    simp_all [kind, toData, Totalizer.toData, ModularTotalizer.toData,
      TightenableConstraint.toData]

/-- Encoders that are written alike are equal. -/
theorem eq_of_toData_eq {e e' : Encoder} (storable : e.Storable) (storable' : e'.Storable)
    (eq : e.toData = e'.toData) : e = e' := by
  have read := ofData?_toData storable
  rw [kind_eq_of_toData_eq eq, eq, ofData?_toData storable'] at read
  exact (Option.some.inj read).symm

end Encoder

end CardinalityClauses
