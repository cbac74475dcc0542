import CardinalityClauses.Stored.Formula
import CardinalityClauses.TightenableConstraint

/-!
The stored forms of the encoders, in every state they can be in: not built, built in part,
built, and as the tree behind a tightenable constraint.

The nodes of a tree are stored in the order of its layout. Reading checks the form only: a
root or a child may point anywhere, which shows when it is followed.
-/

namespace CardinalityClauses

/-! ### Totalizers -/

namespace Totalizer

namespace Node

/-- The stored form of a node. -/
def toData : Node → Data
  | leaf input => .record [("Leaf", input.toData)]
  | internal outputs depth maxValue left right =>
      .record [("Internal", .record [("out_lits", .ofList Literal.toData outputs),
        ("depth", .count depth), ("max_val", .count maxValue), ("left", .count left),
        ("right", .count right)])]

/-- Reads an inner node. -/
def internalOfData? (d : Data) : Option Node :=
  match d.recordParts? ["out_lits", "depth", "max_val", "left", "right"] with
  | some [outputs, depth, maxValue, left, right] => do
      let outputs ← Data.required (Data.toList? Literal.ofData?) outputs
      let depth ← Data.required (Data.toNumber? sizeRange) depth
      let maxValue ← Data.required (Data.toNumber? sizeRange) maxValue
      let left ← Data.required (Data.toNumber? sizeRange) left
      let right ← Data.required (Data.toNumber? sizeRange) right
      return internal outputs depth maxValue left right
  | _ => none

/-- Reads a node. -/
def ofData? (d : Data) : Option Node :=
  match d.form? with
  | some ("Leaf", some content) => (Literal.ofData? content).map leaf
  | some ("Internal", some content) => internalOfData? content
  | _ => none

end Node

/-- The stored form of what a totalizer was built for. -/
def builtToData (built : Direction × Nat) : Data :=
  .list [built.1.toData, .count built.2]

/-- Reads what a totalizer was built for. -/
def builtOfData? : Data → Option (Direction × Nat)
  | .list [direction, maxBound] => do
      let direction ← Direction.ofData? direction
      let maxBound ← Data.toNumber? sizeRange maxBound
      return (direction, maxBound)
  | _ => none

/-- The stored form of a totalizer. -/
def toData (t : Totalizer) : Data :=
  .record [("in_lits", .ofList Literal.toData t.inputs), ("nodes", .ofList Node.toData t.nodes),
    ("root", .ofOption .count t.root), ("encoded", .ofOption builtToData t.built),
    ("n_clauses", .count t.tally.clauseCount), ("n_vars", .count t.tally.variableCount)]

/-- Reads a totalizer. -/
def ofData? (d : Data) : Option Totalizer :=
  match d.parts? ["in_lits", "nodes", "root", "encoded", "n_clauses", "n_vars"] with
  | some [inputs, nodes, root, built, clauseCount, variableCount] => do
      let inputs ← Data.required (Data.toList? Literal.ofData?) inputs
      let nodes ← Data.required (Data.toList? Node.ofData?) nodes
      let root ← Data.toOption? (Data.toNumber? sizeRange) root
      let built ← Data.toOption? builtOfData? built
      let clauseCount ← Data.required (Data.toNumber? sizeRange) clauseCount
      let variableCount ← Data.required (Data.toNumber? indexRange) variableCount
      return ⟨inputs, nodes, root, built, ⟨clauseCount, variableCount⟩⟩
  | _ => none

end Totalizer

/-! ### Modular totalizers -/

namespace ModularTotalizer

/-- The stored form of the positions of two children. -/
def childrenToData (children : Nat × Nat) : Data :=
  .list [.count children.1, .count children.2]

/-- Reads the positions of two children. -/
def childrenOfData? : Data → Option (Nat × Nat)
  | .list [left, right] => do
      let left ← Data.toNumber? sizeRange left
      let right ← Data.toNumber? sizeRange right
      return (left, right)
  | _ => none

namespace Node

/-- The stored form of a node. -/
def toData (n : Node) : Data :=
  .record [("upper", .ofList Literal.toData n.upper), ("lower", .ofList Literal.toData n.lower),
    ("carry", .ofOption Literal.toData n.carry),
    ("children", .ofOption childrenToData n.children)]

/-- Reads a node. -/
def ofData? (d : Data) : Option Node :=
  match d.parts? ["upper", "lower", "carry", "children"] with
  | some [upper, lower, carry, children] => do
      let upper ← Data.required (Data.toList? Literal.ofData?) upper
      let lower ← Data.required (Data.toList? Literal.ofData?) lower
      let carry ← Data.toOption? Literal.ofData? carry
      let children ← Data.toOption? childrenOfData? children
      return ⟨upper, lower, carry, children⟩
  | _ => none

end Node

/-- The stored form of a modular totalizer. -/
def toData (t : ModularTotalizer) : Data :=
  .record [("in_lits", .ofList Literal.toData t.inputs),
    ("modulus", .ofOption .count t.modulus), ("nodes", .ofList Node.toData t.nodes),
    ("root", .ofOption .count t.root), ("max_ub", .ofOption .count t.maxBound),
    ("n_clauses", .count t.tally.clauseCount), ("n_vars", .count t.tally.variableCount)]

/-- Reads a modular totalizer. -/
def ofData? (d : Data) : Option ModularTotalizer :=
  match d.parts? ["in_lits", "modulus", "nodes", "root", "max_ub", "n_clauses", "n_vars"] with
  | some [inputs, modulus, nodes, root, maxBound, clauseCount, variableCount] => do
      let inputs ← Data.required (Data.toList? Literal.ofData?) inputs
      let modulus ← Data.toOption? (Data.toNumber? sizeRange) modulus
      let nodes ← Data.required (Data.toList? Node.ofData?) nodes
      let root ← Data.toOption? (Data.toNumber? sizeRange) root
      let maxBound ← Data.toOption? (Data.toNumber? sizeRange) maxBound
      let clauseCount ← Data.required (Data.toNumber? sizeRange) clauseCount
      let variableCount ← Data.required (Data.toNumber? indexRange) variableCount
      return ⟨inputs, modulus, nodes, root, maxBound, ⟨clauseCount, variableCount⟩⟩
  | _ => none

end ModularTotalizer

/-! ### Tightenable constraints -/

namespace CountingTree

/-- The stored form of the tree behind a constraint. -/
def toData : CountingTree → Data
  | totalizer t => .record [("Tot", t.toData)]
  | modular t => .record [("Mod", t.toData)]

/-- Reads the tree behind a constraint. -/
def ofData? (d : Data) : Option CountingTree :=
  match d.form? with
  | some ("Tot", some content) => (Totalizer.ofData? content).map totalizer
  | some ("Mod", some content) => (ModularTotalizer.ofData? content).map modular
  | _ => none

end CountingTree

namespace TightenableConstraint

/-- The stored form of a tightenable constraint. -/
def toData (c : TightenableConstraint) : Data :=
  .record [("lits", .ofList Literal.toData c.literals), ("kind", c.direction.toData),
    ("bound", .count c.bound), ("encoding", c.family.toData),
    ("modulus", .ofOption .count c.presetModulus),
    ("enc", .ofOption CountingTree.toData c.tree)]

/-- Reads a tightenable constraint. -/
def ofData? (d : Data) : Option TightenableConstraint :=
  match d.parts? ["lits", "kind", "bound", "encoding", "modulus", "enc"] with
  | some [literals, direction, bound, family, modulus, tree] => do
      let literals ← Data.required (Data.toList? Literal.ofData?) literals
      let direction ← Data.required Direction.ofData? direction
      let bound ← Data.required (Data.toNumber? sizeRange) bound
      let family ← Data.required Family.ofData? family
      let modulus ← Data.toOption? (Data.toNumber? sizeRange) modulus
      let tree ← Data.toOption? CountingTree.ofData? tree
      return ⟨literals, direction, bound, family, modulus, tree⟩
  | _ => none

end TightenableConstraint

end CardinalityClauses
