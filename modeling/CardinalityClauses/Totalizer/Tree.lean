import CardinalityClauses.Encoding.Halving
import CardinalityClauses.Encoding.Unary
import CardinalityClauses.Encoding.Workspace

/-!
The tree of a totalizer.

Every node counts the true inputs below it in unary: output `i` stands for "more than `i`
inputs are true". An adder relates the outputs of a node to those of its children, in one
direction only. For upper bounds, true outputs of the children force true outputs of the
node; for lower bounds, false ones force false ones. A node has no more outputs than the
bounds to be enforced can tell apart.

The tree is laid out as a sequence of nodes in which children stand before their parent.
-/

namespace CardinalityClauses.Totalizer

/-- A tree whose nodes have their outputs. -/
inductive Tree
  | leaf (input : Literal)
  | node (outputs : List Literal) (left right : Tree)
  deriving Repr

/-- A node in the layout of a tree; children are positions. -/
inductive Node
  | leaf (input : Literal)
  | internal (outputs : List Literal) (depth maxValue left right : Nat)
  deriving DecidableEq, Repr

namespace Node

/-- The literals that count the inputs below the node. -/
def outputs : Node → List Literal
  | leaf input => [input]
  | internal outputs .. => outputs

/-- The number of nodes on the longest way down. -/
def depth : Node → Nat
  | leaf _ => 1
  | internal _ depth .. => depth

/-- The node before its adder was handed over. -/
def withoutOutputs : Node → Node
  | leaf input => leaf input
  | internal _ depth maxValue left right => internal [] depth maxValue left right

/-- Keeps the outputs of the first `n` inner nodes only. -/
def keepOutputs : (n : Nat) → List Node → List Node
  | _, [] => []
  | n, leaf input :: rest => leaf input :: keepOutputs n rest
  | 0, node :: rest => node.withoutOutputs :: keepOutputs 0 rest
  | n + 1, node :: rest => node :: keepOutputs n rest

end Node

/-! ### Adders -/

/-- If `l` and `r` are reached on the left and on the right, then `l + r` is reached. -/
def reachClause (left right outputs : List Literal) (l r : Nat) : Option Clause :=
  if l + r = 0 then none
  else outputs[l + r - 1]?.map fun output =>
    .implication (Unary.atLeast left l ++ Unary.atLeast right r) output

/-- If no more than `l` and `r` are reached on the left and on the right, then no more than
`l + r` is reached. -/
def exceedClause (left right outputs : List Literal) (l r : Nat) :
    Option (Except Fault Clause) :=
  outputs[l + r]?.map fun output =>
    let premises := Unary.atMost left l ++ Unary.atMost right r
    if premises.isEmpty then .error .internalError
    else .ok (.implication premises output.complement)

/-- One entry for every pair of values that the counts of two children can have. -/
def forCounts {α : Type} (left right : List Literal) (entry : Nat → Nat → Option α) : List α :=
  (List.range (left.length + 1)).flatMap fun l =>
    (List.range (right.length + 1)).filterMap fun r => entry l r

/-- The clauses that relate the outputs of a node to those of its children. -/
def adder (direction : Direction) (left right outputs : List Literal) : Batch :=
  match direction with
  | .atMost => ⟨forCounts left right (reachClause left right outputs), none⟩
  | .atLeast => .ofMade (forCounts left right (exceedClause left right outputs))

/-- How many outputs a node over `inputs` inputs has. To enforce upper bounds it must tell
the counts up to one above the maximum bound apart, for lower bounds those up to it. -/
def outputCount (direction : Direction) (maxBound inputs : Nat) : Nat :=
  match direction with
  | .atMost => min inputs (maxBound + 1)
  | .atLeast => min inputs maxBound

namespace Tree

/-- The literals that count the inputs below the tree. -/
def outputs : Tree → List Literal
  | leaf input => [input]
  | node outputs .. => outputs

/-- The number of inputs. -/
def inputCount : Tree → Nat
  | leaf _ => 1
  | node _ left right => left.inputCount + right.inputCount

/-- The number of nodes. -/
def nodeCount : Tree → Nat
  | leaf _ => 1
  | node _ left right => left.nodeCount + right.nodeCount + 1

/-- The number of nodes on the longest way down. -/
def depth : Tree → Nat
  | leaf _ => 1
  | node _ left right => max left.depth right.depth + 1

/-- The tree over halved inputs, where a node over `n` inputs has `width n` outputs. They
are the variables from `next` on, children first; the second result is the first variable
that is left. -/
def grow (width : Nat → Nat) : Halving Literal → (next : Nat) → Tree × Nat
  | .tip input, next => (leaf input, next)
  | .fork left right, next =>
      let (leftTree, next) := grow width left next
      let (rightTree, next) := grow width right next
      let count := width (left.size + right.size)
      (node (VariableSupply.block next count) leftTree rightTree, next + count)

/-- One piece for every inner node, children first. The nodes of the tree stand from
position `start` on. -/
def pieces (direction : Direction) : Tree → (start : Nat) → List Piece
  | leaf _, _ => []
  | node outputs left right, start =>
      let rightStart := start + left.nodeCount
      let position := rightStart + right.nodeCount
      left.pieces direction start ++ right.pieces direction rightStart ++
        [{ fresh := outputs.length
           batches := [adder direction left.outputs right.outputs outputs]
           event := some (.totalizerAdder position outputs.length) }]

/-- The nodes from position `start` on, children before their parent. -/
def layout : Tree → (start : Nat) → List Node
  | leaf input, _ => [.leaf input]
  | node outputs left right, start =>
      let rightStart := start + left.nodeCount
      let position := rightStart + right.nodeCount
      left.layout start ++ right.layout rightStart ++
        [.internal outputs (max left.depth right.depth + 1)
          (left.inputCount + right.inputCount) (rightStart - 1) (position - 1)]

end Tree

end CardinalityClauses.Totalizer
