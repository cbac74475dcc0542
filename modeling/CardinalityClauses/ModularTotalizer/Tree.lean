import CardinalityClauses.Encoding.Halving
import CardinalityClauses.Encoding.Unary
import CardinalityClauses.Encoding.Workspace

/-!
The tree of a modular totalizer.

Every node counts the true inputs below it in two unary parts: the upper part counts whole
multiples of the modulus, the lower part what is left over. The adder of a node lets the
lower parts of its children overflow into a carry, and adds the carry to the upper parts.
Only upper bounds are supported: true literals of the children force true literals of the
node.

The tree is laid out as a sequence of nodes in which the children of a node stand side by
side, after the node. Nodes are made by their parents: a step of the build makes the two
children of a node, links them to it and hands its adder over.
-/

namespace CardinalityClauses.ModularTotalizer

/-- A tree whose nodes have the literals of both parts. -/
inductive Tree
  | leaf (input : Literal)
  | node (upper lower : List Literal) (carry : Option Literal) (left right : Tree)
  deriving Repr

/-- A node in the layout of a tree; children are positions. -/
structure Node where
  upper : List Literal
  lower : List Literal
  carry : Option Literal
  children : Option (Nat × Nat)
  deriving DecidableEq, Repr

/-- The node before it was linked to children. -/
def Node.unlinked (node : Node) : Node :=
  { node with carry := none, children := none }

/-- The first `count` nodes of a layout that stands from position `start` on, where only
the nodes are linked whose children are among them. -/
def Node.keepFirst (start count : Nat) (nodes : List Node) : List Node :=
  (nodes.take count).map fun node =>
    match node.children with
    | some (left, _) => if left < start + count then node else node.unlinked
    | none => node

/-! ### Adders -/

/-- The literal of a part that says that at least `n` is counted. A part cannot say that at
least zero is counted, nor speak of more than its length. -/
def literalFor (part : List Literal) (n : Nat) : Except Fault Literal :=
  if n = 0 then .error .arithmeticOverflow
  else
    match part[n - 1]? with
    | some l => .ok l
    | none => .error .indexOutOfBounds

/-- The sum of two lower parts below the modulus stands in the lower part of the node, or
sets the carry. A sum at the modulus sets the carry, and what a sum is above the modulus
stands in the lower part again. Sums that are too high to matter for any bound are left
out if the modulus is higher still. -/
def lowerClause (modulus maxBound : Nat) (left right lower : List Literal)
    (carry : Option Literal) (i j : Nat) : Option (Except Fault Clause) :=
  let sum := i + j
  let limit := maxBound + 2
  if sum = 0 ∨ (limit < sum ∧ limit < modulus) then none
  else
    let premises := Unary.atLeast left i ++ Unary.atLeast right j
    if sum < modulus then
      some ((literalFor lower sum).map fun l =>
        (Clause.implication premises l).append carry.toList)
    else if sum = modulus then
      match carry with
      | some l => some (.ok (.implication premises l))
      | none => some (.error .internalError)
    else some ((literalFor lower (sum % modulus)).map fun l => .implication premises l)

/-- The sum of two upper parts stands in the upper part of the node; with the carry set it
is one higher. A sum the upper part of the node has no literal for is impossible, which
goes without saying if nothing but the carry led to it. -/
def upperClauses (left right upper : List Literal) (carry : Literal) (i j : Nat) :
    List Clause :=
  let premises := Unary.atLeast left i ++ Unary.atLeast right j
  let plain :=
    if i + j = 0 then none else upper[i + j - 1]?.map fun l => Clause.implication premises l
  let carried : Clause :=
    ⟨premises.map Literal.complement ++ [carry.complement] ++ upper[i + j]?.toList⟩
  (plain.toList ++ [carried]).filter fun c => 1 < c.length

/-- The quotient, rounded up. -/
def ceilDiv (a b : Nat) : Nat :=
  (a + b - 1) / b

/-- The clauses over the lower parts. -/
def lowerAdder (modulus maxBound : Nat) (left right lower : List Literal)
    (carry : Option Literal) : Batch :=
  .ofMade ((List.range (left.length + 1)).flatMap fun i =>
    (List.range (right.length + 1)).filterMap fun j =>
      lowerClause modulus maxBound left right lower carry i j)

/-- The clauses over the upper parts, up to the multiple of the modulus that is beyond
every bound. -/
def upperAdder (modulus maxBound : Nat) (left right upper : List Literal) (carry : Literal) :
    Batch :=
  let limit := ceilDiv (maxBound + 1) modulus
  ⟨(List.range (left.length + 1)).flatMap fun i =>
    (List.range (right.length + 1)).flatMap fun j =>
      if i + j ≤ limit then upperClauses left right upper carry i j else [], none⟩

/-- How many literals the upper part of a node over `inputs` inputs has. -/
def upperCount (modulus inputs : Nat) : Nat :=
  inputs / modulus

/-- How many literals the lower part of a node over `inputs` inputs has. -/
def lowerCount (modulus inputs : Nat) : Nat :=
  min (modulus - 1) inputs

/-- The fresh literals of both parts of a node, from variable `next` on. An input has its
own literal and needs none. The last result is the first variable that is left. -/
def freshParts (modulus : Nat) : Halving Literal → (next : Nat) →
    List Literal × List Literal × Nat
  | .tip _, next => ([], [], next)
  | shape, next =>
      let upper := upperCount modulus shape.size
      let lower := lowerCount modulus shape.size
      (VariableSupply.block next upper, VariableSupply.block (next + upper) lower,
        next + upper + lower)

/-- The fresh carry of a node, from variable `next` on. A node without an upper part has
none. -/
def freshCarry (upper : List Literal) (next : Nat) : Option Literal × Nat :=
  if upper.isEmpty then (none, next) else (some (Variable.positive ⟨next⟩), next + 1)

namespace Tree

/-- The literals that count whole multiples of the modulus. -/
def upper : Tree → List Literal
  | leaf _ => []
  | node upper .. => upper

/-- The literals that count what is left over. -/
def lower : Tree → List Literal
  | leaf input => [input]
  | node _ lower .. => lower

/-- The number of nodes below the root of the tree. -/
def descendantCount : Tree → Nat
  | leaf _ => 0
  | node _ _ _ left right => left.descendantCount + right.descendantCount + 2

/-- The tree over halved inputs, given the literals of its root. Fresh variables are taken
from `next` on: for the parts of both children, for the carry, then on the left and on the
right. The second result is the first variable that is left. -/
def grow (modulus : Nat) : Halving Literal → (upper lower : List Literal) → (next : Nat) →
    Tree × Nat
  | .tip input, _, _, next => (leaf input, next)
  | .fork left right, upper, lower, next =>
      let (leftUpper, leftLower, next) := freshParts modulus left next
      let (rightUpper, rightLower, next) := freshParts modulus right next
      let (carry, next) := freshCarry upper next
      let (leftTree, next) := grow modulus left leftUpper leftLower next
      let (rightTree, next) := grow modulus right rightUpper rightLower next
      (node upper lower carry leftTree rightTree, next)

/-- How many fresh literals the root of the tree took. -/
def freshCount : Tree → Nat
  | leaf _ => 0
  | node upper lower .. => upper.length + lower.length

/-- The batches of the adder of a node. -/
def adder (modulus maxBound : Nat) (left right : Tree) (upper lower : List Literal)
    (carry : Option Literal) : List Batch :=
  lowerAdder modulus maxBound left.lower right.lower lower carry ::
    match carry with
    | some carry => [upperAdder modulus maxBound left.upper right.upper upper carry]
    | none => []

/-- Two pieces for every inner node, parents first: one makes its children, the other hands
its adder over. The root stands at `position`, the nodes below it from position `start`
on. -/
def pieces (modulus maxBound : Nat) : Tree → (position start : Nat) → List Piece
  | leaf _, _, _ => []
  | node upper lower carry left right, position, start =>
      let batches := adder modulus maxBound left right upper lower carry
      let rightStart := start + 2 + left.descendantCount
      { fresh := left.freshCount + right.freshCount
        batches := []
        event := none } ::
      { fresh := carry.toList.length
        batches := batches
        event := some (.modularAdder position (batches.flatMap Batch.clauses).length) } ::
      (left.pieces modulus maxBound start (start + 2) ++
        right.pieces modulus maxBound (start + 1) rightStart)

/-- The root of the tree as a node of the layout, if the nodes below it stand from position
`start` on. -/
def rootNode : Tree → (start : Nat) → Node
  | leaf input, _ => ⟨[], [input], none, none⟩
  | node upper lower carry _ _, start => ⟨upper, lower, carry, some (start, start + 1)⟩

/-- The nodes below the root from position `start` on: the children of the root, then what
is below the left one and what is below the right one. -/
def descendants : Tree → (start : Nat) → List Node
  | leaf _, _ => []
  | node _ _ _ left right, start =>
      let leftStart := start + 2
      let rightStart := leftStart + left.descendantCount
      left.rootNode leftStart :: right.rootNode rightStart ::
        (left.descendants leftStart ++ right.descendants rightStart)

/-- The nodes from position `start` on, parents before their children. -/
def layout (tree : Tree) (start : Nat) : List Node :=
  tree.rootNode (start + 1) :: tree.descendants (start + 1)

end Tree

end CardinalityClauses.ModularTotalizer
