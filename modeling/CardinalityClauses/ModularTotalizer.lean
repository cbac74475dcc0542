import CardinalityClauses.Arithmetic.CeilSqrt
import CardinalityClauses.ModularTotalizer.Tree

/-!
The modular totalizer: an encoding of upper bounds by a tree of counters in two parts.

With a modulus near the square root of the bound this takes far fewer variables than a tree
of unary counters. The modulus is fixed by the first build, or before it, and stays.

A tree is built only for a maximum bound that is neither zero nor met by every assignment.
The root and the maximum are recorded before the first clause is handed over, so a build
that fails leaves an encoder that counts as built.
-/

namespace CardinalityClauses

/-- A tree of counters in two parts over some inputs, built or yet to be built. -/
structure ModularTotalizer where
  inputs : List Literal
  /-- The modulus, once it is fixed. -/
  modulus : Option Nat
  /-- The nodes of the tree in their layout. -/
  nodes : List ModularTotalizer.Node
  /-- The position of the root. -/
  root : Option Nat
  /-- The maximum bound of the build. -/
  maxBound : Option Nat
  /-- The clauses and variables of the tree. -/
  tally : Tally
  deriving DecidableEq, Repr

namespace ModularTotalizer

/-- The encoder over some inputs, not built yet. -/
def ofInputs (inputs : List Literal) : ModularTotalizer :=
  ⟨inputs, none, [], none, none, ⟨0, 0⟩⟩

/-- Whether a tree was built. -/
def isBuilt (t : ModularTotalizer) : Bool :=
  t.root.isSome

/-- Fixes the modulus. -/
def setModulus (t : ModularTotalizer) (modulus : Nat) : Except Refusal ModularTotalizer :=
  if modulus < 2 then .error (.modulusTooSmall modulus)
  else if t.isBuilt then .error .alreadyEncoded
  else .ok { t with modulus := some modulus }

/-- The number of nodes on the longest way down from a node. A way through a layout without
cycles has no more nodes than the layout, so `fuel` at their number is enough. -/
def depthFrom (nodes : List Node) : (fuel : Nat) → (position : Nat) → Except Fault Nat
  | 0, _ => .error .internalError
  | fuel + 1, position =>
      match nodes[position]? with
      | none => .error .indexOutOfBounds
      | some node =>
          match node.children with
          | none => .ok 1
          | some (left, right) => do
              let leftDepth ← depthFrom nodes fuel left
              let rightDepth ← depthFrom nodes fuel right
              return max leftDepth rightDepth + 1

/-- The number of nodes on the longest way down the tree. -/
def depth (t : ModularTotalizer) : Except Fault Nat :=
  match t.root with
  | none => .ok 0
  | some position => depthFrom t.nodes (t.nodes.length + 1) position

variable {σ : Type} [Collector σ]

/-- Links a root with given parts to the tree over halved inputs and hands the adders
over. The counts start from `clausesBefore` and `variablesBefore`. -/
def buildTree (t : ModularTotalizer) (modulus maxBound : Nat) (shape : Halving Literal)
    (upper lower : List Literal) (clausesBefore variablesBefore : Nat) (w : Workspace σ) :
    Outcome ModularTotalizer σ :=
  let position := t.nodes.length
  let (tree, _) := Tree.grow modulus shape upper lower w.supply.next
  let ⟨finished, failure, w⟩ := w.runPieces (tree.pieces modulus maxBound position (position + 1))
  let (failure, tally) :=
    t.tally.settle clausesBefore variablesBefore w.clauseCount w.supply.next failure
  let made := 1 + 2 * ((finished + 1) / 2)
  let t := { t with
    nodes := t.nodes ++ Node.keepFirst position made (tree.layout position)
    root := some position
    maxBound := some maxBound
    tally := tally }
  match failure with
  | some failure => ⟨some failure, t, w⟩
  | none =>
      ⟨none, t,
        w.note (.modularBuilt t.inputs.length maxBound modulus tally.clauseCount
          tally.variableCount)⟩

/-- Takes the literals of the root and builds the tree below it. -/
def buildRoot (t : ModularTotalizer) (modulus maxBound : Nat) (shape : Halving Literal)
    (w : Workspace σ) : Outcome ModularTotalizer σ :=
  let clausesBefore := w.clauseCount
  let variablesBefore := w.supply.next
  match divWithin t.inputs.length modulus with
  | .error f => ⟨some (.fault f), t, w⟩
  | .ok upperLength =>
      match w.takeLiterals upperLength with
      | (.error f, w) => ⟨some (.fault f), t, w⟩
      | (.ok upper, w) =>
          match w.takeLiterals (modulus - 1) with
          | (.error f, w) => ⟨some (.fault f), t, w⟩
          | (.ok lower, w) =>
              t.buildTree modulus maxBound shape upper lower clausesBefore variablesBefore w

/-- The modulus of a build: the fixed one, or the root of the first number that is beyond
the maximum bound. -/
def chooseModulus (t : ModularTotalizer) (maxBound : Nat) : Except Fault Nat :=
  match t.modulus with
  | some modulus => .ok modulus
  | none => ceilSqrt (maxBound + 1)

/-- Builds the tree such that every upper bound up to `maxBound` can be enforced. Nothing is
built for a maximum of zero or one that every assignment meets. -/
def encode (t : ModularTotalizer) (maxBound : Nat) (w : Workspace σ) :
    Outcome ModularTotalizer σ :=
  match t.maxBound with
  | some builtMaximum =>
      if maxBound ≤ builtMaximum ∨ t.inputs.length ≤ maxBound then ⟨none, t, w⟩
      else ⟨some (.refused .alreadyEncoded), t, w⟩
  | none =>
      if maxBound = 0 ∨ t.inputs.length ≤ maxBound then ⟨none, t, w⟩
      else
        match t.chooseModulus maxBound, Halving.ofList? t.inputs with
        | .ok modulus, some shape =>
            { t with modulus := some modulus }.buildRoot modulus maxBound shape w
        | .error f, _ => ⟨some (.fault f), t, w⟩
        | _, none => ⟨none, t, w⟩

/-- Hands over the clauses that limit the count in the parts of the root: the multiples of
the modulus beyond the bound are not reached, and if those within it are, what is left over
stays within the bound too. -/
def enforceParts (modulus : Nat) (root : Node) (bound : Nat) (w : Workspace σ) :
    Option Failure × Workspace σ :=
  let upperLimit := (bound + 1) / modulus
  let lowerLimit := (bound + 1) % modulus
  if root.upper.length < upperLimit ∨ root.lower.length < lowerLimit then
    (some (.fault .internalError), w)
  else
    match w.extend ((root.upper.drop upperLimit).map fun u => .unit u.complement) with
    | (some failure, w) => (some failure, w)
    | (none, w) =>
        match Unary.atLeast root.upper upperLimit with
        | [] =>
            w.extend ((root.lower.drop (lowerLimit - 1)).map fun l => .unit l.complement)
        | u :: _ =>
            if lowerLimit = 0 then w.extend [.unit u.complement]
            else
              w.extend ((root.lower.drop (lowerLimit - 1)).map fun l =>
                ⟨[u.complement, l.complement]⟩)

/-- Enforces an upper bound at the root of the tree. -/
def enforceAtRoot (t : ModularTotalizer) (position bound : Nat) (w : Workspace σ) :
    Option Failure × Workspace σ :=
  match t.modulus, t.nodes[position]? with
  | none, _ => (some (.fault .internalError), w)
  | some _, none => (some (.fault .indexOutOfBounds), w)
  | some modulus, some root =>
      if modulus = 0 then (some (.fault .divisionByZero), w)
      else enforceParts modulus root bound w

/-- Enforces that at most `bound` inputs are true. Without a tree this is possible for zero
and for bounds that every assignment meets. -/
def enforceUpper (t : ModularTotalizer) (bound : Nat) (w : Workspace σ) :
    Option Failure × Workspace σ :=
  if t.inputs.length ≤ bound then (none, w)
  else
    match t.root, t.maxBound with
    | some position, some builtMaximum =>
        if bound ≤ builtMaximum then t.enforceAtRoot position bound w
        else (some (.refused .notEncoded), w)
    | none, _ =>
        if bound = 0 then w.extend (t.inputs.map fun l => .unit l.complement)
        else (some (.refused .notEncoded), w)
    | some _, none => (some (.refused .notEncoded), w)

/-- Builds an encoder for one upper bound only and enforces it. -/
def encodeUpper (inputs : List Literal) (bound : Nat) (w : Workspace σ) :
    Option Failure × Workspace σ :=
  match (ofInputs inputs).encode bound w with
  | ⟨some failure, _, w⟩ => (some failure, w)
  | ⟨none, t, w⟩ => t.enforceUpper bound w

end ModularTotalizer

end CardinalityClauses
