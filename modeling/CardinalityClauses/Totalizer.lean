import CardinalityClauses.Totalizer.Tree

/-!
The totalizer: an encoding of bounds from either side by a tree of unary counters.

A totalizer is built once, for one direction and a maximum bound. After that every bound up
to the maximum is enforced by one unit clause over the outputs of the root, in any order.

The direction and the maximum are recorded before the first clause is handed over, and the
outputs of a node after its adder was taken. So a build that fails leaves a totalizer that
counts as built and whose outputs end where the build ended.
-/

namespace CardinalityClauses

/-- A tree of unary counters over some inputs, built or yet to be built. -/
structure Totalizer where
  inputs : List Literal
  /-- The nodes of the tree in their layout. -/
  nodes : List Totalizer.Node
  /-- The position of the root. -/
  root : Option Nat
  /-- The direction and the maximum bound of the build. -/
  built : Option (Direction × Nat)
  /-- The clauses and variables of the tree. -/
  tally : Tally
  deriving DecidableEq, Repr

namespace Totalizer

/-- The totalizer over some inputs, not built yet. -/
def ofInputs (inputs : List Literal) : Totalizer :=
  ⟨inputs, [], none, none, ⟨0, 0⟩⟩

/-- The root of the tree, if there is one. -/
def rootNode (t : Totalizer) : Except Fault (Option Node) :=
  match t.root with
  | none => .ok none
  | some position =>
      match t.nodes[position]? with
      | some node => .ok (some node)
      | none => .error .indexOutOfBounds

/-- The number of nodes on the longest way down the tree. -/
def depth (t : Totalizer) : Except Fault Nat := do
  let root ← t.rootNode
  return (root.map Node.depth).getD 0

/-- The literals that count all inputs. -/
def outputs (t : Totalizer) : Except Fault (List Literal) := do
  let root ← t.rootNode
  return (root.map Node.outputs).getD []

/-- The direction of the build. -/
def direction (t : Totalizer) : Option Direction :=
  t.built.map fun (direction, _) => direction

variable {σ : Type} [Collector σ]

/-- Builds the tree over halved inputs and hands its adders over. -/
def buildTree (t : Totalizer) (direction : Direction) (maxBound : Nat) (shape : Halving Literal)
    (w : Workspace σ) : Outcome Totalizer σ :=
  let clausesBefore := w.clauseCount
  let variablesBefore := w.supply.next
  let start := t.nodes.length
  let (tree, _) := Tree.grow (outputCount direction maxBound) shape variablesBefore
  let ⟨finished, failure, w⟩ := w.runPieces (tree.pieces direction start)
  let (failure, tally) :=
    t.tally.settle clausesBefore variablesBefore w.clauseCount w.supply.next failure
  let t := { t with
    nodes := t.nodes ++ Node.keepOutputs finished (tree.layout start)
    root := some (start + tree.nodeCount - 1)
    tally := tally }
  match failure with
  | some failure => ⟨some failure, t, w⟩
  | none =>
      ⟨none, t,
        w.note (.totalizerBuilt t.inputs.length direction maxBound tally.clauseCount
          tally.variableCount)⟩

/-- Builds the tree such that every bound up to `maxBound` can be enforced. A tree that
was built for the same direction and no lower maximum is kept. -/
def encode (t : Totalizer) (direction : Direction) (maxBound : Nat) (w : Workspace σ) :
    Outcome Totalizer σ :=
  match t.built with
  | some (builtDirection, builtMaximum) =>
      if builtDirection ≠ direction then ⟨some (.refused .directionNotSupported), t, w⟩
      else if maxBound ≤ builtMaximum then ⟨none, t, w⟩
      else ⟨some (.refused .alreadyEncoded), t, w⟩
  | none =>
      let t := { t with built := some (direction, maxBound) }
      match Halving.ofList? t.inputs with
      | none => ⟨none, t, w⟩
      | some shape => t.buildTree direction maxBound shape w

/-- Whether the build can enforce a bound from the given side. -/
def supports (t : Totalizer) (direction : Direction) (bound : Nat) : Except Refusal Unit :=
  match t.built with
  | none => .error .notEncoded
  | some (builtDirection, builtMaximum) =>
      if builtDirection ≠ direction then .error .directionNotSupported
      else if bound ≤ builtMaximum then .ok ()
      else .error .notEncoded

/-- Hands over the unit clause of output `position`, or of its complement. -/
def enforceOutput (t : Totalizer) (position : Nat) (unit : Literal → Clause) (w : Workspace σ) :
    Option Failure × Workspace σ :=
  match t.outputs with
  | .error f => (some (.fault f), w)
  | .ok outputs =>
      match outputs[position]? with
      | none => (some (.fault .indexOutOfBounds), w)
      | some output => w.extend [unit output]

/-- Enforces that at most `bound` inputs are true. -/
def enforceUpper (t : Totalizer) (bound : Nat) (w : Workspace σ) :
    Option Failure × Workspace σ :=
  if t.inputs.length ≤ bound then (none, w)
  else
    match t.supports .atMost bound with
    | .error why => (some (.refused why), w)
    | .ok () => t.enforceOutput bound (fun output => .unit output.complement) w

/-- Enforces that at least `bound` inputs are true. -/
def enforceLower (t : Totalizer) (bound : Nat) (w : Workspace σ) :
    Option Failure × Workspace σ :=
  if bound = 0 then (none, w)
  else if t.inputs.length < bound then (some (.refused .unsatisfiable), w)
  else
    match t.supports .atLeast bound with
    | .error why => (some (.refused why), w)
    | .ok () => t.enforceOutput (bound - 1) .unit w

/-- Enforces a bound from the given side. -/
def enforce (t : Totalizer) (direction : Direction) (bound : Nat) (w : Workspace σ) :
    Option Failure × Workspace σ :=
  match direction with
  | .atMost => t.enforceUpper bound w
  | .atLeast => t.enforceLower bound w

/-- Builds a totalizer for one bound only and enforces it. -/
def encodeConstraint (c : Constraint) (w : Workspace σ) : Option Failure × Workspace σ :=
  match (ofInputs c.literals).encode c.direction c.bound w with
  | ⟨some failure, _, w⟩ => (some failure, w)
  | ⟨none, t, w⟩ => t.enforce c.direction c.bound w

end Totalizer

end CardinalityClauses
