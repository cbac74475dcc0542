import CardinalityClauses.Configuration
import CardinalityClauses.ModularTotalizer
import CardinalityClauses.Totalizer

/-!
Constraints whose bound is tightened over time.

A tightenable constraint emits the clauses for a first bound and later for tighter ones. As
long as its bounds ask for all literals, or for none, or for nothing at all, no tree is
built. The first bound in between builds one, and every later bound is enforced on it.

A bound never gets looser. If a step fails, the constraint keeps the bound it had; only a
fault leaves it with the new one.
-/

namespace CardinalityClauses

/-- The tree behind a tightenable constraint. -/
inductive CountingTree
  | totalizer (t : Totalizer)
  /-- For lower bounds this counts the negations of the literals. -/
  | modular (t : ModularTotalizer)
  deriving DecidableEq, Repr

/-- A cardinality constraint with the bound it enforces at present. -/
structure TightenableConstraint where
  literals : List Literal
  direction : Direction
  bound : Nat
  /-- The encoding to build once the bound asks for one. -/
  family : Family
  /-- A fixed modulus for that encoding. -/
  presetModulus : Option Nat
  /-- The encoding, once it is built. -/
  tree : Option CountingTree
  deriving DecidableEq, Repr

namespace CountingTree

/-- The clauses and variables of the tree. -/
def tally : CountingTree → Tally
  | totalizer t => t.tally
  | modular t => t.tally

/-- The modulus of the tree, if it has one. -/
def modulus? : CountingTree → Option Nat
  | totalizer _ => none
  | modular t => t.modulus

end CountingTree

namespace TightenableConstraint

/-- The constraint before any clause is added. -/
def prepare (literals : List Literal) (direction : Direction) (bound : Nat)
    (configuration : Configuration) : Except Refusal TightenableConstraint :=
  let family := configuration.family direction
  if literals.length < bound then .error (.boundOutOfRange bound literals.length)
  else
    match family, configuration.modulus with
    | .modular, some modulus =>
        if modulus < 2 then .error (.modulusTooSmall modulus)
        else .ok ⟨literals, direction, bound, family, some modulus, none⟩
    | _, modulus => .ok ⟨literals, direction, bound, family, modulus, none⟩

/-- How many literals the constraint is over. -/
def inputCount (c : TightenableConstraint) : Nat :=
  c.literals.length

/-- Whether a tree was built. -/
def isBuilt (c : TightenableConstraint) : Bool :=
  c.tree.isSome

/-- The clauses and variables of the tree. -/
def tally (c : TightenableConstraint) : Tally :=
  (c.tree.map CountingTree.tally).getD ⟨0, 0⟩

/-- The modulus of the tree, once it is built. -/
def modulus? (c : TightenableConstraint) : Option Nat :=
  c.tree.bind CountingTree.modulus?

/-- What the present bound means for what a modular totalizer counts: the true literals or,
for lower bounds, the false ones. -/
def countedBound (c : TightenableConstraint) : Except Fault Nat :=
  match c.direction with
  | .atMost => .ok c.bound
  | .atLeast => subWithin c.literals.length c.bound

/-- What a modular totalizer counts. -/
def countedLiterals (c : TightenableConstraint) : List Literal :=
  match c.direction with
  | .atMost => c.literals
  | .atLeast => c.literals.map Literal.complement

variable {σ : Type} [Collector σ]

/-- Enforces the present bound on the tree. -/
def enforce (c : TightenableConstraint) (w : Workspace σ) : Option Failure × Workspace σ :=
  match c.tree with
  | none => (some (.refused .notEncoded), w)
  | some (.totalizer t) => t.enforce c.direction c.bound w
  | some (.modular t) =>
      match c.countedBound with
      | .error f => (some (.fault f), w)
      | .ok bound => t.enforceUpper bound w

/-- A tree that is built for the present bound, and for all tighter ones. A totalizer for
lower bounds has no use for knowing the present bound, since tighter ones are higher. -/
def makeTree (c : TightenableConstraint) (w : Workspace σ) :
    Except Failure CountingTree × Workspace σ :=
  match c.family with
  | .totalizer =>
      let maxBound :=
        match c.direction with
        | .atMost => c.bound
        | .atLeast => c.literals.length
      match (Totalizer.ofInputs c.literals).encode c.direction maxBound w with
      | ⟨some failure, _, w⟩ => (.error failure, w)
      | ⟨none, t, w⟩ => (.ok (.totalizer t), w)
  | .modular =>
      let fresh := ModularTotalizer.ofInputs c.countedLiterals
      let preset : Except Refusal ModularTotalizer :=
        match c.presetModulus with
        | none => .ok fresh
        | some modulus => fresh.setModulus modulus
      match preset, c.countedBound with
      | .error why, _ => (.error (.refused why), w)
      | .ok _, .error f => (.error (.fault f), w)
      | .ok t, .ok maxBound =>
          match t.encode maxBound w with
          | ⟨some failure, _, w⟩ => (.error failure, w)
          | ⟨none, t, w⟩ => (.ok (.modular t), w)

/-- Builds the tree and enforces the present bound on it. A tree whose build failed is
thrown away; one that is complete is kept, also if the bound could not be enforced. -/
def materialize (c : TightenableConstraint) (w : Workspace σ) :
    Outcome TightenableConstraint σ :=
  match c.tree with
  | some _ => ⟨some (.fault .internalError), c, w⟩
  | none =>
      match c.makeTree w with
      | (.error failure, w) => ⟨some failure, c, w⟩
      | (.ok tree, w) =>
          let c := { c with tree := some tree }
          let (failure, w) := c.enforce w
          ⟨failure, c, w⟩

/-- The bound that fixes all literals to one value. -/
def fixingBound (c : TightenableConstraint) : Nat :=
  match c.direction with
  | .atMost => 0
  | .atLeast => c.literals.length

/-- The unit clauses for that bound. -/
def fixingClauses (c : TightenableConstraint) : List Clause :=
  match c.direction with
  | .atMost => c.literals.map fun l => .unit l.complement
  | .atLeast => c.literals.map .unit

/-- The bound that every assignment meets. -/
def idleBound (c : TightenableConstraint) : Nat :=
  match c.direction with
  | .atMost => c.literals.length
  | .atLeast => 0

/-- Emits the clauses for the first bound. -/
def build (literals : List Literal) (direction : Direction) (bound : Nat)
    (configuration : Configuration) (w : Workspace σ) :
    Except Failure TightenableConstraint × Workspace σ :=
  match prepare literals direction bound configuration with
  | .error why => (.error (.refused why), w)
  | .ok c =>
      let ⟨failure, c, w⟩ : Outcome TightenableConstraint σ :=
        if bound = c.fixingBound then
          let (failure, w) := w.extend c.fixingClauses
          ⟨failure, c, w⟩
        else if bound = c.idleBound then ⟨none, c, w⟩
        else c.materialize w
      match failure with
      | some failure => (.error failure, w)
      | none => (.ok c, w.note (.constraintBuilt direction c.inputCount bound))

/-- Emits the clauses for the present bound of a constraint that was built with another. -/
def advance (c : TightenableConstraint) (w : Workspace σ) : Outcome TightenableConstraint σ :=
  if c.isBuilt then
    let (failure, w) := c.enforce w
    ⟨failure, c, w⟩
  else if c.bound = c.fixingBound then
    let (failure, w) := w.extend c.fixingClauses
    ⟨failure, c, w⟩
  else c.materialize w

/-- Moves to a tighter bound. -/
def moveTo (c : TightenableConstraint) (bound : Nat) (w : Workspace σ) :
    Outcome TightenableConstraint σ :=
  match { c with bound := bound }.advance w with
  | ⟨none, moved, w⟩ =>
      ⟨none, moved, w.note (.constraintTightened c.direction c.bound bound)⟩
  | ⟨some (.fault f), moved, w⟩ => ⟨some (.fault f), moved, w⟩
  | ⟨some failure, moved, w⟩ => ⟨some failure, { moved with bound := c.bound }, w⟩

/-- Why a bound is not tighter than the present one. -/
def tightenRefusal? (c : TightenableConstraint) (direction : Direction) (bound : Nat) :
    Option Refusal :=
  if c.direction ≠ direction then some .directionNotSupported
  else
    match direction with
    | .atMost =>
        if c.bound ≤ bound then some (.notTighter c.bound bound) else none
    | .atLeast =>
        if c.literals.length < bound then some (.boundOutOfRange bound c.literals.length)
        else if bound ≤ c.bound then some (.notTighter c.bound bound)
        else none

/-- Tightens the bound of a constraint in the given direction. -/
def tighten (c : TightenableConstraint) (direction : Direction) (bound : Nat)
    (w : Workspace σ) : Outcome TightenableConstraint σ :=
  match c.tightenRefusal? direction bound with
  | some why => ⟨some (.refused why), c, w⟩
  | none => c.moveTo bound w

end TightenableConstraint

end CardinalityClauses
