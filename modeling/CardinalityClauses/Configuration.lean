import CardinalityClauses.Constraint

/-!
Which encodings constraints with a changing bound are built from.
-/

namespace CardinalityClauses

/-- A way to count true literals. -/
inductive Family
  /-- Unary counters all the way. -/
  | totalizer
  /-- Counters in two parts over a modulus. -/
  | modular
  deriving DecidableEq, Repr, Inhabited

/-- The name of a family. -/
def Family.name : Family → String
  | .totalizer => "Totalizer"
  | .modular => "ModularTotalizer"

/-- The family that is used where none is asked for. -/
def Family.standard : Family := .totalizer

/-- The encodings to build, by direction. -/
structure Configuration where
  atMost : Family
  atLeast : Family
  /-- A fixed modulus. Without one, the first bound that is encoded chooses it. -/
  modulus : Option Nat
  deriving DecidableEq, Repr, Inhabited

namespace Configuration

/-- One family for both directions. -/
def uniform (family : Family) : Configuration :=
  ⟨family, family, none⟩

/-- The standard family for both directions. -/
def standard : Configuration :=
  uniform .standard

/-- The family for a direction. -/
def family (c : Configuration) : Direction → Family
  | .atMost => c.atMost
  | .atLeast => c.atLeast

end Configuration

end CardinalityClauses
