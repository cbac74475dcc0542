import CardinalityClauses.Constraint

/-!
Events: what the encodings and the checkpoint solver report while they work.

An event has a level, a message and fields. It changes nothing; it only tells in which
order things happened.
-/

namespace CardinalityClauses

/-- Something worth reporting. -/
inductive Event
  /-- The adder of a totalizer node was handed over. -/
  | totalizerAdder (node outputs : Nat)
  /-- The adder of a modular totalizer node was handed over. -/
  | modularAdder (node clauseCount : Nat)
  | totalizerBuilt (inputs : Nat) (direction : Direction) (maxBound clauseCount variableCount : Nat)
  | modularBuilt (inputs maxBound modulus clauseCount variableCount : Nat)
  | constraintBuilt (direction : Direction) (inputs bound : Nat)
  | constraintTightened (direction : Direction) (previous bound : Nat)
  | stateSaved (depth clauseCount variableCount : Nat)
  | stateRestored (depth clauseCount variableCount : Nat)
  | backendRebuilt (clauseCount : Nat)
  deriving DecidableEq, Repr

/-- How closely one has to listen to hear an event. -/
inductive Event.Level
  | debug
  | trace
  deriving DecidableEq, Repr

/-- The content of a field of an event. -/
inductive Event.Field
  | number (n : Nat)
  | text (s : String)
  deriving DecidableEq, Repr

namespace Event

/-- The name of a level. -/
def Level.text : Level → String
  | .debug => "DEBUG"
  | .trace => "TRACE"

/-- Single adders are reported for tracing only. -/
def level : Event → Level
  | .totalizerAdder .. => .trace
  | .modularAdder .. => .trace
  | _ => .debug

/-- The name of a direction inside a message. -/
def directionName : Direction → String
  | .atMost => "at-most"
  | .atLeast => "at-least"

/-- The message of an event. -/
def message : Event → String
  | .totalizerAdder .. => "encoded totalizer adder"
  | .modularAdder .. => "encoded modular totalizer adder"
  | .totalizerBuilt .. => "built totalizer"
  | .modularBuilt .. => "built modular totalizer"
  | .constraintBuilt direction .. => s!"built {directionName direction} constraint"
  | .constraintTightened direction .. => s!"tightened {directionName direction} constraint"
  | .stateSaved .. => "saved solver state"
  | .stateRestored .. => "restored solver state"
  | .backendRebuilt .. => "rebuilding backend solver"

/-- The fields of an event besides level and message. -/
def fields : Event → List (String × Field)
  | .totalizerAdder node outputs => [("node", .number node), ("n_outs", .number outputs)]
  | .modularAdder node clauseCount => [("node", .number node), ("n_clauses", .number clauseCount)]
  | .totalizerBuilt inputs direction maxBound clauseCount variableCount =>
      [("n_lits", .number inputs), ("bound_type", .text direction.symbol),
        ("max_rhs", .number maxBound), ("n_clauses", .number clauseCount),
        ("n_vars", .number variableCount)]
  | .modularBuilt inputs maxBound modulus clauseCount variableCount =>
      [("n_lits", .number inputs), ("max_ub", .number maxBound), ("modulus", .number modulus),
        ("n_clauses", .number clauseCount), ("n_vars", .number variableCount)]
  | .constraintBuilt _ inputs bound => [("n_lits", .number inputs), ("k", .number bound)]
  | .constraintTightened _ previous bound =>
      [("previous", .number previous), ("k", .number bound)]
  | .stateSaved depth clauseCount variableCount =>
      [("depth", .number depth), ("n_clauses", .number clauseCount),
        ("n_vars", .number variableCount)]
  | .stateRestored depth clauseCount variableCount =>
      [("depth", .number depth), ("n_clauses", .number clauseCount),
        ("n_vars", .number variableCount)]
  | .backendRebuilt clauseCount => [("n_clauses", .number clauseCount)]

end Event

end CardinalityClauses
