import CardinalityClauses.Stored.Encoders

/-!
The encoders of a session: totalizers, modular totalizers and tightenable constraints.

An encoder has no operation where its kind does not offer one: which bound is asked for
makes no difference. A summary of an encoder lists what it tells about itself.
-/

namespace CardinalityClauses

/-- An encoder of one of the three kinds. -/
inductive Encoder
  | totalizer (t : Totalizer)
  | modular (t : ModularTotalizer)
  | constraint (c : TightenableConstraint)
  deriving DecidableEq, Repr

/-- The kinds of encoders. -/
inductive Encoder.Kind
  | totalizer
  | modular
  | constraint
  deriving DecidableEq, Repr

namespace Encoder

/-- The stored form of an encoder. -/
def toData : Encoder → Data
  | totalizer t => t.toData
  | modular t => t.toData
  | constraint c => c.toData

/-- The kind of an encoder. -/
def kind : Encoder → Kind
  | totalizer _ => .totalizer
  | modular _ => .modular
  | constraint _ => .constraint

/-- Reads an encoder of a kind. -/
def ofData? : Kind → Data → Option Encoder
  | .totalizer, d => (Totalizer.ofData? d).map totalizer
  | .modular, d => (ModularTotalizer.ofData? d).map modular
  | .constraint, d => (TightenableConstraint.ofData? d).map constraint

/-- What an encoder tells about itself. -/
def summary : Encoder → Except Fault Data
  | totalizer t => do
      let depth ← t.depth
      let outputs ← t.outputs
      return .record [("n_lits", .count t.inputs.length), ("n_clauses", .count t.tally.clauseCount),
        ("n_vars", .count t.tally.variableCount), ("depth", .count depth),
        ("bound_type", .ofOption (fun d => .text d.symbol) t.direction),
        ("outputs", .ofList (fun l => .count l.code) outputs)]
  | modular t => do
      let depth ← t.depth
      return .record [("n_lits", .count t.inputs.length), ("n_clauses", .count t.tally.clauseCount),
        ("n_vars", .count t.tally.variableCount), ("depth", .count depth),
        ("modulus", .ofOption .count t.modulus), ("is_encoded", .flag t.isBuilt)]
  | constraint c =>
      return .record [("n_lits", .count c.inputCount), ("n_clauses", .count c.tally.clauseCount),
        ("n_vars", .count c.tally.variableCount), ("bound", .count c.bound),
        ("kind", .text c.direction.symbol), ("encoding", .text c.family.name),
        ("is_encoded", .flag c.isBuilt), ("modulus", .ofOption .count c.modulus?)]

variable {σ : Type} [Collector σ]

/-- Building the tree for bounds from one side, up to a maximum. -/
def encode? (e : Encoder) (direction : Direction) :
    Option (Nat → Workspace σ → Outcome Encoder σ) :=
  match e, direction with
  | totalizer t, direction => some fun maxBound w =>
      let ⟨failure, t, w⟩ := t.encode direction maxBound w
      ⟨failure, totalizer t, w⟩
  | modular t, .atMost => some fun maxBound w =>
      let ⟨failure, t, w⟩ := t.encode maxBound w
      ⟨failure, modular t, w⟩
  | _, _ => none

/-- Enforcing a bound from one side. -/
def enforce? (e : Encoder) (direction : Direction) :
    Option (Nat → Workspace σ → Option Failure × Workspace σ) :=
  match e, direction with
  | totalizer t, direction => some (t.enforce direction)
  | modular t, .atMost => some t.enforceUpper
  | _, _ => none

/-- Fixing the modulus. -/
def setModulus? (e : Encoder) : Option (Nat → Except Refusal Encoder) :=
  match e with
  | modular t => some fun modulus => (t.setModulus modulus).map Encoder.modular
  | _ => none

/-- Tightening the bound in one direction. -/
def tighten? (e : Encoder) (direction : Direction) :
    Option (Nat → Workspace σ → Outcome Encoder σ) :=
  match e with
  | constraint c => some fun bound w =>
      let ⟨failure, c, w⟩ := c.tighten direction bound w
      ⟨failure, constraint c, w⟩
  | _ => none

end Encoder

end CardinalityClauses
