import CardinalityClauses.Encoding.Failure
import CardinalityClauses.Event
import CardinalityClauses.VariableSupply

/-!
The surroundings of an encoding, and the pieces an encoding consists of.

An encoding works on a collector and a supply of variables, and it reports events. What it
does to them is planned as a list of pieces before any of it is done: a piece takes fresh
variables and then hands over its batches of clauses, one call a batch. Running the pieces
in order stops at the first failure. So the clauses that a collector holds after any run
are the clauses of the plan up to some point.
-/

namespace CardinalityClauses

/-- A collector, a supply of variables and the events reported so far. -/
structure Workspace (σ : Type) where
  collector : σ
  supply : VariableSupply
  events : Array Event

/-- An encoding after an operation on it, with its surroundings. Both are as the operation
left them, also if it failed. -/
structure Outcome (α σ : Type) where
  failure : Option Failure
  value : α
  work : Workspace σ

/-- The clauses of one call to the collector, up to the fault that stops their making. -/
structure Batch where
  clauses : List Clause
  stop : Option Fault
  deriving DecidableEq, Repr

/-- The clauses of one call, of which each is made when the ones before it are taken. -/
def Batch.ofMade (made : List (Except Fault Clause)) : Batch where
  clauses := (made.takeWhile Except.isOk).filterMap Except.toOption
  stop := made.findSome? fun
    | .ok _ => none
    | .error f => some f

/-- A step of an encoding: fresh variables, then batches of clauses, then an event. -/
structure Piece where
  fresh : Nat
  batches : List Batch
  event : Option Event
  deriving DecidableEq, Repr

namespace Workspace

variable {σ : Type}

/-- Reports an event. -/
def note (w : Workspace σ) (e : Event) : Workspace σ :=
  match w with
  | ⟨collector, supply, events⟩ => ⟨collector, supply, events.push e⟩

/-- Reports an event, if there is one. -/
def noteOption (w : Workspace σ) : Option Event → Workspace σ
  | none => w
  | some e => w.note e

/-- Takes fresh literals from the supply. -/
def takeLiterals (w : Workspace σ) (n : Nat) : Except Fault (List Literal) × Workspace σ :=
  match w with
  | ⟨collector, supply, events⟩ =>
      let (taken, supply) := supply.takeLiterals n
      (taken, ⟨collector, supply, events⟩)

variable [Collector σ]

/-- How many clauses the collector holds. -/
def clauseCount (w : Workspace σ) : Nat :=
  Collector.clauseCount w.collector

/-- Hands clauses over in one call. -/
def extend (w : Workspace σ) (cs : List Clause) : Option Failure × Workspace σ :=
  match w with
  | ⟨collector, supply, events⟩ =>
      match Collector.extend collector cs with
      | (collector, true) => (none, ⟨collector, supply, events⟩)
      | (collector, false) => (some .outOfMemory, ⟨collector, supply, events⟩)

/-- Hands a batch over. A fault in the making of a clause shows once the clauses before it
are taken. -/
def hand (w : Workspace σ) (b : Batch) : Option Failure × Workspace σ :=
  match w.extend b.clauses with
  | (some failure, w) => (some failure, w)
  | (none, w) => (b.stop.map .fault, w)

/-- Hands batches over one after the other, up to the first failure. -/
def handAll (w : Workspace σ) : List Batch → Option Failure × Workspace σ
  | [] => (none, w)
  | b :: rest =>
      match w.hand b with
      | (some failure, w) => (some failure, w)
      | (none, w) => w.handAll rest

/-- Does a piece. -/
def runPiece (w : Workspace σ) (p : Piece) : Option Failure × Workspace σ :=
  match w.takeLiterals p.fresh with
  | (.error f, w) => (some (.fault f), w)
  | (.ok _, w) =>
      match w.handAll p.batches with
      | (some failure, w) => (some failure, w)
      | (none, w) => (none, w.noteOption p.event)

end Workspace

/-- How far a run of pieces came. -/
structure Progress (σ : Type) where
  /-- How many pieces were done completely. -/
  finished : Nat
  failure : Option Failure
  work : Workspace σ

/-- Does pieces one after the other, up to the first failure. -/
def Workspace.runPieces {σ : Type} [Collector σ] (w : Workspace σ) : List Piece → Progress σ
  | [] => ⟨0, none, w⟩
  | p :: rest =>
      match w.runPiece p with
      | (some failure, w) => ⟨0, some failure, w⟩
      | (none, w) =>
          let ⟨finished, failure, w⟩ := w.runPieces rest
          ⟨finished + 1, failure, w⟩

/-! ### Counting what a run used up -/

/-- How many clauses and variables belong to an encoding. -/
structure Tally where
  clauseCount : Nat
  variableCount : Nat
  deriving DecidableEq, Repr, Inhabited

/-- Adds to both counts, the clauses first. If the variables leave their range, the clauses
are counted already. -/
def Tally.add (t : Tally) (moreClauses moreVariables : Nat) : Option Fault × Tally :=
  match addWithin sizeRange t.clauseCount moreClauses with
  | .error f => (some f, t)
  | .ok clauseCount =>
      match addWithin indexRange t.variableCount moreVariables with
      | .error f => (some f, ⟨clauseCount, t.variableCount⟩)
      | .ok variableCount => (none, ⟨clauseCount, variableCount⟩)

/-- Counts what was used up between two moments. After a fault nothing is counted any
more; running out of memory is reported only once the counts are right. -/
def Tally.settle (t : Tally) (clausesBefore variablesBefore clausesAfter variablesAfter : Nat)
    (failure : Option Failure) : Option Failure × Tally :=
  match failure with
  | some (.fault f) => (some (.fault f), t)
  | _ =>
      match t.add (clausesAfter - clausesBefore) (variablesAfter - variablesBefore) with
      | (some f, t) => (some (.fault f), t)
      | (none, t) => (failure, t)

end CardinalityClauses
