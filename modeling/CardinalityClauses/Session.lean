import CardinalityClauses.Encoding.OneShot
import CardinalityClauses.Session.Encoder
import CardinalityClauses.Session.Sink

/-!
Sessions: encoders and snapshots by name, over one sink and one supply of variables.

A session is what a sequence of requests works on. It keeps every encoder as the last
request left it, also if that request failed. A name that is used again names the newer
thing; the token of a snapshot keeps its name after it was restored.
-/

namespace CardinalityClauses

/-- A sink, a supply, and named encoders and snapshots. -/
structure Session where
  work : Workspace Sink
  encoders : List (String × Encoder)
  tokens : List (String × Snapshot)

/-- Why a request to a session failed. -/
inductive SessionFailure
  | encoder (why : Failure)
  /-- The sink ran out of memory when it was handed clauses directly. -/
  | sinkOutOfMemory
  | solver (why : SolverError)
  | fault (why : Fault)
  /-- The sink does not offer the operation. -/
  | unsupportedBySink
  | notAFormula
  | notASolver
  | notACheckpointSolver
  | unknownToken
  /-- A stored value could not be read. -/
  | unreadable
  deriving DecidableEq, Repr

/-- The answer to a request, with the session as the request left it. -/
abbrev Reply (α : Type) := Except SessionFailure α × Session

/-- The value a list of pairs has for a name. -/
def lookUp {α : Type} (entries : List (String × α)) (name : String) : Option α :=
  (entries.find? fun (key, _) => key == name).map Prod.snd

/-- Gives a name a value. -/
def enter {α : Type} (entries : List (String × α)) (name : String) (a : α) :
    List (String × α) :=
  (name, a) :: entries.filter fun (key, _) => key != name

namespace Session

/-- The session over a sink without clauses. -/
def start (sink : Sink) (supply : VariableSupply) : Session :=
  ⟨⟨sink, supply, #[]⟩, [], []⟩

/-- The session with the events taken out. -/
def takeEvents (s : Session) : List Event × Session :=
  (s.work.events.toList, { s with work := { s.work with events := #[] } })

/-- The number of clauses in the sink. -/
def clauseCount (s : Session) : Nat :=
  Collector.clauseCount s.work.collector

/-- The encoder of a name. -/
def encoder? (s : Session) (name : String) : Option Encoder :=
  lookUp s.encoders name

/-- Gives an encoder a name. -/
def putEncoder (s : Session) (name : String) (e : Encoder) : Session :=
  { s with encoders := enter s.encoders name e }

/-- The session with another sink. -/
def withSink (s : Session) (sink : Sink) : Session :=
  { s with work := { s.work with collector := sink } }

/-- The session with another supply. -/
def withSupply (s : Session) (supply : VariableSupply) : Session :=
  { s with work := { s.work with supply := supply } }

/-- The answer of an operation that may fail and has nothing else to say. -/
def answer : Option Failure → Except SessionFailure Unit
  | none => .ok ()
  | some failure => .error (.encoder failure)

/-! ### Encoders -/

/-- Keeps an encoder and its surroundings as an operation left them. -/
def settle (s : Session) (name : String) (o : Outcome Encoder Sink) : Reply Unit :=
  (answer o.failure, { s with work := o.work }.putEncoder name o.value)

/-- Building the tree of an encoder for bounds from one side, if the encoder offers it. -/
def encode? (s : Session) (name : String) (e : Encoder) (direction : Direction) :
    Option (Nat → Reply Unit) :=
  (e.encode? direction).map fun encode maxBound => s.settle name (encode maxBound s.work)

/-- Tightening the bound of an encoder, if the encoder offers it. -/
def tighten? (s : Session) (name : String) (e : Encoder) (direction : Direction) :
    Option (Nat → Reply Unit) :=
  (e.tighten? direction).map fun tighten bound => s.settle name (tighten bound s.work)

/-- Enforcing a bound on an encoder, if the encoder offers it. -/
def enforce? (s : Session) (e : Encoder) (direction : Direction) :
    Option (Nat → Reply Unit) :=
  (e.enforce? direction).map fun enforce bound =>
    let (failure, w) := enforce bound s.work
    (answer failure, { s with work := w })

/-- Fixing the modulus of an encoder, if the encoder offers it. -/
def setModulus? (s : Session) (name : String) (e : Encoder) : Option (Nat → Reply Unit) :=
  e.setModulus?.map fun setModulus modulus =>
    match setModulus modulus with
    | .error why => (.error (.encoder (.refused why)), s)
    | .ok e => (.ok (), s.putEncoder name e)

/-- Makes a modular totalizer, with a modulus if one is given. -/
def makeModular (s : Session) (name : String) (inputs : List Literal) (modulus : Option Nat) :
    Reply Unit :=
  let fresh := ModularTotalizer.ofInputs inputs
  match modulus with
  | none => (.ok (), s.putEncoder name (.modular fresh))
  | some modulus =>
      match fresh.setModulus modulus with
      | .error why => (.error (.encoder (.refused why)), s)
      | .ok t => (.ok (), s.putEncoder name (.modular t))

/-- Makes a tightenable constraint. -/
def makeConstraint (s : Session) (name : String) (inputs : List Literal) (direction : Direction)
    (bound : Nat) (configuration : Configuration) : Reply Unit :=
  match TightenableConstraint.build inputs direction bound configuration s.work with
  | (.error failure, w) => (.error (.encoder failure), { s with work := w })
  | (.ok c, w) => (.ok (), { s with work := w }.putEncoder name (.constraint c))

/-- Reads an encoder from its stored form. -/
def loadEncoder (s : Session) (name : String) (kind : Encoder.Kind) (d : Data) : Reply Unit :=
  match Encoder.ofData? kind d with
  | none => (.error .unreadable, s)
  | some e => (.ok (), s.putEncoder name e)

/-- Encodes a bound with a totalizer or a modular totalizer of its own. -/
def encodeOnce (s : Session) (family : Family) (c : Constraint) : Reply Unit :=
  let (failure, w) :=
    match family with
    | .totalizer => Totalizer.encodeConstraint c s.work
    | .modular => ModularTotalizer.encodeUpper c.literals c.bound s.work
  (answer failure, { s with work := w })

/-- Encodes a constraint. -/
def encodeConstraint (s : Session) (c : Constraint) : Reply Unit :=
  let (failure, w) := c.encode s.work
  (answer failure, { s with work := w })

/-! ### Clauses -/

/-- Keeps the sink as it was left by a call, which may have run out of memory. -/
def afterCall (s : Session) (r : Sink × Bool) : Reply Unit :=
  match r with
  | (sink, true) => (.ok (), s.withSink sink)
  | (sink, false) => (.error .sinkOutOfMemory, s.withSink sink)

/-- Hands clauses over in one call. -/
def addClauses (s : Session) (cs : List Clause) : Reply Unit :=
  s.afterCall (Collector.extend s.work.collector cs)

/-- Hands copies of a clause over in one call. -/
def addCopies (s : Session) (c : Clause) (n : Nat) : Reply Unit :=
  s.afterCall (Collector.extendCopies s.work.collector c n)

/-- Adds clauses past all limits. -/
def addPastLimits (s : Session) (cs : List Clause) : Reply Unit :=
  match s.work.collector.addPastLimits cs with
  | none => (.error .unsupportedBySink, s)
  | some sink => (.ok (), s.withSink sink)

/-- Reads or changes the formula of a session. -/
def onFormula {α : Type} (s : Session)
    (f : LimitedFormula → Except SessionFailure α × LimitedFormula) : Reply α :=
  match s.work.collector.formula? with
  | none => (.error .notAFormula, s)
  | some formula =>
      let (result, formula) := f formula
      (result, s.withSink (.formula formula))

/-! ### Variables -/

/-- Reads or changes the supply of a session. -/
def onSupply {α : Type} (s : Session)
    (f : VariableSupply → Except Fault α × VariableSupply) : Reply α :=
  match f s.work.supply with
  | (.ok a, supply) => (.ok a, s.withSupply supply)
  | (.error fault, supply) => (.error (.fault fault), s.withSupply supply)

/-! ### Solvers -/

/-- The result of a request that only solvers can answer. -/
def needSolver {α : Type} (s : Session) (r : Option (Except SolverError α)) : Reply α :=
  match r with
  | none => (.error .notASolver, s)
  | some (.error e) => (.error (.solver e), s)
  | some (.ok a) => (.ok a, s)

/-- Asks for a model of the clauses. -/
def solve (s : Session) : Reply Verdict :=
  let s := { s with work := s.work.noteOption s.work.collector.rebuildEvent? }
  match s.work.collector.solve? with
  | none => (.error .notASolver, s)
  | some (.error e, sink) => (.error (.solver e), s.withSink sink)
  | some (.ok verdict, sink) => (.ok verdict, s.withSink sink)

/-- The value of a literal, as it is reported. -/
def read (s : Session) (l : Literal) : Reply Reading :=
  let sink := s.work.collector
  s.needSolver (sink.value?.map fun value => (value l).map (sink.report l))

/-- The values of all variables up to `high`, as they are reported. -/
def readAll (s : Session) (high : Variable) : Reply (List Reading) :=
  let sink := s.work.collector
  let report (a : Assignment) : List Reading :=
    a.values.zipIdx.map fun (t, i) => sink.report (Variable.positive ⟨i⟩) t
  s.needSolver (sink.value?.map fun value => (readAssignment value high).map report)

/-- Compares the model with the clauses and with a constraint. -/
def checkModel (s : Session) (c : Option Constraint) : Reply (Option ModelCheck) :=
  s.needSolver (s.work.collector.checkModel? c)

/-! ### Snapshots -/

/-- Takes a snapshot and gives its token a name. -/
def save (s : Session) (name : String) : Reply Unit :=
  match s.work.collector.save? s.work.supply with
  | none => (.error .notACheckpointSolver, s)
  | some (token, sink) =>
      let s := s.withSink sink
      (.ok (),
        { s with
          work := s.work.note (.stateSaved token.depth token.clauseCount token.variableCount)
          tokens := enter s.tokens name token })

/-- Restores the snapshot of a named token. -/
def restore (s : Session) (name : String) : Reply Unit :=
  match lookUp s.tokens name with
  | none => (.error .unknownToken, s)
  | some token =>
      match s.work.collector.restore? token s.work.supply with
      | none => (.error .notACheckpointSolver, s)
      | some (failure, sink, supply) =>
          let s := (s.withSink sink).withSupply supply
          match failure with
          | some (.error e) => (.error (.solver e), s)
          | some (.fault f) => (.error (.fault f), s)
          | none =>
              (.ok (),
                { s with
                  work := s.work.note
                    (.stateRestored token.depth token.clauseCount token.variableCount) })

end Session

end CardinalityClauses
