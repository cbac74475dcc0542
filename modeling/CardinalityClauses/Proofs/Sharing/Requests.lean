import CardinalityClauses.Proofs.Tightenable.Steps

/-!
Encodings that share a collector and a supply of variables.

Whoever owns the collector and the supply takes variables, adds clauses over them, encodes
constraints over them, and builds and tightens constraints with a changing bound, in any order.
Every encoding takes its own variables from the same supply, in between.
-/

namespace CardinalityClauses

open LawfulCollector (contents)

/-- What is asked of a collector and a supply that are shared. -/
inductive SharedRequest
  | takeVariable
  | takeLiterals (n : Nat)
  /-- Takes all variables below a given one. -/
  | takeBelow (v : Variable)
  | addClause (clause : Clause)
  | encode (constraint : Constraint)
  | build (literals : List Literal) (direction : Direction) (bound : Nat)
      (configuration : Configuration)
  /-- Tightens the constraint at a position among those that were built. -/
  | tighten (position : Nat) (direction : Direction) (bound : Nat)

/-- A collector and a supply with a record of what they were used for. -/
structure Shared (σ : Type) where
  work : Workspace σ
  /-- The indices of the variables that no encoding took for itself. -/
  users : List Nat
  /-- The clauses that were added. -/
  clauses : List Clause
  /-- The constraints that were encoded. -/
  constraints : List Constraint
  /-- The constraints that were built, as they are now. -/
  handles : List TightenableConstraint

namespace Shared

variable {σ : Type}

/-- What is there at first was taken and added already. -/
def start [LawfulCollector σ] (w : Workspace σ) : Shared σ where
  work := w
  users := List.range w.supply.next
  clauses := contents w.collector
  constraints := []
  handles := []

/-- What the built constraints say under their present bounds. -/
def bounds (s : Shared σ) : List Constraint :=
  s.handles.map TightenableConstraint.constraint

/-- What all that was asked for says. -/
def Holds (s : Shared σ) (v : Valuation) : Prop :=
  v.Models s.clauses ∧ (∀ c ∈ s.constraints, c.holds v = true) ∧ ∀ c ∈ s.bounds, c.holds v = true

theorem holds_bounds_iff {s : Shared σ} {v : Valuation} :
    (∀ c ∈ s.bounds, c.holds v = true) ↔ ∀ c ∈ s.handles, c.constraint.holds v = true :=
  List.forall_mem_map

/-- Does what is asked for. A request that fails is not recorded. -/
def perform [Collector σ] (s : Shared σ) : SharedRequest → Option Failure × Shared σ
  | .takeVariable =>
      match s.work.supply.takeVariable with
      | (.error f, supply) => (some (.fault f), { s with work.supply := supply })
      | (.ok v, supply) =>
          (none, { s with work.supply := supply, users := s.users ++ [v.index] })
  | .takeLiterals n =>
      match s.work.takeLiterals n with
      | (.error f, w) => (some (.fault f), { s with work := w })
      | (.ok ls, w) => (none, { s with work := w, users := s.users ++ ls.map Literal.index })
  | .takeBelow v =>
      let (_, supply) := s.work.supply.raiseTo v
      let taken := List.range' s.work.supply.next (supply.next - s.work.supply.next)
      (none, { s with work.supply := supply, users := s.users ++ taken })
  | .addClause clause =>
      match s.work.extend [clause] with
      | (some failure, w) => (some failure, { s with work := w })
      | (none, w) => (none, { s with work := w, clauses := s.clauses ++ [clause] })
  | .encode constraint =>
      match constraint.encode s.work with
      | (some failure, w) => (some failure, { s with work := w })
      | (none, w) => (none, { s with work := w, constraints := s.constraints ++ [constraint] })
  | .build literals direction bound configuration =>
      match TightenableConstraint.build literals direction bound configuration s.work with
      | (.error failure, w) => (some failure, { s with work := w })
      | (.ok handle, w) => (none, { s with work := w, handles := s.handles ++ [handle] })
  | .tighten position direction bound =>
      match s.handles[position]? with
      | none => (some (.fault .indexOutOfBounds), s)
      | some handle =>
          let ⟨failure, handle, w⟩ := handle.tighten direction bound s.work
          (failure, { s with work := w, handles := s.handles.set position handle })

/-- What the built constraints are to say after a request. -/
def boundsAfter (s : Shared σ) : SharedRequest → List Constraint
  | .build literals direction bound _ => s.bounds ++ [⟨direction, literals, bound⟩]
  | .tighten position _ bound => s.bounds.modify position fun c => c.withBound bound
  | _ => s.bounds

/-- A request that makes sense: its literals are over the variables that were taken, a bound is
in range, and a tighter one is strictly tighter. -/
def Admits (s : Shared σ) : SharedRequest → Prop
  | .takeVariable | .takeLiterals _ | .takeBelow _ => True
  | .addClause clause => LiteralsOver (· ∈ s.users) clause.literals
  | .encode constraint => LiteralsOver (· ∈ s.users) constraint.literals
  | .build literals _ bound configuration =>
      LiteralsOver (· ∈ s.users) literals ∧ bound ≤ literals.length ∧
        ∀ m, configuration.modulus = some m → 2 ≤ m
  | .tighten position direction bound =>
      ∃ handle, s.handles[position]? = some handle ∧ handle.Tightens direction bound

/-- How many variables it takes to do what is asked for. -/
def demand (s : Shared σ) : SharedRequest → Nat
  | .takeVariable => 1
  | .takeLiterals n => n
  | .takeBelow v => v.index - s.work.supply.next
  | .addClause _ => 0
  | .encode constraint => constraint.encodeDemand
  | .build literals direction bound configuration =>
      (TightenableConstraint.blank literals direction bound configuration).demand
  | .tighten position _ bound =>
      match s.handles[position]? with
      | none => 0
      | some handle => (handle.withBound bound).demand

/-- Literals can carry all indices that a request takes. -/
def Fits (s : Shared σ) (r : SharedRequest) : Prop :=
  s.work.supply.next + s.demand r ≤ Variable.maxIndex + 1

/-- What can come of any workspace after any requests that make sense and fit. -/
inductive Reached [LawfulCollector σ] : Shared σ → Prop
  | start (w : Workspace σ) (old : ClausesOver (· < w.supply.next) (contents w.collector)) :
      Reached (start w)
  | perform {s : Shared σ} (r : SharedRequest) (reached : Reached s) (admits : s.Admits r)
      (fits : s.Fits r) : Reached (s.perform r).2

end Shared

end CardinalityClauses
