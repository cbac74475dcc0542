import CardinalityClauses.Proofs.Stored.Bounded

/-!
Encoders that are written and read in the middle of a run.

Main statement: whatever calls an encoder went through, whether they came to their end, ran out of
memory or ended in a fault, it is read back as it was written, no two encoders are written alike,
and a run in which the encoder is replaced by what was written of it, any number of times, shows
the same as the run in which it is not (`Encoder.reload_faithful`).
-/

namespace CardinalityClauses

open VariableSupply (longestBlock)

namespace Encoder

/-! ### Whatever calls leave -/

/-- What can come of an encoder after any calls, also those that run out of memory or end in a
fault. It is made from literals with codes, no more than a list can hold. Between the calls the
collector and the supply may be used for other things. -/
inductive Attained (σ : Type) [Collector σ] : Encoder → Prop
  | totalizer {inputs : List Literal} (carried : LiteralsOver (· ≤ Variable.maxIndex) inputs)
      (few : inputs.length ≤ longestBlock) : Attained σ (totalizer (.ofInputs inputs))
  | modular {inputs : List Literal} (carried : LiteralsOver (· ≤ Variable.maxIndex) inputs)
      (few : inputs.length ≤ longestBlock) : Attained σ (modular (.ofInputs inputs))
  | constraint {literals : List Literal} {direction : Direction} {bound : Nat}
      {configuration : Configuration} {w w' : Workspace σ} {c : TightenableConstraint}
      (carried : LiteralsOver (· ≤ Variable.maxIndex) literals)
      (few : literals.length ≤ longestBlock)
      (modulusIn : ∀ modulus ∈ configuration.modulus, modulus < sizeRange)
      (built : TightenableConstraint.build literals direction bound configuration w = (.ok c, w')) :
      Attained σ (constraint c)
  | call {e : Encoder} {r : Call} {w : Workspace σ} {o : Outcome Encoder σ} (before : Attained σ e)
      (inRange : r.InRange) (asked : e.call? r w = some o) : Attained σ o.value

/-- All of this can be stored. -/
theorem Attained.bounded {σ : Type} [Collector σ] {e : Encoder} (attained : Attained σ e) :
    e.Bounded := by
  induction attained with
  | totalizer carried few => exact Totalizer.bounded_ofInputs carried few
  | modular carried few => exact ModularTotalizer.bounded_ofPreset carried few nofun nofun
  | constraint carried few modulusIn built =>
      exact TightenableConstraint.bounded_of_build carried few modulusIn built
  | call before inRange asked bounded => exact bounded.call inRange asked

/-! ### Runs -/

/-- A step of a run. -/
inductive Step (σ : Type)
  | call (r : Call)
  /-- The encoder is written, and what is read takes its place. -/
  | reload
  /-- The collector and the supply are used for something else. -/
  | meanwhile (use : Workspace σ → Workspace σ)

/-- The step replaces the encoder. -/
def Step.isReload {σ : Type} : Step σ → Bool
  | reload => true
  | _ => false

/-- What shows of a call: how it ended, what the encoder tells about itself afterwards, and what
became of the collector, the supply and the events. -/
structure Seen (σ : Type) where
  failure : Option Failure
  summary : Except Fault Data
  work : Workspace σ

section Runs

variable {σ : Type} [Collector σ]

/-- What shows of a run, and where it leaves the encoder and its surroundings. A run does not go on
if the kind of encoder does not offer a call, or if the encoder cannot be read back. -/
def follow (e : Encoder) (w : Workspace σ) :
    List (Step σ) → Option (List (Seen σ) × Encoder × Workspace σ)
  | [] => some ([], e, w)
  | .call r :: rest => do
      let o ← e.call? r w
      let (seen, last) ← follow o.value o.work rest
      return (⟨o.failure, o.value.summary, o.work⟩ :: seen, last)
  | .reload :: rest => do
      let e ← ofData? e.kind e.toData
      follow e w rest
  | .meanwhile use :: rest => follow e (use w) rest

/-- A run shows the same whether the encoder is replaced on the way or not. -/
theorem Bounded.follow_reload {e : Encoder} (bounded : e.Bounded) {steps : List (Step σ)}
    (inRange : ∀ r, .call r ∈ steps → r.InRange) (w : Workspace σ) :
    follow e w steps = follow e w (steps.filter fun step => !step.isReload) := by
  -- A call may leave another encoder, so the induction is over all bounded ones.
  induction steps generalizing e w with
  | nil => rfl
  | cons step rest ih =>
      have inRangeRest : ∀ r, .call r ∈ rest → r.InRange :=
        fun r hr => inRange r (List.mem_cons_of_mem step hr)
      cases step with
      | call r =>
          have inRangeCall := inRange r List.mem_cons_self
          change follow e w (.call r :: rest) = follow e w (.call r :: rest.filter _)
          simp only [follow]
          cases asked : e.call? r w with
          | none => rfl
          | some o =>
              simp only [Option.bind_eq_bind, Option.bind_some]
              rw [ih (bounded.call inRangeCall asked) inRangeRest o.work]
      | reload =>
          change follow e w (.reload :: rest) = follow e w (rest.filter _)
          simp only [follow, ofData?_toData bounded.storable, Option.bind_eq_bind, Option.bind_some]
          exact ih bounded inRangeRest w
      | meanwhile use => exact ih bounded inRangeRest (use w)

end Runs

/-- Whatever encoders went through, they are read back as they were written, and no two of them are
written alike. A run in which an encoder is replaced by what was written of it, any number of times,
ends every call and fills the collector, the supply and the record of events just as the run in
which it is not, and the encoder tells the same about itself after each call. -/
theorem reload_faithful (σ τ : Type) [Collector σ] [Collector τ] :
    (∀ e, Attained σ e → ofData? e.kind e.toData = some e) ∧
    (∀ e e', Attained σ e → Attained τ e' → e.toData = e'.toData → e = e') ∧
    ∀ e, Attained σ e → ∀ (steps : List (Step σ)) (w : Workspace σ),
      (∀ r, .call r ∈ steps → r.InRange) →
        follow e w steps = follow e w (steps.filter fun step => !step.isReload) := by
  refine ⟨fun e attained => ?_, fun e e' attained attained' alike => ?_, ?_⟩
  · exact ofData?_toData attained.bounded.storable
  · exact eq_of_toData_eq attained.bounded.storable attained'.bounded.storable alike
  · exact fun e attained steps w inRange => attained.bounded.follow_reload inRange w

/-- The theorem for three inputs: a modular totalizer is built, read back, asked for a bound and
read back once more. -/
theorem reload_faithful_three :
    let start := modular (.ofInputs ModularTotalizer.Usage.threeInputs)
    let w : Workspace Formula := ⟨.empty, ⟨3⟩, #[]⟩
    let encode : Call := .encode .atMost 2
    let enforce : Call := .enforce .atMost 1
    (∃ o, start.call? encode w = some o ∧ o.value.summary.isOk = true ∧
      ofData? o.value.kind o.value.toData = some o.value ∧ o.value.toData ≠ start.toData) ∧
    follow start w [.call encode, .reload, .call enforce, .reload, .call .summarize] =
      follow start w [.call encode, .call enforce, .call .summarize] := by
  intro start w encode enforce
  have carried : LiteralsOver (· ≤ Variable.maxIndex) ModularTotalizer.Usage.threeInputs := by
    simp [LiteralsOver, ModularTotalizer.Usage.threeInputs, Variable.maxIndex]
  have encodeIn : encode.InRange := by simp [encode, Call.InRange, sizeRange]
  have attained : Attained Formula start := .modular carried (by decide)
  obtain ⟨restores, injective, unseen⟩ := reload_faithful Formula Formula
  obtain ⟨o, asked⟩ : ∃ o, start.call? encode w = some o := ⟨_, rfl⟩
  have attained' : Attained Formula o.value := .call attained encodeIn asked
  refine ⟨⟨o, asked, ?_, restores o.value attained', fun alike => ?_⟩, ?_⟩
  · cases asked
    decide
  · have same := injective _ _ attained' attained alike
    cases asked
    revert same
    decide
  · exact unseen start attained [.call encode, .reload, .call enforce, .reload, .call .summarize] w
      (by simp [encode, enforce, Call.InRange, sizeRange])

end Encoder

end CardinalityClauses
