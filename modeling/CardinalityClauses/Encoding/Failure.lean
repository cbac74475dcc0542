import CardinalityClauses.Collector

/-!
How an operation on an encoding can fail.

Three kinds are kept apart. A refusal answers a request that makes no sense in the present
state; it changes nothing. Running out of memory comes from the collector and can strike
after part of the work is done. A fault ends the operation where it stands.
-/

namespace CardinalityClauses

/-- Why a request to an encoding is turned down. -/
inductive Refusal
  /-- No tree was built that can enforce the bound. -/
  | notEncoded
  /-- The bound can never be met. -/
  | unsatisfiable
  /-- The bound is higher than the number of inputs. -/
  | boundOutOfRange (bound inputs : Nat)
  /-- The bound does not move towards infeasibility. -/
  | notTighter (current requested : Nat)
  /-- The encoding bounds the count from the other side. -/
  | directionNotSupported
  /-- A tree was built already, for tighter bounds only. -/
  | alreadyEncoded
  /-- A modulus must be at least two. -/
  | modulusTooSmall (modulus : Nat)
  deriving DecidableEq, Repr

/-- The wording of a refusal. -/
def Refusal.message : Refusal → String
  | .notEncoded => "not encoded to enforce bound"
  | .unsatisfiable => "encoding is unsat"
  | .boundOutOfRange bound inputs => s!"bound {bound} is invalid for {inputs} input literals"
  | .notTighter current requested =>
      s!"bound {requested} is not tighter than the current bound {current}"
  | .directionNotSupported => "bound type not supported by this encoding"
  | .alreadyEncoded => "encoding was already built and cannot be extended"
  | .modulusTooSmall modulus => s!"modulus {modulus} is invalid, needs to be at least 2"

/-- Why an operation on an encoding did not succeed. -/
inductive Failure
  | refused (why : Refusal)
  /-- The collector ran out of memory. -/
  | outOfMemory
  | fault (why : Fault)
  deriving DecidableEq, Repr

/-- The wording of a failure. -/
def Failure.message : Failure → String
  | .refused why => why.message
  | .outOfMemory => "out of memory"
  | .fault why => why.message

end CardinalityClauses
