import CardinalityClauses.Proofs.Encoding.Run

/-!
Clauses upon which bounds can be enforced.

An encoding first hands over clauses that count, and then, for each bound, clauses that limit
the count. The first kind has fresh variables; there are values for them with which the clauses
of every bound hold that the inputs meet. So any number of bounds can be enforced together and
in any order, and what they say about the inputs is that each of them is met
(`BoundEncoding.extends_iff`).
-/

namespace CardinalityClauses

/-- The clauses count the true inputs by the variables from `first` up to `last`, and with the
further clauses for a bound among those allowed they hold exactly if the bound is met. -/
structure BoundEncoding (direction : Direction) (inputs : List Literal) (first last : Nat)
    (clauses : List Clause) (Allowed : Nat → Prop) (enforcing : Nat → List Clause) : Prop where
  first_le : first ≤ last
  about : ClausesOver (· < last) clauses
  over_enforcing : ∀ b, Allowed b → ClausesOver (· < last) (enforcing b)
  /-- The clauses for a bound say no less. -/
  sound : ∀ (v : Valuation) (b : Nat), Allowed b → v.Models clauses → v.Models (enforcing b) →
    (Constraint.mk direction inputs b).holds v = true
  /-- The clauses for all bounds together say no more. -/
  exists_exact : ∀ v : Valuation, ∃ w, v.AgreeOutside first last w ∧ w.Models clauses ∧
    ∀ b, Allowed b → (Constraint.mk direction inputs b).holds w = true → w.Models (enforcing b)

/-- What a constraint says depends on its literals only. -/
theorem Constraint.holds_of_agree {on : Nat → Prop} {v w : Valuation} {c : Constraint}
    (agree : Valuation.Agree on v w) (about : LiteralsOver on c.literals) :
    c.holds v = c.holds w := by
  rw [Constraint.holds, Constraint.holds, agree.trueCount_eq about]

theorem Valuation.models_flatMap {α : Type} {v : Valuation} {xs : List α}
    {clauses : α → List Clause} :
    v.Models (xs.flatMap clauses) ↔ ∀ x ∈ xs, v.Models (clauses x) := by
  simp only [Models, List.mem_flatMap]
  constructor
  · intro all x hx c hc
    exact all c ⟨x, hx, hc⟩
  · rintro all c ⟨x, hx, hc⟩
    exact all x hx c hc

/-- Where few of the complements are true, many of the literals are. -/
theorem Constraint.holds_complements {ls : List Literal} {b : Nat} (le : b ≤ ls.length)
    (v : Valuation) :
    (Constraint.mk .atMost (ls.map Literal.complement) (ls.length - b)).holds v =
      (Constraint.mk .atLeast ls b).holds v := by
  have all := v.trueCount_add_trueCount_complement ls
  simp only [holds, decide_eq_decide]
  omega

section Enforce

variable {σ : Type}

/-- Enforces bounds one after the other, up to the first failure. -/
def enforceEach (enforce : Nat → Workspace σ → Option Failure × Workspace σ) :
    List Nat → Workspace σ → Option Failure × Workspace σ
  | [], w => (none, w)
  | bound :: rest, w =>
      match enforce bound w with
      | (some failure, w) => (some failure, w)
      | (none, w) => enforceEach enforce rest w

/-- If each of the bounds can be enforced, then all of them can, and their clauses are handed
over in order. -/
theorem enforceEach_spec [LawfulCollector σ]
    {enforce : Nat → Workspace σ → Option Failure × Workspace σ}
    {enforcing : Nat → List Clause} {bounds : List Nat}
    (each : ∀ b ∈ bounds, ∀ w, ∃ w', enforce b w = (none, w') ∧ w.Grows w' (enforcing b) 0)
    (w : Workspace σ) :
    ∃ w', enforceEach enforce bounds w = (none, w') ∧
      w.Grows w' (bounds.flatMap enforcing) 0 := by
  induction bounds generalizing w with
  | nil => exact ⟨w, rfl, .refl w⟩
  | cons bound rest ih =>
      obtain ⟨first, others⟩ := List.forall_mem_cons.1 each
      obtain ⟨w₁, enforced, grows₁⟩ := first w
      obtain ⟨w₂, remaining, grows₂⟩ := ih others w₁
      refine ⟨w₂, by simp [enforceEach, enforced, remaining], ?_⟩
      rw [List.flatMap_cons]
      exact grows₁.trans grows₂

end Enforce

section

variable {direction : Direction} {inputs : List Literal} {first last : Nat}
  {clauses : List Clause} {Allowed : Nat → Prop} {enforcing : Nat → List Clause}

/-- Fewer bounds are encoded by the same clauses. -/
theorem BoundEncoding.mono
    (encoding : BoundEncoding direction inputs first last clauses Allowed enforcing)
    {Narrow : Nat → Prop} (le : ∀ b, Narrow b → Allowed b) :
    BoundEncoding direction inputs first last clauses Narrow enforcing where
  first_le := encoding.first_le
  about := encoding.about
  over_enforcing := fun b narrow => encoding.over_enforcing b (le b narrow)
  sound := fun v b narrow => encoding.sound v b (le b narrow)
  exists_exact := fun v => by
    obtain ⟨w, agree, models, exact_⟩ := encoding.exists_exact v
    exact ⟨w, agree, models, fun b narrow => exact_ b (le b narrow)⟩

/-- Lower bounds are encoded by counting the complements. -/
theorem BoundEncoding.of_complements
    (encoding : BoundEncoding .atMost (inputs.map Literal.complement) first last clauses Allowed
      enforcing)
    {Lower : Nat → Prop} (small : ∀ b, Lower b → b ≤ inputs.length)
    (allowed : ∀ b, Lower b → Allowed (inputs.length - b)) :
    BoundEncoding .atLeast inputs first last clauses Lower
      fun b => enforcing (inputs.length - b) where
  first_le := encoding.first_le
  about := encoding.about
  over_enforcing := fun b lower => encoding.over_enforcing _ (allowed b lower)
  sound := fun v b lower counted models => by
    rw [← Constraint.holds_complements (small b lower)]
    exact encoding.sound v _ (allowed b lower) counted models
  exists_exact := fun v => by
    obtain ⟨w, agree, models, exact_⟩ := encoding.exists_exact v
    refine ⟨w, agree, models, fun b lower met => exact_ _ (allowed b lower) ?_⟩
    rw [Constraint.holds_complements (small b lower)]
    exact met

/-- The clauses that count leave old variables free. -/
theorem BoundEncoding.extends
    (encoding : BoundEncoding direction inputs first last clauses Allowed enforcing)
    {on : Nat → Prop} (old : ∀ i, on i → i < first) (v : Valuation) : v.Extends on clauses := by
  obtain ⟨w, agree, models, -⟩ := encoding.exists_exact v
  exact ⟨w, agree.below.mono old, models⟩

/-- Bounds that are enforced one after the other say that all of them are met, no matter which
other old variables are looked at. -/
theorem BoundEncoding.extends_iff
    (encoding : BoundEncoding direction inputs first last clauses Allowed enforcing)
    {on : Nat → Prop} (old : ∀ i, on i → i < first) (about : LiteralsOver on inputs)
    {bounds : List Nat} (allowed : ∀ b ∈ bounds, Allowed b) (v : Valuation) :
    v.Extends on (clauses ++ bounds.flatMap enforcing) ↔
      ∀ b ∈ bounds, (Constraint.mk direction inputs b).holds v = true := by
  constructor
  · rintro ⟨w, agree, models⟩ b hb
    rw [Valuation.models_append, Valuation.models_flatMap] at models
    rw [Constraint.holds_of_agree agree about]
    exact encoding.sound w b (allowed b hb) models.1 (models.2 b hb)
  · intro met
    obtain ⟨w, agree, models, exact_⟩ := encoding.exists_exact v
    have agree : Valuation.Agree on v w := agree.below.mono old
    refine ⟨w, agree, Valuation.models_append.2 ⟨models, Valuation.models_flatMap.2 ?_⟩⟩
    intro b hb
    refine exact_ b (allowed b hb) ?_
    rw [← Constraint.holds_of_agree agree about]
    exact met b hb

end

end CardinalityClauses
