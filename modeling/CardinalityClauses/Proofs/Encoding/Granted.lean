import CardinalityClauses.Proofs.ModularTotalizer.Calls
import CardinalityClauses.Proofs.Totalizer.Calls

/-!
What a granted build promises.

The two encoders of upper bounds are used alike: a build for a maximum bound is asked for, and
later bounds are. A user who knows nothing else about an encoder takes a build that was granted as
the promise that all bounds up to its maximum can be enforced from then on.

Totalizers keep the promise. A modular totalizer keeps it for a maximum below the number of inputs.
A build for a higher one is granted as well, but nothing is built for it, so bounds in between are
refused later (`exists_refused_bound`).

Main statement: after any requests, which bounds are enforced and which are refused depends on the
builds that were granted, and for either kind of encoder it is said how (`enforce_of_granted`).
-/

namespace CardinalityClauses

/-- Encoders of upper bounds: they are made over some inputs, are built up to a maximum bound, and
enforce bounds. -/
class UpperBoundEncoder (ε : Type) where
  /-- The encoder was made over the inputs and has not been used yet. -/
  Fresh : (inputs : List Literal) → ε → Prop
  encode {σ : Type} [Collector σ] : ε → (maxBound : Nat) → Workspace σ → Outcome ε σ
  enforce {σ : Type} [Collector σ] : ε → (bound : Nat) → Workspace σ → Option Failure × Workspace σ

instance : UpperBoundEncoder Totalizer where
  Fresh inputs t := t = .ofInputs inputs
  encode t maxBound w := t.encode .atMost maxBound w
  enforce t bound w := t.enforceUpper bound w

instance : UpperBoundEncoder ModularTotalizer where
  Fresh inputs t :=
    t = .ofInputs inputs ∨ ∃ m, (ModularTotalizer.ofInputs inputs).setModulus m = .ok t
  encode t maxBound w := t.encode maxBound w
  enforce t bound w := t.enforceUpper bound w

namespace UpperBoundEncoder

variable {ε σ : Type} [UpperBoundEncoder ε] [ReliableCollector σ]

/-- The maxima of the builds that were granted, after one more request. -/
def granting (granted : List Nat) (maxBound : Nat) (failure : Option Failure) : List Nat :=
  if failure = none then maxBound :: granted else granted

/-- What can come of an encoder over some inputs after any requests that do not end in a fault,
with the maxima of the builds that were granted. -/
inductive Reached (ε : Type) [UpperBoundEncoder ε] (inputs : List Literal) :
    ε → Workspace σ → (granted : List Nat) → Prop
  | start {e : ε} (w : Workspace σ) (fresh : Fresh inputs e) : Reached ε inputs e w []
  | encode {e : ε} {w : Workspace σ} {granted : List Nat} (before : Reached ε inputs e w granted)
      (maxBound : Nat) (fine : ∀ f, (encode e maxBound w).failure ≠ some (.fault f)) :
      Reached ε inputs (encode e maxBound w).value (encode e maxBound w).work
        (granting granted maxBound (encode e maxBound w).failure)
  | enforce {e : ε} {w : Workspace σ} {granted : List Nat} (before : Reached ε inputs e w granted)
      (bound : Nat) : Reached ε inputs e (enforce e bound w).2 granted
  /-- In between somebody else uses the collector and the supply. -/
  | withWork {e : ε} {w : Workspace σ} {granted : List Nat} (before : Reached ε inputs e w granted)
      (w' : Workspace σ) : Reached ε inputs e w' granted

end UpperBoundEncoder

open UpperBoundEncoder (Reached granting)

/-! ### Totalizers -/

section Totalizer

open Totalizer

/-- A totalizer knows what it granted: nothing before its build, and afterwards its maximum and
nothing above. -/
inductive Totalizer.Granting (inputs : List Literal) : Totalizer → List Nat → Prop
  | fresh : Granting inputs (ofInputs inputs) []
  | built {t : Totalizer} {maxBound : Nat} {outputs : List Literal} {granted : List Nat}
      (same : t.inputs = inputs) (complete : t.Complete .atMost maxBound outputs)
      (own : maxBound ∈ granted) (top : ∀ m ∈ granted, m ≤ maxBound) : Granting inputs t granted

variable {σ : Type} [ReliableCollector σ] {inputs : List Literal} {t : Totalizer}
  {granted : List Nat} {w : Workspace σ}

theorem Totalizer.Granting.encode (grants : Granting inputs t granted) (maxBound : Nat)
    (fine : ∀ f, (t.encode .atMost maxBound w).failure ≠ some (.fault f)) :
    Granting inputs (t.encode .atMost maxBound w).value
      (granting granted maxBound (t.encode .atMost maxBound w).failure) := by
  cases grants with
  | fresh =>
    obtain ⟨failure, t, w', encoded, ⟨rfl, same, outputs, complete⟩ | ⟨⟨f, fault⟩, -⟩⟩ :=
      encode_first inputs .atMost maxBound w
    · rw [encoded]
      exact .built same complete (List.mem_singleton_self _) (by simp [granting])
    · rw [encoded] at fine
      exact absurd fault (fine f)
  | built same complete own top =>
    rw [complete.encode_again]
    dsimp only
    rw [if_neg (by simp)]
    split
    · rename_i le
      rw [granting, if_pos rfl]
      refine .built same complete (List.mem_cons_of_mem _ own) ?_
      exact List.forall_mem_cons.2 ⟨le, top⟩
    · rw [granting, if_neg (by simp)]
      exact .built same complete own top

theorem Totalizer.granting_of_reached (reached : Reached Totalizer inputs t w granted) :
    Granting inputs t granted := by
  induction reached with
  | start w fresh => exact fresh ▸ .fresh
  | encode before maxBound fine grants => exact grants.encode maxBound fine
  | enforce before bound grants => exact grants
  | withWork before w' grants => exact grants

/-- A totalizer enforces what it granted and what is met anyway. -/
theorem Totalizer.Granting.answer_enforce (grants : Granting inputs t granted) (bound : Nat) :
    (t.enforceUpper bound w).1 =
      if inputs.length ≤ bound ∨ ∃ m ∈ granted, bound ≤ m then none
      else some (.refused .notEncoded) := by
  cases grants with
  | fresh =>
    by_cases many : inputs.length ≤ bound
    · rw [if_pos (.inl many)]
      exact congrArg Prod.fst (if_pos many)
    · rw [if_neg (by simpa using many)]
      exact congrArg Prod.fst (if_neg many)
  | @built t maxBound outputs _ same complete own top =>
    have allowed : bound ≤ maxBound ↔ ∃ m ∈ granted, bound ≤ m := by
      constructor
      · exact fun le => ⟨maxBound, own, le⟩
      · rintro ⟨m, mem, le⟩
        exact Nat.le_trans le (top m mem)
    simp only [complete.answer_enforce_atMost, same, allowed]

end Totalizer

/-! ### Modular totalizers -/

section Modular

open ModularTotalizer

/-- A modular totalizer knows less of what it granted: it was built for the highest maximum below
the number of inputs, if there is one that is not zero. -/
inductive ModularTotalizer.Granting (inputs : List Literal) : ModularTotalizer → List Nat → Prop
  | fresh {preset : Option Nat} {granted : List Nat} (fixed : ∀ m, preset = some m → 2 ≤ m)
      (idle : ∀ m ∈ granted, m = 0 ∨ inputs.length ≤ m) :
      Granting inputs (ofPreset inputs preset) granted
  | built {t : ModularTotalizer} {modulus maxBound : Nat} {upper lower : List Literal}
      {granted : List Nat} (same : t.inputs = inputs)
      (complete : t.Complete modulus maxBound upper lower) (own : maxBound ∈ granted)
      (top : ∀ m ∈ granted, m ≤ maxBound ∨ inputs.length ≤ m) : Granting inputs t granted

variable {σ : Type} [ReliableCollector σ] {inputs : List Literal} {t : ModularTotalizer}
  {granted : List Nat} {w : Workspace σ}

theorem ModularTotalizer.Granting.encode (grants : Granting inputs t granted) (maxBound : Nat)
    (fine : ∀ f, (t.encode maxBound w).failure ≠ some (.fault f)) :
    Granting inputs (t.encode maxBound w).value
      (granting granted maxBound (t.encode maxBound w).failure) := by
  cases grants with
  | @fresh preset _ fixed idle =>
    by_cases trivial : maxBound = 0 ∨ inputs.length ≤ maxBound
    · have eq : (ofPreset inputs preset).encode maxBound w = ⟨none, ofPreset inputs preset, w⟩ :=
        if_pos trivial
      rw [eq, granting, if_pos rfl]
      exact .fresh fixed (List.forall_mem_cons.2 ⟨trivial, idle⟩)
    have positive : 0 < maxBound := Nat.pos_of_ne_zero fun zero => trivial (.inl zero)
    have lt : maxBound < inputs.length := Nat.lt_of_not_le fun le => trivial (.inr le)
    obtain ⟨failure, t, w', encoded, built⟩ := encode_first positive lt fixed w
    rw [encoded] at fine ⊢
    rcases built with ⟨rfl, same, -, modulus, upper, lower, complete⟩ | ⟨⟨f, fault⟩, -⟩
    · rw [granting, if_pos rfl]
      refine .built same complete List.mem_cons_self ?_
      refine List.forall_mem_cons.2 ⟨.inl le_rfl, fun m mem => ?_⟩
      exact (idle m mem).imp_left fun zero => Nat.le_trans (Nat.le_of_eq zero) (Nat.zero_le _)
    · exact absurd fault (fine f)
  | built same complete own top =>
    rw [complete.encode_eq, same]
    dsimp only
    split
    · rename_i idle
      rw [granting, if_pos rfl]
      exact .built same complete (List.mem_cons_of_mem _ own) (List.forall_mem_cons.2 ⟨idle, top⟩)
    · rw [granting, if_neg (by simp)]
      exact .built same complete own top

theorem ModularTotalizer.granting_of_reached
    (reached : Reached ModularTotalizer inputs t w granted) : Granting inputs t granted := by
  induction reached with
  | start w fresh =>
    obtain ⟨preset, fixed⟩ := exists_ofPreset fresh
    rw [preset]
    exact .fresh fixed (by simp)
  | encode before maxBound fine grants => exact grants.encode maxBound fine
  | enforce before bound grants => exact grants
  | withWork before w' grants => exact grants

/-- A modular totalizer enforces what it granted with a maximum below the number of inputs, the
bound zero, and what is met anyway. -/
theorem ModularTotalizer.Granting.answer_enforce (grants : Granting inputs t granted)
    (bound : Nat) :
    (t.enforceUpper bound w).1 =
      if inputs.length ≤ bound ∨ bound = 0 ∨ ∃ m ∈ granted, m < inputs.length ∧ bound ≤ m then none
      else some (.refused .notEncoded) := by
  cases grants with
  | fresh fixed idle =>
    have nothing : (∃ m ∈ granted, m < inputs.length ∧ bound ≤ m) → bound = 0 := by
      rintro ⟨m, mem, lt, le⟩
      rcases idle m mem with zero | many
      · exact Nat.le_zero.1 (zero ▸ le)
      · exact absurd lt (Nat.not_lt_of_le many)
    simp only [answer_enforceUpper_ofPreset, or_iff_left_of_imp nothing]
  | @built t modulus maxBound upper lower _ same complete own top =>
    have lt : maxBound < inputs.length := same ▸ complete.maxBound_lt
    have allowed : bound ≤ maxBound ↔
        bound = 0 ∨ ∃ m ∈ granted, m < inputs.length ∧ bound ≤ m := by
      constructor
      · exact fun le => .inr ⟨maxBound, own, lt, le⟩
      · rintro (rfl | ⟨m, mem, low, le⟩)
        · exact Nat.zero_le _
        · exact Nat.le_trans le ((top m mem).resolve_right (Nat.not_le_of_lt low))
    simp only [complete.answer_enforceUpper, same, allowed]

theorem ModularTotalizer.Granting.inputs_eq (grants : Granting inputs t granted) :
    t.inputs = inputs := by
  cases grants with
  | fresh => rfl
  | built same => exact same

/-- A build that every bound is met for is granted, and nothing is done. -/
theorem ModularTotalizer.encode_of_length_le {maxBound : Nat} (many : t.inputs.length ≤ maxBound) :
    t.encode maxBound w = ⟨none, t, w⟩ := by
  unfold encode
  split
  · exact if_pos (.inr many)
  · exact if_pos (.inr many)

end Modular

/-! ### The promise -/

/-- After any requests, a totalizer enforces every bound up to a maximum it granted; a modular
totalizer does so if that maximum is below the number of inputs. Apart from bounds that are met
anyway and, without a tree, the bound zero, all other bounds are refused. A higher maximum is
granted by a modular totalizer all the same, but nothing is built for it. -/
theorem enforce_of_granted {σ : Type} [ReliableCollector σ] (inputs : List Literal) :
    (∀ (t : Totalizer) (w : Workspace σ) (granted : List Nat),
      Reached Totalizer inputs t w granted → ∀ bound, (t.enforceUpper bound w).1 =
        if inputs.length ≤ bound ∨ ∃ m ∈ granted, bound ≤ m then none
        else some (.refused .notEncoded)) ∧
    ∀ (t : ModularTotalizer) (w : Workspace σ) (granted : List Nat),
      Reached ModularTotalizer inputs t w granted →
        (∀ bound, (t.enforceUpper bound w).1 =
          if inputs.length ≤ bound ∨ bound = 0 ∨ ∃ m ∈ granted, m < inputs.length ∧ bound ≤ m
          then none else some (.refused .notEncoded)) ∧
        ∀ maxBound, inputs.length ≤ maxBound → t.encode maxBound w = ⟨none, t, w⟩ := by
  constructor
  · intro t w granted reached
    exact (Totalizer.granting_of_reached reached).answer_enforce
  · intro t w granted reached
    have grants := ModularTotalizer.granting_of_reached reached
    refine ⟨grants.answer_enforce, fun maxBound many => ?_⟩
    exact ModularTotalizer.encode_of_length_le (grants.inputs_eq ▸ many)

section ThreeInputs

open ModularTotalizer.Usage (threeInputs)

/-- The surroundings of the runs on three inputs. -/
def threeUsed : Workspace Formula :=
  ⟨.empty, ⟨3⟩, #[]⟩

/-- Both encoders are asked for a build up to the number of inputs, and both grant it. -/
theorem reached_three :
    Reached Totalizer threeInputs
        ((Totalizer.ofInputs threeInputs).encode .atMost 3 threeUsed).value
        ((Totalizer.ofInputs threeInputs).encode .atMost 3 threeUsed).work [3] ∧
      Reached ModularTotalizer threeInputs (.ofInputs threeInputs) threeUsed [3] := by
  constructor
  · exact .encode (.start threeUsed rfl) 3 (ne_fault (.inl (by decide)))
  · have start : Reached ModularTotalizer threeInputs (.ofInputs threeInputs) threeUsed [] :=
      .start threeUsed (Or.inl rfl)
    exact start.encode 3 (ne_fault (.inl rfl))

/-- The theorem for the bound one: a totalizer enforces it, a modular totalizer refuses, and goes on
granting builds up to the number of inputs without building anything. -/
theorem enforce_of_granted_three :
    (((Totalizer.ofInputs threeInputs).encode .atMost 3 threeUsed).value.enforceUpper 1
        threeUsed).1 = none ∧
      ((ModularTotalizer.ofInputs threeInputs).enforceUpper 1 threeUsed).1 =
        some (.refused .notEncoded) ∧
      (ModularTotalizer.ofInputs threeInputs).encode 3 threeUsed =
        ⟨none, .ofInputs threeInputs, threeUsed⟩ := by
  obtain ⟨totalizers, modular⟩ := enforce_of_granted (σ := Formula) threeInputs
  obtain ⟨answers, granting⟩ := modular _ _ [3] reached_three.2
  refine ⟨?_, ?_, granting 3 (by decide)⟩
  · rw [totalizers _ _ [3] (reached_three.1.withWork threeUsed) 1]
    decide
  · rw [answers 1]
    decide

/-- A granted build does not promise all bounds up to its maximum. -/
theorem exists_refused_bound :
    ¬∀ (inputs : List Literal) (t : ModularTotalizer) (w : Workspace Formula) (granted : List Nat),
      Reached ModularTotalizer inputs t w granted → ∀ m ∈ granted, ∀ bound ≤ m,
        (t.enforceUpper bound w).1 = none := by
  intro promised
  have enforced := promised _ _ _ _ reached_three.2 3 (List.mem_singleton_self 3) 1 (by decide)
  exact absurd enforced (by decide)

end ThreeInputs

end CardinalityClauses
