import CardinalityClauses.Proofs.ModularTotalizer.Build
import CardinalityClauses.Proofs.Totalizer.Build
import CardinalityClauses.TightenableConstraint

/-!
The tree of a tightenable constraint.

A tree is built for the bound a constraint has at the time. It serves this bound and every
bound that is still ahead, from either side and whatever family the tree is of
(`makeTree_spec`).
-/

namespace CardinalityClauses

namespace CountingTree

/-- What a bound on the literals means for what a modular totalizer counts. -/
def counted (direction : Direction) (inputs bound : Nat) : Nat :=
  match direction with
  | .atMost => bound
  | .atLeast => inputs - bound

/-- The clauses that enforce a bound on a tree. -/
def enforcing (tree : CountingTree) (direction : Direction) (inputs bound : Nat) : List Clause :=
  match tree with
  | totalizer t => Totalizer.enforcing direction (t.outputs.toOption.getD []) bound
  | modular t =>
      match t.root.bind fun position => t.nodes[position]? with
      | none => []
      | some root =>
          ModularTotalizer.enforcing (t.modulus.getD 0) root.upper root.lower
            (counted direction inputs bound)

theorem enforcing_totalizer {t : Totalizer} {direction : Direction} {maxBound : Nat}
    {outputs : List Literal} (complete : t.Complete direction maxBound outputs)
    (inputs bound : Nat) :
    (totalizer t).enforcing direction inputs bound =
      Totalizer.enforcing direction outputs bound := by
  simp only [enforcing, complete.outputs_eq]
  rfl

theorem enforcing_modular {t : ModularTotalizer} {modulus maxBound : Nat}
    {upper lower : List Literal} (complete : t.Complete modulus maxBound upper lower)
    (direction : Direction) (inputs bound : Nat) :
    (modular t).enforcing direction inputs bound =
      ModularTotalizer.enforcing modulus upper lower (counted direction inputs bound) := by
  obtain ⟨position, root, at_, found, rfl, rfl⟩ := complete.root
  simp only [enforcing, at_, Option.bind_some, found, complete.modulus_eq, Option.getD_some]

/-- A tree that was built to its end, over so many inputs. -/
def Complete (tree : CountingTree) (direction : Direction) (inputs : Nat) : Prop :=
  match tree with
  | totalizer t =>
      t.inputs.length = inputs ∧ ∃ maxBound outputs, t.Complete direction maxBound outputs
  | modular t =>
      t.inputs.length = inputs ∧
        ∃ modulus maxBound upper lower, t.Complete modulus maxBound upper lower

/-- The bounds that a tree can enforce: those up to the maximum it was built for. -/
def Supports (tree : CountingTree) (direction : Direction) (inputs bound : Nat) : Prop :=
  match tree with
  | totalizer t =>
      ∃ maxBound, t.built = some (direction, maxBound) ∧
        Totalizer.Allowed direction inputs maxBound bound
  | modular t =>
      bound ≤ inputs ∧
        ∃ maxBound, t.maxBound = some maxBound ∧ counted direction inputs bound ≤ maxBound

end CountingTree

namespace TightenableConstraint

/-! ### The bounds ahead -/

/-- The same constraint under another bound. -/
def withBound (c : TightenableConstraint) (bound : Nat) : TightenableConstraint :=
  { c with bound := bound }

/-- The present bound and the tighter ones. -/
def Ahead (c : TightenableConstraint) (bound : Nat) : Prop :=
  match c.direction with
  | .atMost => bound ≤ c.bound
  | .atLeast => c.bound ≤ bound ∧ bound ≤ c.literals.length

/-- The bound asks for more than nothing and less than all that can be asked for. -/
def Proper (c : TightenableConstraint) : Prop :=
  0 < c.bound ∧ c.bound < c.literals.length

/-- A fixed modulus is one a modular totalizer takes. -/
def PresetOk (c : TightenableConstraint) : Prop :=
  c.family = .modular → ∀ m, c.presetModulus = some m → 2 ≤ m

/-- The clauses that enforce a bound on the tree, if there is one. -/
def enforcing (c : TightenableConstraint) (bound : Nat) : List Clause :=
  match c.tree with
  | none => []
  | some tree => tree.enforcing c.direction c.literals.length bound

/-- Every bound ahead can be enforced on the tree. -/
def Enforceable (σ : Type) [LawfulCollector σ] (c : TightenableConstraint) : Prop :=
  ∀ b, c.Ahead b → ∀ w : Workspace σ,
    ∃ w', (c.withBound b).enforce w = (none, w') ∧ w.Grows w' (c.enforcing b) 0

/-- The highest bound that a totalizer is built for. -/
def highestBound (c : TightenableConstraint) : Nat :=
  match c.direction with
  | .atMost => c.bound
  | .atLeast => c.literals.length

/-- How many variables the tree for the present bound takes. -/
def treeDemand (c : TightenableConstraint) : Nat :=
  match c.family with
  | .totalizer => Totalizer.buildDemand c.direction c.highestBound c.literals
  | .modular =>
      let maxBound := CountingTree.counted c.direction c.literals.length c.bound
      ModularTotalizer.buildDemand (ModularTotalizer.modulusFor c.presetModulus maxBound)
        c.countedLiterals

section Bounds

variable {c : TightenableConstraint} {b : Nat}

theorem countedBound_withBound (inRange : b ≤ c.literals.length) :
    (c.withBound b).countedBound =
      .ok (CountingTree.counted c.direction c.literals.length b) := by
  unfold countedBound
  cases direction : c.direction with
  | atMost => simp [withBound, direction, CountingTree.counted]
  | atLeast => simp [withBound, direction, CountingTree.counted, subWithin, inRange]

theorem Ahead.le_length (ahead : c.Ahead b) (inRange : c.bound ≤ c.literals.length) :
    b ≤ c.literals.length := by
  unfold Ahead at ahead
  split at ahead
  · exact Nat.le_trans ahead inRange
  · exact ahead.2

/-- What a modular totalizer counts gets no more when a bound gets tighter. -/
theorem Ahead.counted_le (ahead : c.Ahead b) :
    CountingTree.counted c.direction c.literals.length b ≤
      CountingTree.counted c.direction c.literals.length c.bound := by
  unfold Ahead at ahead
  split at ahead <;> rename_i direction
  · simpa [CountingTree.counted, direction] using ahead
  · simp only [CountingTree.counted, direction]
    omega

theorem length_countedLiterals : c.countedLiterals.length = c.literals.length := by
  unfold countedLiterals
  split <;> simp

theorem literalsOver_countedLiterals {on : Nat → Prop} :
    LiteralsOver on c.countedLiterals ↔ LiteralsOver on c.literals := by
  unfold countedLiterals
  split
  · rfl
  · exact literalsOver_map_complement

end Bounds

/-- The constraint with a tree. -/
def withTree (c : TightenableConstraint) (tree : CountingTree) : TightenableConstraint :=
  { c with tree := some tree }

/-! ### Enforcing bounds on the tree -/

section Enforce

variable {c : TightenableConstraint} {b : Nat} {tree : CountingTree}

/-- A bound that is supported is enforced by handing its clauses over. -/
theorem enforce_eq_handAll (built : c.tree = some tree)
    (complete : tree.Complete c.direction c.literals.length)
    (supports : tree.Supports c.direction c.literals.length b) :
    ∃ bs : List Batch, (∀ batch ∈ bs, batch.stop = none) ∧
      bs.flatMap Batch.clauses = c.enforcing b ∧
      ∀ (σ : Type) [Collector σ] (w : Workspace σ), (c.withBound b).enforce w = w.handAll bs := by
  have clauses : c.enforcing b = tree.enforcing c.direction c.literals.length b := by
    simp only [enforcing, built]
  have here : (c.withBound b).tree = some tree := built
  rw [clauses]
  cases tree with
  | totalizer t =>
      obtain ⟨inputs, maxBound, outputs, complete⟩ := complete
      obtain ⟨_, same, allowed⟩ := supports
      cases complete.built.symm.trans same
      rw [CountingTree.enforcing_totalizer complete]
      refine ⟨[⟨Totalizer.enforcing c.direction outputs b, none⟩], by simp, by simp,
        fun σ _ w => ?_⟩
      rw [Workspace.handAll_singleton, ← complete.enforce_eq (inputs ▸ allowed)]
      simp only [enforce, here]
      rfl
  | modular t =>
      obtain ⟨inputs, modulus, maxBound, upper, lower, complete⟩ := complete
      obtain ⟨inRange, _, same, le⟩ := supports
      cases complete.maxBound_eq.symm.trans same
      rw [CountingTree.enforcing_modular complete]
      refine ⟨ModularTotalizer.limits modulus upper lower
          (CountingTree.counted c.direction c.literals.length b),
        ModularTotalizer.limits_complete _ _ _ _, ModularTotalizer.flatMap_limits _ _ _ _,
        fun σ _ w => ?_⟩
      rw [← complete.enforceUpper_eq le]
      simp only [enforce, here, countedBound_withBound inRange]

/-- A bound that asks for something and is not supported is refused. -/
theorem enforce_unsupported (built : c.tree = some tree)
    (complete : tree.Complete c.direction c.literals.length)
    (proper : Totalizer.Allowed c.direction c.literals.length b b)
    (unsupported : ¬tree.Supports c.direction c.literals.length b) {σ : Type} [Collector σ]
    (w : Workspace σ) : (c.withBound b).enforce w = (some (.refused .notEncoded), w) := by
  have here : (c.withBound b).tree = some tree := built
  cases tree with
  | totalizer t =>
      obtain ⟨inputs, maxBound, outputs, complete⟩ := complete
      have beyond : maxBound < b := by
        apply Nat.lt_of_not_le
        exact fun le => unsupported ⟨maxBound, complete.built, le, proper.2⟩
      rw [← complete.enforce_beyond (inputs ▸ proper) beyond w]
      simp only [enforce, here]
      rfl
  | modular t =>
      obtain ⟨inputs, modulus, maxBound, upper, lower, complete⟩ := complete
      have inRange : b ≤ c.literals.length ∧
          CountingTree.counted c.direction c.literals.length b < c.literals.length := by
        unfold Totalizer.Allowed at proper
        unfold CountingTree.counted
        cases direction : c.direction <;> simp only [direction] at proper ⊢ <;> omega
      have beyond : maxBound < CountingTree.counted c.direction c.literals.length b := by
        apply Nat.lt_of_not_le
        exact fun le => unsupported ⟨inRange.1, maxBound, complete.maxBound_eq, le⟩
      rw [← complete.enforceUpper_beyond beyond (inputs ▸ inRange.2) w]
      simp only [enforce, here, countedBound_withBound inRange.1]

/-- What is done to enforce a bound that is supported. -/
theorem enforce_ran (built : c.tree = some tree)
    (complete : tree.Complete c.direction c.literals.length)
    (supports : tree.Supports c.direction c.literals.length b) {σ : Type} [LawfulCollector σ]
    (w : Workspace σ) :
    w.Ran [Workspace.handing (c.enforcing b)] ((c.withBound b).enforce w).1
      ((c.withBound b).enforce w).2 := by
  obtain ⟨bs, batches, clauses, enforced⟩ := enforce_eq_handAll built complete supports
  rw [enforced, ← clauses]
  exact w.handAll_ran batches

end Enforce

/-! ### Building the tree -/

/-- What building the tree for the present bound does, from variable `next` on. -/
def treePlan (c : TightenableConstraint) (next : Nat) : List Piece :=
  match c.family with
  | .totalizer => Totalizer.buildPlan c.direction c.highestBound c.literals next
  | .modular =>
      let maxBound := CountingTree.counted c.direction c.literals.length c.bound
      ModularTotalizer.buildPlan (ModularTotalizer.modulusFor c.presetModulus maxBound) maxBound
        c.countedLiterals next

/-- The tree that is built from variable `next` on enforces all bounds ahead, and its clauses
count the literals. -/
structure Made (c : TightenableConstraint) (next : Nat) (tree : CountingTree) : Prop where
  complete : tree.Complete c.direction c.literals.length
  supports : ∀ b, c.Ahead b → tree.Supports c.direction c.literals.length b
  encoding : LiteralsOver (· < next) c.literals → next + c.treeDemand ≤ Variable.maxIndex + 1 →
    BoundEncoding c.direction c.literals next (next + c.treeDemand)
      (plannedClauses (c.treePlan next))
      (tree.Supports c.direction c.literals.length) (tree.enforcing c.direction c.literals.length)

section Build

variable {c : TightenableConstraint} {next b : Nat}

theorem Ahead.allowed (proper : c.Proper) (ahead : c.Ahead b) :
    Totalizer.Allowed c.direction c.literals.length c.highestBound b := by
  obtain ⟨positive, lt⟩ := proper
  unfold Ahead at ahead
  unfold highestBound
  split at ahead <;> rename_i direction <;> rw [direction]
  · exact ⟨ahead, Nat.lt_of_le_of_lt ahead lt⟩
  · exact ⟨ahead.2, Nat.lt_of_lt_of_le positive ahead.1, ahead.2⟩

/-- What a modular totalizer counts for a bound that needs a tree. -/
theorem Proper.counted (proper : c.Proper) :
    0 < CountingTree.counted c.direction c.literals.length c.bound ∧
      CountingTree.counted c.direction c.literals.length c.bound < c.countedLiterals.length := by
  obtain ⟨positive, lt⟩ := proper
  rw [length_countedLiterals]
  cases c.direction <;> simp only [CountingTree.counted] <;> omega

theorem plannedVariables_treePlan (preset : c.PresetOk) (proper : c.Proper) (next : Nat) :
    plannedVariables (c.treePlan next) = c.treeDemand := by
  unfold treePlan treeDemand
  split
  · exact Totalizer.plannedVariables_buildPlan _ _ _ next
  · rename_i family
    have two := ModularTotalizer.two_le_modulusFor (preset family) proper.counted.1
    exact ModularTotalizer.plannedVariables_buildPlan two _ _ next

/-- However far the tree is built, the older variables are left alone. -/
theorem lenient_treePlan (preset : c.PresetOk) (proper : c.Proper)
    (old : LiteralsOver (· < next) c.literals) :
    Lenient (fun _ => True) next (c.treePlan next) := by
  unfold treePlan
  split
  · exact Totalizer.lenient_buildPlan _ _ old
  · rename_i family
    have two := ModularTotalizer.two_le_modulusFor (preset family) proper.counted.1
    have many : 2 ≤ c.countedLiterals.length := by
      have := proper.counted
      omega
    exact ModularTotalizer.lenient_buildPlan two many (literalsOver_countedLiterals.2 old)

/-- Counting for a modular totalizer encodes the bounds that come down to those it counts. -/
theorem boundEncoding_of_counted {first last maxBound : Nat} {clauses : List Clause}
    {limiting : Nat → List Clause}
    (encoding : BoundEncoding .atMost c.countedLiterals first last clauses (· ≤ maxBound)
      limiting) :
    BoundEncoding c.direction c.literals first last clauses
      (fun b => b ≤ c.literals.length ∧
        CountingTree.counted c.direction c.literals.length b ≤ maxBound)
      fun b => limiting (CountingTree.counted c.direction c.literals.length b) := by
  obtain ⟨literals, _ | _, bound, family, preset, tree⟩ := c
  · exact encoding.mono fun b supported => supported.2
  · refine encoding.of_complements ?_ ?_
    · intro b supported
      exact supported.1
    · intro b supported
      exact supported.2

/-- What is left of a build: the tree, or why there is none. -/
def kept {α σ : Type} (tree : α → CountingTree) (built : Outcome α σ) :
    Except Failure CountingTree × Workspace σ :=
  match built with
  | ⟨some failure, _, w⟩ => (.error failure, w)
  | ⟨none, t, w⟩ => (.ok (tree t), w)

theorem makeTree_totalizer {σ : Type} [Collector σ] (family : c.family = .totalizer)
    (w : Workspace σ) :
    c.makeTree w =
      kept .totalizer ((Totalizer.ofInputs c.literals).encode c.direction c.highestBound w) := by
  obtain ⟨failure, t, w', built⟩ : ∃ failure t w',
    (Totalizer.ofInputs c.literals).encode c.direction c.highestBound w = ⟨failure, t, w'⟩ :=
      ⟨_, _, _, rfl⟩
  rw [built]
  cases direction : c.direction <;> simp only [highestBound, direction] at built <;>
    simp only [makeTree, family, direction, built] <;> cases failure <;> rfl

theorem makeTree_modular {σ : Type} [Collector σ] (family : c.family = .modular)
    (preset : c.PresetOk) {maxBound : Nat} (bound : c.countedBound = .ok maxBound)
    (w : Workspace σ) :
    c.makeTree w =
      kept .modular
        ((ModularTotalizer.ofPreset c.countedLiterals c.presetModulus).encode maxBound w) := by
  obtain ⟨failure, t, w', built⟩ : ∃ failure t w',
    (ModularTotalizer.ofPreset c.countedLiterals c.presetModulus).encode maxBound w =
      ⟨failure, t, w'⟩ := ⟨_, _, _, rfl⟩
  rw [built]
  cases fixed : c.presetModulus with
  | none =>
      rw [fixed] at built
      have fresh : ModularTotalizer.ofInputs c.countedLiterals = .ofPreset c.countedLiterals none :=
        rfl
      simp only [makeTree, family, bound, fixed, fresh, built]
      cases failure <;> rfl
  | some m =>
      rw [fixed] at built
      have set : (ModularTotalizer.ofInputs c.countedLiterals).setModulus m =
          .ok (.ofPreset c.countedLiterals (some m)) :=
        if_neg (Nat.not_lt_of_le (preset family m fixed))
      simp only [makeTree, family, bound, fixed, set, built]
      cases failure <;> rfl

variable {σ : Type} [LawfulCollector σ]

/-- How the building of a tree can end. -/
inductive Making (c : TightenableConstraint) (w : Workspace σ) :
    Except Failure CountingTree × Workspace σ → Prop
  | made {tree : CountingTree} {w' : Workspace σ} (ran : w.Ran (c.treePlan w.supply.next) none w')
      (made : c.Made w.supply.next tree) : Making c w (.ok tree, w')
  | missed {why : Failure} {w' : Workspace σ}
      (ran : w.Ran (c.treePlan w.supply.next) (some why) w') : Making c w (.error why, w')

theorem makeTree_ran_totalizer (family : c.family = .totalizer) (proper : c.Proper)
    (w : Workspace σ) : c.Making w (c.makeTree w) := by
  have planned : c.treePlan w.supply.next =
      Totalizer.buildPlan c.direction c.highestBound c.literals w.supply.next := by
    simp only [treePlan, family]
  have demanded : c.treeDemand = Totalizer.buildDemand c.direction c.highestBound c.literals := by
    simp only [treeDemand, family]
  have nonempty : c.literals ≠ [] := List.ne_nil_of_length_pos (Nat.zero_lt_of_lt proper.2)
  obtain ⟨failure, t, w', built, ran, inputs, complete⟩ :=
    Totalizer.encode_ran c.direction c.highestBound nonempty w
  rw [← planned] at ran
  rw [makeTree_totalizer family, built]
  cases failure with
  | some why => exact .missed ran
  | none =>
      have complete := complete rfl
      refine .made ran ⟨?_, ?_, ?_⟩
      · exact ⟨inputs ▸ rfl, _, _, complete⟩
      · intro b ahead
        exact ⟨_, complete.built, ahead.allowed proper⟩
      · intro old room
        rw [planned, funext (CountingTree.enforcing_totalizer complete c.literals.length)]
        rw [demanded] at room ⊢
        refine (Totalizer.boundEncoding_buildPlan nonempty old room).mono ?_
        rintro b ⟨_, same, allowed⟩
        cases complete.built.symm.trans same
        exact allowed

theorem makeTree_ran_modular (family : c.family = .modular) (preset : c.PresetOk)
    (proper : c.Proper) (w : Workspace σ) : c.Making w (c.makeTree w) := by
  have inRange : c.bound ≤ c.literals.length := Nat.le_of_lt proper.2
  obtain ⟨positive, lt⟩ := proper.counted
  obtain ⟨maxBound, same⟩ :
    ∃ m, CountingTree.counted c.direction c.literals.length c.bound = m := ⟨_, rfl⟩
  rw [same] at positive lt
  have two := ModularTotalizer.two_le_modulusFor (preset family) positive
  have planned : c.treePlan w.supply.next =
      ModularTotalizer.buildPlan (ModularTotalizer.modulusFor c.presetModulus maxBound) maxBound
        c.countedLiterals w.supply.next := by
    simp only [treePlan, family, same]
  have demanded : c.treeDemand = ModularTotalizer.buildDemand
      (ModularTotalizer.modulusFor c.presetModulus maxBound) c.countedLiterals := by
    simp only [treeDemand, family, same]
  obtain ⟨failure, t, w', built, ran, inputs, complete⟩ :=
    ModularTotalizer.encode_ran positive lt (preset family) w
  rw [← planned] at ran
  rw [makeTree_modular family preset (same ▸ countedBound_withBound inRange), built]
  cases failure with
  | some why => exact .missed ran
  | none =>
      have complete := complete (by simp)
      refine .made ran ⟨?_, ?_, ?_⟩
      · exact ⟨inputs ▸ length_countedLiterals, _, _, _, _, complete⟩
      · intro b ahead
        exact ⟨ahead.le_length inRange, _, complete.maxBound_eq, same ▸ ahead.counted_le⟩
      · intro old room
        rw [planned, funext (CountingTree.enforcing_modular complete c.direction c.literals.length)]
        rw [demanded] at room ⊢
        have encoding := ModularTotalizer.boundEncoding_buildPlan two (by omega)
          (literalsOver_countedLiterals.2 old) lt room
        refine (boundEncoding_of_counted encoding).mono ?_
        rintro b ⟨small, _, reached, le⟩
        cases complete.maxBound_eq.symm.trans reached
        exact ⟨small, le⟩

/-- The tree for a bound that needs one is built by its plan, as far as that goes. -/
theorem makeTree_ran (preset : c.PresetOk) (proper : c.Proper) (w : Workspace σ) :
    c.Making w (c.makeTree w) := by
  cases family : c.family with
  | totalizer => exact makeTree_ran_totalizer family proper w
  | modular => exact makeTree_ran_modular family preset proper w

end Build

/-! ### Trees of collectors that never fail -/

/-- The clauses of a tree count the literals for all bounds ahead, and each of these can be
enforced. -/
structure Serves (σ : Type) [LawfulCollector σ] (c : TightenableConstraint) (tree : CountingTree)
    (first last : Nat) (clauses : List Clause) : Prop where
  encoding : BoundEncoding c.direction c.literals first last clauses c.Ahead
    (tree.enforcing c.direction c.literals.length)
  enforceable : (c.withTree tree).Enforceable σ

section Serve

variable {σ : Type} [ReliableCollector σ] {c : TightenableConstraint}

theorem Made.enforceable {next : Nat} {tree : CountingTree} (made : c.Made next tree) :
    (c.withTree tree).Enforceable σ := by
  intro b ahead w
  obtain ⟨bs, complete, clauses, enforced⟩ :=
    enforce_eq_handAll (c := c.withTree tree) rfl made.complete (made.supports b ahead)
  rw [enforced, ← clauses]
  exact w.handAll_spec complete

/-- A tree for a bound that needs one is built with room for its variables, and it serves all
bounds ahead. -/
theorem makeTree_spec (preset : c.PresetOk) (proper : c.Proper) (w : Workspace σ)
    (old : LiteralsOver (· < w.supply.next) c.literals)
    (room : w.supply.next + c.treeDemand ≤ Variable.maxIndex + 1) :
    ∃ tree w' clauses, c.makeTree w = (.ok tree, w') ∧ w.Grows w' clauses c.treeDemand ∧
      c.Serves σ tree w.supply.next w'.supply.next clauses := by
  have planned := plannedVariables_treePlan preset proper w.supply.next
  have unfailing := Collector.unfailing_of_reliable w.collector
  have making := makeTree_ran preset proper w
  rcases eq : c.makeTree w with ⟨result, w'⟩
  rw [eq] at making
  cases making with
  | @made tree _ ran made =>
      have grows := ran.grows
      rw [planned] at grows
      refine ⟨tree, w', _, rfl, grows, ?_, made.enforceable⟩
      rw [grows.next_eq]
      exact (made.encoding old room).mono made.supports
  | missed ran =>
      obtain ⟨impossible, -⟩ := ran.of_unfailing unfailing (by rwa [planned])
      cases impossible

end Serve

end TightenableConstraint

end CardinalityClauses
