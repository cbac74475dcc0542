import CardinalityClauses.Proofs.Tightenable.Attempts

/-!
Refusals come first.

A refusal can come up late: a constraint takes a new bound before it asks its tree for it, and it
builds the tree before it asks. So it has to be seen that no work was done by then. Whatever hands
clauses over or takes variables is never refused (`Accepted`), and neither is the bound that a tree
was just built for. What remains are refusals at the beginning of a request, where nothing has
happened but the change of the bound, which is taken back.
-/

namespace CardinalityClauses

/-- A request that was not turned down, however it ended. -/
structure Accepted (failure : Option Failure) : Prop where
  ne_refused : ∀ why, failure ≠ some (.refused why)

theorem accepted_none : Accepted none :=
  ⟨fun _ refused => nomatch refused⟩

theorem accepted_outOfMemory : Accepted (some .outOfMemory) :=
  ⟨fun _ refused => nomatch refused⟩

theorem accepted_fault (f : Fault) : Accepted (some (.fault f)) :=
  ⟨fun _ refused => nomatch refused⟩

/-! ### Handing over and counting -/

section

variable {σ : Type} [Collector σ]

namespace Workspace

theorem extend_accepted (w : Workspace σ) (cs : List Clause) : Accepted (w.extend cs).1 := by
  obtain ⟨collector, supply, events⟩ := w
  simp only [extend]
  rcases Collector.extend collector cs with ⟨s, _ | _⟩
  · exact accepted_outOfMemory
  · exact accepted_none

theorem handAll_accepted (w : Workspace σ) (bs : List Batch) : Accepted (w.handAll bs).1 := by
  induction bs generalizing w with
  | nil => exact accepted_none
  | cons b rest ih =>
      have first := w.extend_accepted b.clauses
      simp only [handAll, hand]
      rcases eq : w.extend b.clauses with ⟨_ | why, w₁⟩ <;> rw [eq] at first
      · cases b.stop with
        | none => exact ih w₁
        | some f => exact accepted_fault f
      · exact first

theorem runPieces_accepted (w : Workspace σ) (ps : List Piece) :
    Accepted (w.runPieces ps).failure := by
  induction ps generalizing w with
  | nil => exact accepted_none
  | cons p rest ih =>
      simp only [runPieces, runPiece]
      rcases w.takeLiterals p.fresh with ⟨f | ls, w₁⟩
      · exact accepted_fault f
      have handed := w₁.handAll_accepted p.batches
      rcases eq : w₁.handAll p.batches with ⟨_ | why, w₂⟩ <;> rw [eq] at handed
      · simp only [eq]
        exact ih _
      · simp only [eq]
        exact handed

end Workspace

theorem Accepted.settle {failure : Option Failure} (accepted : Accepted failure) (t : Tally)
    (clausesBefore variablesBefore clausesAfter variablesAfter : Nat) :
    Accepted (t.settle clausesBefore variablesBefore clausesAfter variablesAfter failure).1 := by
  obtain same | ⟨f, fault⟩ :=
    t.settle_eq_or clausesBefore variablesBefore clausesAfter variablesAfter failure
  · rwa [same]
  · rw [fault]
    exact accepted_fault f

/-! ### Totalizers -/

namespace Totalizer

variable (t : Totalizer) (direction : Direction) (maxBound : Nat) (w : Workspace σ)

theorem buildTree_accepted (shape : Halving Literal) :
    Accepted (t.buildTree direction maxBound shape w).failure := by
  simp only [buildTree]
  have ran := w.runPieces_accepted ((Tree.grow (outputCount direction maxBound) shape
    w.supply.next).1.pieces direction t.nodes.length)
  have settled := ran.settle t.tally w.clauseCount w.supply.next
  split <;> rename_i eq
  · exact eq ▸ settled _ _
  · exact accepted_none

/-- The only builds that are refused are those of a totalizer that was built already. -/
theorem encode_accepted (unbuilt : t.built = none) :
    Accepted (t.encode direction maxBound w).failure := by
  simp only [encode, unbuilt]
  split
  · exact accepted_none
  · exact buildTree_accepted ..

theorem enforceOutput_accepted (position : Nat) (unit : Literal → Clause) :
    Accepted (t.enforceOutput position unit w).1 := by
  unfold enforceOutput
  split
  · exact accepted_fault _
  · split
    · exact accepted_fault _
    · exact w.extend_accepted _

variable {t direction maxBound w} {why : Refusal}

theorem encode_eq_of_refused (refused : (t.encode direction maxBound w).failure =
    some (.refused why)) : t.encode direction maxBound w = ⟨some (.refused why), t, w⟩ := by
  cases built : t.built with
  | none => exact absurd refused ((t.encode_accepted direction maxBound w built).ne_refused why)
  | some build =>
      revert refused
      simp only [encode, built]
      split
      · rintro ⟨⟩
        rfl
      · split
        · rintro ⟨⟩
        · rintro ⟨⟩
          rfl

/-- A totalizer turns no bound down that its build can enforce, unless it is out of range. -/
theorem enforce_accepted {bound : Nat} (built : t.built = some (direction, maxBound))
    (le : bound ≤ maxBound) (inRange : direction = .atLeast → bound ≤ t.inputs.length) :
    Accepted (t.enforce direction bound w).1 := by
  have supported : t.supports direction bound = .ok () := by simp [supports, built, le]
  cases direction with
  | atMost =>
      simp only [enforce, enforceUpper, supported]
      split
      · exact accepted_none
      · exact enforceOutput_accepted ..
  | atLeast =>
      simp only [enforce, enforceLower, supported, Nat.not_lt_of_le (inRange rfl), if_false]
      split
      · exact accepted_none
      · exact enforceOutput_accepted ..

theorem enforce_eq_of_refused {bound : Nat}
    (refused : (t.enforce direction bound w).1 = some (.refused why)) :
    t.enforce direction bound w = (some (.refused why), w) := by
  have output (position : Nat) (unit : Literal → Clause) :=
    (t.enforceOutput_accepted w position unit).ne_refused why
  revert refused
  cases direction with
  | atMost =>
      simp only [enforce, enforceUpper]
      split
      · rintro ⟨⟩
      split
      · rintro ⟨⟩
        rfl
      · exact fun refused => absurd refused (output _ _)
  | atLeast =>
      simp only [enforce, enforceLower]
      split
      · rintro ⟨⟩
      split
      · rintro ⟨⟩
        rfl
      split
      · rintro ⟨⟩
        rfl
      · exact fun refused => absurd refused (output _ _)

/-- A build that was not made before records what it is for. -/
theorem encode_value (unbuilt : t.built = none) :
    (t.encode direction maxBound w).value.inputs = t.inputs ∧
      (t.encode direction maxBound w).value.built = some (direction, maxBound) := by
  simp only [encode, unbuilt]
  split
  · exact ⟨rfl, rfl⟩
  · simp only [buildTree]
    split <;> exact ⟨rfl, rfl⟩

end Totalizer

/-! ### Modular totalizers -/

namespace ModularTotalizer

variable {t : ModularTotalizer} {modulus maxBound bound : Nat} {w : Workspace σ} {why : Refusal}

theorem buildTree_accepted (shape : Halving Literal) (upper lower : List Literal)
    (clausesBefore variablesBefore : Nat) : Accepted
      (t.buildTree modulus maxBound shape upper lower clausesBefore variablesBefore w).failure := by
  simp only [buildTree]
  have ran := w.runPieces_accepted ((Tree.grow modulus shape upper lower
    w.supply.next).1.pieces modulus maxBound t.nodes.length (t.nodes.length + 1))
  have settled := ran.settle t.tally clausesBefore variablesBefore
  split <;> rename_i eq
  · exact eq ▸ settled _ _
  · exact accepted_none

theorem buildRoot_accepted (shape : Halving Literal) :
    Accepted (t.buildRoot modulus maxBound shape w).failure := by
  simp only [buildRoot]
  split
  · exact accepted_fault _
  split
  · exact accepted_fault _
  split
  · exact accepted_fault _
  · exact buildTree_accepted ..

/-- The only builds that are refused are those of an encoder that was built already. -/
theorem encode_accepted (unbuilt : t.maxBound = none) : Accepted (t.encode maxBound w).failure := by
  simp only [encode, unbuilt]
  split
  · exact accepted_none
  split
  · exact buildRoot_accepted _
  · exact accepted_fault _
  · exact accepted_none

theorem encode_eq_of_refused (refused : (t.encode maxBound w).failure = some (.refused why)) :
    t.encode maxBound w = ⟨some (.refused why), t, w⟩ := by
  cases built : t.maxBound with
  | none => exact absurd refused ((encode_accepted built).ne_refused why)
  | some builtMaximum =>
      revert refused
      simp only [encode, built]
      split
      · rintro ⟨⟩
      · rintro ⟨⟩
        rfl

theorem enforceParts_accepted (root : Node) :
    Accepted (enforceParts modulus root bound w).1 := by
  simp only [enforceParts]
  split
  · exact accepted_fault _
  have first := w.extend_accepted
    ((root.upper.drop ((bound + 1) / modulus)).map fun u => .unit u.complement)
  split <;> rename_i eq
  · rwa [eq] at first
  · split
    · exact Workspace.extend_accepted ..
    · split <;> exact Workspace.extend_accepted ..

theorem enforceAtRoot_accepted (position : Nat) :
    Accepted (t.enforceAtRoot position bound w).1 := by
  unfold enforceAtRoot
  split
  · exact accepted_fault _
  · exact accepted_fault _
  · split
    · exact accepted_fault _
    · exact enforceParts_accepted _

/-- A bound is turned down only for want of a tree that can enforce it. -/
theorem enforceUpper_cases (t : ModularTotalizer) (bound : Nat) (w : Workspace σ) :
    t.enforceUpper bound w = (some (.refused .notEncoded), w) ∨
      Accepted (t.enforceUpper bound w).1 := by
  unfold enforceUpper
  split
  · exact .inr accepted_none
  split
  · split
    · exact .inr (enforceAtRoot_accepted _)
    · exact .inl rfl
  · split
    · exact .inr (w.extend_accepted _)
    · exact .inl rfl
  · exact .inl rfl

theorem enforceUpper_eq_of_refused (refused : (t.enforceUpper bound w).1 = some (.refused why)) :
    t.enforceUpper bound w = (some (.refused why), w) := by
  obtain turnedDown | accepted := t.enforceUpper_cases bound w
  · rw [turnedDown] at refused
    cases refused
    exact turnedDown
  · exact absurd refused (accepted.ne_refused why)

/-- The maximum bound of a build can be enforced: either there is a tree for it or none is
needed. -/
def Accepts (t : ModularTotalizer) (bound : Nat) : Prop :=
  t.inputs.length ≤ bound ∨ t.root.isSome = true ∧ t.maxBound = some bound ∨
    t.root = none ∧ bound = 0

theorem Accepts.enforceUpper_accepted (accepts : t.Accepts bound) :
    Accepted (t.enforceUpper bound w).1 := by
  unfold enforceUpper
  split
  · exact accepted_none
  rename_i proper
  obtain idle | ⟨rooted, highest⟩ | ⟨rootless, rfl⟩ := accepts
  · exact absurd idle proper
  · obtain ⟨position, root⟩ := Option.isSome_iff_exists.1 rooted
    simp only [root, highest, Nat.le_refl, if_true]
    exact enforceAtRoot_accepted _
  · simp only [rootless, if_true]
    exact w.extend_accepted _

theorem buildRoot_accepts {shape : Halving Literal}
    (done : (t.buildRoot modulus maxBound shape w).failure = none) :
    (t.buildRoot modulus maxBound shape w).value.Accepts maxBound := by
  revert done
  simp only [buildRoot]
  split
  · rintro ⟨⟩
  split
  · rintro ⟨⟩
  split
  · rintro ⟨⟩
  · intro _
    simp only [buildTree]
    split <;> exact .inr (.inl ⟨rfl, rfl⟩)

theorem encode_accepts (unbuilt : t.maxBound = none) (rootless : t.root = none)
    (done : (t.encode maxBound w).failure = none) :
    (t.encode maxBound w).value.Accepts maxBound := by
  by_cases trivial : maxBound = 0 ∨ t.inputs.length ≤ maxBound
  · simp only [encode, unbuilt, if_pos trivial]
    exact trivial.elim (fun zero => .inr (.inr ⟨rootless, zero⟩)) .inl
  · have nonempty : t.inputs ≠ [] := by
      intro empty
      simp [empty] at trivial
    obtain ⟨shape, halved, -⟩ := Halving.ofList?_spec nonempty
    revert done
    simp only [encode, unbuilt, if_neg trivial, halved]
    cases t.chooseModulus maxBound with
    | ok modulus => exact buildRoot_accepts
    | error f => rintro ⟨⟩

end ModularTotalizer

/-! ### Tightenable constraints -/

namespace TightenableConstraint

omit [Collector σ] in
theorem failure_of_kept {α : Type} {tree : α → CountingTree} {built : Outcome α σ}
    {failure : Failure} (eq : (kept tree built).1 = .error failure) :
    built.failure = some failure := by
  obtain ⟨_ | why, t, w'⟩ := built
  · cases eq
  · exact congrArg some (Except.error.inj eq)

omit [Collector σ] in
theorem done_of_kept {α : Type} {tree : α → CountingTree} {built : Outcome α σ}
    {made : CountingTree} (eq : (kept tree built).1 = .ok made) :
    built.failure = none ∧ tree built.value = made := by
  obtain ⟨_ | why, t, w'⟩ := built
  · exact ⟨rfl, Except.ok.inj eq⟩
  · cases eq

variable {c : TightenableConstraint} {w : Workspace σ} {why : Refusal}

theorem enforce_eq_of_refused (refused : (c.enforce w).1 = some (.refused why)) :
    c.enforce w = (some (.refused why), w) := by
  revert refused
  unfold enforce
  split
  · rintro ⟨⟩
    rfl
  · exact Totalizer.enforce_eq_of_refused
  · split
    · rintro ⟨⟩
    · exact ModularTotalizer.enforceUpper_eq_of_refused

theorem enforce_modular {t : ModularTotalizer} (tree : c.tree = some (.modular t)) {bound : Nat}
    (counted : c.countedBound = .ok bound) : c.enforce w = t.enforceUpper bound w := by
  simp only [enforce, tree, counted]

/-- Before anything is built, a modular tree can be refused for its modulus or be asked for with a
bound that is out of range. -/
theorem makeTree_modular_cases (family : c.family = .modular) (w : Workspace σ) :
    (∃ m, c.makeTree w = (.error (.refused (.modulusTooSmall m)), w)) ∨
      (∃ f, c.makeTree w = (.error (.fault f), w)) ∨
      ∃ maxBound, c.countedBound = .ok maxBound ∧
        c.makeTree w = kept .modular
          ((ModularTotalizer.ofPreset c.countedLiterals c.presetModulus).encode maxBound w) := by
  by_cases preset : c.PresetOk
  · cases counted : c.countedBound with
    | ok maxBound => exact .inr (.inr ⟨maxBound, rfl, makeTree_modular family preset counted w⟩)
    | error f =>
        refine .inr (.inl ⟨f, ?_⟩)
        cases fixed : c.presetModulus with
        | none => simp only [makeTree, family, fixed, counted]
        | some m =>
            have set : (ModularTotalizer.ofInputs c.countedLiterals).setModulus m =
                .ok (.ofPreset c.countedLiterals (some m)) :=
              if_neg (Nat.not_lt_of_le (preset family m fixed))
            simp only [makeTree, family, fixed, set, counted]
  · simp only [PresetOk, Classical.not_imp, not_forall, Nat.not_le] at preset
    obtain ⟨-, m, fixed, small⟩ := preset
    have set : (ModularTotalizer.ofInputs c.countedLiterals).setModulus m =
        .error (.modulusTooSmall m) := if_pos small
    exact .inl ⟨m, by simp only [makeTree, family, fixed, set]⟩

/-- A tree is refused only for its modulus, and this shows before it is built. -/
theorem makeTree_of_refused (refused : (c.makeTree w).1 = .error (.refused why)) :
    (c.makeTree w).2 = w := by
  cases family : c.family with
  | totalizer =>
      rw [makeTree_totalizer family] at refused
      exact absurd (failure_of_kept refused)
        ((Totalizer.encode_accepted _ _ _ _ rfl).ne_refused why)
  | modular =>
      obtain ⟨_, eq⟩ | ⟨_, eq⟩ | ⟨maxBound, -, eq⟩ := makeTree_modular_cases family w
      · rw [eq]
      · rw [eq]
      · rw [eq] at refused
        exact absurd (failure_of_kept refused)
          ((ModularTotalizer.encode_accepted rfl).ne_refused why)

/-- A tree that was just made for the present bound can enforce it. -/
theorem makeTree_serves {tree : CountingTree} (made : (c.makeTree w).1 = .ok tree)
    (inRange : c.direction = .atLeast → c.bound ≤ c.literals.length) (w' : Workspace σ) :
    Accepted ((c.withTree tree).enforce w').1 := by
  cases family : c.family with
  | totalizer =>
      obtain ⟨inputs, built⟩ :=
        @Totalizer.encode_value σ _ (.ofInputs c.literals) c.direction c.highestBound w rfl
      rw [makeTree_totalizer family] at made
      obtain ⟨-, rfl⟩ := done_of_kept made
      have le : c.bound ≤ c.highestBound := by
        unfold highestBound
        split
        · exact Nat.le_refl _
        · exact inRange ‹_›
      exact Totalizer.enforce_accepted built le fun atLeast => inputs ▸ inRange atLeast
  | modular =>
      obtain ⟨_, eq⟩ | ⟨_, eq⟩ | ⟨maxBound, counted, eq⟩ := makeTree_modular_cases family w
      · rw [eq] at made
        cases made
      · rw [eq] at made
        cases made
      · rw [eq] at made
        obtain ⟨done, rfl⟩ := done_of_kept made
        have accepts := ModularTotalizer.encode_accepts (w := w) rfl rfl done
        rw [enforce_modular (c := c.withTree (.modular _)) rfl counted]
        exact accepts.enforceUpper_accepted

/-- No work was done by the time that a first tree is refused. -/
theorem materialize_eq_of_refused
    (inRange : c.direction = .atLeast → c.bound ≤ c.literals.length)
    (refused : (c.materialize w).failure = some (.refused why)) :
    c.materialize w = ⟨some (.refused why), c, w⟩ := by
  revert refused
  unfold materialize
  split
  · rintro ⟨⟩
  split <;> rename_i eq
  · rintro ⟨⟩
    have same : (c.makeTree w).2 = w := makeTree_of_refused (by rw [eq])
    rw [eq] at same
    exact same ▸ rfl
  · intro refused
    exact absurd refused ((makeTree_serves (by rw [eq]) inRange _).ne_refused why)

theorem advance_eq_of_refused
    (inRange : c.direction = .atLeast → c.bound ≤ c.literals.length)
    (refused : (c.advance w).failure = some (.refused why)) :
    c.advance w = ⟨some (.refused why), c, w⟩ := by
  revert refused
  unfold advance
  split
  · intro refused
    simp only [enforce_eq_of_refused refused]
  split
  · exact fun refused => absurd refused ((w.extend_accepted _).ne_refused why)
  · exact materialize_eq_of_refused inRange

/-- The bound that was set for a refused step is taken back. -/
theorem moveTo_eq_of_refused {bound : Nat}
    (inRange : c.direction = .atLeast → bound ≤ c.literals.length)
    (refused : (c.moveTo bound w).failure = some (.refused why)) :
    c.moveTo bound w = ⟨some (.refused why), c, w⟩ := by
  have advanced : ({ c with bound := bound }.advance w).failure = some (.refused why) → _ :=
    advance_eq_of_refused inRange
  revert refused
  unfold moveTo
  split <;> rename_i eq
  · rintro ⟨⟩
  · rintro ⟨⟩
  · rintro ⟨⟩
    rw [eq] at advanced
    obtain ⟨-, rfl, rfl⟩ := Outcome.mk.inj (advanced rfl)
    rfl

theorem tighten_eq_of_refused {direction : Direction} {bound : Nat}
    (refused : (c.tighten direction bound w).failure = some (.refused why)) :
    c.tighten direction bound w = ⟨some (.refused why), c, w⟩ := by
  revert refused
  unfold tighten
  split
  · rintro ⟨⟩
    rfl
  · rename_i accepted
    obtain ⟨rfl, inRange⟩ := tightens_of_refusal_eq_none accepted
    refine moveTo_eq_of_refused fun atLeast => ?_
    rw [atLeast] at inRange
    exact inRange.2

theorem reach_eq_of_refused (inRange : c.bound ≤ c.literals.length)
    (refused : (c.reach w).failure = some (.refused why)) :
    c.reach w = ⟨some (.refused why), c, w⟩ := by
  revert refused
  unfold reach
  split
  · exact fun refused => absurd refused ((w.extend_accepted _).ne_refused why)
  split
  · rintro ⟨⟩
  · exact materialize_eq_of_refused fun _ => inRange

/-- A constraint is refused before anything is built for it. -/
theorem build_of_refused {literals : List Literal} {direction : Direction} {bound : Nat}
    {configuration : Configuration}
    (refused : (build literals direction bound configuration w).1 = .error (.refused why)) :
    (build literals direction bound configuration w).2 = w := by
  obtain ⟨⟨_, eq⟩, -⟩ | ⟨inRange, preset⟩ :=
    prepare_cases literals direction bound configuration
  · simp only [build, eq]
  · have reached := @reach_eq_of_refused σ _ (blank literals direction bound configuration) w why
      inRange
    rw [build_eq_answer inRange preset] at refused ⊢
    rcases eq : (blank literals direction bound configuration).reach w with ⟨_ | _, c, w'⟩
    · rw [eq] at refused
      cases refused
    · rw [eq] at refused reached
      cases refused
      exact (Outcome.mk.inj (reached rfl)).2.2

end TightenableConstraint

end

end CardinalityClauses
