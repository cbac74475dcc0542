import CardinalityClauses.Proofs.Tightenable.Attempts

/-!
Events are reported and never read.

Two workspaces that differ in their events only (`Workspace.Alike`) stay so whatever is done in
them, and what is done comes to the same in both. There is a lemma for every operation, up to the
emitting of the clauses for the present bound (`TightenableConstraint.reach_alike`,
`TightenableConstraint.advance_alike`).
-/

namespace CardinalityClauses

variable {σ : Type}

/-! ### Workspaces -/

/-- The workspaces have the same collector and the same supply. -/
structure Workspace.Alike (w w' : Workspace σ) : Prop where
  collector : w'.collector = w.collector
  supply : w'.supply = w.supply

/-- The results are the same, in workspaces that are alike. -/
structure SameIn {α : Type} (p p' : α × Workspace σ) : Prop where
  result : p'.1 = p.1
  work : p.2.Alike p'.2

theorem SameIn.split {α : Type} {p p' : α × Workspace σ} (same : SameIn p p') :
    ∃ a w w', p = (a, w) ∧ p' = (a, w') ∧ w.Alike w' := by
  obtain ⟨a, w⟩ := p
  obtain ⟨_, w'⟩ := p'
  obtain ⟨rfl, work⟩ := same
  exact ⟨_, w, w', rfl, rfl, work⟩

/-- The operations ended the same way and left the same, in workspaces that are alike. -/
structure Outcome.Alike {α : Type} (o o' : Outcome α σ) : Prop where
  failure : o'.failure = o.failure
  value : o'.value = o.value
  work : o.work.Alike o'.work

theorem Outcome.Alike.split {α : Type} {o o' : Outcome α σ} (alike : o.Alike o') :
    ∃ failure a w w', o = ⟨failure, a, w⟩ ∧ o' = ⟨failure, a, w'⟩ ∧ w.Alike w' := by
  obtain ⟨failure, a, w⟩ := o
  obtain ⟨_, _, w'⟩ := o'
  obtain ⟨rfl, rfl, work⟩ := alike
  exact ⟨_, _, w, w', rfl, rfl, work⟩

namespace Workspace.Alike

variable {w w' : Workspace σ}

theorem refl (w : Workspace σ) : w.Alike w :=
  ⟨rfl, rfl⟩

theorem note (alike : w.Alike w') (e e' : Event) : (w.note e).Alike (w'.note e') :=
  ⟨alike.collector, alike.supply⟩

theorem noteOption (alike : w.Alike w') (e : Option Event) :
    (w.noteOption e).Alike (w'.noteOption e) := by
  cases e with
  | none => exact alike
  | some e => exact alike.note e e

theorem takeLiterals (alike : w.Alike w') (n : Nat) :
    SameIn (w.takeLiterals n) (w'.takeLiterals n) := by
  obtain ⟨collector, supply, events⟩ := w
  obtain ⟨_, _, events'⟩ := w'
  obtain ⟨rfl, rfl⟩ := alike
  exact ⟨rfl, rfl, rfl⟩

variable [Collector σ]

theorem clauseCount (alike : w.Alike w') : w'.clauseCount = w.clauseCount :=
  congrArg Collector.clauseCount alike.collector

theorem extend (alike : w.Alike w') (cs : List Clause) : SameIn (w.extend cs) (w'.extend cs) := by
  obtain ⟨collector, supply, events⟩ := w
  obtain ⟨_, _, events'⟩ := w'
  obtain ⟨rfl, rfl⟩ := alike
  simp only [Workspace.extend]
  rcases Collector.extend _ cs with ⟨s, _ | _⟩ <;> exact ⟨rfl, rfl, rfl⟩

theorem handAll (alike : w.Alike w') (bs : List Batch) :
    SameIn (w.handAll bs) (w'.handAll bs) := by
  induction bs generalizing w w' with
  | nil => exact ⟨rfl, alike⟩
  | cons b rest ih =>
      obtain ⟨failure, w₁, w₁', eq, eq', first⟩ := (alike.extend b.clauses).split
      simp only [Workspace.handAll, hand, eq, eq']
      cases failure with
      | some why => exact ⟨rfl, first⟩
      | none =>
          cases b.stop with
          | some f => exact ⟨rfl, first⟩
          | none => exact ih first

theorem runPiece (alike : w.Alike w') (p : Piece) : SameIn (w.runPiece p) (w'.runPiece p) := by
  obtain ⟨f | ls, w₁, w₁', eq, eq', taken⟩ := (alike.takeLiterals p.fresh).split
  · simp only [Workspace.runPiece, eq, eq']
    exact ⟨rfl, taken⟩
  obtain ⟨failure, w₂, w₂', eq₂, eq₂', handed⟩ := (taken.handAll p.batches).split
  simp only [Workspace.runPiece, eq, eq', eq₂, eq₂']
  cases failure with
  | some why => exact ⟨rfl, handed⟩
  | none => exact ⟨rfl, handed.noteOption p.event⟩

theorem runPieces (alike : w.Alike w') (ps : List Piece) :
    (w'.runPieces ps).finished = (w.runPieces ps).finished ∧
      (w'.runPieces ps).failure = (w.runPieces ps).failure ∧
      (w.runPieces ps).work.Alike (w'.runPieces ps).work := by
  induction ps generalizing w w' with
  | nil => exact ⟨rfl, rfl, alike⟩
  | cons p rest ih =>
      obtain ⟨failure, w₁, w₁', eq, eq', first⟩ := (alike.runPiece p).split
      simp only [Workspace.runPieces, eq, eq']
      cases failure with
      | some why => exact ⟨rfl, rfl, first⟩
      | none =>
          obtain ⟨finished, failure, work⟩ := ih first
          exact ⟨congrArg (· + 1) finished, failure, work⟩

end Workspace.Alike

variable [Collector σ] {w w' : Workspace σ}

/-! ### Encoders -/

theorem Totalizer.buildTree_alike (t : Totalizer) (direction : Direction) (maxBound : Nat)
    (shape : Halving Literal) (alike : w.Alike w') :
    (t.buildTree direction maxBound shape w).Alike (t.buildTree direction maxBound shape w') := by
  simp only [buildTree, alike.supply, alike.clauseCount]
  obtain ⟨finished, failure, work⟩ := alike.runPieces ((Tree.grow (outputCount direction maxBound)
    shape w.supply.next).1.pieces direction t.nodes.length)
  rw [finished, failure, work.supply, work.clauseCount]
  split
  · exact ⟨rfl, rfl, work⟩
  · exact ⟨rfl, rfl, work.note _ _⟩

theorem Totalizer.encode_alike (t : Totalizer) (direction : Direction) (maxBound : Nat)
    (alike : w.Alike w') :
    (t.encode direction maxBound w).Alike (t.encode direction maxBound w') := by
  unfold encode
  split
  · split
    · exact ⟨rfl, rfl, alike⟩
    · split <;> exact ⟨rfl, rfl, alike⟩
  · dsimp only
    split
    · exact ⟨rfl, rfl, alike⟩
    · exact buildTree_alike _ _ _ _ alike

theorem Totalizer.enforce_alike (t : Totalizer) (direction : Direction) (bound : Nat)
    (alike : w.Alike w') :
    SameIn (t.enforce direction bound w) (t.enforce direction bound w') := by
  have output (position : Nat) (unit : Literal → Clause) :
      SameIn (t.enforceOutput position unit w) (t.enforceOutput position unit w') := by
    unfold enforceOutput
    split
    · exact ⟨rfl, alike⟩
    · split
      · exact ⟨rfl, alike⟩
      · exact alike.extend _
  cases direction <;> simp only [enforce, enforceUpper, enforceLower]
  · split
    · exact ⟨rfl, alike⟩
    · split
      · exact ⟨rfl, alike⟩
      · exact output _ _
  · split
    · exact ⟨rfl, alike⟩
    split
    · exact ⟨rfl, alike⟩
    · split
      · exact ⟨rfl, alike⟩
      · exact output _ _

theorem ModularTotalizer.buildTree_alike (t : ModularTotalizer) (modulus maxBound : Nat)
    (shape : Halving Literal) (upper lower : List Literal) (clausesBefore variablesBefore : Nat)
    (alike : w.Alike w') :
    (t.buildTree modulus maxBound shape upper lower clausesBefore variablesBefore w).Alike
      (t.buildTree modulus maxBound shape upper lower clausesBefore variablesBefore w') := by
  simp only [buildTree, alike.supply]
  obtain ⟨finished, failure, work⟩ := alike.runPieces ((Tree.grow modulus shape upper lower
    w.supply.next).1.pieces modulus maxBound t.nodes.length (t.nodes.length + 1))
  rw [finished, failure, work.supply, work.clauseCount]
  split
  · exact ⟨rfl, rfl, work⟩
  · exact ⟨rfl, rfl, work.note _ _⟩

theorem ModularTotalizer.buildRoot_alike (t : ModularTotalizer) (modulus maxBound : Nat)
    (shape : Halving Literal) (alike : w.Alike w') :
    (t.buildRoot modulus maxBound shape w).Alike (t.buildRoot modulus maxBound shape w') := by
  simp only [buildRoot, alike.supply, alike.clauseCount]
  split
  · exact ⟨rfl, rfl, alike⟩
  rename_i upperLength _
  obtain ⟨f | ls, w₁, w₁', eq, eq', upper⟩ := (alike.takeLiterals upperLength).split
  · simp only [eq, eq']
    exact ⟨rfl, rfl, upper⟩
  obtain ⟨f | ls', w₂, w₂', eq₂, eq₂', lower⟩ := (upper.takeLiterals (modulus - 1)).split
  · simp only [eq, eq', eq₂, eq₂']
    exact ⟨rfl, rfl, lower⟩
  · simp only [eq, eq', eq₂, eq₂']
    exact buildTree_alike _ _ _ _ _ _ _ _ lower

theorem ModularTotalizer.encode_alike (t : ModularTotalizer) (maxBound : Nat)
    (alike : w.Alike w') : (t.encode maxBound w).Alike (t.encode maxBound w') := by
  unfold encode
  split
  · split <;> exact ⟨rfl, rfl, alike⟩
  split
  · exact ⟨rfl, rfl, alike⟩
  split
  · exact buildRoot_alike _ _ _ _ alike
  · exact ⟨rfl, rfl, alike⟩
  · exact ⟨rfl, rfl, alike⟩

theorem ModularTotalizer.enforceParts_alike (modulus : Nat) (root : Node) (bound : Nat)
    (alike : w.Alike w') :
    SameIn (enforceParts modulus root bound w) (enforceParts modulus root bound w') := by
  simp only [enforceParts]
  split
  · exact ⟨rfl, alike⟩
  obtain ⟨failure, w₁, w₁', eq, eq', first⟩ := (alike.extend
    ((root.upper.drop ((bound + 1) / modulus)).map fun u => .unit u.complement)).split
  rw [eq, eq']
  cases failure with
  | some why => exact ⟨rfl, first⟩
  | none =>
      dsimp only
      split
      · exact first.extend _
      · split <;> exact first.extend _

theorem ModularTotalizer.enforceUpper_alike (t : ModularTotalizer) (bound : Nat)
    (alike : w.Alike w') : SameIn (t.enforceUpper bound w) (t.enforceUpper bound w') := by
  unfold enforceUpper
  split
  · exact ⟨rfl, alike⟩
  split
  · split
    · unfold enforceAtRoot
      split
      · exact ⟨rfl, alike⟩
      · exact ⟨rfl, alike⟩
      · split
        · exact ⟨rfl, alike⟩
        · exact enforceParts_alike _ _ _ alike
    · exact ⟨rfl, alike⟩
  · split
    · exact alike.extend _
    · exact ⟨rfl, alike⟩
  · exact ⟨rfl, alike⟩

/-! ### Tightenable constraints -/

namespace TightenableConstraint

variable (c : TightenableConstraint)

theorem enforce_alike (alike : w.Alike w') : SameIn (c.enforce w) (c.enforce w') := by
  unfold enforce
  split
  · exact ⟨rfl, alike⟩
  · exact Totalizer.enforce_alike _ _ _ alike
  · split
    · exact ⟨rfl, alike⟩
    · exact ModularTotalizer.enforceUpper_alike _ _ alike

theorem makeTree_alike (alike : w.Alike w') : SameIn (c.makeTree w) (c.makeTree w') := by
  cases family : c.family with
  | totalizer =>
      rw [makeTree_totalizer family, makeTree_totalizer family]
      obtain ⟨failure, t, w₁, w₁', eq, eq', built⟩ :=
        ((Totalizer.ofInputs c.literals).encode_alike c.direction c.highestBound alike).split
      rw [eq, eq']
      cases failure <;> exact ⟨rfl, built⟩
  | modular =>
      simp only [makeTree, family]
      split
      · exact ⟨rfl, alike⟩
      · exact ⟨rfl, alike⟩
      · rename_i t maxBound _ _
        obtain ⟨failure, t', w₁, w₁', eq, eq', built⟩ := (t.encode_alike maxBound alike).split
        rw [eq, eq']
        cases failure <;> exact ⟨rfl, built⟩

theorem materialize_alike (alike : w.Alike w') : (c.materialize w).Alike (c.materialize w') := by
  unfold materialize
  split
  · exact ⟨rfl, rfl, alike⟩
  obtain ⟨failure | tree, w₁, w₁', eq, eq', made⟩ := (c.makeTree_alike alike).split <;>
    rw [eq, eq']
  · exact ⟨rfl, rfl, made⟩
  · have enforced := (c.withTree tree).enforce_alike made
    exact ⟨enforced.result, rfl, enforced.work⟩

theorem reach_alike (alike : w.Alike w') : (c.reach w).Alike (c.reach w') := by
  unfold reach
  split
  · have extended := alike.extend c.fixingClauses
    exact ⟨extended.result, rfl, extended.work⟩
  split
  · exact ⟨rfl, rfl, alike⟩
  · exact c.materialize_alike alike

theorem advance_alike (alike : w.Alike w') : (c.advance w).Alike (c.advance w') := by
  unfold advance
  split
  · have enforced := c.enforce_alike alike
    exact ⟨enforced.result, rfl, enforced.work⟩
  split
  · have extended := alike.extend c.fixingClauses
    exact ⟨extended.result, rfl, extended.work⟩
  · exact c.materialize_alike alike

end TightenableConstraint

end CardinalityClauses
