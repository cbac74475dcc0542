import CardinalityClauses.Proofs.Sharing.Requests
import CardinalityClauses.Proofs.Tightenable.Attempts

/-!
What no request undoes.

Whatever is asked for, whether or not it makes sense and however it ends, the collector changes by
calls only, the supply goes up, and the built constraints keep their literals, their trees and
their bounds or get tighter (`Shared.perform_later`, `Shared.perform_evolves`).
-/

namespace CardinalityClauses

open Collector (after)

/-! ### Workspaces -/

section

variable {σ : Type} [Collector σ]

/-- The collector of the second workspace is that of the first after some calls, and no variables
have come back. -/
structure Workspace.Later (w w' : Workspace σ) : Prop where
  handed : ∃ calls, w'.collector = after w.collector calls
  used : min w.supply.next VariableSupply.last ≤ w'.supply.next

namespace Workspace

theorem Later.refl (w : Workspace σ) : w.Later w :=
  ⟨⟨[], rfl⟩, Nat.min_le_left _ _⟩

theorem Later.trans {w w₁ w₂ : Workspace σ} (first : w.Later w₁) (second : w₁.Later w₂) :
    w.Later w₂ := by
  obtain ⟨⟨calls, handed⟩, used⟩ := first
  obtain ⟨⟨calls', handed'⟩, used'⟩ := second
  refine ⟨⟨calls ++ calls', ?_⟩, by omega⟩
  rw [handed', handed, Collector.after_append]

theorem Later.note {w w' : Workspace σ} (later : w.Later w') (e : Event) : w.Later (w'.note e) :=
  ⟨later.handed, later.used⟩

theorem Later.noteOption {w w' : Workspace σ} (later : w.Later w') (e : Option Event) :
    w.Later (w'.noteOption e) := by
  cases e with
  | none => exact later
  | some e => exact later.note e

theorem extend_later (w : Workspace σ) (cs : List Clause) : w.Later (w.extend cs).2 := by
  obtain ⟨collector, supply, events⟩ := w
  refine ⟨⟨[cs], ?_⟩, ?_⟩ <;> simp only [extend, after, List.foldl_cons, List.foldl_nil]
  · rcases Collector.extend collector cs with ⟨s, _ | _⟩ <;> rfl
  · rcases Collector.extend collector cs with ⟨s, _ | _⟩ <;> exact Nat.min_le_left _ _

theorem takeLiterals_later (w : Workspace σ) (n : Nat) : w.Later (w.takeLiterals n).2 := by
  obtain ⟨collector, supply, events⟩ := w
  refine ⟨⟨[], rfl⟩, ?_⟩
  simp only [takeLiterals, VariableSupply.takeLiterals]
  split
  · exact Nat.min_le_left _ _
  · split <;> simp only <;> omega

theorem handAll_later (w : Workspace σ) (bs : List Batch) : w.Later (w.handAll bs).2 := by
  induction bs generalizing w with
  | nil => exact .refl w
  | cons b rest ih =>
      have first := w.extend_later b.clauses
      simp only [handAll, hand]
      rcases eq : w.extend b.clauses with ⟨_ | why, w₁⟩ <;> rw [eq] at first
      · cases b.stop with
        | none => exact first.trans (ih w₁)
        | some f => exact first
      · exact first

theorem runPieces_later (w : Workspace σ) (ps : List Piece) : w.Later (w.runPieces ps).work := by
  induction ps generalizing w with
  | nil => exact .refl w
  | cons p rest ih =>
      have taken := w.takeLiterals_later p.fresh
      simp only [runPieces, runPiece]
      rcases eq : w.takeLiterals p.fresh with ⟨_ | ls, w₁⟩ <;> rw [eq] at taken
      · exact taken
      have handed := taken.trans (w₁.handAll_later p.batches)
      rcases eq₂ : w₁.handAll p.batches with ⟨_ | why, w₂⟩ <;> rw [eq₂] at handed
      · simp only [eq₂]
        exact (handed.noteOption p.event).trans (ih _)
      · simp only [eq₂]
        exact handed

end Workspace

/-! ### Encoders -/

theorem Totalizer.encode_later (t : Totalizer) (direction : Direction) (maxBound : Nat)
    (w : Workspace σ) : w.Later (t.encode direction maxBound w).work := by
  unfold encode
  split
  · split
    · exact .refl w
    · split <;> exact .refl w
  dsimp only
  split
  · exact .refl w
  rename_i shape split
  simp only [buildTree]
  have ran := w.runPieces_later ((Tree.grow (outputCount direction maxBound) shape
    w.supply.next).1.pieces direction t.nodes.length)
  split
  · exact ran
  · exact ran.note _

theorem Totalizer.enforce_later (t : Totalizer) (direction : Direction) (bound : Nat)
    (w : Workspace σ) : w.Later (t.enforce direction bound w).2 := by
  have output (position : Nat) (unit : Literal → Clause) :
      w.Later (t.enforceOutput position unit w).2 := by
    unfold enforceOutput
    split
    · exact .refl w
    · split
      · exact .refl w
      · exact w.extend_later _
  cases direction <;> simp only [enforce, enforceUpper, enforceLower]
  · split
    · exact .refl w
    · split
      · exact .refl w
      · exact output _ _
  · split
    · exact .refl w
    split
    · exact .refl w
    · split
      · exact .refl w
      · exact output _ _

theorem ModularTotalizer.buildTree_later (t : ModularTotalizer) (modulus maxBound : Nat)
    (shape : Halving Literal) (upper lower : List Literal) (clausesBefore variablesBefore : Nat)
    (w : Workspace σ) :
    w.Later
      (t.buildTree modulus maxBound shape upper lower clausesBefore variablesBefore w).work := by
  simp only [buildTree]
  have ran := w.runPieces_later ((Tree.grow modulus shape upper lower
    w.supply.next).1.pieces modulus maxBound t.nodes.length (t.nodes.length + 1))
  split
  · exact ran
  · exact ran.note _

theorem ModularTotalizer.encode_later (t : ModularTotalizer) (maxBound : Nat) (w : Workspace σ) :
    w.Later (t.encode maxBound w).work := by
  have root (t : ModularTotalizer) (modulus : Nat) (shape : Halving Literal) :
      w.Later (t.buildRoot modulus maxBound shape w).work := by
    simp only [buildRoot]
    split
    · exact .refl w
    rename_i upperLength _
    have upper := w.takeLiterals_later upperLength
    rcases eq : w.takeLiterals upperLength with ⟨_ | ls, w₁⟩ <;> rw [eq] at upper
    · exact upper
    have lower := upper.trans (w₁.takeLiterals_later (modulus - 1))
    rcases eq₂ : w₁.takeLiterals (modulus - 1) with ⟨_ | ls', w₂⟩ <;> rw [eq₂] at lower
    · simp only [eq₂]
      exact lower
    · simp only [eq₂]
      exact lower.trans (buildTree_later ..)
  unfold encode
  split
  · split <;> exact .refl w
  split
  · exact .refl w
  split
  · exact root _ _ _
  · exact .refl w
  · exact .refl w

theorem ModularTotalizer.enforceUpper_later (t : ModularTotalizer) (bound : Nat)
    (w : Workspace σ) : w.Later (t.enforceUpper bound w).2 := by
  have parts (modulus : Nat) (root : Node) : w.Later (enforceParts modulus root bound w).2 := by
    simp only [enforceParts]
    split
    · exact .refl w
    have first := w.extend_later
      ((root.upper.drop ((bound + 1) / modulus)).map fun u => .unit u.complement)
    split
    · rename_i eq
      rwa [eq] at first
    rename_i eq
    rw [eq] at first
    split
    · exact first.trans (Workspace.extend_later ..)
    · split <;> exact first.trans (Workspace.extend_later ..)
  unfold enforceUpper
  split
  · exact .refl w
  split
  · split
    · unfold enforceAtRoot
      split
      · exact .refl w
      · exact .refl w
      · split
        · exact .refl w
        · exact parts _ _
    · exact .refl w
  · split
    · exact w.extend_later _
    · exact .refl w
  · exact .refl w

theorem Constraint.encode_later (c : Constraint) (w : Workspace σ) : w.Later (c.encode w).2 := by
  have tree : w.Later (Totalizer.encodeConstraint c w).2 := by
    unfold Totalizer.encodeConstraint
    have built := (Totalizer.ofInputs c.literals).encode_later c.direction c.bound w
    split <;> rename_i eq <;> rw [eq] at built
    · exact built
    · exact built.trans (Totalizer.enforce_later ..)
  unfold encode
  split
  · exact .refl w
  split
  · exact w.extend_later _
  split
  · exact w.extend_later _
  split
  · exact w.extend_later _
  · exact tree

/-! ### Tightenable constraints -/

namespace TightenableConstraint

/-- The same constraint under the present bound or a tighter one, with the same tree if there was
one. -/
structure Evolves (c c' : TightenableConstraint) : Prop where
  ahead : c.Ahead c'.bound
  same : { c' with bound := c.bound, tree := c.tree } = c
  kept : c.isBuilt = true → c'.tree = c.tree

variable (c : TightenableConstraint) (w : Workspace σ)

theorem enforce_later : w.Later (c.enforce w).2 := by
  unfold enforce
  split
  · exact .refl w
  · exact Totalizer.enforce_later ..
  · split
    · exact .refl w
    · exact ModularTotalizer.enforceUpper_later ..

theorem makeTree_later : w.Later (c.makeTree w).2 := by
  cases family : c.family with
  | totalizer =>
      have built := (Totalizer.ofInputs c.literals).encode_later c.direction c.highestBound w
      rw [makeTree_totalizer family]
      unfold TightenableConstraint.kept
      split <;> rename_i eq <;> rwa [eq] at built
  | modular =>
      simp only [makeTree, family]
      split
      · exact .refl w
      · exact .refl w
      · rename_i t maxBound _ _
        have built := t.encode_later maxBound w
        split <;> rename_i eq <;> rwa [eq] at built

theorem materialize_later : w.Later (c.materialize w).work := by
  unfold materialize
  split
  · exact .refl w
  have made := c.makeTree_later w
  split <;> rename_i eq <;> rw [eq] at made
  · exact made
  · exact made.trans (enforce_later ..)

theorem advance_later : w.Later (c.advance w).work := by
  unfold advance
  split
  · exact c.enforce_later w
  split
  · exact w.extend_later _
  · exact c.materialize_later w

theorem tighten_later (direction : Direction) (b : Nat) :
    w.Later (c.tighten direction b w).work := by
  unfold tighten
  split
  · exact .refl w
  have advanced := ({ c with bound := b } : TightenableConstraint).advance_later w
  unfold moveTo
  split <;> rename_i eq <;> rw [eq] at advanced
  · exact advanced.note _
  · exact advanced
  · exact advanced

theorem reach_later : w.Later (c.reach w).work := by
  unfold reach
  split
  · exact w.extend_later _
  split
  · exact .refl w
  · exact c.materialize_later w

theorem build_later (literals : List Literal) (direction : Direction) (bound : Nat)
    (configuration : Configuration) (w : Workspace σ) :
    w.Later (build literals direction bound configuration w).2 := by
  obtain ⟨⟨why, refused⟩, -⟩ | ⟨inRange, preset⟩ :=
    prepare_cases literals direction bound configuration
  · simp only [build, refused]
    exact .refl w
  · have reached := (blank literals direction bound configuration).reach_later w
    rw [build_eq_answer inRange preset]
    rcases eq : (blank literals direction bound configuration).reach w with ⟨_ | why, c, w'⟩ <;>
      rw [eq] at reached
    · exact reached.note _
    · exact reached

/-! ### What a request leaves of a constraint -/

/-- The constraint could have been built over some variables. -/
def Buildable (c : TightenableConstraint) : Prop :=
  c.bound ≤ c.literals.length ∧ c.PresetOk

section Evolves

variable {c c' c'' : TightenableConstraint} {w : Workspace σ}

theorem Evolves.refl (inRange : c.bound ≤ c.literals.length) : c.Evolves c :=
  ⟨ahead_self inRange, rfl, fun _ => rfl⟩

theorem Evolves.constraint_eq (evolves : c.Evolves c') :
    c'.constraint = (c.withBound c'.bound).constraint := by
  rw [← evolves.same]
  rfl

theorem Evolves.isBuilt (evolves : c.Evolves c') (built : c.isBuilt = true) :
    c'.isBuilt = true := by
  rwa [TightenableConstraint.isBuilt, evolves.kept built]

theorem Evolves.trans (first : c.Evolves c') (second : c'.Evolves c'') : c.Evolves c'' where
  ahead := first.ahead.trans ((ahead_iff_of_constraint_eq first.constraint_eq _).1 second.ahead)
  same := by
    rw [← first.same, ← second.same]
  kept := fun built => (second.kept (first.isBuilt built)).trans (first.kept built)

theorem Evolves.buildable (evolves : c.Evolves c') (buildable : c.Buildable) : c'.Buildable := by
  obtain ⟨-, literals, -⟩ := Constraint.mk.inj evolves.constraint_eq
  refine ⟨?_, ?_⟩
  · rw [literals]
    exact evolves.ahead.le_length buildable.1
  · have preset := buildable.2
    rwa [← evolves.same] at preset

/-- A constraint with a tree is the same but for the bound. -/
theorem Evolves.eq_withBound (evolves : c.Evolves c') (built : c.isBuilt = true) :
    c' = c.withBound c'.bound := by
  rw [← evolves.same, ← evolves.kept built]
  rfl

/-- The constraint stays what it was but for a tree, if there was none. -/
theorem materialize_value : (c.materialize w).value = c ∨
    c.isBuilt = false ∧ ∃ tree, (c.materialize w).value = c.withTree tree := by
  unfold materialize
  split
  · exact .inl rfl
  rename_i unbuilt
  split
  · exact .inl rfl
  · exact .inr ⟨by simp [TightenableConstraint.isBuilt, unbuilt], _, rfl⟩

theorem advance_value : (c.advance w).value = c ∨
    c.isBuilt = false ∧ ∃ tree, (c.advance w).value = c.withTree tree := by
  unfold advance
  split
  · exact .inl rfl
  split
  · exact .inl rfl
  · exact materialize_value

theorem reach_value : (c.reach w).value = c ∨
    c.isBuilt = false ∧ ∃ tree, (c.reach w).value = c.withTree tree := by
  unfold reach
  split
  · exact .inl rfl
  split
  · exact .inl rfl
  · exact materialize_value

theorem Evolves.of_value {b : Nat} (ahead : c.Ahead b)
    (value : c' = c.withBound b ∨
      c.isBuilt = false ∧ ∃ tree, c' = (c.withBound b).withTree tree) : c.Evolves c' := by
  obtain rfl | ⟨unbuilt, tree, rfl⟩ := value
  · exact ⟨ahead, rfl, fun _ => rfl⟩
  · exact ⟨ahead, rfl, fun built => by simp [unbuilt] at built⟩

/-- However tightening ends, the constraint is under the present bound or a tighter one. -/
theorem tighten_evolves (inRange : c.bound ≤ c.literals.length) (direction : Direction) (b : Nat) :
    c.Evolves (c.tighten direction b w).value := by
  unfold tighten
  split
  · exact .refl inRange
  rename_i accepted
  have ahead := ((tightens_of_refusal_eq_none accepted).ahead inRange).1
  have advanced : ((c.withBound b).advance w).value = c.withBound b ∨
      c.isBuilt = false ∧ ∃ tree, ((c.withBound b).advance w).value =
        (c.withBound b).withTree tree := advance_value
  obtain ⟨o, eq⟩ : ∃ o, (c.withBound b).advance w = o := ⟨_, rfl⟩
  have moved : ({ c with bound := b } : TightenableConstraint).advance w = o := eq
  rw [eq] at advanced
  unfold moveTo
  rw [moved]
  obtain ⟨_ | _ | _ | _, moved, w'⟩ := o
  -- The bound is put back unless the step succeeded or ended in a fault.
  · exact .of_value ahead advanced
  · obtain rfl | ⟨unbuilt, tree, rfl⟩ := advanced
    · exact .of_value (ahead_self inRange) (.inl rfl)
    · exact .of_value (ahead_self inRange) (.inr ⟨unbuilt, tree, rfl⟩)
  · obtain rfl | ⟨unbuilt, tree, rfl⟩ := advanced
    · exact .of_value (ahead_self inRange) (.inl rfl)
    · exact .of_value (ahead_self inRange) (.inr ⟨unbuilt, tree, rfl⟩)
  · exact .of_value ahead advanced

theorem buildable_of_build {literals : List Literal} {direction : Direction} {bound : Nat}
    {configuration : Configuration}
    (built : (build literals direction bound configuration w).1 = .ok c) : c.Buildable := by
  obtain ⟨⟨why, refused⟩, -⟩ | fine := prepare_cases literals direction bound configuration
  · simp only [build, refused] at built
    cases built
  have value := (reach_value (c := blank literals direction bound configuration) (w := w))
  rw [build_eq_answer fine.1 fine.2] at built
  rcases eq : (blank literals direction bound configuration).reach w with ⟨_ | why, c, w'⟩ <;>
    rw [eq] at built value <;> cases built
  obtain rfl | ⟨-, tree, rfl⟩ := value
  · exact fine
  · exact fine

end Evolves

end TightenableConstraint

/-! ### Requests -/

namespace Shared

/-- What cannot have been undone between two times. -/
structure Later (s t : Shared σ) : Prop where
  work : s.work.Later t.work
  evolves : ∀ (i : Nat) (c : TightenableConstraint), s.handles[i]? = some c →
    ∃ c', t.handles[i]? = some c' ∧ c.Evolves c'
  buildable : ∀ c ∈ t.handles, c.Buildable

variable {s : Shared σ}

/-- A request that leaves the built constraints alone. -/
theorem Later.of_handles_eq {t : Shared σ} (work : s.work.Later t.work)
    (handles : t.handles = s.handles) (buildable : ∀ c ∈ s.handles, c.Buildable) : s.Later t where
  work := work
  evolves := fun i c found => by
    rw [handles]
    exact ⟨c, found, .refl (buildable c (List.mem_of_getElem? found)).1⟩
  buildable := by rwa [handles]

/-- Whatever is asked for and however it ends. -/
theorem perform_later (buildable : ∀ c ∈ s.handles, c.Buildable) (r : SharedRequest) :
    s.Later (s.perform r).2 := by
  cases r with
  | takeVariable =>
      have taken : s.work.Later { s.work with supply := s.work.supply.takeVariable.2 } := by
        refine ⟨⟨[], rfl⟩, ?_⟩
        simp only [VariableSupply.takeVariable]
        split <;> simp only <;> omega
      simp only [perform]
      split <;> rename_i eq <;> rw [eq] at taken <;> exact .of_handles_eq taken rfl buildable
  | takeLiterals n =>
      have taken := s.work.takeLiterals_later n
      simp only [perform]
      split <;> rename_i eq <;> rw [eq] at taken <;> exact .of_handles_eq taken rfl buildable
  | takeBelow v =>
      have raised : s.work.Later { s.work with supply := (s.work.supply.raiseTo v).2 } := by
        refine ⟨⟨[], rfl⟩, ?_⟩
        simp only [VariableSupply.raiseTo]
        split <;> simp only <;> omega
      exact .of_handles_eq raised rfl buildable
  | addClause clause =>
      have extended := s.work.extend_later [clause]
      simp only [perform]
      split <;> rename_i eq <;> rw [eq] at extended <;>
        exact .of_handles_eq extended rfl buildable
  | encode constraint =>
      have encoded := constraint.encode_later s.work
      simp only [perform]
      split <;> rename_i eq <;> rw [eq] at encoded <;> exact .of_handles_eq encoded rfl buildable
  | build literals direction bound configuration =>
      have built :=
        TightenableConstraint.build_later literals direction bound configuration s.work
      simp only [perform]
      split <;> rename_i eq <;> rw [eq] at built
      · exact .of_handles_eq built rfl buildable
      · have fine := TightenableConstraint.buildable_of_build (congrArg Prod.fst eq)
        refine ⟨built, fun i c found => ⟨c, ?_, ?_⟩, ?_⟩
        · exact (List.getElem?_append_left (List.getElem?_eq_some_iff.1 found).1).trans found
        · exact .refl (buildable c (List.mem_of_getElem? found)).1
        · exact List.forall_mem_append.2 ⟨buildable, List.forall_mem_singleton.2 fine⟩
  | tighten position direction bound =>
      simp only [perform]
      split
      · exact .of_handles_eq (.refl _) rfl buildable
      rename_i handle found
      have inside := (List.getElem?_eq_some_iff.1 found).1
      have fine := buildable handle (List.mem_of_getElem? found)
      have evolves := TightenableConstraint.tighten_evolves (w := s.work) fine.1 direction bound
      refine ⟨handle.tighten_later s.work direction bound, fun i c at_ => ?_, fun c mem => ?_⟩
      · by_cases same : position = i
        · subst same
          cases found.symm.trans at_
          exact ⟨_, List.getElem?_set_self inside, evolves⟩
        · exact ⟨c, (List.getElem?_set_ne same).trans at_,
            .refl (buildable c (List.mem_of_getElem? at_)).1⟩
      · rcases List.mem_or_eq_of_mem_set mem with old | rfl
        · exact buildable c old
        · exact evolves.buildable fine

end Shared

end

end CardinalityClauses
