import CardinalityClauses.Proofs.Encoding.Orderly
import CardinalityClauses.Proofs.Tightenable.Calls
import CardinalityClauses.Proofs.Tightenable.Refusals

/-!
The life of a tightenable constraint.

A constraint begins without a tree, as long as its bounds ask for nothing or fix all literals. The
first bound in between builds one. If no collector runs out of memory, this is the only step that
takes variables. From then on the tree stays, and a tighter bound costs a few clauses over the
outputs of its root.

Main statement: over a whole life at most one step takes variables, and what was taken is what the
tree has counted (`TightenableConstraint.Life.takes_variables_once`).
-/

namespace CardinalityClauses

/-! ### The clauses for a bound -/

/-- A counter has a literal to say that at least `n` is counted. -/
theorem Unary.of_atLeast_eq_cons {counter rest : List Literal} {n : Nat} {l : Literal}
    (eq : atLeast counter n = l :: rest) : 0 < n ∧ counter[n - 1]? = some l := by
  unfold atLeast at eq
  split at eq
  · cases eq
  · rename_i positive
    refine ⟨Nat.pos_of_ne_zero positive, ?_⟩
    cases found : counter[n - 1]? <;> simp_all

namespace ModularTotalizer

variable {modulus bound : Nat} {upper lower : List Literal}

/-- The clauses for a bound are of one or of two literals, all of them negated. -/
theorem mem_enforcing {c : Clause} (mem : c ∈ enforcing modulus upper lower bound) :
    (∃ l ∈ upper ++ lower, c = .unit l.complement) ∨
      ∃ u ∈ upper, ∃ l ∈ lower, c = ⟨[u.complement, l.complement]⟩ := by
  simp only [enforcing, List.mem_append] at mem ⊢
  rcases mem with beyond | within
  · obtain ⟨u, hu, rfl⟩ := List.mem_map.1 beyond
    exact .inl ⟨u, .inl (List.mem_of_mem_drop hu), rfl⟩
  split at within
  · obtain ⟨l, hl, rfl⟩ := List.mem_map.1 within
    exact .inl ⟨l, .inr (List.mem_of_mem_drop hl), rfl⟩
  · rename_i u rest eq
    have hu : u ∈ upper := List.mem_of_getElem? (Unary.of_atLeast_eq_cons eq).2
    split at within
    · obtain rfl := List.mem_singleton.1 within
      exact .inl ⟨u, .inl hu, rfl⟩
    · obtain ⟨l, hl, rfl⟩ := List.mem_map.1 within
      exact .inr ⟨u, hu, l, List.mem_of_mem_drop hl, rfl⟩

/-- A bound takes no more clauses than there are literals in the parts. Where one clause is added
for the multiples of the modulus within the bound, there is a literal for them that is in no other
clause. -/
theorem length_enforcing_le :
    (enforcing modulus upper lower bound).length ≤ upper.length + lower.length := by
  simp only [enforcing, List.length_append, List.length_map, List.length_drop]
  split
  · rw [List.length_map, List.length_drop]
    exact Nat.add_le_add (Nat.sub_le _ _) (Nat.sub_le _ _)
  · rename_i u rest eq
    obtain ⟨positive, found⟩ := Unary.of_atLeast_eq_cons eq
    obtain ⟨inside, -⟩ := List.getElem?_eq_some_iff.1 found
    split
    · rw [List.length_singleton]
      omega
    · rw [List.length_map, List.length_drop]
      exact Nat.add_le_add (Nat.sub_le _ _) (Nat.sub_le _ _)

end ModularTotalizer

namespace Totalizer

/-- The unit clause that a bound makes of an output: the count does not reach it, or it does. -/
def outputClause (direction : Direction) (output : Literal) : Clause :=
  match direction with
  | .atMost => .unit output.complement
  | .atLeast => .unit output

/-- A bound that is allowed takes one clause. -/
theorem enforcing_eq {direction : Direction} {maxBound bound : Nat} {t : Totalizer}
    {outputs : List Literal} (complete : t.Complete direction maxBound outputs)
    (allowed : Allowed direction t.inputs.length maxBound bound) :
    ∃ output ∈ outputs, enforcing direction outputs bound = [outputClause direction output] := by
  have long := complete.long
  cases direction with
  | atMost =>
      obtain ⟨le, lt⟩ := allowed
      have inside : bound < outputs.length := by
        simp only [countLimit] at long
        omega
      exact ⟨outputs[bound], List.getElem_mem inside, by simp [enforcing, inside, outputClause]⟩
  | atLeast =>
      obtain ⟨le, positive, inRange⟩ := allowed
      have inside : bound - 1 < outputs.length := by
        simp only [countLimit] at long
        omega
      exact ⟨outputs[bound - 1], List.getElem_mem inside, by simp [enforcing, inside, outputClause]⟩

end Totalizer

/-- The clauses are over the outputs of the root. For a totalizer it is one unit clause, for a
modular totalizer there are clauses of one or two negated literals, no more of them than there are
literals in both parts of the root. -/
def CountingTree.OverRoot (tree : CountingTree) (direction : Direction) (inputs : Nat)
    (cs : List Clause) : Prop :=
  match tree with
  | totalizer t =>
      ∃ outputs, t.outputs = .ok outputs ∧
        ∃ output ∈ outputs, cs = [Totalizer.outputClause direction output]
  | modular t =>
      ∃ modulus position root, t.modulus = some modulus ∧ t.root = some position ∧
        t.nodes[position]? = some root ∧ cs.length ≤ inputs / modulus + modulus - 1 ∧
        ∀ c ∈ cs, (∃ l ∈ root.upper ++ root.lower, c = .unit l.complement) ∨
          ∃ u ∈ root.upper, ∃ l ∈ root.lower, c = ⟨[u.complement, l.complement]⟩

/-- What enforces a bound is over the outputs of the root. -/
theorem CountingTree.Complete.overRoot {tree : CountingTree} {direction : Direction}
    {inputs bound : Nat} (complete : tree.Complete direction inputs)
    (supports : tree.Supports direction inputs bound) :
    tree.OverRoot direction inputs (tree.enforcing direction inputs bound) := by
  cases tree with
  | totalizer t =>
      obtain ⟨rfl, maxBound, outputs, complete⟩ := complete
      obtain ⟨_, same, allowed⟩ := supports
      cases complete.built.symm.trans same
      rw [enforcing_totalizer complete]
      exact ⟨outputs, complete.outputs_eq, Totalizer.enforcing_eq complete allowed⟩
  | modular t =>
      obtain ⟨rfl, modulus, maxBound, upper, lower, complete⟩ := complete
      have two := complete.two_le
      have few := complete.length_upper
      have rest := complete.length_lower
      rw [enforcing_modular complete]
      obtain ⟨position, root, at_, found, rfl, rfl⟩ := complete.root
      refine ⟨modulus, position, root, complete.modulus_eq, at_, found, ?_,
        fun c => ModularTotalizer.mem_enforcing⟩
      refine Nat.le_trans ModularTotalizer.length_enforcing_le ?_
      omega

namespace TightenableConstraint

open LawfulCollector (contents)

variable {c c' : TightenableConstraint} {bound : Nat} {tree : CountingTree}

/-! ### What a successful request took -/

/-- A constraint whose tree, if there is one, is complete and enforces every bound ahead. -/
structure Steady (c : TightenableConstraint) : Prop extends c.Settled where
  serving : c.Serving

theorem Settled.steady (settled : c.Settled) (unbuilt : c.isBuilt = false) : c.Steady :=
  ⟨settled, fun built => by simp [unbuilt] at built⟩

theorem Steady.withBound (steady : c.Steady) (inRange : c.bound ≤ c.literals.length)
    (ahead : c.Ahead bound) : (c.withBound bound).Steady :=
  ⟨steady.toSettled.withBound (ahead.le_length inRange), steady.serving.withBound ahead⟩

theorem tally_of_not_isBuilt (unbuilt : c.isBuilt = false) : c.tally.variableCount = 0 := by
  have empty : c.tree = none := by simpa [isBuilt] using unbuilt
  simp [tally, empty]

/-- A tree that was made has counted the variables that its plan takes. -/
theorem tally_makeTree {σ : Type} [LawfulCollector σ] {w w' : Workspace σ} (preset : c.PresetOk)
    (proper : c.Proper) (made : c.makeTree w = (.ok tree, w')) :
    tree.tally.variableCount = c.treeDemand := by
  have nonempty : c.literals ≠ [] := List.ne_nil_of_length_pos (Nat.zero_lt_of_lt proper.2)
  cases family : c.family with
  | totalizer =>
      rw [makeTree_totalizer family] at made
      obtain ⟨done, rfl⟩ := done_of_kept (congrArg Prod.fst made)
      obtain ⟨shape, split, -⟩ := Halving.ofList?_spec nonempty
      obtain ⟨-, -, tally⟩ := Totalizer.encode_done split done
      simp only [CountingTree.tally, tally, treeDemand, family, Totalizer.buildDemand, split]
  | modular =>
      obtain ⟨maxBound, same⟩ :
        ∃ m, CountingTree.counted c.direction c.literals.length c.bound = m := ⟨_, rfl⟩
      obtain ⟨positive, lt⟩ := proper.counted
      rw [same] at positive lt
      have counted := countedBound_withBound (c := c) (Nat.le_of_lt proper.2)
      rw [same] at counted
      rw [makeTree_modular family preset counted] at made
      obtain ⟨done, rfl⟩ := done_of_kept (congrArg Prod.fst made)
      obtain ⟨left, right, split, -⟩ :=
        Halving.exists_fork (by omega : 2 ≤ c.countedLiterals.length)
      obtain eq | ⟨f, eq⟩ :=
        ModularTotalizer.encode_cases positive lt split c.presetModulus w
      swap
      · rw [eq] at done
        cases done
      rw [eq] at done ⊢
      have two := ModularTotalizer.two_le_modulusFor (preset family) positive
      obtain ⟨-, -, tally⟩ := ModularTotalizer.buildRoot_done two split done
      simp only [CountingTree.tally, tally, treeDemand, family, same]

section Steps

variable {σ : Type} [LawfulCollector σ] {w w' : Workspace σ}

theorem grows_of_extend {cs : List Clause} (done : w.extend cs = (none, w')) :
    w.Grows w' cs 0 := by
  have ran := w.extend_ran cs
  rw [done] at ran
  have grows := ran.grows
  rwa [Workspace.plannedClauses_handing] at grows

/-- A bound is enforced on the tree by clauses over the outputs of its root. -/
theorem Steady.enforce_done (steady : c.Steady) (built : c.tree = some tree)
    (done : c.enforce w = (none, w')) :
    ∃ cs, w.Grows w' cs 0 ∧ tree.OverRoot c.direction c.literals.length cs := by
  obtain ⟨_, same, supports⟩ :=
    steady.serving (by simp [isBuilt, built]) c.bound (ahead_self steady.inRange)
  cases built.symm.trans same
  have complete := steady.complete tree built
  have ran := enforce_ran built complete supports w
  have here : c.withBound c.bound = c := rfl
  rw [here, done] at ran
  have grows := ran.grows
  rw [Workspace.plannedClauses_handing] at grows
  refine ⟨c.enforcing c.bound, grows, ?_⟩
  simpa only [enforcing, built] using complete.overRoot supports

/-- A first tree takes the variables that it counts. -/
theorem Settled.materialize_done (settled : c.Settled) (unbuilt : c.isBuilt = false)
    (proper : c.Proper) (done : c.materialize w = ⟨none, c', w'⟩) :
    c'.Steady ∧ ∃ cs, w.Grows w' cs c'.tally.variableCount := by
  have empty : c.tree = none := by simpa [isBuilt] using unbuilt
  have planned := plannedVariables_treePlan settled.preset proper w.supply.next
  have making := makeTree_ran settled.preset proper w
  rcases eq : c.makeTree w with ⟨result, w₁⟩
  rw [eq] at making
  cases making with
  | missed ran =>
      simp only [TightenableConstraint.materialize, empty, eq] at done
      cases done
  | @made tree _ ran made =>
      have counted := tally_makeTree settled.preset proper eq
      have grows := ran.grows
      rw [planned, ← counted] at grows
      have steady : (c.withTree tree).Steady := by
        refine ⟨settled.withTree made.complete, fun _ b ahead => ?_⟩
        exact ⟨tree, rfl, made.supports b ahead⟩
      rcases eq₂ : (c.withTree tree).enforce w₁ with ⟨failure, w₂⟩
      have enforced : ({ c with tree := some tree } : TightenableConstraint).enforce w₁ =
        (failure, w₂) := eq₂
      simp only [TightenableConstraint.materialize, empty, eq, enforced] at done
      cases done
      obtain ⟨cs, grows₂, -⟩ := steady.enforce_done rfl eq₂
      exact ⟨steady, _, grows.trans grows₂⟩

/-- To reach a bound without a tree takes the variables of the tree that is built for it, if there
is one. -/
theorem Settled.reach_done (settled : c.Settled) (unbuilt : c.isBuilt = false)
    (done : c.reach w = ⟨none, c', w'⟩) :
    c'.Steady ∧ ∃ cs, w.Grows w' cs c'.tally.variableCount := by
  have nothing := tally_of_not_isBuilt unbuilt
  unfold TightenableConstraint.reach at done
  by_cases fixing : c.bound = c.fixingBound
  · rw [if_pos fixing] at done
    obtain ⟨failed, rfl, moved⟩ := Outcome.mk.inj done
    exact ⟨settled.steady unbuilt, _, nothing ▸ grows_of_extend (Prod.ext failed moved)⟩
  rw [if_neg fixing] at done
  by_cases idle : c.bound = c.idleBound
  · rw [if_pos idle] at done
    cases done
    exact ⟨settled.steady unbuilt, [], nothing ▸ .refl w⟩
  rw [if_neg idle] at done
  exact settled.materialize_done unbuilt (proper_of_not_trivial settled.inRange fixing idle) done

/-- Without a tree, a bound that asks for something is reached as it is in a build. -/
theorem advance_eq_reach (unbuilt : c.isBuilt = false) (busy : c.bound ≠ c.idleBound) :
    c.advance w = c.reach w := by
  rw [advance, if_neg (by simp [unbuilt]), reach, if_neg busy]

/-- A constraint that was built is steady. -/
theorem steady_of_build {literals : List Literal} {direction : Direction}
    {configuration : Configuration}
    (built : build literals direction bound configuration w = (.ok c, w')) :
    c.Steady ∧ ∃ cs, w.Grows w' cs c.tally.variableCount := by
  obtain ⟨inRange, preset, w₁, reached, rfl⟩ := reach_of_build built
  have settled := settled_of_prepare (prepare_eq inRange preset)
  obtain ⟨steady, cs, grows⟩ := settled.reach_done rfl reached
  exact ⟨steady, cs, grows.note _⟩

/-- A move that succeeds is an advance under the new bound. -/
theorem advance_of_moveTo (done : c.moveTo bound w = ⟨none, c', w'⟩) :
    ∃ w₁, (c.withBound bound).advance w = ⟨none, c', w₁⟩ ∧
      w' = w₁.note (.constraintTightened c.direction c.bound bound) := by
  obtain ⟨failure, moved, w₁, eq⟩ : ∃ failure moved w₁,
    ({ c with bound := bound } : TightenableConstraint).advance w = ⟨failure, moved, w₁⟩ :=
      ⟨_, _, _, rfl⟩
  rw [moveTo, eq] at done
  obtain _ | (why | _ | f) := failure
  · cases done
    exact ⟨w₁, eq, rfl⟩
  · cases done
  · cases done
  · cases done

/-- A request to tighten that succeeds leaves the constraint steady. With a tree it changes the
bound only, by clauses over the outputs of the root. -/
theorem Steady.tighten_done (steady : c.Steady) {direction : Direction}
    (done : c.tighten direction bound w = ⟨none, c', w'⟩) :
    c'.Steady ∧
      (c.isBuilt = false → ∃ cs, w.Grows w' cs c'.tally.variableCount) ∧
      ∀ tree, c.tree = some tree → c' = c.withBound bound ∧
        ∃ cs, w.Grows w' cs 0 ∧ tree.OverRoot c.direction c.literals.length cs := by
  unfold tighten at done
  cases accepted : c.tightenRefusal? direction bound with
  | some why =>
      rw [accepted] at done
      cases done
  | none =>
      rw [accepted] at done
      obtain ⟨w₁, advanced, rfl⟩ := advance_of_moveTo done
      obtain ⟨ahead, busy⟩ := (tightens_of_refusal_eq_none accepted).ahead steady.inRange
      have steady' := steady.withBound steady.inRange ahead
      by_cases built : c.isBuilt = true
      · have enforced : (⟨((c.withBound bound).enforce w).1, c.withBound bound,
            ((c.withBound bound).enforce w).2⟩ : Outcome TightenableConstraint σ) =
            ⟨none, c', w₁⟩ := (if_pos built).symm.trans advanced
        obtain ⟨failed, rfl, moved⟩ := Outcome.mk.inj enforced
        refine ⟨steady', fun unbuilt => by simp [built] at unbuilt, fun tree here => ⟨rfl, ?_⟩⟩
        obtain ⟨cs, grows, onRoot⟩ := steady'.enforce_done here (Prod.ext failed moved)
        exact ⟨cs, grows.note _, onRoot⟩
      · have unbuilt : (c.withBound bound).isBuilt = false := eq_false_of_ne_true built
        rw [advance_eq_reach unbuilt busy] at advanced
        obtain ⟨steady'', cs, grows⟩ := steady'.toSettled.reach_done unbuilt advanced
        refine ⟨steady'', fun _ => ⟨cs, grows.note _⟩, fun tree here => ?_⟩
        simp [isBuilt, here] at built

end Steps

/-! ### A whole life -/

/-- A constraint after a request, and how many variables the request took. -/
structure Stage where
  constraint : TightenableConstraint
  taken : Nat

/-- The stages of a constraint, the latest first. It was built, and from then on each request asked
for another bound. Every request may come with its own collector, supply and events. None ran out
of memory or ended in a fault; a request to tighten may have been refused. -/
inductive Life : List Stage → Prop
  | build {σ : Type} [LawfulCollector σ] {literals : List Literal} {direction : Direction}
      {bound : Nat} {configuration : Configuration} {w w' : Workspace σ} {c : TightenableConstraint}
      (built : build literals direction bound configuration w = (.ok c, w')) :
      Life [⟨c, w'.supply.next - w.supply.next⟩]
  | tighten {σ : Type} [LawfulCollector σ] {stage : Stage} {earlier : List Stage}
      (life : Life (stage :: earlier)) {direction : Direction} {bound : Nat} {w w' : Workspace σ}
      {failure : Option Failure} {c : TightenableConstraint}
      (asked : stage.constraint.tighten direction bound w = ⟨failure, c, w'⟩)
      (fine : failure = none ∨ ∃ why, failure = some (.refused why)) :
      Life (⟨c, w'.supply.next - w.supply.next⟩ :: stage :: earlier)

/-- What is kept over a life, as far as it goes: the variables that were taken, all in one step, are
those that the tree has counted, and no tree was ever replaced. -/
structure Kept (stages : List Stage) (c : TightenableConstraint) : Prop where
  steady : c.Steady
  once : (stages.filter (0 < ·.taken)).length ≤ 1
  total : (stages.map Stage.taken).sum = c.tally.variableCount
  same : stages.Pairwise fun later earlier =>
    earlier.constraint.isBuilt = true → later.constraint.tree = earlier.constraint.tree

section Life

variable {stages earlier : List Stage} {stage : Stage}

/-- A step that takes nothing and leaves the tree as it is. -/
theorem Kept.idle (kept : Kept (stage :: earlier) stage.constraint) (steady : c.Steady)
    (same : c.tree = stage.constraint.tree) :
    Kept (⟨c, 0⟩ :: stage :: earlier) c where
  steady := steady
  once := kept.once
  total := by
    have counted : c.tally = stage.constraint.tally := by simp [tally, same]
    rw [counted, ← kept.total]
    simp
  same := by
    refine List.pairwise_cons.2 ⟨?_, kept.same⟩
    refine List.forall_mem_cons.2 ⟨fun _ => same, fun older mem built => ?_⟩
    exact same.trans ((List.pairwise_cons.1 kept.same).1 older mem built)

/-- A step out of a stage without a tree. Nothing was taken before it. -/
theorem Kept.first (kept : Kept (stage :: earlier) stage.constraint)
    (unbuilt : stage.constraint.isBuilt = false) (steady : c.Steady) :
    Kept (⟨c, c.tally.variableCount⟩ :: stage :: earlier) c where
  steady := steady
  once := by
    have none : ∀ older ∈ stage :: earlier, older.taken = 0 := by
      have total := kept.total
      rw [tally_of_not_isBuilt unbuilt, List.sum_eq_zero_iff] at total
      exact fun older mem => total _ (List.mem_map_of_mem mem)
    have before : (stage :: earlier).filter (0 < ·.taken) = [] :=
      List.filter_eq_nil_iff.2 fun older mem => by simp [none older mem]
    rw [List.filter_cons, before]
    split <;> simp
  total := by
    have total := kept.total
    rw [tally_of_not_isBuilt unbuilt] at total
    rw [List.map_cons, List.sum_cons, total]
    rfl
  same := by
    refine List.pairwise_cons.2 ⟨?_, kept.same⟩
    refine List.forall_mem_cons.2 ⟨fun built => by simp [unbuilt] at built, ?_⟩
    intro older mem built
    have tree := (List.pairwise_cons.1 kept.same).1 older mem built
    simp only [isBuilt] at built unbuilt
    simp [tree, built] at unbuilt

/-- Every request keeps it. -/
theorem Life.kept (life : Life (stage :: earlier)) : Kept (stage :: earlier) stage.constraint := by
  generalize whole : stage :: earlier = stages at life
  induction life generalizing stage earlier with
  | @build σ _ _ _ _ _ w w' c built =>
      cases whole
      obtain ⟨steady, cs, grows⟩ := steady_of_build built
      rw [grows.next_sub]
      refine ⟨steady, ?_, by simp, List.pairwise_singleton _ _⟩
      exact (List.length_filter_le _ _).trans (Nat.le_refl 1)
  | @tighten σ _ before older life direction bound w w' failure c asked fine ih =>
      cases whole
      have kept := ih rfl
      obtain rfl | ⟨why, rfl⟩ := fine
      · obtain ⟨steady, taken, moved⟩ := kept.steady.tighten_done asked
        by_cases built : before.constraint.isBuilt = true
        · obtain ⟨tree, here⟩ := Option.isSome_iff_exists.1 built
          obtain ⟨rfl, cs, grows, -⟩ := moved tree here
          rw [grows.next_sub]
          exact kept.idle steady rfl
        · have unbuilt := eq_false_of_ne_true built
          obtain ⟨cs, grows⟩ := taken unbuilt
          rw [grows.next_sub]
          exact kept.first unbuilt steady
      · have refused := tighten_eq_of_refused (congrArg Outcome.failure asked)
        rw [refused] at asked
        cases asked
        rw [Nat.sub_self]
        exact kept.idle kept.steady rfl

/-- Tightening is incremental. Over the whole life of a constraint at most one request takes
variables, and all that was taken is what the tree has counted. Once there is a tree, there is one
ever after, and it stays the same with its modulus. A request to tighten that then succeeds changes
nothing but the bound, takes no variables, and adds clauses over the outputs of the root only: one
unit clause with a totalizer, and with a modular totalizer no more than there are literals in the
parts of the root, each of one or two negated literals. -/
theorem Life.takes_variables_once {c : TightenableConstraint} {n : Nat}
    (life : Life (⟨c, n⟩ :: earlier)) :
    ((⟨c, n⟩ :: earlier : List Stage).filter (0 < ·.taken)).length ≤ 1 ∧
    ((⟨c, n⟩ :: earlier : List Stage).map Stage.taken).sum = c.tally.variableCount ∧
    (∀ stage ∈ earlier, stage.constraint.isBuilt = true →
      c.isBuilt = true ∧ c.tree = stage.constraint.tree ∧
        c.modulus? = stage.constraint.modulus?) ∧
    ∀ tree, c.tree = some tree → ∀ (σ : Type) [LawfulCollector σ] (direction : Direction)
      (bound : Nat) (w : Workspace σ),
      let o := c.tighten direction bound w
      o.failure = none →
        o.value = c.withBound bound ∧
          ∃ cs, contents o.work.collector = contents w.collector ++ cs ∧
            o.work.supply = w.supply ∧ tree.OverRoot c.direction c.literals.length cs := by
  obtain ⟨steady, once, total, same⟩ := life.kept
  refine ⟨once, total, ?_, ?_⟩
  · intro stage mem built
    have tree := (List.pairwise_cons.1 same).1 stage mem built
    refine ⟨?_, tree, ?_⟩
    · rwa [isBuilt, tree]
    · rw [modulus?, tree]
      rfl
  · intro tree here σ _ direction bound w o done
    obtain ⟨failure, c', w', asked⟩ : ∃ failure c' w',
      c.tighten direction bound w = ⟨failure, c', w'⟩ := ⟨_, _, _, rfl⟩
    simp only [o, asked] at done ⊢
    subst done
    obtain ⟨-, -, moved⟩ := steady.tighten_done asked
    obtain ⟨rfl, cs, ⟨contents_eq, next_eq⟩, onRoot⟩ := moved tree here
    exact ⟨rfl, cs, contents_eq, congrArg VariableSupply.mk next_eq, onRoot⟩

end Life

section ThreeInputs

open ModularTotalizer.Usage (threeInputs)

/-- A constraint over three literals that asks for nothing. -/
def threeIdle : TightenableConstraint :=
  blank threeInputs .atMost 3 ⟨.modular, .modular, some 2⟩

/-- Its first bound that needs a tree. -/
def threeTightened : Outcome TightenableConstraint Formula :=
  threeIdle.tighten .atMost 2 threeTaken

/-- The theorem for a life in which the second request builds the tree and the third one is refused,
and for the bound one after that. -/
theorem takes_variables_once_three :
    let c := threeTightened.value
    let o := c.tighten .atMost 1 threeTightened.work
    Life [⟨c, 0⟩, ⟨c, 6⟩, ⟨threeIdle, 0⟩] ∧ c.isBuilt = true ∧ c.tally.variableCount = 6 ∧
      (([⟨c, 0⟩, ⟨c, 6⟩, ⟨threeIdle, 0⟩] : List Stage).filter (0 < ·.taken)).length ≤ 1 ∧
      o.failure = none ∧ o.value = c.withBound 1 ∧ o.work.supply = threeTightened.work.supply ∧
      ∃ tree cs, c.tree = some tree ∧ tree.OverRoot .atMost 3 cs ∧
        o.work.collector.toList = threeTightened.work.collector.toList ++ cs := by
  intro c o
  have built : build threeInputs .atMost 3 ⟨.modular, .modular, some 2⟩ threeTaken =
    (.ok threeIdle, threeTaken.note (.constraintBuilt .atMost 3 3)) := rfl
  have moved : threeIdle.tighten .atMost 2 threeTaken = ⟨none, c, threeTightened.work⟩ :=
    congrArg (Outcome.mk · c threeTightened.work) (by decide : threeTightened.failure = none)
  have refused : c.tighten .atMost 2 threeTightened.work =
    ⟨some (.refused (.notTighter 2 2)), c, threeTightened.work⟩ := rfl
  have six : threeTightened.work.supply.next - threeTaken.supply.next = 6 := by decide
  have life : Life [⟨c, 6⟩, ⟨threeIdle, 0⟩] :=
    six ▸ (Life.build built).tighten moved (.inl rfl)
  have life : Life [⟨c, 0⟩, ⟨c, 6⟩, ⟨threeIdle, 0⟩] := by
    simpa using life.tighten refused (.inr ⟨_, rfl⟩)
  obtain ⟨once, total, -, moves⟩ := life.takes_variables_once
  obtain ⟨tree, here⟩ := Option.isSome_iff_exists.1 (by decide : c.isBuilt = true)
  obtain ⟨value, cs, contents_eq, supply, onRoot⟩ :=
    moves tree here Formula .atMost 1 threeTightened.work (by decide)
  exact ⟨life, by decide, total.symm, once, by decide, value, supply, tree, cs, here, onRoot,
    contents_eq⟩

end ThreeInputs

end TightenableConstraint

end CardinalityClauses
