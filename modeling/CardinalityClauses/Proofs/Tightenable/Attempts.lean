import CardinalityClauses.Proofs.Tightenable.Steps

/-!
Attempts to bring a constraint to a bound on a collector that may fail.

An attempt can stop at any call to the collector. What is left then leaves all values to the older
variables that meet the bound asked for, and the tree of the constraint, if it has one by then,
enforces every bound that it supports, whatever the present bound is (`advance_endures`,
`reach_endures`). Tightening puts the bound back after a failure, but a tree that was built for
the bound asked for stays; a later bound that is tighter than the present one and not as tight as
that is refused (`tighten_cases`).
-/

namespace CardinalityClauses.TightenableConstraint

open Collector (Unfailing)
open LawfulCollector (contents)

/-- The tree of the constraint can enforce the bound. -/
def Supports (c : TightenableConstraint) (b : Nat) : Prop :=
  ∃ tree, c.tree = some tree ∧ tree.Supports c.direction c.literals.length b

/-- The tree, if there is one, can enforce all bounds ahead. -/
def Serving (c : TightenableConstraint) : Prop :=
  c.isBuilt = true → ∀ b, c.Ahead b → c.Supports b

/-- The clauses hold for all bounds that the tree supports and that are met. -/
def Precise (c : TightenableConstraint) (v : Valuation) : Prop :=
  ∀ b, c.Supports b → (c.withBound b).constraint.holds v = true → v.Models (c.enforcing b)

/-- The clauses held make the tree, if there is one, count right. This does not depend on the
present bound, which may not be enforced by them. -/
structure Usable (c : TightenableConstraint) (held : List Clause) (next : Nat) : Prop
    extends c.WellFormed next where
  complete : ∀ tree, c.tree = some tree → tree.Complete c.direction c.literals.length
  about : ∀ b, c.Supports b → ClausesOver (· < next) (c.enforcing b)
  sound : ∀ (v : Valuation) (b : Nat), c.Supports b → v.Models held → v.Models (c.enforcing b) →
    (c.withBound b).constraint.holds v = true

section Usable

variable {c : TightenableConstraint} {held : List Clause} {next b : Nat}

theorem not_supports_of_not_isBuilt (unbuilt : c.isBuilt = false) (b : Nat) : ¬c.Supports b := by
  rintro ⟨tree, built, -⟩
  simp [isBuilt, built] at unbuilt

theorem isBuilt_of_supports (supports : c.Supports b) : c.isBuilt = true := by
  obtain ⟨tree, built, -⟩ := supports
  simp [isBuilt, built]

theorem precise_of_not_isBuilt (unbuilt : c.isBuilt = false) (v : Valuation) : c.Precise v :=
  fun b supports => absurd supports (not_supports_of_not_isBuilt unbuilt b)

/-- A constraint without a tree. -/
theorem WellFormed.usable (wellFormed : c.WellFormed next) (unbuilt : c.isBuilt = false)
    (held : List Clause) : c.Usable held next where
  toWellFormed := wellFormed
  complete := fun tree built => by simp [isBuilt, built] at unbuilt
  about := fun b supports => absurd supports (not_supports_of_not_isBuilt unbuilt b)
  sound := fun _ b supports => absurd supports (not_supports_of_not_isBuilt unbuilt b)

/-- A constraint stays usable when clauses are added and variables are used. -/
theorem Usable.mono (usable : c.Usable held next) (added : List Clause) {later : Nat}
    (le : next ≤ later) : c.Usable (held ++ added) later where
  toWellFormed := usable.toWellFormed.mono le
  complete := usable.complete
  about := fun b supports => (usable.about b supports).upTo le
  sound := fun v b supports models =>
    usable.sound v b supports (Valuation.models_append.1 models).1

/-- It is as usable under any other bound. -/
theorem Usable.withBound (usable : c.Usable held next) (inRange : b ≤ c.literals.length) :
    (c.withBound b).Usable held next where
  old := usable.old
  inRange := inRange
  preset := usable.preset
  complete := usable.complete
  about := usable.about
  sound := usable.sound

/-- A tree that serves a constraint serves it under a tighter bound. -/
theorem Serving.withBound (serving : c.Serving) (ahead : c.Ahead b) : (c.withBound b).Serving :=
  fun built _ further => serving built _ (ahead.trans further)

/-- Which bounds are ahead depends on what a constraint says. -/
theorem ahead_iff_of_constraint_eq {c' : TightenableConstraint}
    (same : c'.constraint = c.constraint) (k : Nat) : c'.Ahead k ↔ c.Ahead k := by
  obtain ⟨direction, literals, bound⟩ := Constraint.mk.inj same
  simp only [Ahead, direction, literals, bound]

/-- Whether a valuation is precise depends on used variables only. -/
theorem Usable.precise_of_agree (usable : c.Usable held next) {v w : Valuation}
    (agree : Valuation.Agree (· < next) v w) (precise : c.Precise v) : c.Precise w := by
  intro b supports met
  have same : (c.withBound b).constraint.holds v = (c.withBound b).constraint.holds w :=
    Constraint.holds_of_agree agree usable.old
  exact agree.models (usable.about b supports) (precise b supports (same.trans met))

end Usable

/-! ### What an attempt leaves -/

section Leaves

variable {σ : Type} [LawfulCollector σ]

/-- The clauses that an attempt left. -/
structure Leaves (c : TightenableConstraint) (w : Workspace σ)
    (o : Outcome TightenableConstraint σ) (added : List Clause) : Prop where
  grows : ∃ k, w.Grows o.work added k
  about : ClausesOver (· < o.work.supply.next) added
  usable : o.value.Usable (contents w.collector ++ added) o.work.supply.next
  /-- They say no more than that the bound asked for is met. -/
  exists_precise : ∀ v : Valuation, v.Models (contents w.collector) → c.Precise v →
    c.constraint.holds v = true →
    ∃ u, v.AgreeOutside w.supply.next o.work.supply.next u ∧ u.Models added ∧ o.value.Precise u
  /-- After a success they say no less. -/
  reached : o.failure = none → ∀ v : Valuation, v.Models (contents w.collector ++ added) →
    c.constraint.holds v = true

/-- What an attempt to bring a constraint to its present bound comes to. -/
structure Endures (c : TightenableConstraint) (w : Workspace σ)
    (o : Outcome TightenableConstraint σ) : Prop where
  ran : ∃ plan, plannedVariables plan = c.demand ∧ w.Ran plan o.failure o.work
  same : o.value.constraint = c.constraint
  kept : c.isBuilt = true → o.value = c
  /-- A new tree supports all bounds that were ahead when it was built. -/
  serves : c.isBuilt = false → o.value.isBuilt = true → ∀ b, c.Ahead b → o.value.Supports b
  leaves : (∀ f, o.failure ≠ some (.fault f)) → o.work.supply.next ≤ Variable.maxIndex + 1 →
    ∃ added, c.Leaves w o added

variable {c : TightenableConstraint} {w w' : Workspace σ}

theorem Endures.serving {o : Outcome TightenableConstraint σ} (endures : c.Endures w o)
    (serving : c.Serving) : o.value.Serving := by
  by_cases built : c.isBuilt = true
  · rwa [endures.kept built]
  · intro built' b ahead
    exact endures.serves (eq_false_of_ne_true built) built' b
      ((ahead_iff_of_constraint_eq endures.same b).1 ahead)

theorem Leaves.note {failure : Option Failure} {value : TightenableConstraint}
    {added : List Clause} (leaves : c.Leaves w ⟨failure, value, w'⟩ added) (e : Event) :
    c.Leaves w ⟨failure, value, w'.note e⟩ added := by
  obtain ⟨⟨k, grows⟩, about, usable, exists_precise, reached⟩ := leaves
  exact ⟨⟨k, grows.note e⟩, about, usable, exists_precise, reached⟩

/-- An attempt that is one call to the collector, with clauses that say the bound is met. -/
theorem leaves_of_handing {cs : List Clause} {failure : Option Failure}
    (ran : w.Ran [Workspace.handing cs] failure w')
    (usable : c.Usable (contents w.collector) w.supply.next)
    (about : ClausesOver (· < w.supply.next) cs)
    (models : ∀ v : Valuation, c.Precise v → c.constraint.holds v = true → v.Models cs)
    (sound : ∀ v : Valuation, v.Models (contents w.collector) → v.Models cs →
      c.constraint.holds v = true)
    (fine : ∀ f, failure ≠ some (.fault f)) : ∃ added, c.Leaves w ⟨failure, c, w'⟩ added := by
  obtain ⟨kept, k, grows, part, all⟩ := ran.exists_kept fine
  rw [Workspace.plannedClauses_handing] at part all
  have later : w.supply.next ≤ w'.supply.next := by
    rw [grows.next_eq]
    exact Nat.le_add_right _ _
  refine ⟨kept, ⟨k, grows⟩, ?_, usable.mono kept later, ?_, ?_⟩
  · exact fun clause mem => (about.upTo later) clause (part mem)
  · intro v _ precise met
    exact ⟨v, .refl _ v, (models v precise met).of_subset part, precise⟩
  · rintro done v held
    rw [all done, Valuation.models_append] at held
    exact sound v held.1 held.2

end Leaves

/-! ### The ways to reach a bound -/

section Attempt

variable {σ : Type} [LawfulCollector σ] {c : TightenableConstraint} {w : Workspace σ}

theorem fix_endures (unbuilt : c.isBuilt = false) (fixing : c.bound = c.fixingBound)
    (wellFormed : c.WellFormed w.supply.next) {failure : Option Failure} {w' : Workspace σ}
    (ran : w.Ran [Workspace.handing c.fixingClauses] failure w') :
    c.Endures w ⟨failure, c, w'⟩ where
  ran := ⟨_, by simp [demand, fixing], ran⟩
  same := rfl
  kept := fun _ => rfl
  serves := fun _ built => by simp [unbuilt] at built
  leaves := fun fine _ => by
    refine leaves_of_handing ran (wellFormed.usable unbuilt _)
      (clausesOver_fixingClauses wellFormed.old) ?_ ?_ fine
    · exact fun v _ met => (models_fixingClauses fixing v).2 met
    · exact fun v _ models => (models_fixingClauses fixing v).1 models

theorem idle_endures (unbuilt : c.isBuilt = false) (idle : c.bound = c.idleBound)
    (wellFormed : c.WellFormed w.supply.next) : c.Endures w ⟨none, c, w⟩ where
  ran := ⟨[], by simp [demand, idle], .nil w⟩
  same := rfl
  kept := fun _ => rfl
  serves := fun _ built => by simp [unbuilt] at built
  leaves := fun _ _ => by
    refine ⟨[], ⟨0, .refl w⟩, by simp [ClausesOver], ?_, ?_, ?_⟩
    · simpa using wellFormed.usable unbuilt (contents w.collector)
    · exact fun v _ precise _ => ⟨v, .refl _ v, v.models_nil, precise⟩
    · exact fun _ v _ => holds_of_idle idle v

/-- A tree serves the bound it was built for. -/
theorem Made.leaves {tree : CountingTree} (made : c.Made w.supply.next tree)
    (wellFormed : c.WellFormed w.supply.next) {w₁ w₂ : Workspace σ} {failure : Option Failure}
    (grows : w.Grows w₁ (plannedClauses (c.treePlan w.supply.next)) c.treeDemand)
    (ran : w₁.Ran [Workspace.handing ((c.withTree tree).enforcing c.bound)] failure w₂)
    (fine : ∀ f, failure ≠ some (.fault f)) (room : w₂.supply.next ≤ Variable.maxIndex + 1) :
    ∃ added, c.Leaves w ⟨failure, c.withTree tree, w₂⟩ added := by
  have here : c.Ahead c.bound := ahead_self wellFormed.inRange
  have supports_iff (b : Nat) : (c.withTree tree).Supports b ↔
      tree.Supports c.direction c.literals.length b := by
    constructor
    · rintro ⟨_, same, supports⟩
      cases same
      exact supports
    · exact fun supports => ⟨tree, rfl, supports⟩
  obtain ⟨kept, k, grows₂, part, all⟩ := ran.exists_kept fine
  rw [Workspace.plannedClauses_handing] at part all
  have later : w.supply.next + c.treeDemand ≤ w₂.supply.next := by
    rw [grows₂.next_eq, grows.next_eq]
    exact Nat.le_add_right _ _
  have encoding := made.encoding wellFormed.old (Nat.le_trans later room)
  refine ⟨_, ⟨_, grows.trans grows₂⟩, ?_, ?_, ?_, ?_⟩
  · refine clausesOver_append.2 ⟨encoding.about.upTo later, fun clause mem => ?_⟩
    exact (encoding.over_enforcing _ (made.supports _ here)).upTo later clause (part mem)
  · refine
      { wellFormed.mono (Nat.le_trans encoding.first_le later) with
        complete := ?_
        about := ?_
        sound := ?_ }
    · rintro _ same
      cases same
      exact made.complete
    · intro b supports
      exact (encoding.over_enforcing b ((supports_iff b).1 supports)).upTo later
    · intro v b supports models limited
      obtain ⟨-, models⟩ := Valuation.models_append.1 models
      exact encoding.sound v b ((supports_iff b).1 supports) (Valuation.models_append.1 models).1
        limited
  · intro v _ _ met
    obtain ⟨u, agree, counted, exact_⟩ := encoding.exists_exact v
    rw [Constraint.holds_of_agree agree.below wellFormed.old] at met
    refine ⟨u, agree.mono (Nat.le_refl _) later, ?_, fun b supports => ?_⟩
    · exact Valuation.models_append.2
        ⟨counted, (exact_ c.bound (made.supports _ here) met).of_subset part⟩
    · exact exact_ b ((supports_iff b).1 supports)
  · rintro done v models
    obtain ⟨-, models⟩ := Valuation.models_append.1 models
    obtain ⟨counted, limited⟩ := Valuation.models_append.1 models
    rw [all done] at limited
    exact encoding.sound v c.bound (made.supports _ here) counted limited

theorem materialize_endures (unbuilt : c.isBuilt = false) (fixing : c.bound ≠ c.fixingBound)
    (idle : c.bound ≠ c.idleBound) (wellFormed : c.WellFormed w.supply.next) :
    c.Endures w (c.materialize w) := by
  have proper := proper_of_not_trivial wellFormed.inRange fixing idle
  have demanded : c.demand = c.treeDemand := if_neg (by simp [unbuilt, fixing, idle])
  have planned := plannedVariables_treePlan wellFormed.preset proper w.supply.next
  have making := makeTree_ran wellFormed.preset proper w
  have empty : c.tree = none := by simpa [isBuilt] using unbuilt
  rcases eq : c.makeTree w with ⟨result, w₁⟩
  rw [eq] at making
  cases making with
  | @missed why _ ran =>
      have stopped : c.materialize w = ⟨some why, c, w₁⟩ := by simp only [materialize, empty, eq]
      rw [stopped]
      refine
        { ran := ⟨_, planned.trans demanded.symm, ran⟩
          same := rfl
          kept := fun _ => rfl
          serves := fun _ built => by simp [unbuilt] at built
          leaves := fun fine room => ?_ }
      obtain ⟨kept, k, grows, allows⟩ :=
        ran.leaves (lenient_treePlan wellFormed.preset proper wellFormed.old) fine room
      have later : w.supply.next ≤ w₁.supply.next := by
        rw [grows.next_eq]
        exact Nat.le_add_right _ _
      refine ⟨kept, ⟨k, grows⟩, allows.about, (wellFormed.mono later).usable unbuilt _, ?_, ?_⟩
      · intro v _ _ _
        obtain ⟨u, agree, models⟩ := allows.exists_models v trivial
        exact ⟨u, agree, models, precise_of_not_isBuilt unbuilt u⟩
      · intro done
        cases done
  | @made tree _ ran made =>
      have supports := made.supports c.bound (ahead_self wellFormed.inRange)
      have ran₂ := enforce_ran (c := c.withTree tree) rfl made.complete supports w₁
      have here : (c.withTree tree).withBound c.bound = c.withTree tree := rfl
      rw [here] at ran₂
      rcases eq₂ : (c.withTree tree).enforce w₁ with ⟨failure, w₂⟩
      rw [eq₂] at ran₂
      have done : c.materialize w = ⟨failure, c.withTree tree, w₂⟩ := by
        have enforced : ({ c with tree := some tree } : TightenableConstraint).enforce w₁ =
          (failure, w₂) := eq₂
        simp only [materialize, empty, eq, enforced]
        rfl
      rw [done]
      exact
        { ran := ⟨_, by simp [planned, demanded], ran.trans ran₂⟩
          same := rfl
          kept := fun built => by simp [unbuilt] at built
          serves := fun _ _ b ahead => ⟨tree, rfl, made.supports b ahead⟩
          leaves := made.leaves wellFormed (planned ▸ ran.grows) ran₂ }

/-- Where there is no tree yet, the present bound is reached. -/
theorem reach_endures (unbuilt : c.isBuilt = false) (wellFormed : c.WellFormed w.supply.next) :
    c.Endures w (c.reach w) := by
  unfold reach
  by_cases fixing : c.bound = c.fixingBound
  · rw [if_pos fixing]
    exact fix_endures unbuilt fixing wellFormed (w.extend_ran _)
  rw [if_neg fixing]
  by_cases idle : c.bound = c.idleBound
  · rw [if_pos idle]
    exact idle_endures unbuilt idle wellFormed
  · rw [if_neg idle]
    exact materialize_endures unbuilt fixing idle wellFormed

/-- Where there is a tree that supports the present bound, the bound is enforced on it. -/
theorem enforce_endures (usable : c.Usable (contents w.collector) w.supply.next)
    (supports : c.Supports c.bound) :
    c.Endures w ⟨(c.enforce w).1, c, (c.enforce w).2⟩ := by
  have isBuilt := isBuilt_of_supports supports
  obtain ⟨tree, built, supported⟩ := supports
  have ran := enforce_ran built (usable.complete tree built) supported w
  exact
    { ran := ⟨_, by simp [demand, isBuilt], ran⟩
      same := rfl
      kept := fun _ => rfl
      serves := fun unbuilt => by simp [isBuilt] at unbuilt
      leaves := fun fine _ => by
        refine leaves_of_handing ran usable (usable.about _ ⟨tree, built, supported⟩) ?_ ?_ fine
        · exact fun v precise met => precise c.bound ⟨tree, built, supported⟩ met
        · exact fun v models => usable.sound v c.bound ⟨tree, built, supported⟩ models }

end Attempt

/-! ### Building -/

/-- A constraint is prepared if its bound and the modulus are in range. -/
theorem prepare_cases (literals : List Literal) (direction : Direction) (bound : Nat)
    (configuration : Configuration) :
    (∃ why, prepare literals direction bound configuration = .error why) ∧
        ¬(bound ≤ literals.length ∧ (blank literals direction bound configuration).PresetOk) ∨
      bound ≤ literals.length ∧ (blank literals direction bound configuration).PresetOk := by
  by_cases inRange : bound ≤ literals.length
  swap
  · exact .inl ⟨⟨_, if_pos (Nat.lt_of_not_le inRange)⟩, fun fine => inRange fine.1⟩
  by_cases preset : (blank literals direction bound configuration).PresetOk
  · exact .inr ⟨inRange, preset⟩
  · refine .inl ⟨?_, fun fine => preset fine.2⟩
    simp only [PresetOk, blank, Classical.not_imp, not_forall, Nat.not_le] at preset
    obtain ⟨family, m, fixed, small⟩ := preset
    exact ⟨.modulusTooSmall m, by simp [prepare, inRange, family, fixed, small]⟩

/-- A build that succeeds prepared a constraint and reached its bound. -/
theorem reach_of_build {σ : Type} [Collector σ] {w w' : Workspace σ} {literals : List Literal}
    {direction : Direction} {bound : Nat} {configuration : Configuration}
    {c : TightenableConstraint}
    (built : build literals direction bound configuration w = (.ok c, w')) :
    bound ≤ literals.length ∧ (blank literals direction bound configuration).PresetOk ∧
      ∃ w₁, (blank literals direction bound configuration).reach w = ⟨none, c, w₁⟩ ∧
        w' = w₁.note (.constraintBuilt direction c.inputCount bound) := by
  obtain ⟨⟨why, refused⟩, -⟩ | ⟨inRange, preset⟩ :=
    prepare_cases literals direction bound configuration
  · simp only [build, refused] at built
    cases built
  · rw [build_eq_answer inRange preset] at built
    rcases eq : (blank literals direction bound configuration).reach w with ⟨_ | why, reached, w₁⟩
    · rw [eq] at built
      cases built
      exact ⟨inRange, preset, w₁, rfl, rfl⟩
    · rw [eq] at built
      cases built

/-- A build is refused or attempted. It is refused only if the bound or the modulus is out of
range. -/
theorem build_cases {σ : Type} [LawfulCollector σ] {w : Workspace σ} {literals : List Literal}
    (old : LiteralsOver (· < w.supply.next) literals) (direction : Direction) (bound : Nat)
    (configuration : Configuration) :
    (∃ why, build literals direction bound configuration w = (.error (.refused why), w)) ∧
        ¬(bound ≤ literals.length ∧ (blank literals direction bound configuration).PresetOk) ∨
      ∃ o, build literals direction bound configuration w = answer direction bound o ∧
        (blank literals direction bound configuration).Endures w o := by
  obtain ⟨⟨why, refused⟩, bad⟩ | ⟨inRange, preset⟩ :=
    prepare_cases literals direction bound configuration
  · exact .inl ⟨⟨why, by simp only [build, refused]⟩, bad⟩
  · exact .inr ⟨_, build_eq_answer inRange preset w, reach_endures rfl ⟨old, inRange, preset⟩⟩

/-! ### Tightening -/

section Tighten

variable {σ : Type} [LawfulCollector σ] {c : TightenableConstraint} {w : Workspace σ}
  {direction : Direction} {b : Nat}

theorem tightens_of_refusal_eq_none (accepted : c.tightenRefusal? direction b = none) :
    c.Tightens direction b := by
  unfold tightenRefusal? at accepted
  by_cases same : c.direction = direction
  swap
  · rw [if_pos same] at accepted
    cases accepted
  rw [if_neg (not_not_intro same)] at accepted
  refine ⟨same, ?_⟩
  cases direction with
  | atMost => simpa using accepted
  | atLeast =>
      show c.bound < b ∧ b ≤ c.literals.length
      by_cases high : c.literals.length < b
      · simp [high] at accepted
      · simp only [if_neg high, ite_eq_right_iff, reduceCtorEq, imp_false] at accepted
        omega

/-- A tighter bound asks for something that can be had. -/
theorem Tightens.allowed (tightens : c.Tightens direction b)
    (inRange : c.bound ≤ c.literals.length) :
    Totalizer.Allowed c.direction c.literals.length b b := by
  obtain ⟨literals, _ | _, current, family, preset, tree⟩ := c <;> obtain ⟨rfl, tighter⟩ := tightens
  · exact ⟨Nat.le_refl _, Nat.lt_of_lt_of_le tighter inRange⟩
  · exact ⟨Nat.le_refl _, Nat.zero_lt_of_lt tighter.1, tighter.2⟩

/-- Advancing to a tighter bound is refused only if the tree does not support the bound. -/
theorem advance_cases (usable : c.Usable (contents w.collector) w.supply.next)
    (tightens : c.Tightens direction b) :
    (c.isBuilt = true ∧ ¬c.Supports b ∧
        (c.withBound b).advance w = ⟨some (.refused .notEncoded), c.withBound b, w⟩) ∨
      (c.isBuilt = true → c.Supports b) ∧
        (c.withBound b).Endures w ((c.withBound b).advance w) := by
  obtain ⟨ahead, busy⟩ := tightens.ahead usable.inRange
  have inRange := ahead.le_length usable.inRange
  have usable' := usable.withBound inRange
  unfold advance
  by_cases built : c.isBuilt = true
  · rw [if_pos (show (c.withBound b).isBuilt = true from built)]
    obtain ⟨tree, here⟩ := Option.isSome_iff_exists.1 built
    by_cases supports : c.Supports b
    · exact .inr ⟨fun _ => supports, enforce_endures usable' supports⟩
    · refine .inl ⟨built, supports, ?_⟩
      rw [enforce_unsupported here (usable.complete tree here) (tightens.allowed usable.inRange)
        fun supported => supports ⟨tree, here, supported⟩]
  · have unbuilt : (c.withBound b).isBuilt = false := eq_false_of_ne_true built
    have idle : (c.withBound b).bound ≠ (c.withBound b).idleBound := busy
    refine .inr ⟨fun built' => absurd built' built, ?_⟩
    have reached := reach_endures unbuilt (w := w) usable'.toWellFormed
    rw [reach, if_neg idle] at reached
    rwa [if_neg (by simp [unbuilt])]

/-- What an attempt to tighten a constraint comes to. If it runs out of memory, the bound is what
it was. -/
structure Tried (c : TightenableConstraint) (b : Nat) (w : Workspace σ)
    (o : Outcome TightenableConstraint σ) : Prop where
  ran : ∃ plan, plannedVariables plan = (c.withBound b).demand ∧ w.Ran plan o.failure o.work
  reached : o.failure = none → o.value.constraint = (c.withBound b).constraint
  unchanged : o.failure = some .outOfMemory → o.value.constraint = c.constraint
  serving : o.failure = none → c.Serving → o.value.Serving
  leaves : (∀ f, o.failure ≠ some (.fault f)) → o.work.supply.next ≤ Variable.maxIndex + 1 →
    ∃ added, (c.withBound b).Leaves w o added

theorem Tried.literals_eq {o : Outcome TightenableConstraint σ} (tried : c.Tried b w o)
    (fine : ∀ f, o.failure ≠ some (.fault f)) : o.value.literals = c.literals := by
  obtain ⟨plan, -, ran⟩ := tried.ran
  cases failure : o.failure with
  | none => exact (Constraint.mk.inj (tried.reached failure)).2.1
  | some why =>
      cases why with
      | refused why =>
          rw [failure] at ran
          cases ran
      | outOfMemory => exact (Constraint.mk.inj (tried.unchanged failure)).2.1
      | fault f => exact absurd failure (fine f)

theorem Endures.tried (endures : (c.withBound b).Endures w ((c.withBound b).advance w))
    (usable : c.Usable (contents w.collector) w.supply.next) (ahead : c.Ahead b) :
    c.Tried b w (c.moveTo b w) := by
  obtain ⟨failure, moved, w', advanced⟩ : ∃ failure moved w',
    (c.withBound b).advance w = ⟨failure, moved, w'⟩ := ⟨_, _, _, rfl⟩
  have advanced' : ({ c with bound := b } : TightenableConstraint).advance w =
    ⟨failure, moved, w'⟩ := advanced
  rw [advanced] at endures
  have serving (before : c.Serving) : moved.Serving := endures.serving (before.withBound ahead)
  obtain ⟨⟨plan, demanded, ran⟩, same, -, -, leaves⟩ := endures
  simp only at ran same leaves
  unfold moveTo
  rw [advanced']
  cases failure with
  | none =>
      refine
        { ran := ⟨plan, demanded, ran.note _⟩
          reached := fun _ => same
          unchanged := fun failed => by cases failed
          serving := fun _ => serving
          leaves := fun fine room => ?_ }
      obtain ⟨added, left⟩ := leaves fine room
      exact ⟨added, left.note _⟩
  | some why =>
      cases why with
      | refused why => cases ran
      | fault f =>
          exact
            { ran := ⟨plan, demanded, ran⟩
              reached := fun done => by cases done
              unchanged := fun failed => by cases failed
              serving := fun done => by cases done
              leaves := fun fine => absurd rfl (fine f) }
      | outOfMemory =>
          obtain ⟨direction, literals, bound⟩ := Constraint.mk.inj same
          refine
            { ran := ⟨plan, demanded, ran⟩
              reached := fun done => by cases done
              unchanged := fun _ => ?_
              serving := fun done => by cases done
              leaves := fun fine room => ?_ }
          · simp only [constraint, direction, literals]
            rfl
          · obtain ⟨added, grows, about, usable', exists_precise, means⟩ := leaves fine room
            have inRange : c.bound ≤ moved.literals.length := by
              rw [literals]
              exact usable.inRange
            exact ⟨added, grows, about, usable'.withBound inRange, exists_precise,
              fun done => by cases done⟩

/-- Tightening is refused or attempted. A bound that makes sense is refused only if there is a
tree that does not support it. -/
theorem tighten_cases (usable : c.Usable (contents w.collector) w.supply.next)
    (direction : Direction) (b : Nat) :
    (∃ why, c.tighten direction b w = ⟨some (.refused why), c, w⟩ ∧
        (c.Tightens direction b → why = .notEncoded ∧ c.isBuilt = true ∧ ¬c.Supports b)) ∨
      c.Tightens direction b ∧ (c.isBuilt = true → c.Supports b) ∧
        c.Tried b w (c.tighten direction b w) := by
  unfold tighten
  cases accepted : c.tightenRefusal? direction b with
  | some why =>
      refine .inl ⟨why, rfl, fun tightens => ?_⟩
      rw [tightens.refusal_eq_none] at accepted
      cases accepted
  | none =>
      have tightens := tightens_of_refusal_eq_none accepted
      obtain ⟨built, unsupported, refused⟩ | ⟨supports, endures⟩ := advance_cases usable tightens
      · have refused : ({ c with bound := b } : TightenableConstraint).advance w =
          ⟨some (.refused .notEncoded), c.withBound b, w⟩ := refused
        refine .inl ⟨.notEncoded, ?_, fun _ => ⟨rfl, built, unsupported⟩⟩
        simp only [moveTo, refused]
        rfl
      · exact .inr ⟨tightens, supports, endures.tried usable (tightens.ahead usable.inRange).1⟩

end Tighten

end CardinalityClauses.TightenableConstraint
