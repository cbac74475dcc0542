import CardinalityClauses.Proofs.Encoding.OneShot
import CardinalityClauses.Proofs.Tightenable.Tree

/-!
Building a constraint and tightening it.

Between steps a constraint is ready: the clauses held say that its bound is met, and if there is
a tree, every bound ahead can be enforced on it. A step keeps this (`build_spec`,
`tighten_spec`). It adds no more than what the new bound says, provided that the valuation one
starts from is exact, that is, satisfies the clauses for all bounds ahead that it meets.
-/

namespace CardinalityClauses.TightenableConstraint

open LawfulCollector (contents)

/-- What the present bound says. -/
def constraint (c : TightenableConstraint) : Constraint :=
  ⟨c.direction, c.literals, c.bound⟩

/-- The clauses for all bounds ahead that are met hold. -/
def Exact (c : TightenableConstraint) (v : Valuation) : Prop :=
  ∀ b, c.Ahead b → (c.withBound b).constraint.holds v = true → v.Models (c.enforcing b)

/-- The constraint is over used variables and could have been built. -/
structure WellFormed (c : TightenableConstraint) (next : Nat) : Prop where
  old : LiteralsOver (· < next) c.literals
  inRange : c.bound ≤ c.literals.length
  preset : c.PresetOk

/-- The clauses held bring the constraint to its present bound and can take it to all bounds
ahead. -/
structure Ready (σ : Type) [LawfulCollector σ] (c : TightenableConstraint) (held : List Clause)
    (next : Nat) : Prop extends c.WellFormed next where
  holds : ∀ v : Valuation, v.Models held → c.constraint.holds v = true
  /-- Without a tree the bound is one that needs none. -/
  trivial : c.isBuilt = false → c.bound = c.fixingBound ∨ c.bound = c.idleBound
  enforceable : c.isBuilt = true → c.Enforceable σ
  about : ∀ b, c.Ahead b → ClausesOver (· < next) (c.enforcing b)
  sound : c.isBuilt = true → ∀ (v : Valuation) (b : Nat), c.Ahead b → v.Models held →
    v.Models (c.enforcing b) → (c.withBound b).constraint.holds v = true

/-- The clauses added to those held bring a constraint to its present bound, and they say no
more, by variables of their own from `first` up to `last`. -/
structure Settles (σ : Type) [LawfulCollector σ] (c : TightenableConstraint)
    (held : List Clause) (first last : Nat) (added : List Clause)
    (Before : Valuation → Prop) : Prop where
  about : ClausesOver (· < last) added
  ready : c.Ready σ (held ++ added) last
  exists_exact : ∀ v : Valuation, v.Models held → Before v → c.constraint.holds v = true →
    ∃ w, v.AgreeOutside first last w ∧ w.Models added ∧ c.Exact w

section Ready

variable {σ : Type} [LawfulCollector σ] {c : TightenableConstraint} {held : List Clause}
  {next b : Nat}

theorem WellFormed.mono (wellFormed : c.WellFormed next) {later : Nat} (le : next ≤ later) :
    c.WellFormed later where
  old := wellFormed.old.upTo le
  inRange := wellFormed.inRange
  preset := wellFormed.preset

/-- A constraint stays ready when clauses are added and variables are used. -/
theorem Ready.mono (ready : c.Ready σ held next) (added : List Clause) {later : Nat}
    (le : next ≤ later) : c.Ready σ (held ++ added) later where
  toWellFormed := ready.toWellFormed.mono le
  holds := fun v models => ready.holds v (Valuation.models_append.1 models).1
  trivial := ready.trivial
  enforceable := ready.enforceable
  about := fun b ahead => (ready.about b ahead).upTo le
  sound := fun built v b ahead models =>
    ready.sound built v b ahead (Valuation.models_append.1 models).1

/-- Whether a valuation is exact depends on used variables only. -/
theorem Ready.exact_of_agree (ready : c.Ready σ held next) {v w : Valuation}
    (agree : Valuation.Agree (· < next) v w) (exact_ : c.Exact v) : c.Exact w := by
  intro b ahead met
  have same : (c.withBound b).constraint.holds v = (c.withBound b).constraint.holds w :=
    Constraint.holds_of_agree agree ready.old
  exact agree.models (ready.about b ahead) (exact_ b ahead (same.trans met))

theorem ahead_self (inRange : c.bound ≤ c.literals.length) : c.Ahead c.bound := by
  unfold Ahead
  split
  · exact Nat.le_refl _
  · exact ⟨Nat.le_refl _, inRange⟩

/-- A tighter bound says more. -/
theorem Ahead.holds_of_withBound (ahead : c.Ahead b) {v : Valuation}
    (holds : (c.withBound b).constraint.holds v = true) : c.constraint.holds v = true := by
  obtain ⟨literals, _ | _, bound, family, preset, tree⟩ := c
  · exact decide_eq_true (Nat.le_trans (of_decide_eq_true holds) ahead)
  · exact decide_eq_true (Nat.le_trans ahead.1 (of_decide_eq_true holds))

/-- The bounds ahead of one that is ahead. -/
theorem Ahead.trans (ahead : c.Ahead b) {k : Nat} (further : (c.withBound b).Ahead k) :
    c.Ahead k := by
  obtain ⟨literals, _ | _, bound, family, preset, tree⟩ := c
  · exact Nat.le_trans further ahead
  · exact ⟨Nat.le_trans ahead.1 further.1, further.2⟩

theorem exact_of_not_isBuilt (unbuilt : c.isBuilt = false) (v : Valuation) : c.Exact v := by
  intro b ahead met
  rw [isBuilt, Option.isSome_eq_false_iff, Option.isNone_iff_eq_none] at unbuilt
  simp [enforcing, unbuilt, Valuation.Models]

end Ready

/-! ### The three ways to reach a bound -/

section Settle

variable {σ : Type} [ReliableCollector σ] {c : TightenableConstraint} {held : List Clause}
  {Before : Valuation → Prop}

/-- A bound that needs no tree is reached by clauses that say the same. -/
theorem Settles.of_trivial {next : Nat} {added : List Clause} (unbuilt : c.isBuilt = false)
    (trivial : c.bound = c.fixingBound ∨ c.bound = c.idleBound) (wellFormed : c.WellFormed next)
    (about : ClausesOver (· < next) added)
    (means : ∀ v : Valuation, v.Models added ↔ c.constraint.holds v = true) :
    c.Settles σ held next next added Before where
  about := about
  ready :=
    { wellFormed with
      holds := fun v models => (means v).1 (Valuation.models_append.1 models).2
      trivial := fun _ => trivial
      enforceable := fun built => by rw [unbuilt] at built; cases built
      about := fun b _ => by
        rw [isBuilt, Option.isSome_eq_false_iff, Option.isNone_iff_eq_none] at unbuilt
        simp [enforcing, unbuilt, ClausesOver]
      sound := fun built => by rw [unbuilt] at built; cases built }
  exists_exact := fun v _ _ met =>
    ⟨v, .refl _ v, (means v).2 met, exact_of_not_isBuilt unbuilt v⟩

/-- The clauses for the fixing bound say that it is met. -/
theorem models_fixingClauses (fixing : c.bound = c.fixingBound) (v : Valuation) :
    v.Models c.fixingClauses ↔ c.constraint.holds v = true := by
  obtain ⟨literals, _ | _, bound, family, preset, tree⟩ := c
  · refine Valuation.models_complementUnits.trans ?_
    simp_all [constraint, Constraint.holds, fixingBound]
  · refine Valuation.models_units.trans ?_
    have few := v.trueCount_le_length literals
    simp_all [constraint, Constraint.holds, fixingBound]
    omega

theorem clausesOver_fixingClauses {on : Nat → Prop} (about : LiteralsOver on c.literals) :
    ClausesOver on c.fixingClauses := by
  unfold fixingClauses
  split
  · exact clausesOver_complementUnits about
  · exact clausesOver_units about

/-- The idle bound is met anyway. -/
theorem holds_of_idle (idle : c.bound = c.idleBound) (v : Valuation) :
    c.constraint.holds v = true := by
  obtain ⟨literals, _ | _, bound, family, preset, tree⟩ := c
  · have few := v.trueCount_le_length literals
    simp_all [constraint, Constraint.holds, idleBound]
  · simp_all [constraint, Constraint.holds, idleBound]

/-- All other bounds that are in range need a tree. -/
theorem proper_of_not_trivial (inRange : c.bound ≤ c.literals.length)
    (fixing : c.bound ≠ c.fixingBound) (idle : c.bound ≠ c.idleBound) : c.Proper := by
  obtain ⟨literals, _ | _, bound, family, preset, tree⟩ := c <;>
    simp_all only [Proper, fixingBound, idleBound] <;> omega

/-- A tree that serves a constraint takes it to its bound. -/
theorem Serves.settles {tree : CountingTree} {first last : Nat} {clauses : List Clause}
    (serves : c.Serves σ tree first last clauses) (wellFormed : c.WellFormed first) :
    (c.withTree tree).Settles σ held first last
      (clauses ++ (c.withTree tree).enforcing c.bound) Before := by
  obtain ⟨encoding, enforceable⟩ := serves
  have here : c.Ahead c.bound := ahead_self wellFormed.inRange
  refine
    { about := clausesOver_append.2 ⟨encoding.about, encoding.over_enforcing _ here⟩
      ready :=
        { wellFormed.mono encoding.first_le with
          holds := ?_
          trivial := fun unbuilt => by cases unbuilt
          enforceable := fun _ => enforceable
          about := encoding.over_enforcing
          sound := ?_ }
      exists_exact := ?_ }
  · intro v models
    obtain ⟨-, models⟩ := Valuation.models_append.1 models
    obtain ⟨counted, limited⟩ := Valuation.models_append.1 models
    exact encoding.sound v c.bound here counted limited
  · intro _ v b ahead models limited
    obtain ⟨-, models⟩ := Valuation.models_append.1 models
    exact encoding.sound v b ahead (Valuation.models_append.1 models).1 limited
  · intro v _ _ met
    obtain ⟨w, agree, counted, exact_⟩ := encoding.exists_exact v
    have met : c.constraint.holds w = true :=
      (Constraint.holds_of_agree agree.below wellFormed.old).symm.trans met
    exact ⟨w, agree, Valuation.models_append.2 ⟨counted, exact_ c.bound here met⟩, exact_⟩

/-- A constraint that is ready goes to a bound ahead by the clauses for it. -/
theorem Ready.settles {next b : Nat} (ready : c.Ready σ held next) (built : c.isBuilt = true)
    (ahead : c.Ahead b) :
    (c.withBound b).Settles σ held next next (c.enforcing b) c.Exact := by
  refine
    { about := ready.about b ahead
      ready :=
        { old := ready.old
          inRange := ahead.le_length ready.inRange
          preset := ready.preset
          holds := ?_
          trivial := fun unbuilt => absurd (built.symm.trans unbuilt) Bool.true_eq_false_eq_False
          enforceable := fun _ k further => ready.enforceable built k (ahead.trans further)
          about := fun k further => ready.about k (ahead.trans further)
          sound := ?_ }
      exists_exact := ?_ }
  · intro v models
    obtain ⟨models, limited⟩ := Valuation.models_append.1 models
    exact ready.sound built v b ahead models limited
  · intro _ v k further models limited
    exact ready.sound built v k (ahead.trans further) (Valuation.models_append.1 models).1 limited
  · intro v _ exact_ met
    exact ⟨v, .refl _ v, exact_ b ahead met, fun k further => exact_ k (ahead.trans further)⟩

end Settle

/-! ### The steps -/

/-- How many variables it takes to reach the present bound. -/
def demand (c : TightenableConstraint) : Nat :=
  if c.isBuilt = true ∨ c.bound = c.fixingBound ∨ c.bound = c.idleBound then 0 else c.treeDemand

/-- The constraint that a build starts from. -/
def blank (literals : List Literal) (direction : Direction) (bound : Nat)
    (configuration : Configuration) : TightenableConstraint :=
  ⟨literals, direction, bound, configuration.family direction, configuration.modulus, none⟩

/-- The bound is tighter than the present one and can be met. -/
def Tightens (c : TightenableConstraint) (direction : Direction) (bound : Nat) : Prop :=
  c.direction = direction ∧
    match direction with
    | .atMost => bound < c.bound
    | .atLeast => c.bound < bound ∧ bound ≤ c.literals.length

/-! ### Building in two steps -/

section Build

variable {σ : Type} [Collector σ]

/-- The clauses for the present bound where there is no tree yet. -/
def reach (c : TightenableConstraint) (w : Workspace σ) : Outcome TightenableConstraint σ :=
  if c.bound = c.fixingBound then
    let (failure, w) := w.extend c.fixingClauses
    ⟨failure, c, w⟩
  else if c.bound = c.idleBound then ⟨none, c, w⟩
  else c.materialize w

/-- What a build comes to after its clauses were added. -/
def answer (direction : Direction) (bound : Nat) (reached : Outcome TightenableConstraint σ) :
    Except Failure TightenableConstraint × Workspace σ :=
  let ⟨failure, c, w⟩ := reached
  match failure with
  | some failure => (.error failure, w)
  | none => (.ok c, w.note (.constraintBuilt direction c.inputCount bound))

theorem prepare_eq {literals : List Literal} {direction : Direction} {bound : Nat}
    {configuration : Configuration} (inRange : bound ≤ literals.length)
    (preset : (blank literals direction bound configuration).PresetOk) :
    prepare literals direction bound configuration =
      .ok (blank literals direction bound configuration) := by
  unfold prepare
  rw [if_neg (Nat.not_lt_of_le inRange)]
  cases family : configuration.family direction with
  | totalizer => simp [blank, family]
  | modular =>
      cases fixed : configuration.modulus with
      | none => simp [blank, family, fixed]
      | some m =>
          have two : ¬m < 2 := Nat.not_lt_of_le (preset family m fixed)
          simp [blank, family, fixed, two]

theorem build_eq_answer {literals : List Literal} {direction : Direction} {bound : Nat}
    {configuration : Configuration} (inRange : bound ≤ literals.length)
    (preset : (blank literals direction bound configuration).PresetOk) (w : Workspace σ) :
    build literals direction bound configuration w =
      answer direction bound ((blank literals direction bound configuration).reach w) := by
  have prepared : prepare literals direction bound configuration =
      .ok (blank literals direction bound configuration) := prepare_eq inRange preset
  unfold build
  rw [prepared]
  rfl

end Build

section Step

variable {σ : Type} [ReliableCollector σ] {c : TightenableConstraint} {w : Workspace σ}
  {Before : Valuation → Prop}

theorem fix_spec (unbuilt : c.isBuilt = false) (fixing : c.bound = c.fixingBound)
    (wellFormed : c.WellFormed w.supply.next) :
    ∃ w', w.extend c.fixingClauses = (none, w') ∧ w.Grows w' c.fixingClauses 0 ∧
      c.Settles σ (contents w.collector) w.supply.next w'.supply.next c.fixingClauses Before := by
  obtain ⟨w', extended, grows⟩ := w.extend_spec c.fixingClauses
  refine ⟨w', extended, grows, ?_⟩
  rw [grows.next_eq]
  exact .of_trivial unbuilt (.inl fixing) wellFormed (clausesOver_fixingClauses wellFormed.old)
    (models_fixingClauses fixing)

/-- A tree is built and takes the constraint to its bound. -/
theorem materialize_spec (unbuilt : c.isBuilt = false) (proper : c.Proper)
    (wellFormed : c.WellFormed w.supply.next)
    (room : w.supply.next + c.treeDemand ≤ Variable.maxIndex + 1) :
    ∃ tree w' added, c.materialize w = ⟨none, c.withTree tree, w'⟩ ∧
      w.Grows w' added c.treeDemand ∧
      (c.withTree tree).Settles σ (contents w.collector) w.supply.next w'.supply.next added
        Before := by
  rw [isBuilt, Option.isSome_eq_false_iff, Option.isNone_iff_eq_none] at unbuilt
  obtain ⟨tree, w₁, clauses, made, grows₁, serves⟩ :=
    makeTree_spec wellFormed.preset proper w wellFormed.old room
  have here : c.Ahead c.bound := ahead_self wellFormed.inRange
  obtain ⟨w₂, enforced, grows₂⟩ := serves.enforceable c.bound here w₁
  refine ⟨tree, w₂, _, ?_, grows₁.trans grows₂, ?_⟩
  · have enforced : ({ c with tree := some tree } : TightenableConstraint).enforce w₁ =
        (none, w₂) := enforced
    simp only [materialize, unbuilt, made, enforced]
    rfl
  · rw [grows₂.next_eq]
    exact serves.settles wellFormed

theorem reach_spec (unbuilt : c.isBuilt = false) (wellFormed : c.WellFormed w.supply.next)
    (room : w.supply.next + c.demand ≤ Variable.maxIndex + 1) :
    ∃ c' w' added, c.reach w = ⟨none, c', w'⟩ ∧ w.Grows w' added c.demand ∧
      c'.constraint = c.constraint ∧
      c'.Settles σ (contents w.collector) w.supply.next w'.supply.next added Before := by
  unfold reach
  by_cases fixing : c.bound = c.fixingBound
  · obtain ⟨w', extended, grows, settles⟩ := fix_spec unbuilt fixing wellFormed
    refine ⟨c, w', _, ?_, ?_, rfl, settles⟩
    · rw [if_pos fixing, extended]
    · rw [demand, if_pos (.inr (.inl fixing))]
      exact grows
  rw [if_neg fixing]
  by_cases idle : c.bound = c.idleBound
  · refine ⟨c, w, [], if_pos idle, ?_, rfl, ?_⟩
    · rw [demand, if_pos (.inr (.inr idle))]
      exact .refl w
    · exact .of_trivial unbuilt (.inr idle) wellFormed (by simp [ClausesOver]) fun v => by
        simp [holds_of_idle idle, Valuation.Models]
  rw [if_neg idle]
  have proper := proper_of_not_trivial wellFormed.inRange fixing idle
  have demanded : c.demand = c.treeDemand := if_neg (by simp [unbuilt, fixing, idle])
  rw [demanded] at room ⊢
  obtain ⟨tree, w', added, built, grows, settles⟩ :=
    materialize_spec unbuilt proper wellFormed room
  exact ⟨c.withTree tree, w', added, built, grows, rfl, settles⟩

/-- A constraint with a bound in range is built with room for its variables. -/
theorem build_spec {literals : List Literal} {direction : Direction} {bound : Nat}
    {configuration : Configuration}
    (wellFormed : (blank literals direction bound configuration).WellFormed w.supply.next)
    (room : w.supply.next + (blank literals direction bound configuration).demand ≤
      Variable.maxIndex + 1) :
    ∃ c w' added, build literals direction bound configuration w = (.ok c, w') ∧
      w.Grows w' added (blank literals direction bound configuration).demand ∧
      c.constraint = ⟨direction, literals, bound⟩ ∧
      c.Settles σ (contents w.collector) w.supply.next w'.supply.next added fun _ => True := by
  obtain ⟨c, w', added, reached, grows, same, settles⟩ := reach_spec rfl wellFormed room
  refine ⟨c, w'.note (.constraintBuilt direction c.inputCount bound), added, ?_, grows.note _, same,
    settles⟩
  have built : build literals direction bound configuration w =
      answer direction bound ((blank literals direction bound configuration).reach w) :=
    build_eq_answer wellFormed.inRange wellFormed.preset w
  rw [built, reached]
  rfl

theorem Tightens.refusal_eq_none {direction : Direction} {bound : Nat}
    (tightens : c.Tightens direction bound) : c.tightenRefusal? direction bound = none := by
  obtain ⟨literals, _ | _, current, family, preset, tree⟩ := c <;>
    obtain ⟨rfl, tighter⟩ := tightens <;> unfold tightenRefusal? <;> rw [if_neg (by simp)]
  · exact if_neg (Nat.not_le_of_lt tighter)
  · exact (if_neg (Nat.not_lt_of_le tighter.2)).trans (if_neg (Nat.not_le_of_lt tighter.1))

/-- A tighter bound is ahead, and it is not the idle one. -/
theorem Tightens.ahead {direction : Direction} {bound : Nat}
    (tightens : c.Tightens direction bound) (inRange : c.bound ≤ c.literals.length) :
    c.Ahead bound ∧ bound ≠ c.idleBound := by
  obtain ⟨literals, _ | _, current, family, preset, tree⟩ := c <;> obtain ⟨rfl, tighter⟩ := tightens
  · exact ⟨Nat.le_of_lt tighter, Nat.ne_of_lt (Nat.lt_of_lt_of_le tighter inRange)⟩
  · exact ⟨⟨Nat.le_of_lt tighter.1, tighter.2⟩, Nat.ne_of_gt (Nat.zero_lt_of_lt tighter.1)⟩

/-- A constraint that is ready is advanced to a bound ahead. -/
theorem advance_spec {bound : Nat} (ready : c.Ready σ (contents w.collector) w.supply.next)
    (ahead : c.Ahead bound) (busy : bound ≠ c.idleBound)
    (room : w.supply.next + (c.withBound bound).demand ≤ Variable.maxIndex + 1) :
    ∃ c' w' added, (c.withBound bound).advance w = ⟨none, c', w'⟩ ∧
      w.Grows w' added (c.withBound bound).demand ∧
      c'.constraint = (c.withBound bound).constraint ∧
      c'.Settles σ (contents w.collector) w.supply.next w'.supply.next added c.Exact := by
  have inRange := ahead.le_length ready.inRange
  unfold advance
  by_cases built : c.isBuilt = true
  · obtain ⟨w', enforced, grows⟩ := ready.enforceable built bound ahead w
    have same : (c.withBound bound).isBuilt = true := built
    refine ⟨c.withBound bound, w', c.enforcing bound, ?_, ?_, rfl, ?_⟩
    · rw [if_pos same, enforced]
    · rw [demand, if_pos (.inl same)]
      exact grows
    · rw [grows.next_eq]
      exact ready.settles built ahead
  have unbuilt : (c.withBound bound).isBuilt = false := eq_false_of_ne_true built
  obtain ⟨c', w', added, reached, grows, same, settles⟩ :=
    reach_spec unbuilt ⟨ready.old, inRange, ready.preset⟩ room
  refine ⟨c', w', added, ?_, grows, same, settles⟩
  have idle : (c.withBound bound).bound ≠ (c.withBound bound).idleBound := busy
  rw [← reached, reach, if_neg (by simp [unbuilt]), if_neg idle]

/-- A constraint that is ready is tightened with room for its variables. -/
theorem tighten_spec {direction : Direction} {bound : Nat}
    (ready : c.Ready σ (contents w.collector) w.supply.next) (tightens : c.Tightens direction bound)
    (room : w.supply.next + (c.withBound bound).demand ≤ Variable.maxIndex + 1) :
    ∃ c' w' added, c.tighten direction bound w = ⟨none, c', w'⟩ ∧
      w.Grows w' added (c.withBound bound).demand ∧
      c'.constraint = (c.withBound bound).constraint ∧
      c'.Settles σ (contents w.collector) w.supply.next w'.supply.next added c.Exact := by
  obtain ⟨ahead, busy⟩ := tightens.ahead ready.inRange
  obtain ⟨c', w', added, advanced, grows, same, settles⟩ := advance_spec ready ahead busy room
  refine ⟨c', w'.note (.constraintTightened c.direction c.bound bound), added, ?_, grows.note _,
    same, settles⟩
  have advanced : ({ c with bound := bound } : TightenableConstraint).advance w =
      ⟨none, c', w'⟩ := advanced
  simp only [tighten, tightens.refusal_eq_none, moveTo, advanced]

end Step

end CardinalityClauses.TightenableConstraint
