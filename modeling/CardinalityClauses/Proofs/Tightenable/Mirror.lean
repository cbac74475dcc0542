import CardinalityClauses.Proofs.Tightenable.Events
import CardinalityClauses.Proofs.Tightenable.Refusals

/-!
Lower bounds as upper bounds on the complements.

At least `b` of `n` literals are true exactly if at most `n - b` of their complements are. A
constraint that counts with a modular totalizer makes use of this: it counts what is false. So it
has a mirror image among the upper bounds (`mirror`), and whatever is done to both comes to the
same: the tests for bounds that need no tree, the comparison with the present bound and the unit
clauses are those of the other side, and the tree is the same.

Main statement: a lower bound and its mirror image, built and then tightened to any bounds with the
mirrored ones on the other side, go the same way step by step, no matter how often they are refused
or run out of memory (`build_tightenEach_mirrored`).
-/

namespace CardinalityClauses

/-- The failure as the mirror image tells it: it counts the complements. -/
def Failure.mirror (n : Nat) : Failure → Failure
  | .refused (.notTighter current requested) =>
      .refused (.notTighter (n - current) (n - requested))
  | failure => failure

/-- The failure does not speak of bounds. -/
def Unmirrored (failure : Option Failure) : Prop :=
  ∀ n, failure.map (Failure.mirror n) = failure

theorem Accepted.unmirrored {failure : Option Failure} (accepted : Accepted failure) :
    Unmirrored failure := by
  intro n
  rcases failure with _ | why | _ | f
  · rfl
  · exact absurd rfl (accepted.ne_refused why)
  · rfl
  · rfl

namespace TightenableConstraint

/-- The upper bound on the complements that comes to the same as a lower bound. -/
def mirror (c : TightenableConstraint) : TightenableConstraint :=
  { c with
    literals := c.literals.map Literal.complement
    direction := .atMost
    bound := c.literals.length - c.bound }

/-- A lower bound in range that is counted by a modular totalizer. -/
structure ModularLower (c : TightenableConstraint) : Prop where
  direction : c.direction = .atLeast
  family : c.family = .modular
  inRange : c.bound ≤ c.literals.length
  modular : ∀ t, c.tree ≠ some (.totalizer t)

/-- How a constraint and its mirror image emit clauses for their bounds. The constraint is left as
it was, or with a tree. -/
structure Emits {σ : Type} (c : TightenableConstraint) (o o' : Outcome TightenableConstraint σ) :
    Prop where
  mirrored : o' = ⟨o.failure, o.value.mirror, o.work⟩
  value : o.value = c ∨ ∃ t, o.value = c.withTree (.modular t)
  unmirrored : Unmirrored o.failure

theorem Emits.beside {σ : Type} {c : TightenableConstraint}
    {o o' o'' : Outcome TightenableConstraint σ} (emits : Emits c o o') (alike : o'.Alike o'') :
    ∃ failure d w w', o = ⟨failure, d, w⟩ ∧ o'' = ⟨failure, d.mirror, w'⟩ ∧ w.Alike w' ∧
      (d = c ∨ ∃ t, d = c.withTree (.modular t)) ∧ Unmirrored failure := by
  obtain ⟨failure, d, w⟩ := o
  obtain ⟨rfl, value, unmirrored⟩ := emits
  obtain ⟨_, _, _, w', left, right, alike⟩ := alike.split
  cases left
  exact ⟨failure, d, w, w', rfl, right, alike, value, unmirrored⟩

namespace ModularLower

variable {c : TightenableConstraint}

theorem withBound (lower : c.ModularLower) {b : Nat} (le : b ≤ c.literals.length) :
    (c.withBound b).ModularLower :=
  ⟨lower.direction, lower.family, le, lower.modular⟩

theorem withTree (lower : c.ModularLower) (t : ModularTotalizer) :
    (c.withTree (.modular t)).ModularLower :=
  ⟨lower.direction, lower.family, lower.inRange, fun _ same => nomatch same⟩

/-! ### Both sides ask for the same -/

theorem countedLiterals_mirror (lower : c.ModularLower) :
    c.mirror.countedLiterals = c.countedLiterals := by
  simp [countedLiterals, mirror, lower.direction]

theorem countedBound_eq (lower : c.ModularLower) :
    c.countedBound = .ok (c.literals.length - c.bound) := by
  simp [countedBound, subWithin, lower.direction, lower.inRange]

theorem countedBound_mirror (lower : c.ModularLower) :
    c.mirror.countedBound = c.countedBound :=
  lower.countedBound_eq.symm

theorem fixing_mirror (lower : c.ModularLower) :
    c.mirror.bound = c.mirror.fixingBound ↔ c.bound = c.fixingBound := by
  have inRange := lower.inRange
  simp only [mirror, fixingBound, lower.direction]
  omega

theorem idle_mirror (lower : c.ModularLower) :
    c.mirror.bound = c.mirror.idleBound ↔ c.bound = c.idleBound := by
  have inRange := lower.inRange
  simp only [mirror, idleBound, lower.direction, List.length_map]
  omega

theorem fixingClauses_mirror (lower : c.ModularLower) :
    c.mirror.fixingClauses = c.fixingClauses := by
  simp [fixingClauses, mirror, lower.direction, Function.comp_def]

variable {σ : Type} [Collector σ] {w : Workspace σ}

theorem enforce_mirror (lower : c.ModularLower) : c.mirror.enforce w = c.enforce w := by
  have same : c.mirror.tree = c.tree := rfl
  unfold enforce
  rw [same, lower.countedBound_mirror]
  split
  · rfl
  · exact absurd ‹_› (lower.modular _)
  · rfl

theorem makeTree_mirror (lower : c.ModularLower) : c.mirror.makeTree w = c.makeTree w := by
  have same : c.mirror.presetModulus = c.presetModulus := rfl
  have family : c.mirror.family = .modular := lower.family
  simp only [makeTree, family, lower.family, same, lower.countedLiterals_mirror,
    lower.countedBound_mirror]

/-- A tree that is made for it is modular. -/
theorem makeTree_modular (lower : c.ModularLower) {tree : CountingTree}
    (made : (c.makeTree w).1 = .ok tree) : ∃ t, tree = .modular t := by
  obtain ⟨m, eq⟩ | ⟨f, eq⟩ | ⟨maxBound, -, eq⟩ := makeTree_modular_cases lower.family w
  · rw [eq] at made
    cases made
  · rw [eq] at made
    cases made
  · rw [eq] at made
    exact ⟨_, (done_of_kept made).2.symm⟩

/-! ### Both sides emit the same -/

theorem enforce_unmirrored (lower : c.ModularLower) : Unmirrored (c.enforce w).1 := by
  rcases tree : c.tree with _ | t | t
  · simp only [enforce, tree]
    exact fun _ => rfl
  · exact absurd tree (lower.modular t)
  · rw [enforce_modular tree lower.countedBound_eq]
    obtain refused | accepted := t.enforceUpper_cases (c.literals.length - c.bound) w
    · rw [refused]
      exact fun _ => rfl
    · exact accepted.unmirrored

theorem emits_enforce (lower : c.ModularLower) :
    Emits c ⟨(c.enforce w).1, c, (c.enforce w).2⟩
      ⟨(c.mirror.enforce w).1, c.mirror, (c.mirror.enforce w).2⟩ where
  mirrored := by rw [lower.enforce_mirror]
  value := .inl rfl
  unmirrored := lower.enforce_unmirrored

theorem emits_fixing (lower : c.ModularLower) :
    Emits c ⟨(w.extend c.fixingClauses).1, c, (w.extend c.fixingClauses).2⟩
      ⟨(w.extend c.mirror.fixingClauses).1, c.mirror, (w.extend c.mirror.fixingClauses).2⟩ where
  mirrored := by rw [lower.fixingClauses_mirror]
  value := .inl rfl
  unmirrored := (w.extend_accepted _).unmirrored

theorem makeTree_unmirrored (lower : c.ModularLower) {failure : Failure}
    (missed : (c.makeTree w).1 = .error failure) : Unmirrored (some failure) := by
  obtain ⟨m, eq⟩ | ⟨f, eq⟩ | ⟨maxBound, -, eq⟩ := makeTree_modular_cases lower.family w
  · rw [eq] at missed
    cases missed
    exact fun _ => rfl
  · rw [eq] at missed
    cases missed
    exact fun _ => rfl
  · rw [eq] at missed
    rw [← failure_of_kept missed]
    exact (ModularTotalizer.encode_accepted rfl).unmirrored

theorem emits_materialize (lower : c.ModularLower) :
    Emits c (c.materialize w) (c.mirror.materialize w) := by
  have same : c.mirror.tree = c.tree := rfl
  unfold materialize
  rw [same, lower.makeTree_mirror]
  split
  · exact ⟨rfl, .inl rfl, fun _ => rfl⟩
  split
  · rename_i eq
    exact ⟨rfl, .inl rfl, lower.makeTree_unmirrored (by rw [eq])⟩
  · rename_i tree w' eq
    obtain ⟨t, rfl⟩ := lower.makeTree_modular (w := w) (by rw [eq])
    have emits := (lower.withTree t).emits_enforce (w := w')
    exact ⟨emits.mirrored, .inr ⟨t, rfl⟩, emits.unmirrored⟩

theorem emits_reach (lower : c.ModularLower) : Emits c (c.reach w) (c.mirror.reach w) := by
  simp only [reach, lower.fixing_mirror, lower.idle_mirror]
  split
  · exact lower.emits_fixing
  split
  · exact ⟨rfl, .inl rfl, fun _ => rfl⟩
  · exact lower.emits_materialize

theorem emits_advance (lower : c.ModularLower) : Emits c (c.advance w) (c.mirror.advance w) := by
  have same : c.mirror.isBuilt = c.isBuilt := rfl
  simp only [advance, lower.fixing_mirror, same]
  split
  · exact lower.emits_enforce
  split
  · exact lower.emits_fixing
  · exact lower.emits_materialize

end ModularLower

/-! ### Step by step -/

/-- How an outcome and its mirror image compare for those who use them: one tells of bounds what
the other tells of their differences from `n`, and all else is the same. -/
structure Mirrored {σ : Type} (n : Nat) (o o' : Outcome TightenableConstraint σ) : Prop where
  collector : o'.work.collector = o.work.collector
  supply : o'.work.supply = o.work.supply
  failure : o'.failure = o.failure.map (Failure.mirror n)
  isBuilt : o'.value.isBuilt = o.value.isBuilt
  modulus : o'.value.modulus? = o.value.modulus?
  tally : o'.value.tally = o.value.tally
  bounds : o.value.bound + o'.value.bound = n

/-- The outcomes of tightening to one bound after the other. -/
def tightenEach {σ : Type} [Collector σ] (direction : Direction) :
    List Nat → TightenableConstraint → Workspace σ → List (Outcome TightenableConstraint σ)
  | [], _, _ => []
  | bound :: rest, c, w =>
      let o := c.tighten direction bound w
      o :: tightenEach direction rest o.value o.work

namespace ModularLower

variable {c : TightenableConstraint} {σ : Type} [Collector σ] {w w' : Workspace σ} {b : Nat}

omit [Collector σ] in
theorem mirrored (lower : c.ModularLower) (failure : Option Failure) (alike : w.Alike w') :
    Mirrored c.literals.length ⟨failure, c, w⟩
      ⟨failure.map (Failure.mirror c.literals.length), c.mirror, w'⟩ where
  collector := alike.collector
  supply := alike.supply
  failure := rfl
  isBuilt := rfl
  modulus := rfl
  tally := rfl
  bounds := Nat.add_sub_cancel' lower.inRange

/-- A step on either side: the same failure but for the bounds it tells of, mirror images again, and
workspaces that are alike. -/
structure Steps (c : TightenableConstraint) (o o' : Outcome TightenableConstraint σ) : Prop where
  failure : o'.failure = o.failure.map (Failure.mirror c.literals.length)
  value : o'.value = o.value.mirror
  work : o.work.Alike o'.work
  lower : o.value.ModularLower
  literals : o.value.literals = c.literals

omit [Collector σ] in
/-- The bound is put back on either side. -/
theorem steps_back {failure : Option Failure} {moved : TightenableConstraint}
    (lower : c.ModularLower)
    (value : moved = c.withBound b ∨ ∃ t, moved = (c.withBound b).withTree (.modular t))
    (unmirrored : Unmirrored failure) (alike : w.Alike w') :
    Steps c ⟨failure, { moved with bound := c.bound }, w⟩
      ⟨failure, { moved.mirror with bound := c.mirror.bound }, w'⟩ := by
  obtain rfl | ⟨t, rfl⟩ := value
  · exact ⟨(unmirrored _).symm, rfl, alike, lower, rfl⟩
  · exact ⟨(unmirrored _).symm, rfl, alike, lower.withTree t, rfl⟩

theorem steps_moveTo (lower : c.ModularLower) (le : b ≤ c.literals.length) (alike : w.Alike w') :
    Steps c (c.moveTo b w) (c.mirror.moveTo (c.literals.length - b) w') := by
  have moved := lower.withBound le
  obtain ⟨failure, d, w₁, w₁', here, there, alike', value, unmirrored⟩ :=
    moved.emits_advance.beside ((c.withBound b).mirror.advance_alike alike)
  replace here : ({ c with bound := b } : TightenableConstraint).advance w = ⟨failure, d, w₁⟩ :=
    here
  replace there : ({ c.mirror with bound := c.literals.length - b } : TightenableConstraint).advance
      w' = ⟨failure, d.mirror, w₁'⟩ := there
  have lower' : d.ModularLower ∧ d.literals = c.literals := by
    obtain rfl | ⟨t, rfl⟩ := value
    · exact ⟨moved, rfl⟩
    · exact ⟨moved.withTree t, rfl⟩
  unfold moveTo
  rw [here, there]
  -- The bound is put back unless the step succeeded or ended in a fault.
  rcases failure with _ | why | _ | f
  · exact ⟨rfl, rfl, alike'.note _ _, lower'.1, lower'.2⟩
  · exact steps_back lower value unmirrored alike'
  · exact steps_back lower value unmirrored alike'
  · exact ⟨rfl, rfl, alike', lower'.1, lower'.2⟩

theorem steps_tighten (lower : c.ModularLower) (le : b ≤ c.literals.length)
    (alike : w.Alike w') :
    Steps c (c.tighten .atLeast b w) (c.mirror.tighten .atMost (c.literals.length - b) w') := by
  have inRange := lower.inRange
  by_cases tighter : c.bound < b
  · have accepted : c.tightenRefusal? .atLeast b = none := by
      simp only [tightenRefusal?, lower.direction]
      simp [Nat.not_lt_of_le le, Nat.not_le_of_lt tighter]
    have accepted' : c.mirror.tightenRefusal? .atMost (c.literals.length - b) = none := by
      simp only [tightenRefusal?, mirror]
      simp
      omega
    simp only [tighten, accepted, accepted']
    exact lower.steps_moveTo le alike
  · have refused : c.tightenRefusal? .atLeast b = some (.notTighter c.bound b) := by
      simp only [tightenRefusal?, lower.direction]
      simp [Nat.not_lt_of_le le, Nat.le_of_not_lt tighter]
    have refused' : c.mirror.tightenRefusal? .atMost (c.literals.length - b) =
        some (.notTighter (c.literals.length - c.bound) (c.literals.length - b)) := by
      simp only [tightenRefusal?, mirror]
      simp
      omega
    simp only [tighten, refused, refused']
    exact ⟨rfl, rfl, alike, lower, rfl⟩

omit [Collector σ] in
theorem Steps.mirrored {o o' : Outcome TightenableConstraint σ} (steps : Steps c o o') :
    Mirrored c.literals.length o o' := by
  obtain ⟨failure, value, work⟩ := o
  obtain ⟨_, _, work'⟩ := o'
  obtain ⟨rfl, rfl, alike, lower, literals⟩ := steps
  dsimp only at literals alike
  rw [← literals]
  exact lower.mirrored _ alike

theorem tightenEach_mirrored (lower : c.ModularLower) (alike : w.Alike w') (bounds : List Nat)
    (le : ∀ b ∈ bounds, b ≤ c.literals.length) :
    List.Forall₂ (Mirrored c.literals.length) (tightenEach .atLeast bounds c w)
      (tightenEach .atMost (bounds.map (c.literals.length - ·)) c.mirror w') := by
  induction bounds generalizing c w w' with
  | nil => exact .nil
  | cons b rest ih =>
      obtain ⟨first, others⟩ := List.forall_mem_cons.1 le
      have steps := lower.steps_tighten first alike
      refine .cons steps.mirrored ?_
      have further := ih steps.lower steps.work (by rwa [steps.literals])
      rw [steps.literals] at further
      rw [steps.value]
      exact further

end ModularLower

/-! ### Whole runs -/

theorem build_modulusTooSmall {literals : List Literal} {direction : Direction} {bound m : Nat}
    {configuration : Configuration} (inRange : bound ≤ literals.length)
    (family : configuration.family direction = .modular) (fixed : configuration.modulus = some m)
    (small : m < 2) {σ : Type} [Collector σ] (w : Workspace σ) :
    build literals direction bound configuration w =
      (.error (.refused (.modulusTooSmall m)), w) := by
  have refused : prepare literals direction bound configuration = .error (.modulusTooSmall m) := by
    simp [prepare, inRange, family, fixed, small]
  simp only [build, refused]

/-- A lower bound that is counted by a modular totalizer and the upper bound on the complements are
built alike, where the collectors and the supplies are the same. If they are built, they are
tightened alike from then on. -/
theorem build_tightenEach_mirrored {σ : Type} [Collector σ] {w w' : Workspace σ}
    (alike : w.Alike w') (literals : List Literal) {bound : Nat}
    (inRange : bound ≤ literals.length) (modulus : Option Nat) (other other' : Family) :
    let n := literals.length
    let lower := build literals .atLeast bound ⟨other, .modular, modulus⟩ w
    let upper := build (literals.map .complement) .atMost (n - bound) ⟨.modular, other', modulus⟩ w'
    (∃ why w₁ w₁', lower = (.error why, w₁) ∧ upper = (.error why, w₁') ∧ w₁.Alike w₁') ∨
      ∃ c c' w₁ w₁', lower = (.ok c, w₁) ∧ upper = (.ok c', w₁') ∧
        Mirrored n ⟨none, c, w₁⟩ ⟨none, c', w₁'⟩ ∧
        ∀ bounds, (∀ b ∈ bounds, b ≤ n) →
          List.Forall₂ (Mirrored n) (tightenEach .atLeast bounds c w₁)
            (tightenEach .atMost (bounds.map (n - ·)) c' w₁') := by
  intro n lower upper
  obtain ⟨c, start⟩ : ∃ c, blank literals .atLeast bound ⟨other, .modular, modulus⟩ = c := ⟨_, rfl⟩
  have image : blank (literals.map .complement) .atMost (n - bound) ⟨.modular, other', modulus⟩ =
      c.mirror := start ▸ rfl
  have modular : c.ModularLower := by
    rw [← start]
    exact ⟨rfl, rfl, inRange, fun _ none => nomatch none⟩
  by_cases preset : ∀ m, modulus = some m → 2 ≤ m
  · have lower_eq : lower = answer .atLeast bound (c.reach w) := by
      rw [← start]
      exact build_eq_answer inRange (by exact fun _ => preset) w
    have upper_eq : upper = answer .atMost (n - bound) (c.mirror.reach w') := by
      rw [← image]
      exact build_eq_answer (by simp [n]) (by exact fun _ => preset) w'
    obtain ⟨failure, d, w₁, w₁', here, there, alike', value, -⟩ :=
      modular.emits_reach.beside (c.mirror.reach_alike alike)
    rw [lower_eq, upper_eq, here, there]
    cases failure with
    | some why => exact .inl ⟨why, w₁, w₁', rfl, rfl, alike'⟩
    | none =>
        obtain ⟨modular', same⟩ : d.ModularLower ∧ d.literals = literals := by
          obtain rfl | ⟨t, rfl⟩ := value
          · exact ⟨modular, start ▸ rfl⟩
          · exact ⟨modular.withTree t, start ▸ rfl⟩
        have noted := alike'.note (.constraintBuilt .atLeast d.inputCount bound)
          (.constraintBuilt .atMost d.mirror.inputCount (n - bound))
        refine .inr ⟨d, d.mirror, _, _, rfl, rfl, ?_, fun bounds le => ?_⟩
        · have built := modular'.mirrored none noted
          rwa [same] at built
        · have run := modular'.tightenEach_mirrored noted bounds (by rwa [same])
          rwa [same] at run
  · simp only [not_forall, Nat.not_le] at preset
    obtain ⟨m, rfl, small⟩ := preset
    refine .inl ⟨.refused (.modulusTooSmall m), w, w', ?_, ?_, alike⟩
    · exact build_modulusTooSmall inRange rfl rfl small w
    · exact build_modulusTooSmall (by simp [n]) rfl rfl small w'

/-- The theorem for three literals of which at least one is to be true. The second bound asked for
is not tighter than the first, and the last one fixes all literals. -/
theorem build_tightenEach_mirrored_three :
    let literals : List Literal := [⟨0, false⟩, ⟨1, true⟩, ⟨2, false⟩]
    let w : Workspace Formula := ⟨.empty, ⟨3⟩, #[]⟩
    ∃ c c' w₁ w₁', build literals .atLeast 1 ⟨.totalizer, .modular, none⟩ w = (.ok c, w₁) ∧
      build (literals.map .complement) .atMost 2 ⟨.modular, .totalizer, none⟩ w = (.ok c', w₁') ∧
      Mirrored 3 ⟨none, c, w₁⟩ ⟨none, c', w₁'⟩ ∧
      List.Forall₂ (Mirrored 3) (tightenEach .atLeast [2, 1, 3] c w₁)
        (tightenEach .atMost [1, 2, 0] c' w₁') := by
  intro literals w
  have built : (build literals .atLeast 1 ⟨.totalizer, .modular, none⟩ w).1.isOk = true := by
    decide
  obtain ⟨why, w₁, -, failed, -⟩ | ⟨c, c', w₁, w₁', lower, upper, mirrored, run⟩ :=
    build_tightenEach_mirrored (.refl w) literals (by decide : 1 ≤ 3) none .totalizer .totalizer
  · rw [failed] at built
    cases built
  · exact ⟨c, c', w₁, w₁', lower, upper, mirrored, run [2, 1, 3] (by decide)⟩

end TightenableConstraint

end CardinalityClauses
