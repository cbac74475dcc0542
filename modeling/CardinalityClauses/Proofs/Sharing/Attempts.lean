import CardinalityClauses.Proofs.Sharing.Requests
import CardinalityClauses.Proofs.Tightenable.Attempts

/-!
Requests to a shared collector that may fail.

Any call to the collector may run out of memory and keep a first part of what it was handed. A
request that fails leaves clauses that no success vouches for, and half a tree at worst. What stays
right all the time is that the trees of the built constraints count right and that whatever was
asked for, also by the requests that failed, can be had by one valuation (`Shared.Compatible`).

Main statement: a request is refused, and nothing has changed, or it adds a part of what it says and
keeps this (`Shared.Compatible.perform_cases`).
-/

namespace CardinalityClauses

open Collector (Unfailing)
open LawfulCollector (contents)

/-! ### What is asked for -/

/-- Clauses and constraints that are to hold. -/
structure Wishes where
  clauses : List Clause
  constraints : List Constraint

namespace Wishes

/-- All of two wishes. -/
def and (one two : Wishes) : Wishes where
  clauses := one.clauses ++ two.clauses
  constraints := one.constraints ++ two.constraints

/-- All wishes are met. -/
def Holds (wishes : Wishes) (v : Valuation) : Prop :=
  v.Models wishes.clauses ∧ ∀ c ∈ wishes.constraints, c.holds v = true

/-- The wishes are over variables in `on`. -/
structure Over (wishes : Wishes) (on : Nat → Prop) : Prop where
  clauses : ClausesOver on wishes.clauses
  constraints : ∀ c ∈ wishes.constraints, LiteralsOver on c.literals

variable {v w : Valuation}

theorem holds_and {one two : Wishes} : (one.and two).Holds v ↔ one.Holds v ∧ two.Holds v := by
  simp only [Holds, and, Valuation.models_append, List.forall_mem_append]
  tauto

/-- Nothing is wished. -/
theorem holds_nothing (v : Valuation) : Holds ⟨[], []⟩ v :=
  ⟨v.models_nil, by simp⟩

theorem holds_constraint {c : Constraint} : Holds ⟨[], [c]⟩ v ↔ c.holds v = true := by
  simp [Holds, v.models_nil]

theorem over_constraint {c : Constraint} {on : Nat → Prop} (about : LiteralsOver on c.literals) :
    Over ⟨[], [c]⟩ on :=
  ⟨by simp [ClausesOver], by simpa using about⟩

theorem holds_clause {clause : Clause} : Holds ⟨[clause], []⟩ v ↔ v.Models [clause] := by
  simp [Holds]

theorem over_clause {clause : Clause} {on : Nat → Prop} (about : LiteralsOver on clause.literals) :
    Over ⟨[clause], []⟩ on :=
  ⟨List.forall_mem_singleton.2 about, by simp⟩

/-- Whether wishes are met depends on their variables only. -/
theorem Over.holds_of_agree {wishes : Wishes} {on : Nat → Prop} (ranging : wishes.Over on)
    (agree : Valuation.Agree on v w) (holds : wishes.Holds v) : wishes.Holds w := by
  refine ⟨agree.models ranging.clauses holds.1, fun c mem => ?_⟩
  rw [← Constraint.holds_of_agree agree (ranging.constraints c mem)]
  exact holds.2 c mem

end Wishes

namespace Shared

variable {σ : Type}

/-- What a request is about, whether or not it is done. -/
def asks (s : Shared σ) : SharedRequest → Wishes
  | .addClause clause => ⟨[clause], []⟩
  | .encode constraint => ⟨[], [constraint]⟩
  | .build literals direction bound _ => ⟨[], [⟨direction, literals, bound⟩]⟩
  | .tighten position _ bound =>
      match s.handles[position]? with
      | none => ⟨[], []⟩
      | some handle => ⟨[], [(handle.withBound bound).constraint]⟩
  | _ => ⟨[], []⟩

/-- A request whose literals are over the variables that were taken. Its bound may be out of
range. -/
def Sensible (s : Shared σ) : SharedRequest → Prop
  | .takeVariable | .takeLiterals _ | .takeBelow _ => True
  | .addClause clause => LiteralsOver (· ∈ s.users) clause.literals
  | .encode constraint => LiteralsOver (· ∈ s.users) constraint.literals
  | .build literals _ _ _ => LiteralsOver (· ∈ s.users) literals
  | .tighten position _ _ => ∃ handle, s.handles[position]? = some handle

/-! ### The invariant -/

/-- All trees of the built constraints count right, and whatever was asked for can be had by one
valuation that satisfies, for each tree, the clauses for all bounds that are met. -/
structure Compatible [LawfulCollector σ] (s : Shared σ) (Asked : Valuation → Prop) : Prop where
  used : ∀ i ∈ s.users, i < s.work.supply.next
  about : ClausesOver (· < s.work.supply.next) (contents s.work.collector)
  concerns : ∀ c ∈ s.handles, LiteralsOver (· ∈ s.users) c.literals
  usable : ∀ c ∈ s.handles, c.Usable (contents s.work.collector) s.work.supply.next
  asked_of_agree : ∀ v w, Valuation.Agree (· ∈ s.users) v w → Asked v → Asked w
  exists_precise : ∀ v, Asked v →
    ∃ w, Valuation.Agree (· ∈ s.users) v w ∧ w.Models (contents s.work.collector) ∧
      ∀ c ∈ s.handles, c.Precise w

section Compatible

variable [LawfulCollector σ] {s t : Shared σ} {Asked Now : Valuation → Prop}

theorem Compatible.extends (compatible : s.Compatible Asked) {v : Valuation} (asked : Asked v) :
    v.Extends (· ∈ s.users) (contents s.work.collector) := by
  obtain ⟨w, agree, models, -⟩ := compatible.exists_precise v asked
  exact ⟨w, agree, models⟩

/-- What is asked for may be said in other words. -/
theorem Compatible.congr (compatible : s.Compatible Asked) (same : ∀ v, Now v ↔ Asked v) :
    s.Compatible Now := by
  rwa [show Now = Asked from funext fun v => propext (same v)]

theorem compatible_start {w : Workspace σ}
    (old : ClausesOver (· < w.supply.next) (contents w.collector)) :
    (start w).Compatible fun v => v.Models (contents w.collector) where
  used := fun i mem => List.mem_range.1 mem
  about := old
  concerns := fun c mem => by cases mem
  usable := fun c mem => by cases mem
  asked_of_agree := fun v w agree models =>
    (agree.mono fun i lt => List.mem_range.2 lt).models old models
  exists_precise := fun v models => ⟨v, .refl _ v, models, fun c mem => by cases mem⟩

/-- Another collector may take over with the same clauses and the same variables. Built constraints
may go, others come that have no tree, and their bounds may get tighter. -/
theorem Compatible.resume (compatible : s.Compatible Asked) {w : Workspace σ}
    {handles : List TightenableConstraint} (held : contents w.collector = contents s.work.collector)
    (next : w.supply.next = s.work.supply.next)
    (kept : ∀ c ∈ handles, (∃ old ∈ s.handles, old.Ahead c.bound ∧ c = old.withBound c.bound) ∨
      c.isBuilt = false ∧ c.WellFormed s.work.supply.next ∧
        LiteralsOver (· ∈ s.users) c.literals) :
    ({ s with work := w, handles := handles } : Shared σ).Compatible Asked := by
  obtain ⟨used, about, concerns, usable, asked_of_agree, exists_precise⟩ := compatible
  refine
    { used := ?_
      about := ?_
      concerns := ?_
      usable := ?_
      asked_of_agree := asked_of_agree
      exists_precise := ?_ } <;> simp only [held, next]
  · exact used
  · exact about
  · intro c mem
    obtain ⟨old, mem, -, same⟩ | ⟨-, -, about⟩ := kept c mem
    · rw [same]
      exact concerns old mem
    · exact about
  · intro c mem
    obtain ⟨old, mem, ahead, same⟩ | ⟨unbuilt, wellFormed, -⟩ := kept c mem
    · rw [same]
      exact (usable old mem).withBound (ahead.le_length (usable old mem).inRange)
    · exact wellFormed.usable unbuilt _
  · intro v asked
    obtain ⟨u, agree, models, precise⟩ := exists_precise v asked
    refine ⟨u, agree, models, fun c mem => ?_⟩
    obtain ⟨old, mem, -, same⟩ | ⟨unbuilt, -, -⟩ := kept c mem
    · rw [same]
      exact precise old mem
    · exact TightenableConstraint.precise_of_not_isBuilt unbuilt u

theorem Compatible.withCollector (compatible : s.Compatible Asked) {collector : σ}
    (held : contents collector = contents s.work.collector) :
    ({ s with work.collector := collector } : Shared σ).Compatible Asked :=
  compatible.resume held rfl fun c mem =>
    .inl ⟨c, mem, TightenableConstraint.ahead_self (compatible.usable c mem).inRange, rfl⟩

/-- Variables may be taken that no encoding took for itself. -/
theorem Compatible.take (compatible : s.Compatible Asked) {w : Workspace σ} {k : Nat}
    {taken : List Nat} (grows : s.work.Grows w [] k)
    (fresh : ∀ i ∈ taken, s.work.supply.next ≤ i ∧ i < s.work.supply.next + k) :
    ({ s with work := w, users := s.users ++ taken } : Shared σ).Compatible Asked := by
  have held : contents w.collector = contents s.work.collector := by simpa using grows.contents_eq
  have next : w.supply.next = s.work.supply.next + k := grows.next_eq
  have later : s.work.supply.next ≤ w.supply.next := by omega
  have more : ∀ i, i ∈ s.users → i ∈ s.users ++ taken := fun i mem => List.mem_append_left _ mem
  refine
    { used := ?_
      about := ?_
      concerns := fun c mem => (compatible.concerns c mem).mono more
      usable := ?_
      asked_of_agree := fun v w agree => compatible.asked_of_agree v w (agree.mono more)
      exists_precise := ?_ }
  · intro i mem
    show i < w.supply.next
    rcases List.mem_append.1 mem with old | new
    · exact Nat.lt_of_lt_of_le (compatible.used i old) later
    · exact next ▸ (fresh i new).2
  · show ClausesOver (· < w.supply.next) (contents w.collector)
    rw [held]
    exact compatible.about.upTo later
  · intro c mem
    show c.Usable (contents w.collector) w.supply.next
    have usable := (compatible.usable c mem).mono [] later
    rwa [List.append_nil, ← held] at usable
  · intro v asked
    obtain ⟨u, agree, models, precise⟩ := compatible.exists_precise v asked
    let both : Valuation := fun i => if i < s.work.supply.next then u i else v i
    have below : Valuation.Agree (· < s.work.supply.next) u both := fun i lt => (if_pos lt).symm
    refine ⟨both, ?_, ?_, ?_⟩
    · intro i mem
      rcases List.mem_append.1 mem with old | new
      · rw [agree i old]
        exact below i (compatible.used i old)
      · exact (if_neg (Nat.not_lt_of_le (fresh i new).1)).symm
    · show both.Models (contents w.collector)
      rw [held]
      exact below.models compatible.about models
    · exact fun c mem => (compatible.usable c mem).precise_of_agree below (precise c mem)

/-- A request adds clauses, with variables of their own, and more is asked for than before. -/
theorem Compatible.grow (compatible : s.Compatible Asked) {added : List Clause} {k : Nat}
    (grows : s.work.Grows t.work added k) (users : t.users = s.users)
    (about : ClausesOver (· < t.work.supply.next) added)
    (concerns : ∀ c ∈ t.handles, LiteralsOver (· ∈ s.users) c.literals)
    (usable : ∀ c ∈ t.handles, c ∈ s.handles ∨
      c.Usable (contents s.work.collector ++ added) t.work.supply.next)
    (now_of_agree : ∀ v w, Valuation.Agree (· ∈ s.users) v w → Now v → Now w)
    (stronger : ∀ v, Now v → Asked v)
    (exists_precise : ∀ v : Valuation, v.Models (contents s.work.collector) →
      (∀ c ∈ s.handles, c.Precise v) → Now v →
      ∃ w, v.AgreeOutside s.work.supply.next t.work.supply.next w ∧ w.Models added ∧
        ∀ c ∈ t.handles, c ∈ s.handles ∨ c.Precise w) : t.Compatible Now := by
  have held := grows.contents_eq
  have later : s.work.supply.next ≤ t.work.supply.next := by
    rw [grows.next_eq]
    exact Nat.le_add_right _ _
  refine
    { used := ?_
      about := ?_
      concerns := by rwa [users]
      usable := ?_
      asked_of_agree := by rwa [users]
      exists_precise := ?_ }
  · intro i mem
    rw [users] at mem
    exact Nat.lt_of_lt_of_le (compatible.used i mem) later
  · rw [held]
    exact clausesOver_append.2 ⟨compatible.about.upTo later, about⟩
  · intro c mem
    rw [held]
    rcases usable c mem with old | new
    · exact (compatible.usable c old).mono added later
    · exact new
  · intro v now
    obtain ⟨u, agree, models, precise⟩ := compatible.exists_precise v (stronger v now)
    obtain ⟨w, outside, new, preciseNew⟩ :=
      exists_precise u models precise (now_of_agree v u agree now)
    refine ⟨w, ?_, ?_, ?_⟩
    · rw [users]
      exact agree.trans (outside.below.mono compatible.used)
    · rw [held, Valuation.models_append]
      exact ⟨outside.below.models compatible.about models, new⟩
    · intro c mem
      rcases preciseNew c mem with old | now
      · exact (compatible.usable c old).precise_of_agree outside.below (precise c old)
      · exact now

end Compatible

/-! ### Requests -/

section Perform

variable [LawfulCollector σ] {s : Shared σ} {Asked : Valuation → Prop}

/-- What is left after a request that did not end in a fault. -/
structure Passes (s : Shared σ) (Asked : Valuation → Prop) (r : SharedRequest) : Prop where
  grows : ∃ added k, s.work.Grows (s.perform r).2.work added k
  users : s.users ⊆ (s.perform r).2.users
  compatible : (s.perform r).2.Compatible fun v => Asked v ∧ (s.asks r).Holds v
  /-- A success means that what was asked for is said by the clauses held. -/
  accepts : (s.perform r).1 = none → ∀ v : Valuation,
    v.Models (contents (s.perform r).2.work.collector) → (s.asks r).Holds v
  /-- Only a success changes what is recorded as done. -/
  done : ∀ v : Valuation, s.Holds v → ((s.perform r).1 = none → (s.asks r).Holds v) →
    (s.perform r).2.Holds v

/-- What a request comes to that is not refused. -/
structure Tried (s : Shared σ) (Asked : Valuation → Prop) (r : SharedRequest) : Prop where
  ran : ∃ plan, plannedVariables plan = s.demand r ∧
    s.work.Ran plan (s.perform r).1 (s.perform r).2.work
  reached : (s.perform r).1 = none → (s.perform r).2.bounds = s.boundsAfter r
  unchanged : (s.perform r).1 = some .outOfMemory → (s.perform r).2.bounds = s.bounds
  serving : (s.perform r).1 = none → (∀ h ∈ s.handles, h.Serving) →
    ∀ h ∈ (s.perform r).2.handles, h.Serving
  passes : (∀ f, (s.perform r).1 ≠ some (.fault f)) →
    (s.perform r).2.work.supply.next ≤ Variable.maxIndex + 1 → s.Passes Asked r

theorem Tried.of_fault {r : SharedRequest} {plan : List Piece} {f : Fault} {t : Shared σ}
    (ran : s.work.Ran plan (some (.fault f)) t.work)
    (performed : s.perform r = (some (.fault f), t))
    (planned : plannedVariables plan = s.demand r) : s.Tried Asked r := by
  refine ⟨⟨plan, planned, by rwa [performed]⟩, fun done => ?_, fun failed => ?_, fun done => ?_,
    fun fine => ?_⟩
  · simp [performed] at done
  · simp [performed] at failed
  · simp [performed] at done
  · rw [performed] at fine
    exact absurd rfl (fine f)

/-- A request that only takes variables. -/
theorem Compatible.tried_take (compatible : s.Compatible Asked) {r : SharedRequest}
    {w : Workspace σ} {taken : List Nat} {e : Option Event} (asks : s.asks r = ⟨[], []⟩)
    (bounds : s.boundsAfter r = s.bounds)
    (ran : s.work.Ran [⟨s.demand r, [], e⟩] none w)
    (performed : s.perform r = (none, { s with work := w, users := s.users ++ taken }))
    (fresh : s.work.supply.next + s.demand r ≤ Variable.maxIndex + 1 → ∀ i ∈ taken,
      s.work.supply.next ≤ i ∧ i < s.work.supply.next + s.demand r) : s.Tried Asked r := by
  have grows : s.work.Grows w [] (s.demand r) := by
    simpa [plannedClauses, Piece.clauses] using ran.grows
  refine ⟨⟨_, rfl, by rwa [performed]⟩, ?_, ?_, ?_, fun _ room => ?_⟩
  · exact fun _ => by rw [performed, bounds]; rfl
  · exact fun failed => by simp [performed] at failed
  · exact fun _ serving => by rwa [performed]
  have fresh := fresh (by rwa [← grows.next_eq, ← show (s.perform r).2.work = w by rw [performed]])
  constructor <;> simp only [performed, asks]
  · exact ⟨_, _, grows⟩
  · exact List.subset_append_left _ _
  · exact (compatible.take grows fresh).congr fun v => and_iff_left (Wishes.holds_nothing v)
  · exact fun _ v _ => Wishes.holds_nothing v
  · exact fun v holds _ => holds

theorem Compatible.tried_takeVariable (compatible : s.Compatible Asked) :
    s.Tried Asked .takeVariable := by
  by_cases room : s.work.supply.next < VariableSupply.last
  · have performed : s.perform .takeVariable = (none, { s with
        work.supply := ⟨s.work.supply.next + 1⟩
        users := s.users ++ [s.work.supply.next] }) := by
      simp only [perform, VariableSupply.takeVariable, if_pos room]
    have ran : s.work.Ran [⟨1, [], none⟩] none
        { s.work with supply := ⟨s.work.supply.next + 1⟩ } :=
      .done ⟨by simp [plannedClauses, Piece.clauses], rfl⟩ id
    exact compatible.tried_take rfl rfl ran performed fun _ => by simp [demand]
  · have performed : s.perform .takeVariable = (some (.fault .arithmeticOverflow), s) := by
      simp only [perform, VariableSupply.takeVariable, if_neg room]
    have ran : s.work.Ran [⟨1, [], none⟩] (some (.fault .arithmeticOverflow)) s.work := by
      refine .crowded ?_
      simp only [VariableSupply.last, indexRange, Variable.maxIndex, plannedVariables] at room ⊢
      omega
    exact .of_fault ran performed rfl

theorem Compatible.tried_takeLiterals (compatible : s.Compatible Asked) (n : Nat) :
    s.Tried Asked (.takeLiterals n) := by
  obtain ⟨w, taken, ran⟩ | ⟨f, w, taken, ran⟩ := s.work.takeLiterals_ran n none
  · have performed : s.perform (.takeLiterals n) = (none, { s with
        work := w
        users := s.users ++ (VariableSupply.block s.work.supply.next n).map Literal.index }) := by
      simp only [perform, taken]
    refine compatible.tried_take rfl rfl ran performed fun room i mem => ?_
    obtain ⟨l, hl, rfl⟩ := List.mem_map.1 mem
    exact VariableSupply.literalsOver_block room l hl
  · have performed : s.perform (.takeLiterals n) = (some (.fault f), { s with work := w }) := by
      simp only [perform, taken]
    exact .of_fault ran performed rfl

theorem Compatible.tried_takeBelow (compatible : s.Compatible Asked) (v : Variable) :
    s.Tried Asked (.takeBelow v) := by
  obtain ⟨supply, raised, next⟩ : ∃ supply, (s.work.supply.raiseTo v).2 = supply ∧
      supply.next = s.work.supply.next + (v.index - s.work.supply.next) := by
    refine ⟨_, rfl, ?_⟩
    unfold VariableSupply.raiseTo
    split
    · show v.index = _
      omega
    · show s.work.supply.next = _
      omega
  have performed : s.perform (.takeBelow v) = (none, { s with
      work.supply := supply
      users := s.users ++
        List.range' s.work.supply.next (supply.next - s.work.supply.next) }) := by
    rw [← raised]
    rfl
  have ran : s.work.Ran [⟨v.index - s.work.supply.next, [], none⟩] none
      { s.work with supply := supply } :=
    .done ⟨by simp [plannedClauses, Piece.clauses], next⟩ id
  refine compatible.tried_take rfl rfl ran performed fun _ i mem => ?_
  rw [List.mem_range'_1] at mem
  simp only [demand]
  omega

/-- A request that hands clauses over which say what is asked for. -/
theorem Compatible.tried_adding (compatible : s.Compatible Asked) {r : SharedRequest}
    {plan : List Piece} {failure : Option Failure} {w : Workspace σ} {clauses : List Clause}
    {constraints : List Constraint} (ran : s.work.Ran plan failure w)
    (performed : s.perform r = (failure, ⟨w, s.users, clauses, constraints, s.handles⟩))
    (planned : plannedVariables plan = s.demand r) (bounds : s.boundsAfter r = s.bounds)
    (ranging : (s.asks r).Over (· ∈ s.users))
    (lenient : Lenient (s.asks r).Holds s.work.supply.next plan)
    (sound : s.work.supply.next + s.demand r ≤ Variable.maxIndex + 1 → ∀ v : Valuation,
      v.Models (plannedClauses plan) → (s.asks r).Holds v)
    (done : ∀ v : Valuation, s.Holds v → (failure = none → (s.asks r).Holds v) →
      v.Models clauses ∧ ∀ c ∈ constraints, c.holds v = true) : s.Tried Asked r := by
  refine ⟨⟨plan, planned, by rwa [performed]⟩, ?_, ?_, ?_, fun fine room => ?_⟩
  · exact fun _ => by rw [performed, bounds]; rfl
  · exact fun _ => by rw [performed]; rfl
  · exact fun _ serving => by rwa [performed]
  rw [performed] at fine room
  obtain ⟨kept, k, grows, allows⟩ := ran.leaves lenient fine room
  constructor <;> simp only [performed]
  · exact ⟨kept, k, grows⟩
  · exact List.Subset.refl _
  · refine compatible.grow grows rfl allows.about compatible.concerns (fun c mem => .inl mem) ?_
      (fun v now => now.1) ?_
    · exact fun v w agree now =>
        ⟨compatible.asked_of_agree v w agree now.1, ranging.holds_of_agree agree now.2⟩
    · rintro v - - ⟨-, holds⟩
      obtain ⟨u, agree, models⟩ := allows.exists_models v holds
      exact ⟨u, agree, models, fun c mem => .inl mem⟩
  · rintro rfl v models
    rw [ran.grows.contents_eq, Valuation.models_append] at models
    rw [ran.grows.next_eq, planned] at room
    exact sound room v models.2
  · intro v holds accepted
    obtain ⟨added, met⟩ := done v holds accepted
    exact ⟨added, met, holds.2.2⟩

theorem Compatible.tried_addClause (compatible : s.Compatible Asked) {clause : Clause}
    (about : LiteralsOver (· ∈ s.users) clause.literals) : s.Tried Asked (.addClause clause) := by
  have ranging : (s.asks (.addClause clause)).Over (· ∈ s.users) := Wishes.over_clause about
  have lenient : Lenient (s.asks (.addClause clause)).Holds s.work.supply.next
      [Workspace.handing [clause]] := by
    refine .single fun _ => .of_models ?_ fun v holds => ?_
    · have single : ClausesOver (· < s.work.supply.next) [clause] :=
        ranging.clauses.mono compatible.used
      simpa [Workspace.handing, Piece.clauses] using single
    · simpa [Workspace.handing, Piece.clauses] using Wishes.holds_clause.1 holds
  have sound (v : Valuation) (models : v.Models (plannedClauses [Workspace.handing [clause]])) :
      (s.asks (.addClause clause)).Holds v := by
    rw [Workspace.plannedClauses_handing] at models
    exact Wishes.holds_clause.2 models
  have ran := s.work.extend_ran [clause]
  rcases eq : s.work.extend [clause] with ⟨_ | why, w⟩ <;> rw [eq] at ran
  · have performed : s.perform (.addClause clause) =
        (none, { s with work := w, clauses := s.clauses ++ [clause] }) := by
      simp only [perform, eq]
    refine compatible.tried_adding ran performed rfl rfl ranging lenient (fun _ => sound)
      fun v holds accepted => ⟨?_, holds.2.1⟩
    exact Valuation.models_append.2 ⟨holds.1, Wishes.holds_clause.1 (accepted rfl)⟩
  · exact compatible.tried_adding ran (by simp only [perform, eq]) rfl rfl ranging lenient
      (fun _ => sound) fun v holds _ => ⟨holds.1, holds.2.1⟩

theorem Compatible.tried_encode (compatible : s.Compatible Asked) {constraint : Constraint}
    (about : LiteralsOver (· ∈ s.users) constraint.literals) :
    s.Tried Asked (.encode constraint) := by
  have ranging : (s.asks (.encode constraint)).Over (· ∈ s.users) := Wishes.over_constraint about
  have old : LiteralsOver (· < s.work.supply.next) constraint.literals := about.mono compatible.used
  have planned := constraint.plannedVariables_encodePlan s.work.supply.next
  have lenient : Lenient (s.asks (.encode constraint)).Holds s.work.supply.next
      (constraint.encodePlan s.work.supply.next) :=
    (Constraint.lenient_encodePlan old).mono fun v => Wishes.holds_constraint.1
  have sound (room : s.work.supply.next + constraint.encodeDemand ≤ Variable.maxIndex + 1)
      (v : Valuation) (models : v.Models (plannedClauses
        (constraint.encodePlan s.work.supply.next))) : (s.asks (.encode constraint)).Holds v :=
    Wishes.holds_constraint.2 ((Constraint.encodedBy_encodePlan old room).sound v models)
  have ran := constraint.encode_ran s.work
  rcases eq : constraint.encode s.work with ⟨_ | why, w⟩ <;> rw [eq] at ran
  · have performed : s.perform (.encode constraint) =
        (none, { s with work := w, constraints := s.constraints ++ [constraint] }) := by
      simp only [perform, eq]
    refine compatible.tried_adding ran performed planned rfl ranging lenient sound
      fun v holds accepted => ⟨holds.1, ?_⟩
    refine List.forall_mem_append.2 ⟨holds.2.1, List.forall_mem_singleton.2 ?_⟩
    exact Wishes.holds_constraint.1 (accepted rfl)
  · exact compatible.tried_adding ran (by simp only [perform, eq]) planned rfl ranging lenient sound
      fun v holds _ => ⟨holds.1, holds.2.1⟩

/-- A request that attempts to bring a constraint to the bound asked for. -/
theorem Compatible.passes_of_leaves (compatible : s.Compatible Asked) {r : SharedRequest}
    {c : TightenableConstraint} {o : Outcome TightenableConstraint σ} {added : List Clause}
    {handles : List TightenableConstraint} (leaves : c.Leaves s.work o added)
    (performed : s.perform r = (o.failure, { s with work := o.work, handles := handles }))
    (asks : ∀ v, (s.asks r).Holds v ↔ c.constraint.holds v = true)
    (members : ∀ h ∈ handles, h ∈ s.handles ∨ h = o.value)
    (about : LiteralsOver (· ∈ s.users) c.literals) (same : o.value.literals = c.literals)
    (precise : ∀ v, (∀ h ∈ s.handles, h.Precise v) → c.Precise v)
    (done : ∀ v : Valuation, s.Holds v → (o.failure = none → (s.asks r).Holds v) →
      ∀ h ∈ handles, h.constraint.holds v = true) : s.Passes Asked r := by
  obtain ⟨k, grows⟩ := leaves.grows
  constructor <;> simp only [performed]
  · exact ⟨added, k, grows⟩
  · exact List.Subset.refl _
  · refine compatible.grow grows rfl leaves.about ?_ ?_ ?_ (fun v now => now.1) ?_
    · intro h mem
      obtain old | rfl := members h mem
      · exact compatible.concerns h old
      · rwa [same]
    · intro h mem
      obtain old | rfl := members h mem
      · exact .inl old
      · exact .inr leaves.usable
    · rintro v w agree ⟨asked, met⟩
      refine ⟨compatible.asked_of_agree v w agree asked, ?_⟩
      rw [asks] at met ⊢
      rwa [← Constraint.holds_of_agree agree about]
    · rintro v models precise_ ⟨-, met⟩
      obtain ⟨u, agree, new, preciseNew⟩ :=
        leaves.exists_precise v models (precise v precise_) ((asks v).1 met)
      refine ⟨u, agree, new, fun h mem => ?_⟩
      obtain old | rfl := members h mem
      · exact .inl old
      · exact .inr preciseNew
  · intro failure v models
    rw [grows.contents_eq] at models
    exact (asks v).2 (leaves.reached failure v models)
  · exact fun v holds accepted =>
      ⟨holds.1, holds.2.1, holds_bounds_iff.2 (done v holds accepted)⟩

/-- A build is refused or attempted. It is refused only if the bound or the modulus is out of
range. -/
theorem Compatible.build_cases (compatible : s.Compatible Asked) {literals : List Literal}
    (about : LiteralsOver (· ∈ s.users) literals) (direction : Direction) (bound : Nat)
    (configuration : Configuration) :
    (∃ why, s.perform (.build literals direction bound configuration) =
        (some (.refused why), s)) ∧
        ¬(bound ≤ literals.length ∧
          (TightenableConstraint.blank literals direction bound configuration).PresetOk) ∨
      s.Tried Asked (.build literals direction bound configuration) := by
  obtain ⟨c, blank⟩ : ∃ c, c = TightenableConstraint.blank literals direction bound configuration :=
    ⟨_, rfl⟩
  have asks (v : Valuation) : (s.asks (.build literals direction bound configuration)).Holds v ↔
      c.constraint.holds v = true := blank ▸ Wishes.holds_constraint
  have demanded : s.demand (.build literals direction bound configuration) = c.demand := blank ▸ rfl
  have ranging : LiteralsOver (· ∈ s.users) c.literals := blank ▸ about
  have precise (v : Valuation) : c.Precise v :=
    TightenableConstraint.precise_of_not_isBuilt (blank ▸ rfl) v
  obtain ⟨⟨why, refused⟩, bad⟩ | ⟨⟨failure, handle, w⟩, built, endures⟩ :=
    TightenableConstraint.build_cases (w := s.work) (about.mono compatible.used) direction bound
      configuration
  · exact .inl ⟨⟨why, by simp only [perform, refused]⟩, bad⟩
  rw [← blank] at endures
  have serving : handle.Serving :=
    endures.serving fun built => by rw [blank] at built; cases built
  obtain ⟨⟨plan, planned, ran⟩, same, -, -, leaves⟩ := endures
  have listed : handle.literals = c.literals := (Constraint.mk.inj same).2.1
  refine .inr ?_
  cases failure with
  | none =>
      have performed : s.perform (.build literals direction bound configuration) =
          (none, { s with
            work := w.note (.constraintBuilt direction handle.inputCount bound)
            handles := s.handles ++ [handle] }) := by
        simp only [perform, built, TightenableConstraint.answer]
      refine ⟨⟨plan, planned.trans demanded.symm, ?_⟩, ?_, ?_, ?_, fun fine room => ?_⟩
      · rw [performed]
        exact ran.note _
      · intro _
        rw [performed]
        simp only [Shared.bounds, boundsAfter, List.map_append, List.map_singleton, same, blank]
        rfl
      · exact fun failed => by simp [performed] at failed
      · intro _ before
        rw [performed]
        exact List.forall_mem_append.2 ⟨before, List.forall_mem_singleton.2 serving⟩
      rw [performed] at room
      obtain ⟨added, left⟩ := leaves (by simp) room
      refine compatible.passes_of_leaves (left.note _) performed asks ?_ ranging listed
        (fun v _ => precise v) ?_
      · exact fun h mem => (List.mem_append.1 mem).imp_right List.mem_singleton.1
      · intro v holds accepted
        refine List.forall_mem_append.2 ⟨holds_bounds_iff.1 holds.2.2, ?_⟩
        rw [List.forall_mem_singleton, same]
        exact (asks v).1 (accepted rfl)
  | some why =>
      have performed : s.perform (.build literals direction bound configuration) =
          (some why, { s with work := w }) := by
        simp only [perform, built, TightenableConstraint.answer]
      refine ⟨⟨plan, planned.trans demanded.symm, by rwa [performed]⟩, ?_, ?_, ?_,
        fun fine room => ?_⟩
      · exact fun done => by simp [performed] at done
      · exact fun _ => by rw [performed]; rfl
      · exact fun done => by simp [performed] at done
      rw [performed] at fine room
      obtain ⟨added, left⟩ := leaves fine room
      exact compatible.passes_of_leaves left performed asks (fun h mem => .inl mem) ranging listed
        (fun v _ => precise v) fun v holds _ => holds_bounds_iff.1 holds.2.2

/-- Tightening is refused or attempted. A bound that makes sense is refused only if there is a
tree that does not support it. -/
theorem Compatible.tighten_cases (compatible : s.Compatible Asked) {position : Nat}
    {handle : TightenableConstraint} (found : s.handles[position]? = some handle)
    (direction : Direction) (bound : Nat) :
    (∃ why, s.perform (.tighten position direction bound) = (some (.refused why), s) ∧
        (handle.Tightens direction bound →
          why = .notEncoded ∧ handle.isBuilt = true ∧ ¬handle.Supports bound)) ∨
      handle.Tightens direction bound ∧ (handle.isBuilt = true → handle.Supports bound) ∧
        s.Tried Asked (.tighten position direction bound) := by
  have mem : handle ∈ s.handles := List.mem_of_getElem? found
  have usable := compatible.usable handle mem
  obtain ⟨o, tightened⟩ : ∃ o, handle.tighten direction bound s.work = o := ⟨_, rfl⟩
  have performed : s.perform (.tighten position direction bound) =
      (o.failure, { s with work := o.work, handles := s.handles.set position o.value }) := by
    simp only [perform, found, tightened]
  obtain ⟨why, refused, only⟩ | ⟨tightens, supports, tried⟩ :=
    TightenableConstraint.tighten_cases usable direction bound
  · refine .inl ⟨why, ?_, only⟩
    rw [refused] at tightened
    subst tightened
    obtain ⟨inside, rfl⟩ := List.getElem?_eq_some_iff.1 found
    simp only [performed, List.set_getElem_self]
  rw [tightened] at tried
  refine .inr ⟨tightens, supports, ?_⟩
  have asks (v : Valuation) : (s.asks (.tighten position direction bound)).Holds v ↔
      (handle.withBound bound).constraint.holds v = true := by
    simp only [Shared.asks, found]
    exact Wishes.holds_constraint
  have demanded : s.demand (.tighten position direction bound) =
      (handle.withBound bound).demand := by
    simp only [demand, found]
  obtain ⟨plan, planned, ran⟩ := tried.ran
  have before : s.bounds[position]? = some handle.constraint := by
    simp [Shared.bounds, found]
  have after : (s.perform (.tighten position direction bound)).2.bounds =
      s.bounds.set position o.value.constraint := by
    rw [performed]
    exact List.map_set
  refine ⟨⟨plan, planned.trans demanded.symm, by rwa [performed]⟩, ?_, ?_, ?_, fun fine room => ?_⟩
  · intro done
    rw [performed] at done
    rw [after, tried.reached done, boundsAfter, List.modify_eq_set, before]
    rfl
  · intro failed
    rw [performed] at failed
    rw [after, tried.unchanged failed]
    obtain ⟨inside, eq⟩ := List.getElem?_eq_some_iff.1 before
    rw [← eq, List.set_getElem_self]
  · intro done before h changed
    rw [performed] at done changed
    rcases List.mem_or_eq_of_mem_set changed with old | rfl
    · exact before h old
    · exact tried.serving done (before handle mem)
  rw [performed] at fine room
  obtain ⟨added, left⟩ := tried.leaves fine room
  refine compatible.passes_of_leaves left performed asks (fun h => List.mem_or_eq_of_mem_set)
    (compatible.concerns handle mem) (tried.literals_eq fine)
    (fun v precise => precise handle mem) ?_
  intro v holds accepted h changed
  have before := holds_bounds_iff.1 holds.2.2
  rcases List.mem_or_eq_of_mem_set changed with old | rfl
  · exact before h old
  · cases failure : o.failure with
    | none =>
        rw [tried.reached failure]
        exact (asks v).1 (accepted failure)
    | some why =>
        cases why with
        | refused why =>
            rw [failure] at ran
            cases ran
        | outOfMemory =>
            rw [tried.unchanged failure]
            exact before handle mem
        | fault f => exact absurd failure (fine f)

/-- A request that makes sense is refused, and nothing has changed, or attempted. -/
theorem Compatible.perform_cases (compatible : s.Compatible Asked) {r : SharedRequest}
    (sensible : s.Sensible r) :
    (∃ why, s.perform r = (some (.refused why), s)) ∨ s.Tried Asked r := by
  cases r with
  | takeVariable => exact .inr compatible.tried_takeVariable
  | takeLiterals n => exact .inr (compatible.tried_takeLiterals n)
  | takeBelow v => exact .inr (compatible.tried_takeBelow v)
  | addClause clause => exact .inr (compatible.tried_addClause sensible)
  | encode constraint => exact .inr (compatible.tried_encode sensible)
  | build literals direction bound configuration =>
      exact (compatible.build_cases sensible direction bound configuration).imp_left And.left
  | tighten position direction bound =>
      obtain ⟨handle, found⟩ := sensible
      obtain ⟨why, refused, -⟩ | ⟨-, -, tried⟩ := compatible.tighten_cases found direction bound
      · exact .inl ⟨why, refused⟩
      · exact .inr tried

end Perform

end Shared

end CardinalityClauses
