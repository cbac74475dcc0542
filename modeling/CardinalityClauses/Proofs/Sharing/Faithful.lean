import CardinalityClauses.Proofs.Sharing.Requests

/-!
What a shared collector says.

Main statement: after any requests that make sense, in any order, none of which fails, values of
the user's variables extend to a model of all clauses exactly if they satisfy what was asked
for (`Reached.extends_iff_holds`).

The invariant is that everything asked for can be met by one valuation that also satisfies, for
every tree, the clauses for all bounds that are still ahead and that it meets. So a tighter
bound never has to change the values of variables an encoding took before.
-/

namespace CardinalityClauses.Shared

open LawfulCollector (contents)

variable {σ : Type}

/-! ### The invariant -/

/-- All that was asked for is over the given variables. -/
structure Concerns (s : Shared σ) (on : Nat → Prop) : Prop where
  clauses : ClausesOver on s.clauses
  constraints : ∀ c ∈ s.constraints, LiteralsOver on c.literals
  bounds : ∀ c ∈ s.bounds, LiteralsOver on c.literals

/-- The clauses held say what was asked for and no more. -/
structure Faithful [LawfulCollector σ] (s : Shared σ) : Prop where
  used : ∀ i ∈ s.users, i < s.work.supply.next
  about : ClausesOver (· < s.work.supply.next) (contents s.work.collector)
  concerns : s.Concerns (· ∈ s.users)
  ready : ∀ c ∈ s.handles, c.Ready σ (contents s.work.collector) s.work.supply.next
  /-- They say no less; for the built constraints this is in `ready`. -/
  sound : ∀ v : Valuation, v.Models (contents s.work.collector) →
    v.Models s.clauses ∧ ∀ c ∈ s.constraints, c.holds v = true
  /-- They say no more. -/
  exists_exact : ∀ v : Valuation, s.Holds v →
    ∃ w, Valuation.Agree (· ∈ s.users) v w ∧ w.Models (contents s.work.collector) ∧
      ∀ c ∈ s.handles, c.Exact w

section Holds

variable {s : Shared σ} {v w : Valuation}

/-- What was asked for depends on the variables it concerns only. -/
theorem Concerns.holds_of_agree {on : Nat → Prop} (concerns : s.Concerns on)
    (agree : Valuation.Agree on v w) (holds : s.Holds v) : s.Holds w := by
  obtain ⟨clauses, constraints, bounds⟩ := holds
  refine ⟨agree.models concerns.clauses clauses, ?_, ?_⟩
  · intro c hc
    rw [← Constraint.holds_of_agree agree (concerns.constraints c hc)]
    exact constraints c hc
  · intro c hc
    rw [← Constraint.holds_of_agree agree (concerns.bounds c hc)]
    exact bounds c hc

variable [LawfulCollector σ]

theorem Faithful.holds (faithful : s.Faithful) (models : v.Models (contents s.work.collector)) :
    s.Holds v := by
  obtain ⟨clauses, constraints⟩ := faithful.sound v models
  refine ⟨clauses, constraints, ?_⟩
  rw [holds_bounds_iff]
  intro c hc
  exact (faithful.ready c hc).holds v models

/-- Values of the user's variables extend to a model exactly if they satisfy what was asked
for. -/
theorem Faithful.extends_iff (faithful : s.Faithful) (v : Valuation) :
    v.Extends (· ∈ s.users) (contents s.work.collector) ↔ s.Holds v := by
  constructor
  · rintro ⟨w, agree, models⟩
    exact faithful.concerns.holds_of_agree agree.symm (faithful.holds models)
  · intro holds
    obtain ⟨w, agree, models, -⟩ := faithful.exists_exact v holds
    exact ⟨w, agree, models⟩

theorem faithful_start {w : Workspace σ}
    (old : ClausesOver (· < w.supply.next) (contents w.collector)) : (start w).Faithful where
  used := fun i mem => List.mem_range.1 mem
  about := old
  concerns :=
    { clauses := old.mono fun i lt => List.mem_range.2 lt
      constraints := fun c mem => by cases mem
      bounds := fun c mem => by cases mem }
  ready := fun c mem => by cases mem
  sound := fun v models => ⟨models, fun c mem => by cases mem⟩
  exists_exact := fun v holds => ⟨v, .refl _ v, holds.1, fun c mem => by cases mem⟩

end Holds

/-! ### Taking variables -/

section Take

variable [LawfulCollector σ] {s : Shared σ}

/-- Variables may be taken that no encoding took for itself. -/
theorem Faithful.take (faithful : s.Faithful) {w : Workspace σ} {k : Nat} {taken : List Nat}
    (grows : s.work.Grows w [] k)
    (fresh : ∀ i ∈ taken, s.work.supply.next ≤ i ∧ i < s.work.supply.next + k) :
    ({ s with work := w, users := s.users ++ taken } : Shared σ).Faithful := by
  have held : contents w.collector = contents s.work.collector := by simpa using grows.contents_eq
  have next : w.supply.next = s.work.supply.next + k := grows.next_eq
  have later : s.work.supply.next ≤ w.supply.next := by omega
  have more : ∀ i, i ∈ s.users → i ∈ s.users ++ taken := fun i mem => List.mem_append_left _ mem
  refine
    { used := ?_
      about := ?_
      concerns :=
        { clauses := faithful.concerns.clauses.mono more
          constraints := fun c hc => (faithful.concerns.constraints c hc).mono more
          bounds := fun c hc => (faithful.concerns.bounds c hc).mono more }
      ready := ?_
      sound := ?_
      exists_exact := ?_ }
  · intro i mem
    show i < w.supply.next
    rcases List.mem_append.1 mem with old | new
    · exact Nat.lt_of_lt_of_le (faithful.used i old) later
    · exact next ▸ (fresh i new).2
  · show ClausesOver (· < w.supply.next) (contents w.collector)
    rw [held]
    exact faithful.about.upTo later
  · intro c hc
    show c.Ready σ (contents w.collector) w.supply.next
    have ready := (faithful.ready c hc).mono [] later
    rwa [List.append_nil, ← held] at ready
  · intro v models
    exact faithful.sound v (held ▸ models)
  · intro v holds
    obtain ⟨u, agree, models, exact_⟩ := faithful.exists_exact v holds
    let both : Valuation := fun i => if i < s.work.supply.next then u i else v i
    have below : Valuation.Agree (· < s.work.supply.next) u both := fun i lt => (if_pos lt).symm
    refine ⟨both, ?_, ?_, ?_⟩
    · intro i mem
      rcases List.mem_append.1 mem with old | new
      · rw [agree i old]
        exact below i (faithful.used i old)
      · exact (if_neg (Nat.not_lt_of_le (fresh i new).1)).symm
    · show both.Models (contents w.collector)
      rw [held]
      exact below.models faithful.about models
    · intro c hc
      exact (faithful.ready c hc).exact_of_agree below (exact_ c hc)

end Take

/-! ### Adding clauses -/

section Grow

variable [LawfulCollector σ] {s t : Shared σ}

/-- A request adds clauses, with variables of their own, and asks for more than before. What is
added has to say the difference, given a valuation that satisfies the rest and is exact for all
that was built. -/
theorem Faithful.grow (faithful : s.Faithful) {added : List Clause} {k : Nat}
    (grows : s.work.Grows t.work added k)
    (users : t.users = s.users) (about : ClausesOver (· < t.work.supply.next) added)
    (concerns : t.Concerns (· ∈ s.users))
    (ready : ∀ c ∈ t.handles, c ∈ s.handles ∨
      c.Ready σ (contents t.work.collector) t.work.supply.next)
    (sound : ∀ v : Valuation, v.Models (contents t.work.collector) →
      v.Models t.clauses ∧ ∀ c ∈ t.constraints, c.holds v = true)
    (stronger : ∀ v : Valuation, t.Holds v → s.Holds v)
    (exists_exact : ∀ v : Valuation, v.Models (contents s.work.collector) →
      (∀ c ∈ s.handles, c.Exact v) → t.Holds v →
      ∃ w, v.AgreeOutside s.work.supply.next t.work.supply.next w ∧ w.Models added ∧
        ∀ c ∈ t.handles, c ∈ s.handles ∨ c.Exact w) :
    t.Faithful := by
  have held := grows.contents_eq
  have next := grows.next_eq
  have later : s.work.supply.next ≤ t.work.supply.next := by omega
  refine
    { used := ?_
      about := ?_
      concerns := by rw [users]; exact concerns
      ready := ?_
      sound := sound
      exists_exact := ?_ }
  · intro i mem
    rw [users] at mem
    exact Nat.lt_of_lt_of_le (faithful.used i mem) later
  · rw [held]
    exact clausesOver_append.2
      ⟨faithful.about.upTo later, about⟩
  · intro c hc
    rcases ready c hc with old | new
    · rw [held]
      exact (faithful.ready c old).mono added later
    · exact new
  · intro v holds
    obtain ⟨u, agree, models, exact_⟩ := faithful.exists_exact v (stronger v holds)
    have holds : t.Holds u := concerns.holds_of_agree agree holds
    obtain ⟨w, outside, new, exactNew⟩ := exists_exact u models exact_ holds
    refine ⟨w, ?_, ?_, ?_⟩
    · rw [users]
      exact agree.trans (outside.below.mono faithful.used)
    · rw [held, Valuation.models_append]
      exact ⟨outside.below.models faithful.about models, new⟩
    · intro c hc
      rcases exactNew c hc with old | new
      · exact (faithful.ready c old).exact_of_agree outside.below (exact_ c old)
      · exact new

/-- A request that brings one of the built constraints to its bound and leaves the others as
they were. -/
theorem Faithful.settle (faithful : s.Faithful) {handle : TightenableConstraint}
    {added : List Clause} {k : Nat} {Before : Valuation → Prop}
    (grows : s.work.Grows t.work added k) (users : t.users = s.users)
    (clauses : t.clauses = s.clauses) (constraints : t.constraints = s.constraints)
    (mem : handle ∈ t.handles) (others : ∀ c ∈ t.handles, c ∈ s.handles ∨ c = handle)
    (about : LiteralsOver (· ∈ s.users) handle.literals)
    (settles : handle.Settles σ (contents s.work.collector) s.work.supply.next t.work.supply.next
      added Before)
    (before : ∀ v, (∀ c ∈ s.handles, c.Exact v) → Before v)
    (stronger : ∀ v : Valuation, t.Holds v → s.Holds v) : t.Faithful := by
  refine faithful.grow grows users settles.about ?_ ?_ ?_ stronger ?_
  · refine
      { clauses := by rw [clauses]; exact faithful.concerns.clauses
        constraints := by rw [constraints]; exact faithful.concerns.constraints
        bounds := List.forall_mem_map.2 fun c hc => ?_ }
    rcases others c hc with old | rfl
    · exact List.forall_mem_map.1 faithful.concerns.bounds c old
    · exact about
  · intro c hc
    rcases others c hc with old | rfl
    · exact .inl old
    · exact .inr (grows.contents_eq ▸ settles.ready)
  · intro v models
    rw [grows.contents_eq, Valuation.models_append] at models
    rw [clauses, constraints]
    exact faithful.sound v models.1
  · rintro v models exact_ ⟨-, -, met⟩
    have holds := holds_bounds_iff.1 met handle mem
    obtain ⟨w, agree, new, exactNew⟩ := settles.exists_exact v models (before v exact_) holds
    refine ⟨w, agree, new, ?_⟩
    intro c hc
    rcases others c hc with old | rfl
    · exact .inl old
    · exact .inr exactNew

end Grow

/-! ### Requests -/

section Perform

variable [ReliableCollector σ] {s : Shared σ}

/-- What a request comes to: it does not fail, takes as many variables as it should, and moves
the built constraints to the bounds asked for. -/
structure Done (s : Shared σ) (r : SharedRequest) : Prop where
  succeeds : (s.perform r).1 = none
  next_eq : (s.perform r).2.work.supply.next = s.work.supply.next + s.demand r
  bounds_eq : (s.perform r).2.bounds = s.boundsAfter r
  faithful : (s.perform r).2.Faithful

theorem Faithful.perform_takeVariable (faithful : s.Faithful) (fits : s.Fits .takeVariable) :
    s.Done .takeVariable := by
  have room : s.work.supply.next + 1 ≤ Variable.maxIndex + 1 := fits
  have taken : s.work.supply.takeVariable =
      (.ok ⟨s.work.supply.next⟩, ⟨s.work.supply.next + 1⟩) := by
    refine if_pos ?_
    simp only [VariableSupply.last, indexRange, Variable.maxIndex] at room ⊢
    omega
  have performed : s.perform .takeVariable = (none, { s with
      work.supply := ⟨s.work.supply.next + 1⟩
      users := s.users ++ [s.work.supply.next] }) := by
    simp only [perform, taken]
  constructor <;> rw [performed]
  · rfl
  · rfl
  · refine faithful.take ⟨by simp, rfl⟩ ?_
    simp

theorem Faithful.perform_takeLiterals (faithful : s.Faithful) {n : Nat}
    (fits : s.Fits (.takeLiterals n)) : s.Done (.takeLiterals n) := by
  have room : s.work.supply.next + n ≤ Variable.maxIndex + 1 := fits
  obtain ⟨w, taken, grows⟩ := Workspace.takeLiterals_spec room
  have performed : s.perform (.takeLiterals n) = (none, { s with
      work := w
      users := s.users ++ (VariableSupply.block s.work.supply.next n).map Literal.index }) := by
    simp only [perform, taken]
  constructor <;> rw [performed]
  · exact grows.next_eq
  · rfl
  · refine faithful.take grows ?_
    intro i mem
    obtain ⟨l, hl, rfl⟩ := List.mem_map.1 mem
    exact VariableSupply.literalsOver_block room l hl

theorem Faithful.perform_takeBelow (faithful : s.Faithful) (v : Variable) :
    s.Done (.takeBelow v) := by
  obtain ⟨supply, raised, next⟩ : ∃ supply, (s.work.supply.raiseTo v).2 = supply ∧
      supply.next = s.work.supply.next + (v.index - s.work.supply.next) := by
    refine ⟨_, rfl, ?_⟩
    unfold VariableSupply.raiseTo
    split
    · show v.index = _
      omega
    · show s.work.supply.next = _
      omega
  have performed : s.perform (.takeBelow v) = (none, { s with
      work.supply := supply
      users := s.users ++
        List.range' s.work.supply.next (supply.next - s.work.supply.next) }) := by
    rw [← raised]
    rfl
  constructor <;> rw [performed]
  · exact next
  · rfl
  · refine faithful.take ⟨by simp, next⟩ ?_
    intro i mem
    rw [List.mem_range'_1] at mem
    omega

theorem Faithful.perform_addClause (faithful : s.Faithful) {clause : Clause}
    (about : LiteralsOver (· ∈ s.users) clause.literals) : s.Done (.addClause clause) := by
  obtain ⟨w, extended, grows⟩ := s.work.extend_spec [clause]
  have performed : s.perform (.addClause clause) =
      (none, { s with work := w, clauses := s.clauses ++ [clause] }) := by
    simp only [perform, extended]
  have single : ClausesOver (· ∈ s.users) [clause] := List.forall_mem_singleton.2 about
  constructor <;> rw [performed]
  · exact grows.next_eq
  · rfl
  · refine faithful.grow grows rfl ?_ ?_ (fun c hc => .inl hc) ?_ ?_ ?_
    · refine single.mono fun i mem => ?_
      exact grows.next_eq ▸ faithful.used i mem
    · exact
        { clauses := clausesOver_append.2 ⟨faithful.concerns.clauses, single⟩
          constraints := faithful.concerns.constraints
          bounds := faithful.concerns.bounds }
    · intro v models
      rw [grows.contents_eq, Valuation.models_append] at models
      obtain ⟨clauses, constraints⟩ := faithful.sound v models.1
      exact ⟨Valuation.models_append.2 ⟨clauses, models.2⟩, constraints⟩
    · rintro v ⟨clauses, constraints, bounds⟩
      exact ⟨(Valuation.models_append.1 clauses).1, constraints, bounds⟩
    · rintro v - - ⟨clauses, -, -⟩
      exact ⟨v, .refl _ v, (Valuation.models_append.1 clauses).2, fun c hc => .inl hc⟩

theorem Faithful.perform_encode (faithful : s.Faithful) {constraint : Constraint}
    (about : LiteralsOver (· ∈ s.users) constraint.literals) (fits : s.Fits (.encode constraint)) :
    s.Done (.encode constraint) := by
  obtain ⟨w, added, encoded, grows, encodedBy⟩ :=
    Constraint.encode_spec s.work (about.mono faithful.used) fits
  have performed : s.perform (.encode constraint) =
      (none, { s with work := w, constraints := s.constraints ++ [constraint] }) := by
    simp only [perform, encoded]
  constructor <;> rw [performed]
  · exact grows.next_eq
  · rfl
  · refine faithful.grow grows rfl encodedBy.about ?_ (fun c hc => .inl hc) ?_ ?_ ?_
    · exact
        { clauses := faithful.concerns.clauses
          constraints := List.forall_mem_append.2
            ⟨faithful.concerns.constraints, List.forall_mem_singleton.2 about⟩
          bounds := faithful.concerns.bounds }
    · intro v models
      rw [grows.contents_eq, Valuation.models_append] at models
      obtain ⟨clauses, constraints⟩ := faithful.sound v models.1
      refine ⟨clauses, List.forall_mem_append.2 ⟨constraints, ?_⟩⟩
      exact List.forall_mem_singleton.2 (encodedBy.sound v models.2)
    · rintro v ⟨clauses, constraints, bounds⟩
      exact ⟨clauses, (List.forall_mem_append.1 constraints).1, bounds⟩
    · rintro v - - ⟨-, constraints, -⟩
      have holds := List.forall_mem_singleton.1 (List.forall_mem_append.1 constraints).2
      obtain ⟨u, agree, models⟩ := encodedBy.exists_models v holds
      exact ⟨u, agree, models, fun c hc => .inl hc⟩

theorem Faithful.perform_build (faithful : s.Faithful) {literals : List Literal}
    {direction : Direction} {bound : Nat} {configuration : Configuration}
    (admits : s.Admits (.build literals direction bound configuration))
    (fits : s.Fits (.build literals direction bound configuration)) :
    s.Done (.build literals direction bound configuration) := by
  obtain ⟨about, inRange, preset⟩ := admits
  obtain ⟨handle, w, added, built, grows, same, settles⟩ :=
    TightenableConstraint.build_spec (w := s.work)
      ⟨about.mono faithful.used, inRange, fun _ => preset⟩ fits
  have performed : s.perform (.build literals direction bound configuration) =
      (none, { s with work := w, handles := s.handles ++ [handle] }) := by
    simp only [perform, built]
  have bounds : ({ s with work := w, handles := s.handles ++ [handle] } : Shared σ).bounds =
      s.bounds ++ [⟨direction, literals, bound⟩] := by
    simp [Shared.bounds, same]
  have listed : handle.literals = literals := congrArg Constraint.literals same
  constructor <;> rw [performed]
  · exact grows.next_eq
  · exact bounds
  · refine faithful.settle grows rfl rfl rfl (List.mem_append_right _ (List.mem_singleton_self _))
      ?_ (listed ▸ about) settles (fun v _ => trivial) ?_
    · intro c hc
      exact (List.mem_append.1 hc).imp_right List.mem_singleton.1
    · rintro v ⟨clauses, constraints, met⟩
      rw [bounds] at met
      exact ⟨clauses, constraints, (List.forall_mem_append.1 met).1⟩

/-- A replaced member may have been the only one without a property. -/
theorem forall_mem_of_set {α : Type} {P : α → Prop} {xs : List α} {position : Nat} {x y : α}
    (found : xs[position]? = some x) (others : ∀ z ∈ xs.set position y, P z) (replaced : P x) :
    ∀ z ∈ xs, P z := by
  intro z mem
  obtain ⟨k, at_⟩ := List.getElem?_of_mem mem
  by_cases same : position = k
  · subst same
    rw [found] at at_
    cases at_
    exact replaced
  · refine others z (List.mem_of_getElem? (i := k) ?_)
    rw [List.getElem?_set_ne same]
    exact at_

theorem Faithful.perform_tighten (faithful : s.Faithful) {position : Nat} {direction : Direction}
    {bound : Nat} (admits : s.Admits (.tighten position direction bound))
    (fits : s.Fits (.tighten position direction bound)) :
    s.Done (.tighten position direction bound) := by
  obtain ⟨handle, found, tightens⟩ := admits
  have mem : handle ∈ s.handles := List.mem_of_getElem? found
  have inside : position < s.handles.length := (List.getElem?_eq_some_iff.1 found).1
  have ready := faithful.ready handle mem
  have demanded : s.demand (.tighten position direction bound) =
      (handle.withBound bound).demand := by
    simp only [demand, found]
  obtain ⟨tighter, w, added, tightened, grows, same, settles⟩ :=
    TightenableConstraint.tighten_spec ready tightens (demanded ▸ fits)
  rw [← demanded] at grows
  have performed : s.perform (.tighten position direction bound) =
      (none, { s with work := w, handles := s.handles.set position tighter }) := by
    simp only [perform, found, tightened]
  constructor <;> rw [performed]
  · exact grows.next_eq
  · have before : s.bounds[position]? = some handle.constraint := by
      simp [Shared.bounds, found]
    simp only [Shared.bounds, List.map_set, boundsAfter] at before ⊢
    rw [List.modify_eq_set, before, same]
    rfl
  · have listed : tighter.literals = handle.literals := congrArg Constraint.literals same
    have concerned := List.forall_mem_map.1 faithful.concerns.bounds handle mem
    have replaced := List.mem_set inside tighter
    refine faithful.settle grows rfl rfl rfl replaced (fun c => List.mem_or_eq_of_mem_set)
      (listed ▸ concerned) settles (fun v exact_ => exact_ handle mem) ?_
    rintro v ⟨clauses, constraints, met⟩
    refine ⟨clauses, constraints, ?_⟩
    rw [holds_bounds_iff] at met ⊢
    have holds := met tighter replaced
    rw [same] at holds
    have ahead := (tightens.ahead ready.inRange).1
    exact forall_mem_of_set found met (ahead.holds_of_withBound holds)

/-- A request that makes sense and fits is done. -/
theorem Faithful.perform (faithful : s.Faithful) {r : SharedRequest} (admits : s.Admits r)
    (fits : s.Fits r) : s.Done r := by
  cases r with
  | takeVariable => exact faithful.perform_takeVariable fits
  | takeLiterals n => exact faithful.perform_takeLiterals fits
  | takeBelow v => exact faithful.perform_takeBelow v
  | addClause clause => exact faithful.perform_addClause admits
  | encode constraint => exact faithful.perform_encode admits fits
  | build literals direction bound configuration => exact faithful.perform_build admits fits
  | tighten position direction bound => exact faithful.perform_tighten admits fits

/-- Every state that can come up is faithful. -/
theorem Reached.faithful (reached : s.Reached) : s.Faithful := by
  induction reached with
  | start w old => exact faithful_start old
  | perform r reached admits fits ih => exact (ih.perform admits fits).faithful

/-- No request that makes sense and fits ever fails. At any time the values of the user's variables
that extend to a model of all clauses are those that satisfy all that was asked for, with the
built constraints at the bounds asked for last. -/
theorem Reached.extends_iff_holds (reached : s.Reached) :
    (∀ v : Valuation, v.Extends (· ∈ s.users) (contents s.work.collector) ↔ s.Holds v) ∧
      ∀ r, s.Admits r → s.Fits r →
        (s.perform r).1 = none ∧ (s.perform r).2.bounds = s.boundsAfter r ∧
          (s.perform r).2.work.supply.next = s.work.supply.next + s.demand r := by
  refine ⟨reached.faithful.extends_iff, ?_⟩
  intro r admits fits
  have done := reached.faithful.perform admits fits
  exact ⟨done.succeeds, done.bounds_eq, done.next_eq⟩

/-- The theorem for a lower bound on three literals that was tightened once. -/
theorem extends_iff_holds_tightened :
    let literals : List Literal := [⟨0, false⟩, ⟨1, true⟩, ⟨2, false⟩]
    let begun : Shared Formula := start ⟨.empty, ⟨3⟩, #[]⟩
    let built := (begun.perform (.build literals .atLeast 1 ⟨.totalizer, .modular, some 2⟩)).2
    let s := (built.perform (.tighten 0 .atLeast 2)).2
    s.Reached ∧ s.bounds = [⟨.atLeast, literals, 2⟩] ∧
      (∀ v : Valuation, v.Extends (· ∈ s.users) (contents s.work.collector) ↔ s.Holds v) ∧
        ∀ r, s.Admits r → s.Fits r →
          (s.perform r).1 = none ∧ (s.perform r).2.bounds = s.boundsAfter r ∧
            (s.perform r).2.work.supply.next = s.work.supply.next + s.demand r := by
  intro literals begun built s
  have first : built.Reached := by
    refine .perform _ (.start _ (by simp [ClausesOver, contents])) ?_ ?_
    · have about : ∀ l ∈ literals, l.index ∈ begun.users := by decide
      exact ⟨about, by decide, fun m eq => by cases eq; decide⟩
    · show _ ≤ _
      decide
  have now : built.bounds = [⟨.atLeast, literals, 1⟩] := by decide
  obtain ⟨handle, one, same⟩ := List.map_eq_singleton_iff.1 now
  have reached : s.Reached := by
    refine .perform _ first ⟨handle, by rw [one]; rfl, ?_⟩ ?_
    · obtain ⟨direction, same, bound⟩ := Constraint.mk.inj same
      exact ⟨direction, by rw [bound]; decide, by rw [same]; decide⟩
    · show _ ≤ _
      decide
  exact ⟨reached, by decide, reached.extends_iff_holds⟩

end Perform

end CardinalityClauses.Shared
