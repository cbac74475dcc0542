import CardinalityClauses.Proofs.Sharing.Attempts

/-!
Built constraints whose present bounds nobody vouches for.

The clauses held need not say that the present bounds are met. What matters for all that is still to
come is that every bound ahead can be enforced, and that whatever the clauses leave open stays open
until somebody asks for more (`Shared.Intact`).

Main statement: on a collector that does not fail, a request that makes sense and fits succeeds, and
the clauses held then say what they said before and what was asked for, no more and no less
(`Shared.Intact.perform`).
-/

namespace CardinalityClauses.Shared

open LawfulCollector (contents)

section Intact

variable {σ : Type} [LawfulCollector σ] {s t u : Shared σ} {asked one two : Wishes}

/-- Whatever the clauses held leave open can be had together with any bounds ahead. It does not
matter whether the clauses say that the present bounds are met. -/
structure Intact (s : Shared σ) : Prop where
  compatible : s.Compatible fun v => v.Extends (· ∈ s.users) (contents s.work.collector)
  serving : ∀ c ∈ s.handles, c.Serving

theorem intact_start {w : Workspace σ}
    (old : ClausesOver (· < w.supply.next) (contents w.collector)) : (start w).Intact where
  compatible := by
    refine (compatible_start old).congr fun v => ⟨?_, fun models => models.extends _⟩
    rintro ⟨u, agree, models⟩
    exact (agree.symm.mono fun i lt => List.mem_range.2 lt).models old models
  serving := fun c mem => by cases mem

/-- A request that makes sense is not refused. -/
theorem Intact.tried (intact : s.Intact) {r : SharedRequest} (admits : s.Admits r) :
    s.Tried (fun v => v.Extends (· ∈ s.users) (contents s.work.collector)) r := by
  obtain ⟨compatible, serving⟩ := intact
  cases r with
  | takeVariable => exact compatible.tried_takeVariable
  | takeLiterals n => exact compatible.tried_takeLiterals n
  | takeBelow v => exact compatible.tried_takeBelow v
  | addClause clause => exact compatible.tried_addClause admits
  | encode constraint => exact compatible.tried_encode admits
  | build literals direction bound configuration =>
      obtain ⟨about, inRange, preset⟩ := admits
      obtain ⟨-, bad⟩ | tried := compatible.build_cases about direction bound configuration
      · exact absurd ⟨inRange, fun _ => preset⟩ bad
      · exact tried
  | tighten position direction bound =>
      obtain ⟨handle, found, tightens⟩ := admits
      have mem := List.mem_of_getElem? found
      obtain ⟨why, -, only⟩ | ⟨-, -, tried⟩ := compatible.tighten_cases found direction bound
      · obtain ⟨-, built, unsupported⟩ := only tightens
        have ahead := (tightens.ahead (compatible.usable handle mem).inRange).1
        exact absurd (serving handle mem built bound ahead) unsupported
      · exact tried

/-- The same as `Compatible.resume`; bounds that are tighter are ahead as before. -/
theorem Intact.resume (intact : s.Intact) {w : Workspace σ} {handles : List TightenableConstraint}
    (held : contents w.collector = contents s.work.collector)
    (next : w.supply.next = s.work.supply.next)
    (kept : ∀ c ∈ handles, (∃ old ∈ s.handles, old.Ahead c.bound ∧ c = old.withBound c.bound) ∨
      c.isBuilt = false ∧ c.WellFormed s.work.supply.next ∧
        LiteralsOver (· ∈ s.users) c.literals) :
    ({ s with work := w, handles := handles } : Shared σ).Intact where
  compatible := by
    simp only [held]
    exact intact.compatible.resume held next kept
  serving := by
    intro c mem
    obtain ⟨old, mem, ahead, same⟩ | ⟨unbuilt, -, -⟩ := kept c mem
    · rw [same]
      exact (intact.serving old mem).withBound ahead
    · intro built
      simp [unbuilt] at built

theorem Intact.withCollector (intact : s.Intact) {collector : σ}
    (held : contents collector = contents s.work.collector) :
    ({ s with work.collector := collector } : Shared σ).Intact where
  compatible := by
    simp only [held]
    exact intact.compatible.withCollector held
  serving := intact.serving

/-- Later on the clauses held say what they said before and what was asked for since, no more and no
less. -/
structure Follows (s t : Shared σ) (asked : Wishes) : Prop where
  intact : t.Intact
  users : s.users ⊆ t.users
  held : contents s.work.collector ⊆ contents t.work.collector
  extends_iff : ∀ v : Valuation, v.Extends (· ∈ t.users) (contents t.work.collector) ↔
    v.Extends (· ∈ s.users) (contents s.work.collector) ∧ asked.Holds v

theorem Intact.follows (intact : s.Intact) : s.Follows s ⟨[], []⟩ where
  intact := intact
  users := List.Subset.refl _
  held := List.Subset.refl _
  extends_iff := fun v => (and_iff_left (Wishes.holds_nothing v)).symm

theorem Follows.trans (first : s.Follows t one) (second : t.Follows u two) :
    s.Follows u (one.and two) where
  intact := second.intact
  users := List.Subset.trans first.users second.users
  held := List.Subset.trans first.held second.held
  extends_iff := fun v => by
    rw [second.extends_iff, first.extends_iff, Wishes.holds_and, and_assoc]

theorem Follows.withCollector (follows : s.Follows t asked) {collector : σ}
    (held : contents collector = contents t.work.collector) :
    s.Follows { t with work.collector := collector } asked where
  intact := follows.intact.withCollector held
  users := follows.users
  held := by
    simp only [held]
    exact follows.held
  extends_iff := fun v => by
    simp only [held]
    exact follows.extends_iff v

/-- The same with all variables of the user on both sides. -/
theorem Follows.extends_iff_of_users (follows : s.Follows t asked) (v : Valuation) :
    v.Extends (· ∈ t.users) (contents t.work.collector) ↔
      v.Extends (· ∈ t.users) (contents s.work.collector) ∧ asked.Holds v := by
  constructor
  · intro extends_
    have holds := ((follows.extends_iff v).1 extends_).2
    obtain ⟨w, agree, models⟩ := extends_
    exact ⟨⟨w, agree, models.of_subset follows.held⟩, holds⟩
  · rintro ⟨⟨w, agree, models⟩, holds⟩
    have before := agree.mono fun i mem => follows.users mem
    exact (follows.extends_iff v).2 ⟨⟨w, before, models⟩, holds⟩

end Intact

section Step

variable {σ : Type} [ReliableCollector σ] {s : Shared σ}

/-- What a request comes to that makes sense and fits. -/
structure Served (s : Shared σ) (r : SharedRequest) : Prop where
  succeeds : (s.perform r).1 = none
  next_eq : (s.perform r).2.work.supply.next = s.work.supply.next + s.demand r
  bounds_eq : (s.perform r).2.bounds = s.boundsAfter r
  follows : s.Follows (s.perform r).2 (s.asks r)

theorem Intact.perform (intact : s.Intact) {r : SharedRequest} (admits : s.Admits r)
    (fits : s.Fits r) : s.Served r := by
  have tried := intact.tried admits
  obtain ⟨plan, planned, ran⟩ := tried.ran
  obtain ⟨success, grows⟩ :=
    ran.of_unfailing (Collector.unfailing_of_reliable _) (planned ▸ fits)
  have next := grows.next_eq
  rw [planned] at next
  obtain ⟨⟨added, k, grown⟩, users, compatible, accepts, -⟩ :=
    tried.passes (by simp [success]) (next ▸ fits)
  have held : contents s.work.collector ⊆ contents (s.perform r).2.work.collector := by
    rw [grown.contents_eq]
    exact List.subset_append_left _ _
  have extends_iff (v : Valuation) :
      v.Extends (· ∈ (s.perform r).2.users) (contents (s.perform r).2.work.collector) ↔
        v.Extends (· ∈ s.users) (contents s.work.collector) ∧ (s.asks r).Holds v := by
    constructor
    · rintro ⟨u, agree, models⟩
      have accepted := accepts success u models
      exact compatible.asked_of_agree u v agree.symm
        ⟨(models.of_subset held).extends _, accepted⟩
    · exact fun asked => compatible.extends asked
  exact
    { succeeds := success
      next_eq := next
      bounds_eq := tried.reached success
      follows :=
        { intact := ⟨compatible.congr extends_iff, tried.serving success intact.serving⟩
          users := users
          held := held
          extends_iff := extends_iff } }

end Step

end CardinalityClauses.Shared
