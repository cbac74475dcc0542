import CardinalityClauses.Proofs.Sharing.Attempts

/-!
Requests that may fail, one after the other.

Any call to the collector may run out of memory and keep a first part of what it was handed. The
requests go on nevertheless: they are repeated, with the same bounds or with others, and the
collector may get memory in between.

Main statements, after any such requests in any order:
- the clauses held say no less than what was done: every clause and constraint that was added
  without failure, and the present bound of every built constraint. They say no more than what was
  asked for, also by the requests that failed (`Trial.Reached.holds_and_extends`);
- a request to tighten that runs out of memory leaves the bound. A later one, on a collector that
  does not fail any more, succeeds unless there is a tree that was built for a tighter bound than
  the one asked for (`Trial.Reached.tighten_afterwards`).
-/

namespace CardinalityClauses

open Collector (Unfailing)
open LawfulCollector (contents)

/-- A collector and a supply that are shared, with a record of all that was asked for. -/
structure Trial (σ : Type) where
  shared : Shared σ
  /-- What was asked for by the requests that were not refused, whether or not they failed. -/
  asked : Wishes

namespace Trial

variable {σ : Type}

/-- What is there at first was asked for. -/
def start [LawfulCollector σ] (w : Workspace σ) : Trial σ where
  shared := .start w
  asked := ⟨contents w.collector, []⟩

/-- Makes a request and records what it asks for, unless it is refused. -/
def attempt [Collector σ] (t : Trial σ) (r : SharedRequest) : Trial σ :=
  match t.shared.perform r with
  | (some (.refused _), s) => ⟨s, t.asked⟩
  | (_, s) => ⟨s, t.asked.and (t.shared.asks r)⟩

/-- Puts another collector in the place of the present one. -/
def withCollector (t : Trial σ) (collector : σ) : Trial σ :=
  { t with shared.work.collector := collector }

/-- What can come of any workspace after any requests, each of which may fail. -/
inductive Reached [LawfulCollector σ] : Trial σ → Prop
  | start (w : Workspace σ) (old : ClausesOver (· < w.supply.next) (contents w.collector)) :
      Reached (start w)
  | attempt {t : Trial σ} (r : SharedRequest) (reached : Reached t)
      (sensible : t.shared.Sensible r) (fine : ∀ f, (t.shared.perform r).1 ≠ some (.fault f))
      (room : (t.shared.perform r).2.work.supply.next ≤ Variable.maxIndex + 1) :
      Reached (t.attempt r)
  /-- The collector gets or loses memory. -/
  | exchange {t : Trial σ} (collector : σ) (reached : Reached t)
      (same : contents collector = contents t.shared.work.collector) :
      Reached (t.withCollector collector)

section Reached

variable [LawfulCollector σ] {t : Trial σ}

theorem attempt_of_refused {r : SharedRequest} {why : Refusal}
    (refused : t.shared.perform r = (some (.refused why), t.shared)) : t.attempt r = t := by
  simp only [attempt, refused]

theorem attempt_of_ran {r : SharedRequest} {plan : List Piece}
    (ran : t.shared.work.Ran plan (t.shared.perform r).1 (t.shared.perform r).2.work) :
    t.attempt r = ⟨(t.shared.perform r).2, t.asked.and (t.shared.asks r)⟩ := by
  unfold attempt
  split
  · rename_i performed
    rw [performed] at ran
    cases ran
  · rename_i performed
    rw [performed]

/-- At all times the trees count right, what was asked for can be had, and what was done is said
by the clauses held. -/
theorem Reached.compatible (reached : t.Reached) :
    t.shared.Compatible t.asked.Holds ∧
      ∀ v : Valuation, v.Models (contents t.shared.work.collector) → t.shared.Holds v := by
  induction reached with
  | start w old =>
      refine ⟨(Shared.compatible_start old).congr fun v => ⟨fun holds => holds.1, ?_⟩, ?_⟩
      · exact fun models => ⟨models, fun c mem => by cases mem⟩
      · refine fun v models => ⟨models, ?_, ?_⟩ <;> exact fun c mem => by cases mem
  | @attempt t r reached sensible fine room ih =>
      obtain ⟨compatible, sound⟩ := ih
      obtain ⟨why, refused⟩ | ⟨⟨plan, -, ran⟩, -, -, -, passes⟩ := compatible.perform_cases sensible
      · rw [attempt_of_refused refused]
        exact ⟨compatible, sound⟩
      rw [attempt_of_ran ran]
      obtain ⟨⟨added, k, grows⟩, -, compatible', accepts, done⟩ := passes fine room
      refine ⟨compatible'.congr fun v => Wishes.holds_and, fun v models => ?_⟩
      refine done v (sound v ?_) fun success => accepts success v models
      simp only [grows.contents_eq] at models
      exact (Valuation.models_append.1 models).1
  | @exchange t collector reached same ih =>
      obtain ⟨compatible, sound⟩ := ih
      rw [← same] at sound
      exact ⟨compatible.withCollector same, sound⟩

/-- Whatever failed, and wherever it failed: every model of the clauses held satisfies what was
done, with the built constraints at their present bounds. Values of the user's variables that
satisfy all that was asked for extend to a model. A fault strikes only where literals cannot carry
the indices that a request takes. -/
theorem Reached.holds_and_extends (reached : t.Reached) :
    (∀ v : Valuation, v.Models (contents t.shared.work.collector) → t.shared.Holds v) ∧
      (∀ v : Valuation, t.asked.Holds v →
        v.Extends (· ∈ t.shared.users) (contents t.shared.work.collector)) ∧
      ∀ r, t.shared.Sensible r → t.shared.Fits r →
        ∀ f, (t.shared.perform r).1 ≠ some (.fault f) := by
  obtain ⟨compatible, sound⟩ := reached.compatible
  refine ⟨sound, fun v => compatible.extends, ?_⟩
  intro r sensible fits f fault
  obtain ⟨why, refused⟩ | ⟨⟨plan, planned, ran⟩, -, -, -, -⟩ := compatible.perform_cases sensible
  · rw [refused] at fault
    cases fault
  · rw [fault] at ran
    cases ran with
    | crowded full =>
        rw [planned] at full
        exact absurd full (Nat.not_lt_of_le fits)

/-- Tightening that runs out of memory leaves all bounds. If the collector does not fail any more
and there is room, a tighter bound is reached if there is no tree or the tree supports the bound;
otherwise it is refused. -/
theorem Reached.tighten_afterwards (reached : t.Reached) {position : Nat}
    {handle : TightenableConstraint} (found : t.shared.handles[position]? = some handle)
    {direction : Direction} {bound : Nat} (tightens : handle.Tightens direction bound) :
    let r : SharedRequest := .tighten position direction bound
    let o := t.shared.perform r
    (o.1 = some .outOfMemory → o.2.bounds = t.shared.bounds) ∧
      (Unfailing t.shared.work.collector → t.shared.Fits r →
        ((handle.isBuilt = true → handle.Supports bound) →
          o.1 = none ∧ o.2.bounds = t.shared.boundsAfter r ∧
            ∀ v : Valuation, v.Models (contents o.2.work.collector) →
              (handle.withBound bound).constraint.holds v = true) ∧
        (handle.isBuilt = true → ¬handle.Supports bound →
          o = (some (.refused .notEncoded), t.shared))) := by
  intro r o
  obtain ⟨compatible, -⟩ := reached.compatible
  obtain ⟨why, refused, only⟩ | ⟨-, supports, tried⟩ :=
    compatible.tighten_cases found direction bound
  · obtain ⟨rfl, built, unsupported⟩ := only tightens
    have refused : o = (some (.refused .notEncoded), t.shared) := refused
    refine ⟨fun failed => ?_, fun _ _ => ⟨fun supports => ?_, fun _ _ => refused⟩⟩
    · rw [refused] at failed
      cases failed
    · exact absurd (supports built) unsupported
  · refine ⟨tried.unchanged, fun unfailing fits => ⟨fun _ => ?_, fun built unsupported => ?_⟩⟩
    · obtain ⟨plan, planned, ran⟩ := tried.ran
      obtain ⟨success, grows⟩ := ran.of_unfailing unfailing (planned ▸ fits)
      have room : o.2.work.supply.next ≤ Variable.maxIndex + 1 := by
        rw [grows.next_eq, planned]
        exact fits
      have passes := tried.passes (by simp [success]) room
      refine ⟨success, tried.reached success, fun v models => ?_⟩
      have asked := passes.accepts success v models
      simp only [Shared.asks, found] at asked
      exact Wishes.holds_constraint.1 asked
    · exact absurd (supports built) unsupported

end Reached

/-! ### A tree that outlives the bound it was built for -/

/-- Three literals that are to be true at most three times. Then memory runs short: the collector
takes two more calls. -/
def short : Trial LimitedFormula :=
  let literals : List Literal := [⟨0, false⟩, ⟨1, false⟩, ⟨2, false⟩]
  let begun : Trial LimitedFormula := start ⟨.empty, ⟨3⟩, #[]⟩
  let built := begun.attempt (.build literals .atMost 3 ⟨.totalizer, .modular, none⟩)
  built.withCollector ⟨built.shared.work.collector.formula, some 2, none⟩

/-- The tree for the bound one takes both calls, and the bound is not enforced. Then there is
memory again. -/
def interrupted : Trial LimitedFormula :=
  let failed := short.attempt (.tighten 0 .atMost 1)
  failed.withCollector ⟨failed.shared.work.collector.formula, none, none⟩

theorem reached_short : short.Reached := by
  have about : ∀ l ∈ [(⟨0, false⟩ : Literal), ⟨1, false⟩, ⟨2, false⟩], l.index ∈ List.range 3 := by
    decide
  exact .exchange _ (.attempt _ (.start _ fun c mem => by cases mem) about
    (ne_fault (by decide)) (by decide)) rfl

theorem bounds_interrupted : interrupted.shared.bounds =
    [⟨.atMost, [⟨0, false⟩, ⟨1, false⟩, ⟨2, false⟩], 3⟩] := by
  decide

theorem reached_interrupted : interrupted.Reached := by
  have one : short.shared.Sensible (.tighten 0 .atMost 1) :=
    Option.isSome_iff_exists.1 (by decide)
  exact .exchange _ (.attempt _ reached_short one (ne_fault (by decide)) (by decide)) rfl

theorem handle_interrupted : ∃ handle, interrupted.shared.handles = [handle] ∧
    handle.direction = .atMost ∧ handle.bound = 3 := by
  obtain ⟨handle, one, same⟩ := List.map_eq_singleton_iff.1 bounds_interrupted
  obtain ⟨direction, -, bound⟩ := Constraint.mk.inj same
  exact ⟨handle, one, direction, bound⟩

/-- A constraint at the bound three that was to be tightened to one. It cannot be tightened to two
any more, although there is memory again. -/
theorem tighten_refused_after_interruption :
    interrupted.Reached ∧
      (short.shared.perform (.tighten 0 .atMost 1)).1 = some .outOfMemory ∧
      Unfailing interrupted.shared.work.collector ∧
      interrupted.shared.Fits (.tighten 0 .atMost 2) ∧
      ∃ handle, interrupted.shared.handles = [handle] ∧ handle.bound = 3 ∧
        handle.Tightens .atMost 2 ∧
        (interrupted.shared.perform (.tighten 0 .atMost 2)).1 = some (.refused .notEncoded) := by
  refine ⟨reached_interrupted, by decide, LimitedFormula.unfailing_of_unlimited _, ?_, ?_⟩
  · show _ ≤ _
    decide
  · obtain ⟨handle, one, direction, bound⟩ := handle_interrupted
    exact ⟨handle, one, bound, ⟨direction, by simp [bound]⟩, by decide⟩

/-- The theorem for that constraint and the bound it was to be tightened to at first. -/
theorem tighten_afterwards_interrupted :
    ∃ handle, interrupted.Reached ∧ interrupted.shared.handles[0]? = some handle ∧
      handle.Tightens .atMost 1 ∧
      let r : SharedRequest := .tighten 0 .atMost 1
      let o := interrupted.shared.perform r
      (o.1 = some .outOfMemory → o.2.bounds = interrupted.shared.bounds) ∧
        (Unfailing interrupted.shared.work.collector → interrupted.shared.Fits r →
          ((handle.isBuilt = true → handle.Supports 1) →
            o.1 = none ∧ o.2.bounds = interrupted.shared.boundsAfter r ∧
              ∀ v : Valuation, v.Models (contents o.2.work.collector) →
                (handle.withBound 1).constraint.holds v = true) ∧
          (handle.isBuilt = true → ¬handle.Supports 1 →
            o = (some (.refused .notEncoded), interrupted.shared))) := by
  obtain ⟨handle, one, direction, bound⟩ := handle_interrupted
  have found : interrupted.shared.handles[0]? = some handle := by rw [one]; rfl
  have tightens : handle.Tightens .atMost 1 := ⟨direction, by simp [bound]⟩
  exact ⟨handle, reached_interrupted, found, tightens,
    reached_interrupted.tighten_afterwards found tightens⟩

/-- The theorem for the constraint whose tightening ran out of memory. -/
theorem holds_and_extends_interrupted :
    interrupted.Reached ∧
      (∀ v : Valuation, v.Models (contents interrupted.shared.work.collector) →
        interrupted.shared.Holds v) ∧
      (∀ v : Valuation, interrupted.asked.Holds v →
        v.Extends (· ∈ interrupted.shared.users) (contents interrupted.shared.work.collector)) ∧
      ∀ r, interrupted.shared.Sensible r → interrupted.shared.Fits r →
        ∀ f, (interrupted.shared.perform r).1 ≠ some (.fault f) :=
  ⟨reached_interrupted, reached_interrupted.holds_and_extends⟩

end Trial

end CardinalityClauses
