import CardinalityClauses.Proofs.Checkpoint.Nested
import CardinalityClauses.Proofs.Sharing.Growth
import CardinalityClauses.Proofs.Sharing.Intact

/-!
Trying things out and going back.

A user takes a snapshot, tries things, and restores the snapshot: the clauses are taken back, and so
are the variables, which are handed out once more. The built constraints are not taken back. They
stay at the bounds they were tightened to meanwhile, although the clauses for these bounds are
gone, and a tree that was built meanwhile counts nothing any more.

Main statement: a constraint whose tree is older than the snapshot, or that has no tree yet, can
be used after the restore. Tightening it further succeeds, and together with whatever else is asked
for by then, the clauses held say what the log of the snapshot says and what was asked for after the
restore, no more and no less (`Shared.Explored.extends_iff_after_restore`).
-/

namespace CardinalityClauses

open Collector (after)
open LawfulCollector (contents)

namespace CheckpointSolver

variable {β : Type} [Solver β]

instance : LawfulCollector (CheckpointSolver β) where
  contents s := s.log.toList
  clauseCount_eq s := s.log.size_eq_length_toList
  contents_extend s cs := ⟨cs, List.prefix_rfl, Formula.toList_append s.log cs⟩
  contents_extend_of_taken s cs _ := Formula.toList_append s.log cs

instance : ReliableCollector (CheckpointSolver β) where
  extend_taken _ _ := rfl

@[simp]
theorem contents_eq (s : CheckpointSolver β) : contents s = s.log.toList :=
  rfl

/-- Calls add to the log and leave the snapshots alone. -/
theorem after_log (s : CheckpointSolver β) (calls : List (List Clause)) :
    s.log.toList <+: (after s calls).log.toList ∧ (after s calls).snapshots = s.snapshots := by
  induction calls generalizing s with
  | nil => exact ⟨List.prefix_rfl, rfl⟩
  | cons cs rest ih =>
      obtain ⟨grown, snapshots⟩ := ih (s.addClauses cs)
      refine ⟨.trans ?_ grown, snapshots⟩
      simp [addClauses]

end CheckpointSolver

namespace Shared

/-! ### Snapshots and what comes after them -/

section Definitions

variable {β : Type} [Solver β]

/-- Takes a snapshot. -/
def save (s : Shared (CheckpointSolver β)) : Snapshot × Shared (CheckpointSolver β) :=
  let (token, solver) := s.work.collector.save s.work.supply
  (token, { s with work.collector := solver })

/-- Asks for a model. -/
def query (s : Shared (CheckpointSolver β)) : Shared (CheckpointSolver β) :=
  { s with work.collector := s.work.collector.solve.2 }

/-- Restores a snapshot. The built constraints stay as they are. -/
def restore (s : Shared (CheckpointSolver β)) (token : Snapshot) :
    Option RestoreFailure × Shared (CheckpointSolver β) :=
  let (failure, solver, supply) := s.work.collector.restore token s.work.supply
  (failure, { s with work.collector := solver, work.supply := supply })

/-- What can come after a snapshot of `s`: requests, whether or not they make sense and however they
end, queries, and newer snapshots and their restores. -/
inductive Wandered (s : Shared (CheckpointSolver β)) : Shared (CheckpointSolver β) → Prop
  | stay : Wandered s s.save.2
  | perform {now : Shared (CheckpointSolver β)} (r : SharedRequest) (wandered : Wandered s now) :
      Wandered s (now.perform r).2
  | query {now : Shared (CheckpointSolver β)} (wandered : Wandered s now) : Wandered s now.query
  | save {now : Shared (CheckpointSolver β)} (wandered : Wandered s now) : Wandered s now.save.2
  | restore {now : Shared (CheckpointSolver β)} (token : Snapshot) (wandered : Wandered s now)
      (newer : s.save.1.depth < token.depth) : Wandered s (now.restore token).2

/-- The constraints one can go on with after the restore: those that were there at the snapshot,
unless their tree was built since, and all others without a tree. -/
def Kept (s now : Shared (CheckpointSolver β)) (c : TightenableConstraint) : Prop :=
  (∃ (position : Nat) (old : TightenableConstraint), s.handles[position]? = some old ∧
      now.handles[position]? = some c ∧ c.isBuilt = old.isBuilt) ∨
    c ∈ now.handles ∧ c.isBuilt = false ∧ LiteralsOver (· ∈ s.users) c.literals

/-- How one goes on after the restore: with the variables of the snapshot and with some of the built
constraints, as they are now. -/
def resume (s back : Shared (CheckpointSolver β)) (handles : List TightenableConstraint) :
    Shared (CheckpointSolver β) :=
  { s with work := back.work, handles := handles }

/-- What can come of any workspace with a checkpoint solver after any requests that make sense
and fit, queries, and things that were tried out between a snapshot and its restore. -/
inductive Explored : Shared (CheckpointSolver β) → Prop
  | start (w : Workspace (CheckpointSolver β))
      (old : ClausesOver (· < w.supply.next) (contents w.collector)) : Explored (start w)
  | perform {s : Shared (CheckpointSolver β)} (r : SharedRequest) (explored : Explored s)
      (admits : s.Admits r) (fits : s.Fits r) : Explored (s.perform r).2
  | query {s : Shared (CheckpointSolver β)} (explored : Explored s) : Explored s.query
  | save {s : Shared (CheckpointSolver β)} (explored : Explored s) : Explored s.save.2
  | whatIf {s now back : Shared (CheckpointSolver β)} {handles : List TightenableConstraint}
      (explored : Explored s) (wandered : s.Wandered now)
      (restored : now.restore s.save.1 = (none, back)) (kept : ∀ c ∈ handles, s.Kept now c) :
      Explored (s.resume back handles)

/-- What can come of `s` after requests that make sense and fit, queries and snapshots, with a
record of what was asked for. -/
inductive Continued (s : Shared (CheckpointSolver β)) :
    Shared (CheckpointSolver β) → Wishes → Prop
  | stay : Continued s s ⟨[], []⟩
  | perform {t : Shared (CheckpointSolver β)} {asked : Wishes} (r : SharedRequest)
      (continued : Continued s t asked) (admits : t.Admits r) (fits : t.Fits r) :
      Continued s (t.perform r).2 (asked.and (t.asks r))
  | query {t : Shared (CheckpointSolver β)} {asked : Wishes} (continued : Continued s t asked) :
      Continued s t.query asked
  | save {t : Shared (CheckpointSolver β)} {asked : Wishes} (continued : Continued s t asked) :
      Continued s t.save.2 asked

end Definitions

/-! ### Between a snapshot and its restore -/

section Wandered

variable {β : Type} [Solver β] {s now : Shared (CheckpointSolver β)}

/-- What is there of the time of the snapshot as long as it is not restored: it stands on the stack
under newer ones, its log is the first part of the log, and its variables are used. -/
structure Beyond (s now : Shared (CheckpointSolver β)) : Prop where
  snapshots : ∃ newer : List Snapshot,
    now.work.collector.snapshots = s.save.2.work.collector.snapshots ++ newer ∧
      ∀ token ∈ newer, s.save.1.clauseCount ≤ token.clauseCount ∧
        min s.work.supply.next VariableSupply.last ≤ token.variableCount
  log : contents s.work.collector <+: contents now.work.collector
  used : min s.work.supply.next VariableSupply.last ≤ now.work.supply.next
  evolves : ∀ (i : Nat) (c : TightenableConstraint), s.handles[i]? = some c →
    ∃ c', now.handles[i]? = some c' ∧ c.Evolves c'
  buildable : ∀ c ∈ now.handles, c.Buildable

theorem beyond_save (buildable : ∀ c ∈ s.handles, c.Buildable) : s.Beyond s.save.2 where
  snapshots := ⟨[], by simp, by simp⟩
  log := List.prefix_rfl
  used := Nat.min_le_left _ _
  evolves := fun i c found =>
    ⟨c, found, .refl (buildable c (List.mem_of_getElem? found)).1⟩
  buildable := buildable

theorem Beyond.perform (beyond : s.Beyond now) (r : SharedRequest) :
    s.Beyond (now.perform r).2 := by
  obtain ⟨⟨⟨calls, handed⟩, used⟩, evolves, buildable⟩ := perform_later beyond.buildable r
  obtain ⟨grown, snapshots⟩ := now.work.collector.after_log calls
  rw [← handed] at grown snapshots
  refine ⟨?_, beyond.log.trans grown, ?_, fun i c found => ?_, buildable⟩
  · rw [snapshots]
    exact beyond.snapshots
  · have := beyond.used
    omega
  · obtain ⟨c', found', first⟩ := beyond.evolves i c found
    obtain ⟨c'', found'', second⟩ := evolves i c' found'
    exact ⟨c'', found'', first.trans second⟩

theorem Beyond.keeps (beyond : s.Beyond now) :
    now.work.collector.Keeps now.work.supply s.save.2.work.collector
      (min s.work.supply.next VariableSupply.last) :=
  ⟨beyond.snapshots, beyond.log, beyond.used⟩

theorem Beyond.query (beyond : s.Beyond now) : s.Beyond now.query := by
  obtain ⟨log, snapshots⟩ := History.solve_log now.work.collector
  have keeps := beyond.keeps.of_prefix (log ▸ List.prefix_rfl) snapshots (Nat.le_refl _)
  exact { beyond with snapshots := keeps.snapshots, log := keeps.log }

theorem Beyond.save (beyond : s.Beyond now) : s.Beyond now.save.2 :=
  { beyond with snapshots := beyond.keeps.save.snapshots }

theorem Beyond.restore (beyond : s.Beyond now) {token : Snapshot}
    (newer : s.save.1.depth < token.depth) : s.Beyond (now.restore token).2 := by
  have count : s.save.2.work.collector.snapshots.length = s.save.1.depth + 1 := by
    simp [Shared.save, CheckpointSolver.save]
  have above : s.save.2.work.collector.snapshots.length ≤ token.depth := by omega
  have keeps := beyond.keeps.restore above
  exact { beyond with snapshots := keeps.snapshots, log := keeps.log, used := keeps.used }

/-- However one wanders, the time of the snapshot stays within reach. -/
theorem Wandered.beyond (wandered : s.Wandered now) (buildable : ∀ c ∈ s.handles, c.Buildable) :
    s.Beyond now := by
  induction wandered with
  | stay => exact beyond_save buildable
  | perform r _ ih => exact ih.perform r
  | query _ ih => exact ih.query
  | save _ ih => exact ih.save
  | restore token _ newer ih => exact ih.restore newer

/-- The restore brings the log and the variables of the snapshot back. -/
theorem Beyond.restored (beyond : s.Beyond now) {back : Shared (CheckpointSolver β)}
    (restored : now.restore s.save.1 = (none, back)) :
    back.work.collector.log = s.work.collector.log ∧
      back.work.supply = s.work.supply := by
  obtain ⟨fine, same⟩ := Prod.mk.inj restored
  have fits : s.work.supply.next ≤ Variable.maxIndex :=
    (History.restore_accepted beyond.keeps.stands).2.1 fine
  have enough : s.work.supply.next ≤ min s.work.supply.next VariableSupply.last := by
    simp only [VariableSupply.last, indexRange, Variable.maxIndex] at fits ⊢
    omega
  obtain ⟨outcome, log, -⟩ := beyond.keeps.restored fits enough
  rw [← same]
  exact ⟨(congrArg (fun r => r.2.1.log) outcome).trans log, congrArg (fun r => r.2.2) outcome⟩

/-- A constraint one can go on with has the tree that it had at the snapshot, or none. -/
theorem Beyond.kept (beyond : s.Beyond now) (intact : s.Intact) {c : TightenableConstraint}
    (kept : s.Kept now c) :
    (∃ old ∈ s.handles, old.Ahead c.bound ∧ c = old.withBound c.bound) ∨
      c.isBuilt = false ∧ c.WellFormed s.work.supply.next ∧
        LiteralsOver (· ∈ s.users) c.literals := by
  have treeless {c : TightenableConstraint} (mem : c ∈ now.handles) (unbuilt : c.isBuilt = false)
      (about : LiteralsOver (· ∈ s.users) c.literals) :
      c.isBuilt = false ∧ c.WellFormed s.work.supply.next ∧
        LiteralsOver (· ∈ s.users) c.literals := by
    obtain ⟨inRange, preset⟩ := beyond.buildable c mem
    exact ⟨unbuilt, ⟨about.mono intact.compatible.used, inRange, preset⟩, about⟩
  obtain ⟨position, old, found, found', same⟩ | ⟨mem, none, about⟩ := kept
  · have mem := List.mem_of_getElem? found
    obtain ⟨c', at_, evolves⟩ := beyond.evolves position old found
    cases found'.symm.trans at_
    cases built : old.isBuilt with
    | true => exact .inl ⟨old, mem, evolves.ahead, evolves.eq_withBound built⟩
    | false =>
        refine .inr (treeless (List.mem_of_getElem? found') (same.trans built) ?_)
        obtain ⟨-, literals, -⟩ := Constraint.mk.inj evolves.constraint_eq
        rw [literals]
        exact intact.compatible.concerns old mem
  · exact .inr (treeless mem none about)

end Wandered

/-! ### Going on -/

section Explored

variable {β : Type} [Solver β] {s now back t : Shared (CheckpointSolver β)} {asked : Wishes}

theorem Intact.buildable (intact : s.Intact) : ∀ c ∈ s.handles, c.Buildable :=
  fun c mem => ⟨(intact.compatible.usable c mem).inRange, (intact.compatible.usable c mem).preset⟩

theorem Intact.query (intact : s.Intact) : s.query.Intact :=
  intact.withCollector (congrArg Formula.toList (History.solve_log s.work.collector).1)

theorem Intact.save (intact : s.Intact) : s.save.2.Intact :=
  intact.withCollector rfl

/-- After the restore everything is as open as it was, and nothing is lost by the bounds that the
built constraints have by then. -/
theorem Intact.whatIf (intact : s.Intact) (wandered : s.Wandered now)
    (restored : now.restore s.save.1 = (none, back)) {handles : List TightenableConstraint}
    (kept : ∀ c ∈ handles, s.Kept now c) :
    back.work.collector.log = s.work.collector.log ∧ (s.resume back handles).Intact := by
  have beyond := wandered.beyond intact.buildable
  obtain ⟨log, supply⟩ := beyond.restored restored
  exact ⟨log, intact.resume (congrArg Formula.toList log) (congrArg VariableSupply.next supply)
    fun c mem => beyond.kept intact (kept c mem)⟩

theorem Explored.intact (explored : s.Explored) : s.Intact := by
  induction explored with
  | start w old => exact intact_start old
  | perform r _ admits fits ih => exact (ih.perform admits fits).follows.intact
  | query _ ih => exact ih.query
  | save _ ih => exact ih.save
  | whatIf _ wandered restored kept ih => exact (ih.whatIf wandered restored kept).2

theorem Continued.follows (continued : s.Continued t asked) (intact : s.Intact) :
    s.Follows t asked := by
  induction continued with
  | stay => exact intact.follows
  | perform r _ admits fits ih => exact ih.trans (ih.intact.perform admits fits).follows
  | @query t asked _ ih =>
      exact ih.withCollector (congrArg Formula.toList (History.solve_log t.work.collector).1)
  | save _ ih => exact ih.withCollector rfl

/-- Things were tried out and the snapshot was restored. Then the log is the one of the snapshot,
and one can go on with the constraints that have the tree of that time, or none. No request that
makes sense and fits fails. At any time the values of the user's variables that extend to a model of
all clauses are those that extend to one of the log of the snapshot and satisfy what was asked for
since the restore. -/
theorem Explored.extends_iff_after_restore (explored : s.Explored) (wandered : s.Wandered now)
    (restored : now.restore s.save.1 = (none, back)) {handles : List TightenableConstraint}
    (kept : ∀ c ∈ handles, s.Kept now c) :
    back.work.collector.log = s.work.collector.log ∧
      ∀ t asked, (s.resume back handles).Continued t asked →
        (∀ v : Valuation, v.Extends (· ∈ t.users) (contents t.work.collector) ↔
          v.Extends (· ∈ t.users) (contents s.work.collector) ∧ asked.Holds v) ∧
        ∀ r, t.Admits r → t.Fits r →
          (t.perform r).1 = none ∧ (t.perform r).2.bounds = t.boundsAfter r ∧
            (t.perform r).2.work.supply.next = t.work.supply.next + t.demand r := by
  obtain ⟨log, intact⟩ := explored.intact.whatIf wandered restored kept
  have held : contents (s.resume back handles).work.collector = contents s.work.collector :=
    congrArg Formula.toList log
  refine ⟨log, fun t asked continued => ?_⟩
  have follows := continued.follows intact
  refine ⟨fun v => ?_, fun r admits fits => ?_⟩
  · rw [← held]
    exact follows.extends_iff_of_users v
  · have served := follows.intact.perform admits fits
    exact ⟨served.succeeds, served.bounds_eq, served.next_eq⟩

/-! ### A bound that was tried out -/

/-- Three literals of which at most two are to be true. -/
def limited : Shared (CheckpointSolver Exhaustive) :=
  let begun : Shared (CheckpointSolver Exhaustive) :=
    start ⟨.startingWith Exhaustive.initial, ⟨3⟩, #[]⟩
  (begun.perform (.build [⟨0, false⟩, ⟨1, false⟩, ⟨2, false⟩] .atMost 2
    ⟨.totalizer, .modular, none⟩)).2

/-- After a snapshot the bound one is tried out, together with a unit clause. -/
def wandering : Shared (CheckpointSolver Exhaustive) :=
  let tightened := (limited.save.2.perform (.tighten 0 .atMost 1)).2
  (tightened.perform (.addClause (.unit ⟨0, false⟩))).2.query

/-- The snapshot is restored, and one goes on with the constraint at the bound one. -/
def resumed : Shared (CheckpointSolver Exhaustive) :=
  limited.resume (wandering.restore limited.save.1).2 wandering.handles

theorem explored_limited : limited.Explored := by
  have about : ∀ l ∈ [(⟨0, false⟩ : Literal), ⟨1, false⟩, ⟨2, false⟩],
    l.index ∈ List.range 3 := by decide
  refine .perform _ (.start _ fun c mem => by cases mem) ⟨about, by decide, ?_⟩ ?_
  · exact fun m eq => by cases eq
  · show _ ≤ _
    decide

theorem kept_wandering : ∀ c ∈ wandering.handles, limited.Kept wandering c := by
  have before : limited.handles.map (·.isBuilt) = [true] := by decide
  have after : wandering.handles.map (·.isBuilt) = [true] := by decide
  obtain ⟨old, one, built⟩ := List.map_eq_singleton_iff.1 before
  obtain ⟨handle, one', built'⟩ := List.map_eq_singleton_iff.1 after
  intro c mem
  rw [one', List.mem_singleton] at mem
  subst mem
  exact .inl ⟨0, old, by rw [one]; rfl, by rw [one']; rfl, built'.trans built.symm⟩

/-- The theorem for that constraint, which is tightened from one to zero after the restore. -/
theorem extends_iff_after_restore_wandering :
    limited.Explored ∧ limited.Wandered wandering ∧
      (wandering.restore limited.save.1).1 = none ∧
      (∀ c ∈ wandering.handles, limited.Kept wandering c) ∧
      (wandering.restore limited.save.1).2.work.collector.log = limited.work.collector.log ∧
      let r : SharedRequest := .tighten 0 .atMost 0
      let t := (resumed.perform r).2
      resumed.Admits r ∧ (resumed.perform r).1 = none ∧
        ∀ v : Valuation, v.Extends (· ∈ t.users) (contents t.work.collector) ↔
          v.Extends (· ∈ t.users) (contents limited.work.collector) ∧
            (⟨.atMost, [⟨0, false⟩, ⟨1, false⟩, ⟨2, false⟩], 0⟩ : Constraint).holds v = true := by
  have wandered : limited.Wandered wandering := .query (.perform _ (.perform _ .stay))
  have success : (wandering.restore limited.save.1).1 = none := by decide
  have restored : wandering.restore limited.save.1 =
    (none, (wandering.restore limited.save.1).2) := Prod.ext success rfl
  obtain ⟨log, continues⟩ :
      _ ∧ ∀ t asked, resumed.Continued t asked → _ :=
    explored_limited.extends_iff_after_restore wandered restored kept_wandering
  have bounds : resumed.bounds = [⟨.atMost, [⟨0, false⟩, ⟨1, false⟩, ⟨2, false⟩], 1⟩] := by decide
  obtain ⟨handle, one, same⟩ := List.map_eq_singleton_iff.1 bounds
  obtain ⟨direction, literals, bound⟩ := Constraint.mk.inj same
  have found : resumed.handles[0]? = some handle := by rw [one]; rfl
  have admits : resumed.Admits (.tighten 0 .atMost 0) := by
    refine ⟨handle, found, direction, ?_⟩
    simp [bound]
  have fits : resumed.Fits (.tighten 0 .atMost 0) := by
    show _ ≤ _
    decide
  refine ⟨explored_limited, wandered, success, kept_wandering, log, admits,
    ((continues _ _ .stay).2 _ admits fits).1, fun v => ?_⟩
  refine ((continues _ _ (.perform _ .stay admits fits)).1 v).trans (and_congr_right fun _ => ?_)
  have asks : resumed.asks (.tighten 0 .atMost 0) =
      ⟨[], [⟨.atMost, [⟨0, false⟩, ⟨1, false⟩, ⟨2, false⟩], 0⟩]⟩ := by
    simp only [Shared.asks, found, TightenableConstraint.constraint,
      TightenableConstraint.withBound, direction, literals]
  rw [Wishes.holds_and, asks, Wishes.holds_constraint]
  exact and_iff_right (Wishes.holds_nothing v)

end Explored

end Shared

end CardinalityClauses
