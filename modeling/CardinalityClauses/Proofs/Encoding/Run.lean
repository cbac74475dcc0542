import CardinalityClauses.Collector.Lawful
import CardinalityClauses.Encoding.Workspace
import CardinalityClauses.Proofs.Encoding.Fresh

/-!
Runs of planned pieces where no collector fails.

If the making of no clause stops and the indices of the fresh variables can be carried by
literals, then a run does all that was planned: the collector has grown by the planned
clauses and the supply by the planned variables (`Workspace.runPieces_spec`).
-/

namespace CardinalityClauses

open Collector (Unfailing)
open LawfulCollector (contents)

/-! ### What is planned -/

/-- The clauses of a piece. -/
def Piece.clauses (p : Piece) : List Clause :=
  p.batches.flatMap Batch.clauses

/-- No fault stops the making of the clauses of a piece. -/
def Piece.Complete (p : Piece) : Prop :=
  ∀ b ∈ p.batches, b.stop = none

/-- The clauses of pieces, in order. -/
def plannedClauses (ps : List Piece) : List Clause :=
  ps.flatMap Piece.clauses

/-- How many variables pieces take. -/
def plannedVariables : List Piece → Nat
  | [] => 0
  | p :: rest => p.fresh + plannedVariables rest

@[simp]
theorem plannedClauses_append (ps qs : List Piece) :
    plannedClauses (ps ++ qs) = plannedClauses ps ++ plannedClauses qs :=
  List.flatMap_append

@[simp]
theorem plannedVariables_append (ps qs : List Piece) :
    plannedVariables (ps ++ qs) = plannedVariables ps + plannedVariables qs := by
  induction ps with
  | nil => simp [plannedVariables]
  | cons p rest ih => rw [List.cons_append, plannedVariables, ih, plannedVariables, Nat.add_assoc]

@[simp]
theorem plannedClauses_cons (p : Piece) (ps : List Piece) :
    plannedClauses (p :: ps) = p.clauses ++ plannedClauses ps :=
  List.flatMap_cons

@[simp]
theorem plannedVariables_nil : plannedVariables [] = 0 :=
  rfl

@[simp]
theorem plannedVariables_cons (p : Piece) (ps : List Piece) :
    plannedVariables (p :: ps) = p.fresh + plannedVariables ps :=
  rfl

theorem prefix_plannedClauses {begun ps : List Piece} (part : begun <+: ps) :
    plannedClauses begun <+: plannedClauses ps := by
  obtain ⟨rest, rfl⟩ := part
  rw [plannedClauses_append]
  exact List.prefix_append _ _

/-- A batch whose clauses can all be made. -/
theorem Batch.ofMade_spec {made : List (Except Fault Clause)}
    (all : ∀ m ∈ made, ∃ c, m = .ok c) :
    (Batch.ofMade made).stop = none ∧
      ∀ c, c ∈ (Batch.ofMade made).clauses ↔ .ok c ∈ made := by
  induction made with
  | nil => simp [ofMade]
  | cons m rest ih =>
      obtain ⟨⟨first, rfl⟩, others⟩ := List.forall_mem_cons.1 all
      obtain ⟨stop, mem⟩ := ih others
      refine ⟨?_, fun c => ?_⟩
      · simpa [ofMade] using stop
      · have step : c ∈ (ofMade (.ok first :: rest)).clauses ↔
            c = first ∨ c ∈ (ofMade rest).clauses := by
          simp [ofMade, List.takeWhile_cons, Except.isOk, Except.toBool, Except.toOption]
        rw [step, mem, List.mem_cons, Except.ok.injEq]

theorem Batch.length_ofMade_le (made : List (Except Fault Clause)) :
    (Batch.ofMade made).clauses.length ≤ made.length :=
  Nat.le_trans (List.length_filterMap_le _ _) (List.takeWhile_sublist _).length_le

/-- Neither a success nor running out of memory is a fault. -/
theorem ne_fault {failure : Option Failure} (known : failure = none ∨ failure = some .outOfMemory)
    (f : Fault) : failure ≠ some (.fault f) := by
  rcases known with rfl | rfl <;> simp

/-! ### What a step adds to a workspace -/

namespace Workspace

/-- A call to the collector does not end in a fault. -/
theorem extend_fine {σ : Type} [Collector σ] (w : Workspace σ) (cs : List Clause) (f : Fault) :
    (w.extend cs).1 ≠ some (.fault f) := by
  simp only [extend]
  split <;> simp

theorem handAll_singleton {σ : Type} [Collector σ] (w : Workspace σ) (cs : List Clause) :
    w.handAll [⟨cs, none⟩] = w.extend cs := by
  simp only [handAll, hand]
  rcases w.extend cs with ⟨_ | why, w⟩ <;> rfl

section

variable {σ : Type} [LawfulCollector σ]

/-- The second workspace holds more clauses than the first and has used more variables. -/
structure Grows (w w' : Workspace σ) (clauses : List Clause) (fresh : Nat) : Prop where
  contents_eq : contents w'.collector = contents w.collector ++ clauses
  next_eq : w'.supply.next = w.supply.next + fresh

theorem Grows.refl (w : Workspace σ) : w.Grows w [] 0 :=
  ⟨by simp, rfl⟩

theorem Grows.trans {w w' w'' : Workspace σ} {cs ds : List Clause} {m n : Nat}
    (first : w.Grows w' cs m) (second : w'.Grows w'' ds n) : w.Grows w'' (cs ++ ds) (m + n) where
  contents_eq := by rw [second.contents_eq, first.contents_eq, List.append_assoc]
  next_eq := by rw [second.next_eq, first.next_eq, Nat.add_assoc]

theorem Grows.note {w w' : Workspace σ} {cs : List Clause} {n : Nat} (grows : w.Grows w' cs n)
    (e : Event) : w.Grows (w'.note e) cs n :=
  ⟨grows.contents_eq, grows.next_eq⟩

/-- The number of clauses that were added. -/
theorem Grows.clauseCount_sub {w w' : Workspace σ} {cs : List Clause} {n : Nat}
    (grows : w.Grows w' cs n) : w'.clauseCount - w.clauseCount = cs.length := by
  simp [clauseCount, LawfulCollector.clauseCount_eq, grows.contents_eq]

theorem Grows.next_sub {w w' : Workspace σ} {cs : List Clause} {n : Nat}
    (grows : w.Grows w' cs n) : w'.supply.next - w.supply.next = n := by
  rw [grows.next_eq, Nat.add_sub_cancel_left]

theorem takeLiterals_spec {w : Workspace σ} {n : Nat}
    (room : w.supply.next + n ≤ Variable.maxIndex + 1) :
    ∃ w', w.takeLiterals n = (.ok (VariableSupply.block w.supply.next n), w') ∧
      w.Grows w' [] n := by
  obtain ⟨collector, supply, events⟩ := w
  refine ⟨⟨collector, ⟨supply.next + n⟩, events⟩, ?_, by simp, rfl⟩
  simp [takeLiterals, VariableSupply.takeLiterals_of_room room]

/-- A piece that takes no variables and hands clauses over. -/
def handing (cs : List Clause) : Piece :=
  ⟨0, [⟨cs, none⟩], none⟩

@[simp]
theorem plannedClauses_handing (cs : List Clause) : plannedClauses [handing cs] = cs := by
  simp [handing, plannedClauses, Piece.clauses]

@[simp]
theorem fresh_handing (cs : List Clause) : (handing cs).fresh = 0 :=
  rfl

/-- How a run of planned pieces can end. -/
inductive Ran (w : Workspace σ) (plan : List Piece) : Option Failure → Workspace σ → Prop
  /-- All that was planned is done. -/
  | done {w' : Workspace σ}
      (grows : w.Grows w' (plannedClauses plan) (plannedVariables plan))
      (steady : Unfailing w.collector → Unfailing w'.collector) : Ran w plan none w'
  /-- The collector failed. The pieces that were begun have taken their variables, and of their
  clauses those before some point are held. -/
  | stopped {w' : Workspace σ} {begun : List Piece} {kept : List Clause} (part : begun <+: plan)
      (held : kept <+: plannedClauses begun) (grows : w.Grows w' kept (plannedVariables begun))
      (fails : ¬Unfailing w.collector) : Ran w plan (some .outOfMemory) w'
  /-- Literals cannot carry all the indices that were planned. -/
  | crowded {w' : Workspace σ} {f : Fault}
      (full : Variable.maxIndex + 1 < w.supply.next + plannedVariables plan) :
      Ran w plan (some (.fault f)) w'

namespace Ran

variable {w w' w₁ : Workspace σ} {ps qs : List Piece} {failure : Option Failure}

theorem nil (w : Workspace σ) : w.Ran [] none w :=
  .done (.refl w) id

theorem grows (ran : w.Ran ps none w') :
    w.Grows w' (plannedClauses ps) (plannedVariables ps) := by
  obtain ⟨grows, -⟩ := ran
  exact grows

/-- What was done completely is done before the rest. -/
theorem trans (first : w.Ran ps none w₁) (second : w₁.Ran qs failure w') :
    w.Ran (ps ++ qs) failure w' := by
  obtain ⟨grows, steady⟩ := first
  cases second with
  | done grows' steady' =>
      refine .done ?_ (steady' ∘ steady)
      rw [plannedClauses_append, plannedVariables_append]
      exact grows.trans grows'
  | @stopped _ begun kept part held grows' fails =>
      have held : plannedClauses ps ++ kept <+: plannedClauses (ps ++ begun) := by
        rw [plannedClauses_append]
        exact (List.prefix_append_right_inj _).2 held
      refine .stopped ((List.prefix_append_right_inj ps).2 part) held ?_ (fails ∘ steady)
      rw [plannedVariables_append]
      exact grows.trans grows'
  | crowded full =>
      refine .crowded ?_
      rw [grows.next_eq] at full
      rw [plannedVariables_append]
      omega

/-- After a failure nothing more is done. -/
theorem append {why : Failure} (ran : w.Ran ps (some why) w') (qs : List Piece) :
    w.Ran (ps ++ qs) (some why) w' := by
  cases ran with
  | stopped part held grows fails =>
      exact .stopped (part.trans (List.prefix_append ps qs)) held grows fails
  | crowded full =>
      refine .crowded ?_
      rw [plannedVariables_append]
      omega

/-- The same variables and clauses in other pieces. -/
theorem regroup (ran : w.Ran ps failure w') (clauses : plannedClauses ps = plannedClauses qs)
    (fresh : plannedVariables ps = plannedVariables qs)
    (parts : ∀ begun, begun <+: ps → ∃ begun', begun' <+: qs ∧
      plannedClauses begun <+: plannedClauses begun' ∧
        plannedVariables begun = plannedVariables begun') : w.Ran qs failure w' := by
  cases ran with
  | done grows steady => exact .done (clauses ▸ fresh ▸ grows) steady
  | stopped part held grows fails =>
      obtain ⟨begun', part', more, same⟩ := parts _ part
      exact .stopped part' (held.trans more) (same ▸ grows) fails
  | crowded full => exact .crowded (fresh ▸ full)

/-- Pieces that take no variables may be put together. -/
theorem together (ran : w.Ran ps failure w') {cs : List Clause} (clauses : plannedClauses ps = cs)
    (fresh : plannedVariables ps = 0) : w.Ran [handing cs] failure w' := by
  subst clauses
  refine ran.regroup (plannedClauses_handing _).symm fresh ?_
  intro begun part
  refine ⟨_, List.prefix_rfl, ?_, ?_⟩
  · rw [plannedClauses_handing]
    exact prefix_plannedClauses part
  · obtain ⟨rest, rfl⟩ := part
    rw [plannedVariables_append] at fresh
    exact Nat.eq_zero_of_add_eq_zero_right fresh

theorem note (ran : w.Ran ps failure w') (e : Event) : w.Ran ps failure (w'.note e) := by
  cases ran with
  | done grows steady => exact .done (grows.note e) steady
  | stopped part held grows fails => exact .stopped part held (grows.note e) fails
  | crowded full => exact .crowded full

theorem noteOption (ran : w.Ran ps failure w') (e : Option Event) :
    w.Ran ps failure (w'.noteOption e) := by
  cases e with
  | none => exact ran
  | some e => exact ran.note e

/-- A run that does not end in a fault leaves some of the planned clauses, and all of them if it
comes to its end. -/
theorem exists_kept (ran : w.Ran ps failure w') (fine : ∀ f, failure ≠ some (.fault f)) :
    ∃ kept k, w.Grows w' kept k ∧ kept ⊆ plannedClauses ps ∧
      (failure = none → kept = plannedClauses ps) := by
  cases ran with
  | done grows steady => exact ⟨_, _, grows, List.Subset.refl _, fun _ => rfl⟩
  | stopped part held grows fails =>
      refine ⟨_, _, grows, ?_, fun none => by cases none⟩
      exact (held.trans (prefix_plannedClauses part)).subset
  | crowded full => exact absurd rfl (fine _)

/-- With room and a collector that does not fail, all that was planned is done. -/
theorem of_unfailing (ran : w.Ran ps failure w') (unfailing : Unfailing w.collector)
    (room : w.supply.next + plannedVariables ps ≤ Variable.maxIndex + 1) :
    failure = none ∧ w.Grows w' (plannedClauses ps) (plannedVariables ps) := by
  cases ran with
  | done grows steady => exact ⟨rfl, grows⟩
  | stopped part held grows fails => exact absurd unfailing fails
  | crowded full => exact absurd full (Nat.not_lt_of_le room)

/-- A collector that does not fail leaves two ways to end: all is done, or literals cannot carry
all the indices. -/
theorem done_or_crowded (ran : w.Ran ps failure w') (unfailing : Unfailing w.collector) :
    failure = none ∨ (∃ f, failure = some (.fault f)) ∧
      Variable.maxIndex + 1 < w.supply.next + plannedVariables ps := by
  cases ran with
  | done grows steady => exact .inl rfl
  | stopped part held grows fails => exact absurd unfailing fails
  | crowded full => exact .inr ⟨⟨_, rfl⟩, full⟩

end Ran

/-- Variables are taken all together or not at all. -/
theorem takeLiterals_ran (w : Workspace σ) (n : Nat) (e : Option Event) :
    (∃ w', w.takeLiterals n = (.ok (VariableSupply.block w.supply.next n), w') ∧
        w.Ran [⟨n, [], e⟩] none w') ∨
      ∃ f w', w.takeLiterals n = (.error f, w') ∧ w.Ran [⟨n, [], e⟩] (some (.fault f)) w' := by
  obtain ⟨collector, supply, events⟩ := w
  have planned : plannedVariables [⟨n, [], e⟩] = n := rfl
  by_cases long : VariableSupply.longestBlock < n
  · have refused : takeLiterals ⟨collector, supply, events⟩ n =
        (.error .listTooLong, ⟨collector, supply, events⟩) := by
      simp [takeLiterals, VariableSupply.takeLiterals, long]
    refine .inr ⟨_, _, refused, .crowded ?_⟩
    simp only [VariableSupply.longestBlock, Variable.maxIndex] at long ⊢
    omega
  by_cases within : supply.next + n ≤ VariableSupply.last
  · refine .inl ⟨⟨collector, ⟨supply.next + n⟩, events⟩, ?_, .done ⟨?_, rfl⟩ id⟩
    · simp [takeLiterals, VariableSupply.takeLiterals, long, within]
    · simp [plannedClauses, Piece.clauses]
  · have stopped : takeLiterals ⟨collector, supply, events⟩ n =
        (.error .arithmeticOverflow, ⟨collector, ⟨VariableSupply.last⟩, events⟩) := by
      simp [takeLiterals, VariableSupply.takeLiterals, long, within]
    refine .inr ⟨_, _, stopped, .crowded ?_⟩
    simp only [VariableSupply.last, indexRange, Variable.maxIndex] at within ⊢
    omega

theorem extend_ran (w : Workspace σ) (cs : List Clause) :
    w.Ran [handing cs] (w.extend cs).1 (w.extend cs).2 := by
  obtain ⟨collector, supply, events⟩ := w
  obtain ⟨kept, part, contents_eq⟩ := LawfulCollector.contents_extend collector cs
  cases eq : Collector.extend collector cs with
  | mk after taken =>
      rw [eq] at contents_eq
      simp only [extend, eq]
      cases taken with
      | true =>
          have all := LawfulCollector.contents_extend_of_taken collector cs (by rw [eq])
          rw [eq] at all
          refine .done ⟨by rwa [plannedClauses_handing], rfl⟩ fun unfailing => ?_
          have later := unfailing.extend cs
          rwa [eq] at later
      | false =>
          refine .stopped List.prefix_rfl (by rwa [plannedClauses_handing]) ⟨contents_eq, rfl⟩
            fun unfailing => ?_
          have taken := unfailing.taken cs
          rw [eq] at taken
          cases taken

theorem handAll_ran (w : Workspace σ) {bs : List Batch} (complete : ∀ b ∈ bs, b.stop = none) :
    w.Ran [handing (bs.flatMap Batch.clauses)] (w.handAll bs).1 (w.handAll bs).2 := by
  induction bs generalizing w with
  | nil => exact (Ran.nil w).together rfl rfl
  | cons b rest ih =>
      obtain ⟨first, others⟩ := List.forall_mem_cons.1 complete
      have taken := w.extend_ran b.clauses
      cases eq : w.extend b.clauses with
      | mk failure w₁ =>
          rw [eq] at taken
          have same : plannedClauses ([handing b.clauses] ++
              [handing (rest.flatMap Batch.clauses)]) = (b :: rest).flatMap Batch.clauses := by
            rw [plannedClauses_append, plannedClauses_handing, plannedClauses_handing,
              List.flatMap_cons]
          cases failure with
          | none =>
              have both := (taken.trans (ih w₁ others)).together same rfl
              simpa [handAll, hand, eq, first] using both
          | some why =>
              have stopped :=
                (taken.append [handing (rest.flatMap Batch.clauses)]).together same rfl
              simpa [handAll, hand, eq] using stopped

theorem runPiece_ran (w : Workspace σ) {p : Piece} (complete : p.Complete) :
    w.Ran [p] (w.runPiece p).1 (w.runPiece p).2 := by
  -- First the variables are taken, then all clauses are handed over.
  have regroup {failure : Option Failure} {w' : Workspace σ}
      (ran : w.Ran ([⟨p.fresh, [], none⟩] ++ [handing p.clauses]) failure w') :
      w.Ran [p] failure w' := by
    have clauses : plannedClauses ([⟨p.fresh, [], none⟩] ++ [handing p.clauses]) =
        plannedClauses [p] := by
      rw [plannedClauses_append, plannedClauses_handing]
      simp [plannedClauses, Piece.clauses]
    refine ran.regroup clauses rfl ?_
    intro begun part
    cases begun with
    | nil => exact ⟨[], List.nil_prefix, List.prefix_rfl, rfl⟩
    | cons first rest =>
        obtain ⟨rfl, tail⟩ := List.cons_prefix_cons.1 part
        refine ⟨[p], List.prefix_rfl, clauses ▸ prefix_plannedClauses part, ?_⟩
        cases rest with
        | nil => rfl
        | cons second rest =>
            obtain ⟨rfl, none⟩ := List.cons_prefix_cons.1 tail
            rw [List.prefix_nil.1 none]
            rfl
  apply regroup
  obtain ⟨w₁, taken, ran⟩ | ⟨f, w₁, taken, ran⟩ := w.takeLiterals_ran p.fresh none
  · have handed := ran.trans (w₁.handAll_ran complete)
    cases eq : w₁.handAll p.batches with
    | mk failure w₂ =>
        rw [eq] at handed
        cases failure with
        | none =>
            simp only [runPiece, taken, eq]
            exact handed.noteOption p.event
        | some why =>
            simp only [runPiece, taken, eq]
            exact handed
  · simp only [runPiece, taken]
    exact ran.append [handing p.clauses]

/-- A run of complete pieces does what was planned, up to the first failure. -/
theorem runPieces_ran (w : Workspace σ) {ps : List Piece} (complete : ∀ p ∈ ps, p.Complete) :
    w.Ran ps (w.runPieces ps).failure (w.runPieces ps).work ∧
      ((w.runPieces ps).failure = none → (w.runPieces ps).finished = ps.length) := by
  induction ps generalizing w with
  | nil => exact ⟨.nil w, fun _ => rfl⟩
  | cons p rest ih =>
      obtain ⟨first, others⟩ := List.forall_mem_cons.1 complete
      have done := w.runPiece_ran first
      cases eq : w.runPiece p with
      | mk failure w₁ =>
          rw [eq] at done
          simp only [runPieces, eq]
          cases failure with
          | none =>
              obtain ⟨ran, finished⟩ := ih w₁ others
              exact ⟨done.trans ran, fun none => congrArg Nat.succ (finished none)⟩
          | some why => exact ⟨done.append rest, fun none => by cases none⟩

end

section

variable {σ : Type} [ReliableCollector σ]

theorem extend_spec (w : Workspace σ) (cs : List Clause) :
    ∃ w', w.extend cs = (none, w') ∧ w.Grows w' cs 0 := by
  obtain ⟨collector, supply, events⟩ := w
  have taken := ReliableCollector.extend_taken collector cs
  cases eq : Collector.extend collector cs with
  | mk after answer =>
      rw [eq] at taken
      subst taken
      refine ⟨⟨after, supply, events⟩, by simp [extend, eq], ?_, rfl⟩
      have grown := LawfulCollector.contents_extend_of_taken collector cs (by rw [eq])
      rwa [eq] at grown

theorem handAll_spec (w : Workspace σ) {bs : List Batch} (complete : ∀ b ∈ bs, b.stop = none) :
    ∃ w', w.handAll bs = (none, w') ∧ w.Grows w' (bs.flatMap Batch.clauses) 0 := by
  induction bs generalizing w with
  | nil => exact ⟨w, rfl, .refl w⟩
  | cons b rest ih =>
      obtain ⟨first, others⟩ := List.forall_mem_cons.1 complete
      obtain ⟨w₁, extended, grows₁⟩ := w.extend_spec b.clauses
      obtain ⟨w₂, handed, grows₂⟩ := ih w₁ others
      refine ⟨w₂, by simp [handAll, hand, extended, first, handed], ?_⟩
      rw [List.flatMap_cons]
      exact grows₁.trans grows₂

end

end Workspace

/-- Counts that stay in range are settled. -/
theorem Tally.settle_eq {clausesBefore variablesBefore clausesAfter variablesAfter : Nat}
    (clauses : clausesAfter - clausesBefore < sizeRange)
    (fresh : variablesAfter - variablesBefore < indexRange) (failure : Option Failure) :
    (settle ⟨0, 0⟩ clausesBefore variablesBefore clausesAfter variablesAfter failure).1 =
      failure := by
  unfold settle
  split
  · rfl
  · simp [add, addWithin, clauses, fresh]

/-- Otherwise a fault takes the place of the failure. -/
theorem Tally.settle_eq_or (t : Tally)
    (clausesBefore variablesBefore clausesAfter variablesAfter : Nat) (failure : Option Failure) :
    (t.settle clausesBefore variablesBefore clausesAfter variablesAfter failure).1 = failure ∨
      ∃ f, (t.settle clausesBefore variablesBefore clausesAfter variablesAfter failure).1 =
        some (.fault f) := by
  unfold settle
  split
  · exact .inl rfl
  · split
    · exact .inr ⟨_, rfl⟩
    · exact .inl rfl

/-- Counting what a run used up leaves its end as it was, unless literals cannot carry all
indices. -/
theorem Workspace.Ran.settle {σ : Type} [LawfulCollector σ] {w w' : Workspace σ} {ps : List Piece}
    {failure : Option Failure} (ran : w.Ran ps failure w')
    (few : w.supply.next + plannedVariables ps ≤ Variable.maxIndex + 1 →
      (plannedClauses ps).length < sizeRange) :
    w.Ran ps (Tally.settle ⟨0, 0⟩ w.clauseCount w.supply.next w'.clauseCount w'.supply.next
      failure).1 w' := by
  by_cases room : w.supply.next + plannedVariables ps ≤ Variable.maxIndex + 1
  · have small : Variable.maxIndex + 1 < indexRange := by decide
    have few := few room
    suffices settled : (Tally.settle ⟨0, 0⟩ w.clauseCount w.supply.next w'.clauseCount
        w'.supply.next failure).1 = failure by rwa [settled]
    cases ran with
    | done grows steady =>
        refine Tally.settle_eq ?_ ?_ _
        · rwa [grows.clauseCount_sub]
        · rw [grows.next_sub]
          omega
    | stopped part held grows fails =>
        have fewer := Nat.le_trans held.length_le (prefix_plannedClauses part).length_le
        refine Tally.settle_eq ?_ ?_ _
        · rw [grows.clauseCount_sub]
          exact Nat.lt_of_le_of_lt fewer few
        · obtain ⟨rest, rfl⟩ := part
          rw [plannedVariables_append] at room
          rw [grows.next_sub]
          omega
    | crowded full => exact absurd room (Nat.not_le_of_lt full)
  · obtain same | ⟨f, fault⟩ := Tally.settle_eq_or ⟨0, 0⟩ w.clauseCount w.supply.next w'.clauseCount
      w'.supply.next failure
    · rwa [same]
    · rw [fault]
      exact .crowded (Nat.lt_of_not_le room)

/-! ### Safe operations -/

namespace Outcome

variable {α σ : Type}

/-- An operation that asked for so many variables leaves what it should, and it does not end in a
fault unless literals cannot carry all the indices. -/
structure Safe (o : Outcome α σ) (w : Workspace σ) (demand : Nat) (Left : α → Prop) : Prop where
  left : (∀ f, o.failure ≠ some (.fault f)) → Left o.value
  fine : w.supply.next + demand ≤ Variable.maxIndex + 1 → ∀ f, o.failure ≠ some (.fault f)

variable {o : Outcome α σ} {w : Workspace σ} {demand : Nat} {Left : α → Prop}

theorem Safe.of_fine (fine : ∀ f, o.failure ≠ some (.fault f)) (left : Left o.value) :
    o.Safe w demand Left :=
  ⟨fun _ => left, fun _ => fine⟩

/-- An operation that either succeeds or runs out of indices. -/
theorem Safe.of_done_or_crowded
    (ending : o.failure = none ∧ Left o.value ∨
      (∃ f, o.failure = some (.fault f)) ∧ Variable.maxIndex + 1 < w.supply.next + demand) :
    o.Safe w demand Left := by
  rcases ending with ⟨done, left⟩ | ⟨⟨f, fault⟩, full⟩
  · exact .of_fine (ne_fault (.inl done)) left
  · exact ⟨fun fine => absurd fault (fine f), fun room => absurd full (Nat.not_lt_of_le room)⟩

/-- What is done with the value of an operation afterwards does not make it less safe. -/
theorem Safe.map {β : Type} {After : β → Prop} (safe : o.Safe w demand Left) (wrap : α → β)
    (keeps : ∀ a, Left a → After (wrap a)) :
    Outcome.Safe ⟨o.failure, wrap o.value, o.work⟩ w demand After :=
  ⟨fun fine => keeps _ (safe.left fine), safe.fine⟩

end Outcome

end CardinalityClauses
