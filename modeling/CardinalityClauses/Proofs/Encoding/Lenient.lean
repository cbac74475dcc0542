import CardinalityClauses.Proofs.Encoding.Run

/-!
Plans of which any part may be left behind.

A run that stops leaves the clauses of a plan up to some point. What is left does no harm if
values can be chosen for the fresh variables with which these clauses hold, no matter where the
run stopped: then whatever the older variables could be, they still can be
(`Workspace.Ran.leaves`).
-/

namespace CardinalityClauses

/-! ### Clauses that leave older variables alone -/

/-- The clauses are over variables below `last`, and a valuation that satisfies `Given` satisfies
them after a change to the variables from `first` on. -/
structure Allows (Given : Valuation → Prop) (first last : Nat) (clauses : List Clause) : Prop where
  about : ClausesOver (· < last) clauses
  exists_models : ∀ v : Valuation, Given v →
    ∃ w, v.AgreeOutside first last w ∧ w.Models clauses

section Allows

variable {Given : Valuation → Prop} {first middle last : Nat} {cs ds : List Clause}

theorem Allows.nil (Given : Valuation → Prop) (first last : Nat) : Allows Given first last [] where
  about := by simp [ClausesOver]
  exists_models := fun v _ => ⟨v, .refl _ v, v.models_nil⟩

/-- Fewer clauses allow no less. -/
theorem Allows.of_subset (allows : Allows Given first last cs) (subset : ds ⊆ cs) :
    Allows Given first last ds where
  about := fun c hc => allows.about c (subset hc)
  exists_models := fun v given => by
    obtain ⟨w, agree, models⟩ := allows.exists_models v given
    exact ⟨w, agree, models.of_subset subset⟩

/-- Clauses that hold already. -/
theorem Allows.of_models (about : ClausesOver (· < last) cs)
    (models : ∀ v : Valuation, Given v → v.Models cs) : Allows Given first last cs where
  about := about
  exists_models := fun v given => ⟨v, .refl _ v, models v given⟩

/-- What is given for the second clauses has to outlast the choice of values for the first. -/
theorem Allows.append {Later : Valuation → Prop} (one : Allows Given first middle cs)
    (two : Allows Later middle last ds) (le : first ≤ middle) (ge : middle ≤ last)
    (keep : ∀ v w : Valuation, Given v → Valuation.Agree (· < first) v w → Later w) :
    Allows Given first last (cs ++ ds) where
  about := clausesOver_append.2 ⟨one.about.upTo ge, two.about⟩
  exists_models := fun v given => by
    obtain ⟨u, agree, models⟩ := one.exists_models v given
    obtain ⟨w, agree', models'⟩ := two.exists_models u (keep v u given agree.below)
    refine ⟨w, (agree.mono (Nat.le_refl _) ge).trans (agree'.mono le (Nat.le_refl _)), ?_⟩
    exact Valuation.models_append.2 ⟨agree'.below.models one.about models, models'⟩

end Allows

/-! ### Plans -/

/-- However far the pieces are done, from variable `next` on, their clauses leave the older
variables alone. -/
def Lenient (Given : Valuation → Prop) (next : Nat) (plan : List Piece) : Prop :=
  ∀ begun, begun <+: plan → next + plannedVariables begun ≤ Variable.maxIndex + 1 →
    Allows Given next (next + plannedVariables begun) (plannedClauses begun)

/-- A first part of two lists in a row ends in the first or in the second. -/
theorem prefix_append_cases {α : Type} {begun xs ys : List α} (part : begun <+: xs ++ ys) :
    begun <+: xs ∨ ∃ rest, begun = xs ++ rest ∧ rest <+: ys := by
  rcases List.prefix_or_prefix_of_prefix part (List.prefix_append xs ys) with inside | ⟨rest, rfl⟩
  · exact .inl inside
  · exact .inr ⟨rest, rfl, (List.prefix_append_right_inj xs).1 part⟩

section Lenient

variable {Given : Valuation → Prop} {next : Nat} {ps qs : List Piece}

theorem Lenient.nil (Given : Valuation → Prop) (next : Nat) : Lenient Given next [] := by
  intro begun part _
  rw [List.prefix_nil.1 part]
  exact .nil Given next _

theorem Lenient.mono {Wide : Valuation → Prop} (lenient : Lenient Wide next ps)
    (le : ∀ v, Given v → Wide v) : Lenient Given next ps := by
  intro begun part room
  have allows := lenient begun part room
  exact ⟨allows.about, fun v given => allows.exists_models v (le v given)⟩

theorem Lenient.append {Later : Valuation → Prop} {middle : Nat} (one : Lenient Given next ps)
    (two : Lenient Later middle qs) (planned : next + plannedVariables ps = middle)
    (keep : middle ≤ Variable.maxIndex + 1 →
      ∀ v w : Valuation, Given v → Valuation.Agree (· < next) v w → Later w) :
    Lenient Given next (ps ++ qs) := by
  subst planned
  intro begun part room
  obtain inside | ⟨rest, rfl, tail⟩ := prefix_append_cases part
  · exact one begun inside room
  · rw [plannedVariables_append, ← Nat.add_assoc] at room ⊢
    rw [plannedClauses_append]
    have roomFirst : next + plannedVariables ps ≤ Variable.maxIndex + 1 := by omega
    exact (one ps List.prefix_rfl roomFirst).append (two rest tail room) (Nat.le_add_right _ _)
      (Nat.le_add_right _ _) (keep roomFirst)

/-- One more piece does no harm after which the clauses do none all together. -/
theorem Lenient.concat {p : Piece} (lenient : Lenient Given next ps)
    (whole : next + plannedVariables (ps ++ [p]) ≤ Variable.maxIndex + 1 →
      Allows Given next (next + plannedVariables (ps ++ [p])) (plannedClauses (ps ++ [p]))) :
    Lenient Given next (ps ++ [p]) := by
  intro begun part room
  rcases List.prefix_concat_iff.1 part with rfl | inside
  · exact whole room
  · exact lenient begun inside room

/-- A piece is done completely or not begun. -/
theorem Lenient.single {p : Piece} (allows : next + p.fresh ≤ Variable.maxIndex + 1 →
    Allows Given next (next + p.fresh) p.clauses) : Lenient Given next [p] := by
  intro begun part room
  cases begun with
  | nil => exact .nil Given next _
  | cons first rest =>
      obtain ⟨rfl, none⟩ := List.cons_prefix_cons.1 part
      rw [List.prefix_nil.1 none] at room ⊢
      have clauses : plannedClauses [first] = first.clauses := by simp [plannedClauses]
      rw [clauses]
      exact allows room

/-- A piece without clauses and another piece before a plan. -/
theorem Lenient.cons_cons {p q : Piece} (silent : p.clauses = [])
    (rest : ∀ begun, begun <+: ps →
      next + p.fresh + q.fresh + plannedVariables begun ≤ Variable.maxIndex + 1 →
      Allows Given next (next + p.fresh + q.fresh + plannedVariables begun)
        (q.clauses ++ plannedClauses begun)) : Lenient Given next (p :: q :: ps) := by
  intro begun part room
  rcases List.prefix_cons_iff.1 part with rfl | ⟨begun, rfl, tail⟩
  · exact .nil Given next _
  rcases List.prefix_cons_iff.1 tail with rfl | ⟨begun, rfl, last⟩
  · rw [plannedClauses_cons, silent]
    exact .nil Given next _
  · simp only [plannedClauses_cons, silent, List.nil_append, plannedVariables_cons,
      ← Nat.add_assoc] at room ⊢
    exact rest begun last room

end Lenient

/-- A run that does not end in a fault leaves clauses that leave the older variables alone. -/
theorem Workspace.Ran.leaves {σ : Type} [LawfulCollector σ] {w w' : Workspace σ} {ps : List Piece}
    {failure : Option Failure} {Given : Valuation → Prop} (ran : w.Ran ps failure w')
    (lenient : Lenient Given w.supply.next ps) (fine : ∀ f, failure ≠ some (.fault f))
    (room : w'.supply.next ≤ Variable.maxIndex + 1) :
    ∃ kept k, w.Grows w' kept k ∧ Allows Given w.supply.next w'.supply.next kept := by
  cases ran with
  | done grows steady =>
      refine ⟨_, _, grows, ?_⟩
      rw [grows.next_eq] at room ⊢
      exact lenient ps List.prefix_rfl room
  | stopped part held grows fails =>
      refine ⟨_, _, grows, ?_⟩
      rw [grows.next_eq] at room ⊢
      exact (lenient _ part room).of_subset held.subset
  | crowded full => exact absurd rfl (fine _)

end CardinalityClauses
