import CardinalityClauses.Valuation

/-!
Unit propagation: the literals that clauses force one after the other.

A clause forces a literal of its own once the complements of all its other literals are
forced. A conflict is a clause all of whose literals are forced to be false. Main statements:
every model makes the forced literals true, and clauses with a conflict have no model.

Clauses that say what a constraint says may still leave it to a search to find out which values
it excludes. They are good for unit propagation if nothing is left to find out
(`Constraint.PropagatedBy`).
-/

namespace CardinalityClauses

/-- A literal is forced by unit propagation. -/
inductive Forced (cs : List Clause) : Literal → Prop
  | byClause (c : Clause) (l : Literal) (mem : c ∈ cs) (lit : l ∈ c.literals)
      (others : ∀ m ∈ c.literals, m ≠ l → Forced cs m.complement) : Forced cs l

/-- Unit propagation ends in a conflict. -/
def Conflict (cs : List Clause) : Prop :=
  ∃ c ∈ cs, ∀ l ∈ c.literals, Forced cs l.complement

/-- Unit propagation over the clauses is complete for a constraint: once as many of its literals are
assumed as the bound leaves room for it forces the others, and with one more it ends in a conflict.
For an upper bound literals are assumed to be true, for a lower bound to be false. -/
def Constraint.PropagatedBy (c : Constraint) (cs : List Clause) : Prop :=
  match c.direction with
  | .atMost => ∀ assumed : List Literal,
      (c.literals.countP (· ∈ assumed) = c.bound →
        ∀ l ∈ c.literals, l ∉ assumed → Forced (cs ++ assumed.map .unit) l.complement) ∧
      (c.bound < c.literals.countP (· ∈ assumed) → Conflict (cs ++ assumed.map .unit))
  | .atLeast => ∀ assumed : List Literal,
      (c.literals.countP (· ∈ assumed) = c.literals.length - c.bound →
        ∀ l ∈ c.literals, l ∉ assumed →
          Forced (cs ++ assumed.map fun m => .unit m.complement) l) ∧
      (c.literals.length - c.bound < c.literals.countP (· ∈ assumed) →
        Conflict (cs ++ assumed.map fun m => .unit m.complement))

/-- The literal of a unit clause is forced. -/
theorem Forced.ofUnit {cs : List Clause} {l : Literal} (h : .unit l ∈ cs) : Forced cs l :=
  .byClause (.unit l) l h (by simp [Clause.unit]) (by simp [Clause.unit])

/-- An implication whose premises are all forced forces its conclusion. -/
theorem Forced.of_implication {cs : List Clause} {premises : List Literal} {conclusion : Literal}
    (mem : .implication premises conclusion ∈ cs) (all : ∀ p ∈ premises, Forced cs p) :
    Forced cs conclusion := by
  refine .byClause _ conclusion mem (by simp [Clause.implication]) fun m hm ne => ?_
  rcases List.mem_append.1 hm with hm | hm
  · obtain ⟨p, hp, rfl⟩ := List.mem_map.1 hm
    rw [Literal.complement_complement]
    exact all p hp
  · exact absurd (List.mem_singleton.1 hm) ne

/-- Where the conclusion is forced to be false and all other premises are forced, one premise has
to give way. -/
theorem Forced.of_contrapositive {cs : List Clause} {premises : List Literal}
    {conclusion premise : Literal} (mem : .implication premises conclusion ∈ cs)
    (here : premise ∈ premises) (others : ∀ p ∈ premises, p = premise ∨ Forced cs p)
    (fails : Forced cs conclusion.complement) : Forced cs premise.complement := by
  refine .byClause _ premise.complement mem ?_ fun m hm ne => ?_
  · exact List.mem_append_left _ (List.mem_map_of_mem here)
  rcases List.mem_append.1 hm with hm | hm
  · obtain ⟨p, hp, rfl⟩ := List.mem_map.1 hm
    rw [Literal.complement_complement]
    exact (others p hp).resolve_left fun same => ne (congrArg Literal.complement same)
  · rw [List.mem_singleton.1 hm]
    exact fails

/-- What is forced stays forced when clauses are added. -/
theorem Forced.of_subset {cs ds : List Clause} (subset : cs ⊆ ds) {l : Literal}
    (h : Forced cs l) : Forced ds l := by
  induction h with
  | byClause c l mem lit _ ih => exact .byClause c l (subset mem) lit ih

theorem Conflict.of_subset {cs ds : List Clause} (subset : cs ⊆ ds) (h : Conflict cs) :
    Conflict ds :=
  let ⟨c, mem, forced⟩ := h
  ⟨c, subset mem, fun l hl => (forced l hl).of_subset subset⟩

/-- Every model makes the forced literals true. -/
theorem Forced.holds {cs : List Clause} {l : Literal} (h : Forced cs l) {v : Valuation}
    (model : v.Models cs) : l.holds v = true := by
  induction h with
  | byClause c l mem _ _ ih =>
      obtain ⟨m, hm, hv⟩ := Clause.holds_iff.1 (model c mem)
      by_cases h : m = l
      · exact h ▸ hv
      · have := ih m hm h
        simp [hv] at this

/-- Clauses with a conflict have no model. -/
theorem Conflict.not_models {cs : List Clause} (h : Conflict cs) (v : Valuation) :
    ¬ v.Models cs := by
  intro model
  obtain ⟨c, mem, forced⟩ := h
  obtain ⟨l, hl, hv⟩ := Clause.holds_iff.1 (model c mem)
  have := (forced l hl).holds model
  simp [hv] at this

end CardinalityClauses
