import CardinalityClauses.Collector.Lawful
import CardinalityClauses.Proofs.Solver.Search
import CardinalityClauses.Solver.Engine
import CardinalityClauses.Valuation

/-!
What one may rely on in an engine.

A deciding engine answers a search rightly for all clauses over known variables that it was handed:
after "yes" the values that are read make a literal of every clause true, and "no" means that there
is no model. All this is promised of the states that a fresh engine gets to. How an engine keeps
its clauses, and which model it finds, is its own affair.

Main statement: the engine by propagation and branching decides its clauses. Known variables have a
place among the values of the search, and a refutation is remembered, which stays right because
clauses are only added.
-/

namespace CardinalityClauses

/-- The value that partial values of variables give to a literal. -/
def Literal.valueIn (reading : Nat → Option Bool) (l : Literal) : Option Bool :=
  (reading l.index).map fun b => b != l.negated

/-- An engine whose searches decide the clauses it was handed. -/
class DecidingEngine (ε : Type) extends Engine ε where
  /-- The clauses it was handed, in order. -/
  clauses : ε → List Clause
  /-- The states that a fresh engine gets to. -/
  Regular : ε → Prop
  regular_renew : ∀ e, Regular e → Regular (renew e)
  regular_makeKnown : ∀ e i, Regular e → Regular (makeKnown e i)
  regular_addClause : ∀ e ls, Regular e → (∀ l ∈ ls, l.index < variableCount e) →
    Regular (addClause e ls)
  regular_search : ∀ e, Regular e → Regular (search e).2
  variableCount_renew : ∀ e, variableCount (renew e) = 0
  variableCount_makeKnown : ∀ e i, variableCount (makeKnown e i) = max (variableCount e) (i + 1)
  variableCount_addClause : ∀ e ls, variableCount (addClause e ls) = variableCount e
  variableCount_search : ∀ e, variableCount (search e).2 = variableCount e
  clauses_renew : ∀ e, clauses (renew e) = []
  clauses_makeKnown : ∀ e i, clauses (makeKnown e i) = clauses e
  clauses_addClause : ∀ e ls, clauses (addClause e ls) = clauses e ++ [⟨ls⟩]
  clauses_search : ∀ e, clauses (search e).2 = clauses e
  /-- After a model was found, the values of known variables are those of one partial assignment,
  and it makes a literal of every clause true. -/
  exists_reading : ∀ e, Regular e → (search e).1 = some true →
    ∃ reading : Nat → Option Bool,
      (∀ l : Literal, l.index < variableCount e → value (search e).2 l = l.valueIn reading) ∧
        ∀ c ∈ clauses e, ∃ l ∈ c.literals, l.valueIn reading = some true
  no_model : ∀ e, Regular e → (search e).1 = some false →
    ∀ v : Valuation, ¬v.Models (clauses e)

/-- An engine without variables and clauses. -/
structure DecidingEngine.Fresh {ε : Type} [DecidingEngine ε] (e : ε) : Prop where
  regular : Regular e
  clauses_eq : clauses e = []
  variableCount_eq : Engine.variableCount e = 0

theorem DecidingEngine.fresh_renew {ε : Type} [DecidingEngine ε] {e : ε} (regular : Regular e) :
    Fresh (Engine.renew e) :=
  ⟨regular_renew e regular, clauses_renew e, variableCount_renew e⟩

/-! ### The engine by propagation and branching -/

namespace SearchEngine

variable {e : SearchEngine}

/-- All literals are over known variables, and refuted clauses have no model. -/
structure Sound (e : SearchEngine) : Prop where
  inside : ∀ c ∈ e.formula.toList, ∀ l ∈ c.literals, l.index < e.variableCount
  refuted : e.refuted = true → ∀ v : Valuation, ¬v.Models e.formula.toList

theorem sound_startingWith (stopped : Bool) : (startingWith stopped).Sound where
  inside := by simp [startingWith]
  refuted := by simp [startingWith]

theorem Sound.makeKnown (sound : e.Sound) (index : Nat) : (e.makeKnown index).Sound where
  inside c hc l hl := Nat.lt_of_lt_of_le (sound.inside c hc l hl) (Nat.le_max_left _ _)
  refuted := sound.refuted

theorem toList_addClause (e : SearchEngine) (ls : List Literal) :
    (e.addClause ls).formula.toList = e.formula.toList ++ [⟨ls⟩] :=
  Formula.toList_append _ _

theorem Sound.addClause (sound : e.Sound) {ls : List Literal}
    (known : ∀ l ∈ ls, l.index < e.variableCount) : (e.addClause ls).Sound where
  inside := by
    rw [toList_addClause, List.forall_mem_append]
    refine ⟨sound.inside, fun c hc l hl => ?_⟩
    rw [List.mem_singleton.1 hc] at hl
    exact known l hl
  refuted refuted v models := by
    rw [toList_addClause, Valuation.models_append] at models
    exact sound.refuted refuted v models.1

/-- How a search can end: the clauses were refuted or are now, or it was stopped, or there are
values. -/
theorem search_cases (e : SearchEngine) :
    (e.refuted = true ∧ e.search = (some false, e)) ∨
    (Search.isRefutedByPropagation e.formula.toList e.variableCount = true ∧
      e.search = (some false, { e with refuted := true })) ∨
    e.search = (none, e) ∨
    (∃ values, Search.model? e.formula.toList e.variableCount = some values ∧
      e.search = (some true, { e with found := complete values })) ∨
    (Search.model? e.formula.toList e.variableCount = none ∧
      e.search = (some false, { e with refuted := true })) := by
  unfold search
  split
  · rename_i refuted
    exact .inl ⟨refuted, rfl⟩
  · split
    · split
      · rename_i refuted
        exact .inr (.inl ⟨refuted, rfl⟩)
      · exact .inr (.inr (.inl rfl))
    · cases searched : Search.model? e.formula.toList e.variableCount with
      | some values => exact .inr (.inr (.inr (.inl ⟨values, rfl, rfl⟩)))
      | none => exact .inr (.inr (.inr (.inr ⟨rfl, rfl⟩)))

/-- A refutation is right. -/
theorem Sound.search_refutes (sound : e.Sound) (no : e.search.1 = some false) (v : Valuation) :
    ¬v.Models e.formula.toList := by
  rcases e.search_cases with ⟨refuted, -⟩ | ⟨refuted, -⟩ | eq | ⟨values, -, eq⟩ | ⟨missed, -⟩
  · exact sound.refuted refuted v
  · exact Search.not_models_of_isRefutedByPropagation refuted
  · simp [eq] at no
  · simp [eq] at no
  · intro models
    obtain ⟨values, found⟩ := Search.model?_complete sound.inside models
    simp [found] at missed

/-- A search keeps the clauses and the known variables. -/
theorem search_keeps (e : SearchEngine) :
    e.search.2.formula = e.formula ∧ e.search.2.variableCount = e.variableCount := by
  rcases e.search_cases with ⟨-, eq⟩ | ⟨-, eq⟩ | eq | ⟨values, -, eq⟩ | ⟨-, eq⟩ <;> simp [eq]

theorem Sound.search (sound : e.Sound) : e.search.2.Sound where
  inside := by
    rw [e.search_keeps.1, e.search_keeps.2]
    exact sound.inside
  refuted := by
    rw [e.search_keeps.1]
    intro refuted
    have right := sound.search_refutes
    rcases e.search_cases with ⟨-, eq⟩ | ⟨-, eq⟩ | eq | ⟨values, -, eq⟩ | ⟨-, eq⟩ <;>
      rw [eq] at refuted right
    · exact right rfl
    · exact right rfl
    · exact sound.refuted refuted
    · exact sound.refuted refuted
    · exact right rfl

/-! ### Reading values -/

/-- The values of a search as a partial assignment. -/
def reading (values : Search.Values) (index : Nat) : Option Bool :=
  (values.getD index .dontCare).toBool?

theorem toBool?_valueOf (values : Search.Values) (l : Literal) :
    (Search.valueOf values l).toBool? = l.valueIn (reading values) := by
  simp only [Search.valueOf, Literal.valueIn, reading]
  cases values.getD l.index .dontCare <;> cases l.negated <;> rfl

/-- What a search fixed is kept. -/
theorem valueIn_complete {values : Search.Values} {l : Literal}
    (holds : Search.valueOf values l = .holds) :
    l.valueIn (reading (complete values)) = some true := by
  have here : (Search.valueOf values l).toBool? = some true := by rw [holds]; rfl
  rw [toBool?_valueOf] at here
  simp only [Literal.valueIn, reading, complete, Array.getD_eq_getD_getElem?,
    Array.getElem?_map] at here ⊢
  cases entry : values[l.index]? with
  | none => simp [entry, Ternary.toBool?] at here
  | some t =>
      rw [entry] at here
      cases t with
      | holds => exact here
      | fails => exact here
      | dontCare => simp [Ternary.toBool?] at here

theorem Sound.exists_reading (sound : e.Sound) (yes : e.search.1 = some true) :
    ∃ reading : Nat → Option Bool, (∀ l, e.search.2.value l = l.valueIn reading) ∧
      ∀ c ∈ e.formula.toList, ∃ l ∈ c.literals, l.valueIn reading = some true := by
  rcases e.search_cases with ⟨-, eq⟩ | ⟨-, eq⟩ | eq | ⟨values, found, eq⟩ | ⟨-, eq⟩
  · simp [eq] at yes
  · simp [eq] at yes
  · simp [eq] at yes
  · refine ⟨reading (complete values), fun l => ?_, fun c hc => ?_⟩
    · rw [eq]
      exact toBool?_valueOf _ l
    · obtain ⟨l, hl, holds⟩ := Search.model?_sound sound.inside found c hc
      exact ⟨l, hl, valueIn_complete holds⟩
  · simp [eq] at yes

instance : DecidingEngine SearchEngine where
  clauses e := e.formula.toList
  Regular := Sound
  regular_renew e _ := sound_startingWith e.stopped
  regular_makeKnown _ i sound := sound.makeKnown i
  regular_addClause _ _ sound known := sound.addClause known
  regular_search _ sound := sound.search
  variableCount_renew _ := rfl
  variableCount_makeKnown _ _ := rfl
  variableCount_addClause _ _ := rfl
  variableCount_search e := e.search_keeps.2
  clauses_renew _ := rfl
  clauses_makeKnown _ _ := rfl
  clauses_addClause := toList_addClause
  clauses_search e := congrArg Formula.toList e.search_keeps.1
  exists_reading _ sound yes := by
    obtain ⟨reading, values, met⟩ := sound.exists_reading yes
    exact ⟨reading, fun l _ => values l, met⟩
  no_model _ sound no := sound.search_refutes no

theorem fresh_startingWith (stopped : Bool) : DecidingEngine.Fresh (startingWith stopped) :=
  ⟨sound_startingWith stopped, rfl, rfl⟩

end SearchEngine

end CardinalityClauses
