import CardinalityClauses.Solver.Search
import CardinalityClauses.Valuation

/-!
The search finds a model exactly if there is one.

Two things carry through propagation and branching. A model that keeps the fixed values is
never lost: a forced literal is true in it, and of the two branches on a variable it keeps
one. And every step fixes a variable that was not fixed, so the fuel is never used up.

Main statements: the values that the search returns make a literal of every clause true
(`model?_sound`), and it returns some if the clauses have a model (`model?_complete`).
-/

namespace CardinalityClauses.Search

/-- A valuation keeps the values that are fixed. -/
def Keeps (v : Valuation) (values : Values) : Prop :=
  ∀ l, valueOf values l = .holds → l.holds v = true

/-- All literals of the clauses are over variables that have a place among the values. -/
def InBounds (cs : List Clause) (values : Values) : Prop :=
  ∀ c ∈ cs, ∀ l ∈ c.literals, l.index < values.size

/-- How many variables are not fixed. -/
def unfixed (values : Values) : Nat :=
  values.count .dontCare

/-! ### Fixing a literal -/

section Fix

variable {values : Values} {l m : Literal} {v : Valuation}

theorem valueOf_complement (values : Values) (l : Literal) :
    valueOf values l.complement = (valueOf values l).complement := by
  cases value : values.getD l.index .dontCare <;> cases n : l.negated <;>
    simp [valueOf, Literal.complement, Ternary.complement, value, n]

theorem Keeps.not_holds (keeps : Keeps v values) (fails : valueOf values l = .fails) :
    l.holds v = false := by
  have := keeps l.complement (by rw [valueOf_complement, fails]; rfl)
  simpa using this

@[simp]
theorem size_fix (values : Values) (l : Literal) : (fix values l).size = values.size := by
  simp [fix]

/-- Only the variable of the literal changes its value. -/
theorem valueOf_fix_of_ne (ne : m.index ≠ l.index) :
    valueOf (fix values l) m = valueOf values m := by
  simp [valueOf, fix, Array.getD_eq_getD_getElem?, Array.getElem?_setIfInBounds_ne ne.symm]

theorem valueOf_fix_self (inside : l.index < values.size) : valueOf (fix values l) l = .holds := by
  cases n : l.negated <;>
    simp [valueOf, fix, n, inside, Ternary.ofBool, Ternary.complement]

/-- A valuation that makes a literal true keeps it. -/
theorem Keeps.fix (keeps : Keeps v values) (holds : l.holds v = true) :
    Keeps v (fix values l) := by
  intro m fixed
  by_cases inside : l.index < values.size
  case neg =>
    have same : Search.fix values l = values := Array.setIfInBounds_eq_of_size_le (by omega)
    exact keeps m (same ▸ fixed)
  by_cases eq : m.index = l.index
  case neg => exact keeps m (by rwa [valueOf_fix_of_ne eq] at fixed)
  rcases m with ⟨i, negated⟩
  have eq : i = l.index := eq
  by_cases sign : negated = l.negated
  · have : (⟨i, negated⟩ : Literal) = l := by rw [eq, sign]
    rwa [this]
  · -- The other literal of the variable is false.
    have : (⟨i, negated⟩ : Literal) = l.complement := by
      rw [Literal.complement, eq, Bool.eq_not.2 sign]
    rw [this, valueOf_complement, valueOf_fix_self inside] at fixed
    cases fixed

/-- Fixing a variable that was not fixed leaves one less. -/
theorem unfixed_fix (inside : l.index < values.size) (free : valueOf values l = .dontCare) :
    unfixed (fix values l) < unfixed values := by
  have value : values[l.index] = .dontCare := by
    cases value : values[l.index] <;> cases n : l.negated <;>
      simp_all [valueOf, Ternary.complement]
  have certain : Ternary.ofBool (!l.negated) ≠ .dontCare := by cases l.negated <;> decide
  have one : 0 < values.count .dontCare :=
    Array.count_pos_iff.2 (value ▸ Array.getElem_mem inside)
  have count := Array.count_set (b := Ternary.dontCare) (a := .ofBool (!l.negated)) inside
  rw [unfixed, unfixed, fix, Array.setIfInBounds_def, dif_pos inside, count]
  simp only [value, beq_self_eq_true, if_true, beq_iff_eq, certain, if_false]
  omega

end Fix

/-! ### What the values say about a clause -/

section Standing

variable {values : Values} {free : Option Literal} {ls : List Literal} {l : Literal}

theorem standing_of_fails (fails : ∀ m ∈ ls, valueOf values m = .fails) :
    standing values none ls = .refuted := by
  induction ls with
  | nil => rfl
  | cons m rest ih =>
      rw [List.forall_mem_cons] at fails
      simp only [standing, fails.1]
      exact ih fails.2

/-- Once a literal is free, it is forced unless another one decides the clause. -/
theorem standing_some (values : Values) (k : Literal) (ls : List Literal) :
    standing values (some k) ls = .met ∨ standing values (some k) ls = .undecided ∨
      (standing values (some k) ls = .forces k ∧
        ∀ m ∈ ls, valueOf values m = .fails ∨ m = k) := by
  induction ls with
  | nil => exact .inr (.inr ⟨rfl, by simp⟩)
  | cons m rest ih =>
      cases value : valueOf values m with
      | holds => exact .inl (by simp [standing, value])
      | fails =>
          have skip : standing values (some k) (m :: rest) = standing values (some k) rest := by
            simp [standing, value]
          rw [skip]
          exact ih.imp_right (Or.imp_right fun ⟨forced, others⟩ =>
            ⟨forced, List.forall_mem_cons.2 ⟨.inl value, others⟩⟩)
      | dontCare =>
          by_cases same : m = k
          · subst same
            have skip : standing values (some m) (m :: rest) = standing values (some m) rest := by
              simp [standing, value]
            rw [skip]
            exact ih.imp_right (Or.imp_right fun ⟨forced, others⟩ =>
              ⟨forced, List.forall_mem_cons.2 ⟨.inr rfl, others⟩⟩)
          · exact .inr (.inl (by simp [standing, value, same]))

/-- A refuted clause has false literals only, and a forced literal is the only one that is not
false. -/
theorem standing_none (values : Values) (ls : List Literal) :
    standing values none ls = .met ∨ standing values none ls = .undecided ∨
      (standing values none ls = .refuted ∧ ∀ m ∈ ls, valueOf values m = .fails) ∨
      ∃ l ∈ ls, standing values none ls = .forces l ∧ valueOf values l = .dontCare ∧
        ∀ m ∈ ls, valueOf values m = .fails ∨ m = l := by
  induction ls with
  | nil => exact .inr (.inr (.inl ⟨rfl, by simp⟩))
  | cons m rest ih =>
      cases value : valueOf values m with
      | holds => exact .inl (by simp [standing, value])
      | fails =>
          have skip : standing values none (m :: rest) = standing values none rest := by
            simp [standing, value]
          rw [skip]
          refine ih.imp_right (Or.imp_right (Or.imp ?_ ?_))
          · exact fun ⟨refuted, others⟩ => ⟨refuted, List.forall_mem_cons.2 ⟨value, others⟩⟩
          · rintro ⟨l, mem, forced, free, others⟩
            exact ⟨l, List.mem_cons_of_mem _ mem, forced, free,
              List.forall_mem_cons.2 ⟨.inl value, others⟩⟩
      | dontCare =>
          have remember : standing values none (m :: rest) = standing values (some m) rest := by
            simp [standing, value]
          rw [remember]
          refine (standing_some values m rest).imp_right (Or.imp_right fun ⟨forced, others⟩ => ?_)
          exact .inr ⟨m, List.mem_cons_self, forced, value,
            List.forall_mem_cons.2 ⟨.inr rfl, others⟩⟩

end Standing

/-! ### Propagation -/

section Propagation

variable {cs : List Clause} {values after : Values} {v : Valuation}

/-- No clause is refuted, and none forces a literal. -/
def Settled (cs : List Clause) (values : Values) : Prop :=
  ∀ c ∈ cs, standing values none c.literals = .met ∨ standing values none c.literals = .undecided

theorem InBounds.of_size_eq (inside : InBounds cs values) (size : after.size = values.size) :
    InBounds cs after :=
  fun c hc l hl => size ▸ inside c hc l hl

/-- Going through the clauses changes nothing if they are settled, and fixes a variable
otherwise. -/
theorem pass_spec {progress moved : Bool} (inside : InBounds cs values)
    (passed : pass cs values progress = some (after, moved)) :
    after.size = values.size ∧
      ((after = values ∧ moved = progress ∧ Settled cs values) ∨
        (moved = true ∧ unfixed after < unfixed values)) := by
  induction cs generalizing values progress with
  | nil =>
      simp only [pass, Option.some.injEq, Prod.mk.injEq] at passed
      obtain ⟨rfl, rfl⟩ := passed
      exact ⟨rfl, .inl ⟨rfl, rfl, by simp [Settled]⟩⟩
  | cons c rest ih =>
      obtain ⟨insideHead, insideRest⟩ := List.forall_mem_cons.1 inside
      obtain met | undecided | ⟨refuted, -⟩ | ⟨l, mem, forced, free, -⟩ :=
        standing_none values c.literals
      · simp only [pass, met] at passed
        obtain ⟨size, ⟨same, moved, settled⟩ | fixed⟩ := ih insideRest passed
        · exact ⟨size, .inl ⟨same, moved, List.forall_mem_cons.2 ⟨.inl met, settled⟩⟩⟩
        · exact ⟨size, .inr fixed⟩
      · simp only [pass, undecided] at passed
        obtain ⟨size, ⟨same, moved, settled⟩ | fixed⟩ := ih insideRest passed
        · exact ⟨size, .inl ⟨same, moved, List.forall_mem_cons.2 ⟨.inr undecided, settled⟩⟩⟩
        · exact ⟨size, .inr fixed⟩
      · simp [pass, refuted] at passed
      · simp only [pass, forced] at passed
        have less := unfixed_fix (insideHead l mem) free
        have insideFixed : InBounds rest (fix values l) :=
          InBounds.of_size_eq insideRest (size_fix values l)
        obtain ⟨size, ⟨same, moved, -⟩ | ⟨moved, fewer⟩⟩ := ih insideFixed passed
        · exact ⟨by rw [size, size_fix], .inr ⟨moved, same ▸ less⟩⟩
        · exact ⟨by rw [size, size_fix], .inr ⟨moved, Nat.lt_trans fewer less⟩⟩

/-- Going through the clauses loses no model. -/
theorem Keeps.pass (keeps : Keeps v values) (models : v.Models cs) (progress : Bool) :
    ∃ after moved, pass cs values progress = some (after, moved) ∧ Keeps v after := by
  induction cs generalizing values progress with
  | nil => exact ⟨values, progress, rfl, keeps⟩
  | cons c rest ih =>
      obtain ⟨head, tail⟩ := List.forall_mem_cons.1 models
      obtain ⟨m, mem, holds⟩ := Clause.holds_iff.1 head
      obtain met | undecided | ⟨refuted, fails⟩ | ⟨l, -, forced, -, others⟩ :=
        standing_none values c.literals
      · simpa only [Search.pass, met] using ih keeps tail progress
      · simpa only [Search.pass, undecided] using ih keeps tail progress
      · simp [keeps.not_holds (fails m mem)] at holds
      · -- The literal that the model makes true is the forced one.
        have same : m = l := by
          refine (others m mem).resolve_left fun fails => ?_
          simp [keeps.not_holds fails] at holds
        simpa only [Search.pass, forced] using ih (keeps.fix (same ▸ holds)) tail true

/-- With enough fuel, propagation ends when the clauses are settled. -/
theorem propagate_spec {fuel : Nat} (inside : InBounds cs values) (enough : unfixed values < fuel)
    (done : propagate cs fuel values = some after) :
    after.size = values.size ∧ unfixed after ≤ unfixed values ∧ Settled cs after := by
  induction fuel generalizing values with
  | zero => omega
  | succ fuel ih =>
      simp only [propagate] at done
      cases passed : pass cs values false with
      | none => simp [passed] at done
      | some result =>
          obtain ⟨next, moved⟩ := result
          rw [passed] at done
          obtain ⟨size, ⟨same, stopped, settled⟩ | ⟨moved, fewer⟩⟩ := pass_spec inside passed
          · subst stopped
            cases done
            subst same
            exact ⟨rfl, Nat.le_refl _, settled⟩
          · subst moved
            obtain ⟨sizeAfter, less, settled⟩ :=
              ih (inside.of_size_eq size) (by omega) done
            exact ⟨by rw [sizeAfter, size], by omega, settled⟩

/-- Propagation loses no model. -/
theorem Keeps.propagate (keeps : Keeps v values) (models : v.Models cs) (fuel : Nat) :
    ∃ after, propagate cs fuel values = some after ∧ Keeps v after := by
  induction fuel generalizing values with
  | zero => exact ⟨values, rfl, keeps⟩
  | succ fuel ih =>
      obtain ⟨after, moved, passed, kept⟩ := keeps.pass models false
      cases moved with
      | false => exact ⟨after, by simp [Search.propagate, passed], kept⟩
      | true => simpa only [Search.propagate, passed] using ih kept

end Propagation

/-! ### Branching -/

section Branching

variable {cs : List Clause} {values found : Values} {v : Valuation}

theorem foldl_weightier_some (weights : Array Nat) (vs : List Variable) (first : Variable) :
    ∃ w, vs.foldl (weightier weights) (some first) = some w ∧ (w = first ∨ w ∈ vs) := by
  induction vs generalizing first with
  | nil => exact ⟨first, rfl, .inl rfl⟩
  | cons u rest ih =>
      have next : weightier weights (some first) u = some u ∨
          weightier weights (some first) u = some first := by
        unfold weightier
        dsimp only
        split
        · exact .inl rfl
        · exact .inr rfl
      rcases next with next | next
      · obtain ⟨w, found, same | mem⟩ := ih u
        · exact ⟨w, by rw [List.foldl_cons, next, found], .inr (by simp [same])⟩
        · exact ⟨w, by rw [List.foldl_cons, next, found], .inr (List.mem_cons_of_mem _ mem)⟩
      · obtain ⟨w, found, same | mem⟩ := ih first
        · exact ⟨w, by rw [List.foldl_cons, next, found], .inl same⟩
        · exact ⟨w, by rw [List.foldl_cons, next, found], .inr (List.mem_cons_of_mem _ mem)⟩

/-- Only the variable of a literal that a clause waits for is branched on. -/
theorem weightiest?_some {w : Variable} (chosen : weightiest? cs values = some w) :
    ∃ c ∈ cs, ∃ l ∈ awaited values c, l.index = w.index := by
  unfold weightiest? at chosen
  cases listed : (cs.flatMap (awaited values)).map Literal.var with
  | nil => simp [listed] at chosen
  | cons first rest =>
      rw [listed, List.foldl_cons] at chosen
      obtain ⟨u, found, mem⟩ := foldl_weightier_some (weights cs values) rest first
      have same : u = w := by simpa [weightier, found] using chosen
      have mem : w ∈ (cs.flatMap (awaited values)).map Literal.var := by
        rw [listed, List.mem_cons, ← same]
        exact mem
      obtain ⟨l, hl, rfl⟩ := List.mem_map.1 mem
      obtain ⟨c, hc, hl⟩ := List.mem_flatMap.1 hl
      exact ⟨c, hc, l, hl, rfl⟩

/-- Where there is nothing to branch on, no clause waits for a literal. -/
theorem weightiest?_none (done : weightiest? cs values = none) :
    ∀ c ∈ cs, awaited values c = [] := by
  unfold weightiest? at done
  cases listed : (cs.flatMap (awaited values)).map Literal.var with
  | nil => simpa using listed
  | cons first rest =>
      rw [listed, List.foldl_cons] at done
      obtain ⟨u, found, -⟩ := foldl_weightier_some (weights cs values) rest first
      simp [weightier, found] at done

theorem mem_awaited {c : Clause} {l : Literal} (mem : l ∈ awaited values c) :
    l ∈ c.literals ∧ valueOf values l = .dontCare := by
  unfold awaited at mem
  split at mem
  · simp at mem
  · simpa using mem

/-- A settled clause that waits for nothing has a true literal. -/
theorem exists_holds_of_awaited_nil (settled : Settled cs values) {c : Clause} (hc : c ∈ cs)
    (nothing : awaited values c = []) : ∃ l ∈ c.literals, valueOf values l = .holds := by
  by_cases met : ∃ l ∈ c.literals, valueOf values l = .holds
  case pos => exact met
  have notHolds : ∀ l ∈ c.literals, valueOf values l ≠ .holds :=
    fun l hl holds => met ⟨l, hl, holds⟩
  have fails : ∀ l ∈ c.literals, valueOf values l = .fails := by
    intro l hl
    have fixed : ¬valueOf values l = .dontCare := by
      intro free
      have anyFalse : (c.literals.any fun l => valueOf values l == .holds) = false := by
        simpa using notHolds
      have mem : l ∈ awaited values c := by
        rw [awaited, anyFalse]
        simpa using ⟨hl, free⟩
      simp [nothing] at mem
    cases value : valueOf values l with
    | holds => exact absurd value (notHolds l hl)
    | fails => rfl
    | dontCare => exact absurd value fixed
  rcases settled c hc with met | undecided
  · simp [standing_of_fails fails] at met
  · simp [standing_of_fails fails] at undecided

/-- A variable that clauses wait for has a place among the values, and it is not fixed under
either sign. -/
theorem branch_free (inside : InBounds cs values) {w : Variable}
    (chosen : weightiest? cs values = some w) (negated : Bool) :
    w.index < values.size ∧ valueOf values ⟨w.index, negated⟩ = .dontCare := by
  obtain ⟨c, hc, l, hl, index⟩ := weightiest?_some chosen
  obtain ⟨mem, free⟩ := mem_awaited hl
  refine ⟨index ▸ inside c hc l mem, ?_⟩
  have open_ : values.getD w.index .dontCare = .dontCare := by
    rw [← index]
    cases value : values.getD l.index .dontCare <;> cases sign : l.negated <;>
      simp [valueOf, value, sign, Ternary.complement] at free ⊢
  cases negated <;> simp [valueOf, open_, Ternary.complement]

theorem unfixed_le_size (values : Values) : unfixed values ≤ values.size :=
  Array.count_le_size

/-- The values that are found make a literal of every clause true. -/
theorem run_sound {fuel : Nat} (inside : InBounds cs values)
    (done : run cs fuel values = some found) :
    found.size = values.size ∧ ∀ c ∈ cs, ∃ l ∈ c.literals, valueOf found l = .holds := by
  induction fuel generalizing values with
  | zero => simp [run] at done
  | succ fuel ih =>
      simp only [run] at done
      cases propagated : propagate cs (values.size + 1) values with
      | none => simp [propagated] at done
      | some next =>
          rw [propagated] at done
          have enough := Nat.lt_succ_of_le (unfixed_le_size values)
          obtain ⟨size, -, settled⟩ := propagate_spec inside enough propagated
          have inside := inside.of_size_eq size
          cases chosen : weightiest? cs next with
          | none =>
              simp only [chosen, Option.some.injEq] at done
              subst done
              exact ⟨size, fun c hc =>
                exists_holds_of_awaited_nil settled hc (weightiest?_none chosen c hc)⟩
          | some w =>
              simp only [chosen] at done
              have branch : ∀ negated, run cs fuel (fix next ⟨w.index, negated⟩) = some found →
                  found.size = values.size ∧
                    ∀ c ∈ cs, ∃ l ∈ c.literals, valueOf found l = .holds := by
                intro negated taken
                obtain ⟨sizeFound, met⟩ := ih (inside.of_size_eq (size_fix _ _)) taken
                exact ⟨by rw [sizeFound, size_fix, size], met⟩
              split at done
              · rename_i first eq
                exact branch false (eq.trans done)
              · exact branch true done

/-- A model that keeps the fixed values is not missed. -/
theorem run_complete {fuel : Nat} (inside : InBounds cs values) (keeps : Keeps v values)
    (models : v.Models cs) (enough : unfixed values < fuel) :
    ∃ found, run cs fuel values = some found := by
  induction fuel generalizing values with
  | zero => omega
  | succ fuel ih =>
      obtain ⟨next, propagated, kept⟩ := keeps.propagate models (values.size + 1)
      obtain ⟨size, fewer, -⟩ :=
        propagate_spec inside (Nat.lt_succ_of_le (unfixed_le_size values)) propagated
      have inside := inside.of_size_eq size
      cases chosen : weightiest? cs next with
      | none => exact ⟨next, by simp [run, propagated, chosen]⟩
      | some w =>
          have branch : ∀ negated, Literal.holds ⟨w.index, negated⟩ v = true →
              ∃ found, run cs fuel (fix next ⟨w.index, negated⟩) = some found := by
            intro negated holds
            obtain ⟨place, free⟩ := branch_free inside chosen negated
            have less := unfixed_fix (l := ⟨w.index, negated⟩) place free
            exact ih (inside.of_size_eq (size_fix _ _)) (kept.fix holds) (by omega)
          cases first : run cs fuel (fix next ⟨w.index, false⟩) with
          | some found => exact ⟨found, by simp [run, propagated, chosen, first]⟩
          | none =>
              -- The model is on the other branch.
              have second : Literal.holds ⟨w.index, true⟩ v = true := by
                cases value : v w.index with
                | false => simp [Literal.holds, value]
                | true =>
                    obtain ⟨found, eq⟩ := branch false (by simp [Literal.holds, value])
                    simp [eq] at first
              obtain ⟨found, eq⟩ := branch true second
              exact ⟨found, by simp [run, propagated, chosen, first, eq]⟩

end Branching

/-! ### The search from blank values -/

section Blank

variable {cs : List Clause} {n : Nat} {v : Valuation}

theorem keeps_blank (v : Valuation) (n : Nat) : Keeps v (blank n) := by
  intro l holds
  cases sign : l.negated <;>
    simp [valueOf, blank, sign, Array.getD_eq_getD_getElem?, Array.getElem?_replicate] at holds <;>
    split at holds <;> simp [Ternary.complement] at holds

theorem inBounds_blank (inside : ∀ c ∈ cs, ∀ l ∈ c.literals, l.index < n) :
    InBounds cs (blank n) := by
  intro c hc l hl
  simpa [blank] using inside c hc l hl

/-- The values of a model make a literal of every clause true. -/
theorem model?_sound {found : Values} (inside : ∀ c ∈ cs, ∀ l ∈ c.literals, l.index < n)
    (done : model? cs n = some found) :
    ∀ c ∈ cs, ∃ l ∈ c.literals, valueOf found l = .holds :=
  (run_sound (inBounds_blank inside) done).2

/-- If the clauses have a model, then one is found. -/
theorem model?_complete (inside : ∀ c ∈ cs, ∀ l ∈ c.literals, l.index < n)
    (models : v.Models cs) : ∃ found, model? cs n = some found := by
  refine run_complete (inBounds_blank inside) (keeps_blank v n) models ?_
  have := unfixed_le_size (blank n)
  simp only [blank, Array.size_replicate] at this ⊢
  omega

/-- Clauses that propagation refutes have no model. -/
theorem not_models_of_isRefutedByPropagation (refuted : isRefutedByPropagation cs n = true) :
    ¬v.Models cs := by
  intro models
  obtain ⟨after, propagated, -⟩ := (keeps_blank v n).propagate models (n + 1)
  simp [isRefutedByPropagation, propagated] at refuted

end Blank

end CardinalityClauses.Search
