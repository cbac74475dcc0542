import CardinalityClauses.Formula.Limited

/-!
What one may rely on in a collector.

A lawful collector holds a sequence of clauses. A call adds what it is handed at the end, all
of it or the clauses up to some point; a call that is answered by "taken" adds all of it.
A reliable collector answers so every time.
-/

namespace CardinalityClauses

/-- A collector whose contents only ever grow at the end. -/
class LawfulCollector (σ : Type) extends Collector σ where
  /-- The clauses held, in order. -/
  contents : σ → List Clause
  clauseCount_eq : ∀ s : σ, clauseCount s = (contents s).length
  /-- A call keeps a first part of what it is handed. -/
  contents_extend : ∀ (s : σ) (cs : List Clause),
    ∃ kept, kept <+: cs ∧ contents (extend s cs).1 = contents s ++ kept
  /-- A call that succeeds keeps all of it. -/
  contents_extend_of_taken : ∀ (s : σ) (cs : List Clause),
    (extend s cs).2 = true → contents (extend s cs).1 = contents s ++ cs

/-- A lawful collector that never runs out of memory. -/
class ReliableCollector (σ : Type) extends LawfulCollector σ where
  extend_taken : ∀ (s : σ) (cs : List Clause), (extend s cs).2 = true

namespace Collector

variable {σ : Type} [Collector σ]

/-- The collector after some calls. -/
def after (s : σ) (calls : List (List Clause)) : σ :=
  calls.foldl (fun s cs => (extend s cs).1) s

theorem after_append (s : σ) (first second : List (List Clause)) :
    after s (first ++ second) = after (after s first) second :=
  List.foldl_append

/-- No call fails any more, whatever the collector is handed. -/
def Unfailing (s : σ) : Prop :=
  ∀ (calls : List (List Clause)) (cs : List Clause), (extend (after s calls) cs).2 = true

theorem Unfailing.taken {s : σ} (unfailing : Unfailing s) (cs : List Clause) :
    (extend s cs).2 = true :=
  unfailing [] cs

/-- A call leaves it so. -/
theorem Unfailing.extend {s : σ} (unfailing : Unfailing s) (cs : List Clause) :
    Unfailing (extend s cs).1 :=
  fun calls ds => unfailing (cs :: calls) ds

theorem unfailing_of_reliable {σ : Type} [ReliableCollector σ] (s : σ) : Unfailing s :=
  fun _ cs => ReliableCollector.extend_taken _ cs

end Collector

namespace Formula

@[simp]
theorem toList_append (f : Formula) (cs : List Clause) :
    (f.append cs).toList = f.toList ++ cs := by
  simp [append, toList]

theorem size_eq_length_toList (f : Formula) : f.size = f.toList.length := by
  simp [size, toList]

@[simp]
theorem toList_empty : empty.toList = [] :=
  rfl

@[simp]
theorem toList_truncate (f : Formula) (n : Nat) : (f.truncate n).toList = f.toList.take n := by
  simp [truncate, toList]

theorem clausesFrom_eq_drop (f : Formula) (n : Nat) : f.clausesFrom n = f.toList.drop n := by
  simp [clausesFrom, toList, List.take_of_length_le]

instance : LawfulCollector Formula where
  contents := toList
  clauseCount_eq := size_eq_length_toList
  contents_extend f cs := ⟨cs, List.prefix_rfl, toList_append f cs⟩
  contents_extend_of_taken f cs _ := toList_append f cs

instance : ReliableCollector Formula where
  extend_taken _ _ := rfl

end Formula

namespace LimitedFormula

theorem contents_fill (f : LimitedFormula) (cs : List Clause) :
    ∃ kept, kept <+: cs ∧ (f.fill cs).1.formula.toList = f.formula.toList ++ kept := by
  obtain ⟨formula, calls, _ | most⟩ := f
  · exact ⟨cs, List.prefix_rfl, by simp [fill]⟩
  · exact ⟨cs.take (most - formula.size), List.take_prefix _ _, by simp [fill]⟩

theorem contents_fill_of_taken (f : LimitedFormula) (cs : List Clause)
    (taken : (f.fill cs).2 = true) :
    (f.fill cs).1.formula.toList = f.formula.toList ++ cs := by
  obtain ⟨formula, calls, _ | most⟩ := f
  · simp [fill]
  · simp only [fill, decide_eq_true_eq] at taken
    simp [fill, List.take_of_length_le taken]

instance : LawfulCollector LimitedFormula where
  contents f := f.formula.toList
  clauseCount_eq f := f.formula.size_eq_length_toList
  contents_extend f cs := by
    obtain ⟨formula, _ | _ | calls, most⟩ := f
    · exact contents_fill ⟨formula, none, most⟩ cs
    · exact ⟨[], List.nil_prefix, by simp [Collector.extend, spend]⟩
    · exact contents_fill ⟨formula, some calls, most⟩ cs
  contents_extend_of_taken f cs taken := by
    obtain ⟨formula, _ | _ | calls, most⟩ := f
    · exact contents_fill_of_taken ⟨formula, none, most⟩ cs taken
    · simp [Collector.extend, spend] at taken
    · exact contents_fill_of_taken ⟨formula, some calls, most⟩ cs taken

/-- A formula without limits takes whatever it is handed. -/
theorem unfailing_of_unlimited (formula : Formula) :
    Collector.Unfailing (⟨formula, none, none⟩ : LimitedFormula) := by
  intro calls cs
  induction calls generalizing formula with
  | nil => rfl
  | cons ds rest ih => exact ih (formula.append ds)

end LimitedFormula

end CardinalityClauses
