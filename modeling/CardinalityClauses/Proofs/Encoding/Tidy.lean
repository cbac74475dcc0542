import CardinalityClauses.Proofs.Encoding.Run
import CardinalityClauses.Proofs.Encoding.Unary
import CardinalityClauses.Proofs.Supply.Freshness
import Mathlib.Data.List.Nodup

/-!
Tidy clauses.

The clauses that an encoding emits are tidy if they are neither short nor long, no variable occurs
twice in one of them, and none is emitted twice (`Tidy`).

In a tree this is so for one reason throughout. The variables of a clause at a node come from three
lists: those of the left child, those of the right child and those of the node itself, in this
order and from the last one never none (`Drawn`). Where all of these are distinct, the clause tells
which are its own and which come from where (`Drawn.eq_of_eq`). So the clauses of one node are told
apart by the counts that they speak of, and they are not clauses of the subtrees, since those have
no variable of the node (`Tidy.node`).
-/

namespace CardinalityClauses

open Unary

/-- The variables of the clause, in order. -/
def Clause.indices (c : Clause) : List Nat :=
  c.literals.map Literal.index

section Indices

variable {premises others : List Literal} {conclusion : Literal}

@[simp]
theorem Clause.indices_implication : (implication premises conclusion).indices =
    premises.map Literal.index ++ [conclusion.index] := by
  simp [indices, implication, Literal.complement, Function.comp_def]

@[simp]
theorem Clause.indices_append (c : Clause) :
    (c.append others).indices = c.indices ++ others.map Literal.index := by
  simp [indices, append]

@[simp]
theorem Clause.append_nil (c : Clause) : c.append [] = c := by
  simp [append]

@[simp]
theorem Clause.length_indices (c : Clause) : c.indices.length = c.length := by
  simp [indices, length]

theorem Clause.literalsOver_iff {on : Nat → Prop} {c : Clause} :
    LiteralsOver on c.literals ↔ ∀ i ∈ c.indices, on i := by
  simp [LiteralsOver, indices]

end Indices

/-- The clauses have at least two literals and not too many, all over some variables and none twice
over one, and they are distinct. -/
structure Tidy (most : Nat) (on : Nat → Prop) (cs : List Clause) : Prop where
  about : ClausesOver on cs
  two_le : ∀ c ∈ cs, 2 ≤ c.length
  le_most : ∀ c ∈ cs, c.length ≤ most
  distinct : ∀ c ∈ cs, c.indices.Nodup
  nodup : cs.Nodup

namespace Tidy

variable {most : Nat} {on wide : Nat → Prop} {cs ds : List Clause}

theorem nil : Tidy most on [] := by
  constructor <;> simp [ClausesOver]

theorem mono (tidy : Tidy most on cs) (le : ∀ i, on i → wide i) : Tidy most wide cs :=
  { tidy with about := tidy.about.mono le }

theorem perm (tidy : Tidy most on cs) (perm : cs.Perm ds) : Tidy most on ds where
  about c hc := tidy.about c (perm.mem_iff.2 hc)
  two_le c hc := tidy.two_le c (perm.mem_iff.2 hc)
  le_most c hc := tidy.le_most c (perm.mem_iff.2 hc)
  distinct c hc := tidy.distinct c (perm.mem_iff.2 hc)
  nodup := perm.nodup_iff.1 tidy.nodup

theorem append (first : Tidy most on cs) (second : Tidy most on ds)
    (apart : ∀ c ∈ cs, c ∉ ds) : Tidy most on (cs ++ ds) where
  about := clausesOver_append.2 ⟨first.about, second.about⟩
  two_le := List.forall_mem_append.2 ⟨first.two_le, second.two_le⟩
  le_most := List.forall_mem_append.2 ⟨first.le_most, second.le_most⟩
  distinct := List.forall_mem_append.2 ⟨first.distinct, second.distinct⟩
  nodup := first.nodup.append second.nodup apart

/-- A tidy clause has a variable. -/
theorem exists_mem_indices (tidy : Tidy most on cs) {c : Clause} (hc : c ∈ cs) :
    ∃ i ∈ c.indices, on i := by
  have long := tidy.two_le c hc
  rw [← c.length_indices] at long
  obtain ⟨i, hi⟩ := List.exists_mem_of_length_pos (Nat.zero_lt_of_lt long)
  exact ⟨i, hi, Clause.literalsOver_iff.1 (tidy.about c hc) i hi⟩

/-- The clauses below a node and those of the node, which have variables of their own. -/
theorem node {left right own : List Nat} (nodup : (left ++ right ++ own).Nodup)
    {below below' here : List Clause} (tidyLeft : Tidy most (· ∈ left) below)
    (tidyRight : Tidy most (· ∈ right) below')
    (tidyOwn : Tidy most (· ∈ left ++ right ++ own) here)
    (owns : ∀ c ∈ here, ∃ i ∈ c.indices, i ∈ own) :
    Tidy most (· ∈ left ++ right ++ own) (below ++ below' ++ here) := by
  obtain ⟨children, -, apartOwn⟩ := List.nodup_append.1 nodup
  obtain ⟨-, -, apart⟩ := List.nodup_append.1 children
  refine append (append ?_ ?_ ?_) tidyOwn ?_
  · exact tidyLeft.mono fun i hi => List.mem_append_left _ (List.mem_append_left _ hi)
  · exact tidyRight.mono fun i hi => List.mem_append_left _ (List.mem_append_right _ hi)
  · intro c hc hc'
    obtain ⟨i, hi, inLeft⟩ := tidyLeft.exists_mem_indices hc
    exact apart i inLeft i (Clause.literalsOver_iff.1 (tidyRight.about c hc') i hi) rfl
  · intro c hc hc'
    obtain ⟨i, hi, inOwn⟩ := owns c hc'
    refine apartOwn i ?_ i inOwn rfl
    rcases List.mem_append.1 hc with hc | hc
    · exact List.mem_append_left _ (Clause.literalsOver_iff.1 (tidyLeft.about c hc) i hi)
    · exact List.mem_append_right _ (Clause.literalsOver_iff.1 (tidyRight.about c hc) i hi)

end Tidy

/-! ### Clauses with variables from three lists -/

/-- The variables of the clause are `p`, `q` and `o`, drawn from three lists. -/
structure Drawn (left right own p q o : List Nat) (c : Clause) : Prop where
  indices_eq : c.indices = p ++ q ++ o
  fromLeft : p.Sublist left
  fromRight : q.Sublist right
  fromOwn : o.Sublist own
  nonempty : o ≠ []

namespace Drawn

variable {left right own p q o p' q' o' : List Nat} {c : Clause}

theorem distinct (drawn : Drawn left right own p q o c) (nodup : (left ++ right ++ own).Nodup) :
    c.indices.Nodup := by
  rw [drawn.indices_eq]
  exact nodup.sublist ((drawn.fromLeft.append drawn.fromRight).append drawn.fromOwn)

theorem about (drawn : Drawn left right own p q o c) :
    LiteralsOver (· ∈ left ++ right ++ own) c.literals := by
  rw [Clause.literalsOver_iff, drawn.indices_eq]
  exact fun i hi => ((drawn.fromLeft.append drawn.fromRight).append drawn.fromOwn).subset hi

theorem owns (drawn : Drawn left right own p q o c) : ∃ i ∈ c.indices, i ∈ own := by
  obtain ⟨i, hi⟩ := List.exists_mem_of_ne_nil o drawn.nonempty
  exact ⟨i, by simp [drawn.indices_eq, hi], drawn.fromOwn.subset hi⟩

theorem length_eq (drawn : Drawn left right own p q o c) :
    c.length = p.length + q.length + o.length := by
  rw [← c.length_indices, drawn.indices_eq, List.length_append, List.length_append]

/-- A clause tells what was drawn from where. -/
theorem eq_of_eq (drawn : Drawn left right own p q o c) (drawn' : Drawn left right own p' q' o' c)
    (nodup : (left ++ right ++ own).Nodup) : p = p' ∧ q = q' ∧ o = o' := by
  obtain ⟨children, -, apartOwn⟩ := List.nodup_append.1 nodup
  obtain ⟨-, -, apart⟩ := List.nodup_append.1 children
  -- The variables of the left list are those that the clause has from there.
  have ofLeft {p q o : List Nat} (drawn : Drawn left right own p q o c) :
      c.indices.filter (· ∈ left) = p := by
    have keep : p.filter (· ∈ left) = p :=
      List.filter_eq_self.2 fun i hi => by simpa using drawn.fromLeft.subset hi
    have dropRight : q.filter (· ∈ left) = [] := List.filter_eq_nil_iff.2 fun i hi => by
      simpa using fun inLeft => apart i inLeft i (drawn.fromRight.subset hi) rfl
    have dropOwn : o.filter (· ∈ left) = [] := List.filter_eq_nil_iff.2 fun i hi => by
      simpa using fun inLeft =>
        apartOwn i (List.mem_append_left _ inLeft) i (drawn.fromOwn.subset hi) rfl
    rw [drawn.indices_eq, List.filter_append, List.filter_append, keep, dropRight, dropOwn,
      List.append_nil, List.append_nil]
  have same : p = p' := (ofLeft drawn).symm.trans (ofLeft drawn')
  have rest : q ++ o = q' ++ o' := by
    have both := drawn.indices_eq.symm.trans drawn'.indices_eq
    rw [same, List.append_assoc, List.append_assoc] at both
    exact List.append_cancel_left both
  have ofRight {p q o : List Nat} (drawn : Drawn left right own p q o c) :
      (q ++ o).filter (· ∈ right) = q := by
    have keep : q.filter (· ∈ right) = q :=
      List.filter_eq_self.2 fun i hi => by simpa using drawn.fromRight.subset hi
    have dropOwn : o.filter (· ∈ right) = [] := List.filter_eq_nil_iff.2 fun i hi => by
      simpa using fun inRight =>
        apartOwn i (List.mem_append_right _ inRight) i (drawn.fromOwn.subset hi) rfl
    rw [List.filter_append, keep, dropOwn, List.append_nil]
  have same' : q = q' := by rw [← ofRight drawn, ← ofRight drawn', rest]
  rw [same'] at rest
  exact ⟨same, same', List.append_cancel_left rest⟩

end Drawn

/-- The literals of two children and of the node are over distinct variables. -/
abbrev DistinctAt (left right own : List Literal) : Prop :=
  (left.map Literal.index ++ right.map Literal.index ++ own.map Literal.index).Nodup

/-- What a clause draws from two children and from the node. -/
abbrev DrawnAt (left right own premises premises' : List Literal) (o : List Nat) (c : Clause) :
    Prop :=
  Drawn (left.map Literal.index) (right.map Literal.index) (own.map Literal.index)
    (premises.map Literal.index) (premises'.map Literal.index) o c

theorem drawn_implication {left right own premises premises' others : List Literal} {l : Literal}
    (fromLeft : premises.Sublist left) (fromRight : premises'.Sublist right)
    (fromOwn : ((l :: others).map Literal.index).Sublist (own.map Literal.index)) :
    DrawnAt left right own premises premises' ((l :: others).map Literal.index)
      ((Clause.implication (premises ++ premises') l).append others) where
  indices_eq := by simp
  fromLeft := fromLeft.map _
  fromRight := fromRight.map _
  fromOwn := fromOwn
  nonempty := List.cons_ne_nil _ _

theorem tidy_of_drawn {most : Nat} {left right own : List Nat} {cs : List Clause}
    (nodup : (left ++ right ++ own).Nodup)
    (drawn : ∀ c ∈ cs, ∃ p q o, Drawn left right own p q o c ∧
      2 ≤ p.length + q.length + o.length ∧ p.length + q.length + o.length ≤ most)
    (nodup' : cs.Nodup) :
    Tidy most (· ∈ left ++ right ++ own) cs ∧ ∀ c ∈ cs, ∃ i ∈ c.indices, i ∈ own := by
  refine ⟨⟨fun c hc => ?_, fun c hc => ?_, fun c hc => ?_, fun c hc => ?_, nodup'⟩,
    fun c hc => ?_⟩ <;> obtain ⟨p, q, o, drawn, two, few⟩ := drawn c hc
  · exact drawn.about
  · rwa [drawn.length_eq]
  · rwa [drawn.length_eq]
  · exact drawn.distinct nodup
  · exact drawn.owns

/-! ### What counters contribute -/

section Counters

variable {counter : List Literal} {i i' : Nat}

theorem sublist_getElem? {α : Type} (xs : List α) (i : Nat) : xs[i]?.toList.Sublist xs := by
  cases found : xs[i]? with
  | none => exact List.nil_sublist _
  | some x => exact List.singleton_sublist.2 (List.mem_of_getElem? found)

theorem sublist_atLeast (counter : List Literal) (i : Nat) :
    (atLeast counter i).Sublist counter := by
  unfold atLeast
  split
  · exact List.nil_sublist _
  · exact sublist_getElem? counter _

theorem map_index_atMost (counter : List Literal) (i : Nat) :
    (atMost counter i).map Literal.index = (counter.map Literal.index)[i]?.toList := by
  cases found : counter[i]? <;> simp [atMost, found, Literal.complement]

theorem sublist_map_index_atMost (counter : List Literal) (i : Nat) :
    ((atMost counter i).map Literal.index).Sublist (counter.map Literal.index) := by
  rw [map_index_atMost]
  exact sublist_getElem? _ i

theorem map_index_atLeast (counter : List Literal) (i : Nat) :
    (atLeast counter i).map Literal.index =
      if i = 0 then [] else (counter.map Literal.index)[i - 1]?.toList := by
  unfold atLeast
  split
  · rfl
  · cases found : counter[i - 1]? <;> simp [found]

theorem length_atLeast (inside : i ≤ counter.length) : (atLeast counter i).length = min i 1 := by
  unfold atLeast
  split
  · simp_all
  · have found : counter[i - 1]? = some counter[i - 1] := List.getElem?_eq_getElem (by omega)
    rw [found, Option.toList_some, List.length_singleton]
    omega

theorem length_atMost (inside : i ≤ counter.length) :
    (atMost counter i).length = min (counter.length - i) 1 := by
  unfold atMost
  rcases Nat.lt_or_eq_of_le inside with lt | eq
  · rw [List.getElem?_eq_getElem lt, Option.toList_some, List.length_map, List.length_singleton]
    omega
  · simp [eq]

theorem getElem?_toList_inj {indices : List Nat} (nodup : indices.Nodup)
    (inside : i ≤ indices.length) (inside' : i' ≤ indices.length)
    (eq : indices[i]?.toList = indices[i']?.toList) : i = i' := by
  have same : indices[i]? = indices[i']? :=
    Option.ext fun x => by rw [← Option.mem_toList, eq, Option.mem_toList]
  rcases Nat.lt_or_eq_of_le inside with lt | rfl
  · exact (List.getElem?_inj lt nodup).1 same
  · rw [List.getElem?_eq_none (Nat.le_refl _), eq_comm, List.getElem?_eq_none_iff] at same
    exact Nat.le_antisymm same inside'

/-- Which number a counter of distinct variables is said to reach shows in the variable. -/
theorem atLeast_inj (nodup : (counter.map Literal.index).Nodup) (inside : i ≤ counter.length)
    (inside' : i' ≤ counter.length)
    (eq : (atLeast counter i).map Literal.index = (atLeast counter i').map Literal.index) :
    i = i' := by
  have lengths := congrArg List.length eq
  rw [List.length_map, List.length_map, length_atLeast inside, length_atLeast inside'] at lengths
  by_cases zero : i = 0
  · omega
  · rw [map_index_atLeast, map_index_atLeast, if_neg zero, if_neg (by omega)] at eq
    have := getElem?_toList_inj nodup (by simp; omega) (by simp; omega) eq
    omega

/-- The same for a number that it is said to stay within. -/
theorem atMost_inj (nodup : (counter.map Literal.index).Nodup) (inside : i ≤ counter.length)
    (inside' : i' ≤ counter.length)
    (eq : (atMost counter i).map Literal.index = (atMost counter i').map Literal.index) :
    i = i' := by
  rw [map_index_atMost, map_index_atMost] at eq
  exact getElem?_toList_inj nodup (by simpa using inside) (by simpa using inside') eq

end Counters

/-! ### Blocks of variables -/

namespace VariableSupply

theorem block_append (start m n : Nat) :
    block start m ++ block (start + m) n = block start (m + n) := by
  simp [block, List.range_add, Nat.add_assoc]

/-- As long as literals can carry them, the indices of a block are those from its start on. -/
theorem map_index_block_of_room {start n : Nat} (room : start + n ≤ Variable.maxIndex + 1) :
    (block start n).map Literal.index = List.range' start n := by
  rw [map_index_block, List.range'_eq_map_range]
  refine List.map_congr_left fun k hk => Nat.mod_eq_of_lt ?_
  have inside := List.mem_range.1 hk
  omega

end VariableSupply

/-! ### Lists of clauses without repetition -/

/-- Entries for pairs of numbers, none of which two pairs have in common. -/
theorem nodup_grid {α : Type} {m n : Nat} {entries : Nat → Nat → List α}
    (each : ∀ i ≤ m, ∀ j ≤ n, (entries i j).Nodup)
    (apart : ∀ i ≤ m, ∀ j ≤ n, ∀ i' ≤ m, ∀ j' ≤ n, ∀ x ∈ entries i j, x ∈ entries i' j' →
      i = i' ∧ j = j') :
    ((List.range (m + 1)).flatMap fun i => (List.range (n + 1)).flatMap (entries i)).Nodup := by
  have le {k l : Nat} (mem : k ∈ List.range (l + 1)) : k ≤ l :=
    Nat.le_of_lt_succ (List.mem_range.1 mem)
  refine List.nodup_flatMap.2 ⟨fun i hi => List.nodup_flatMap.2 ⟨fun j hj => ?_, ?_⟩, ?_⟩
  · exact each i (le hi) j (le hj)
  · refine List.nodup_range.pairwise_of_forall_ne fun j hj j' hj' ne x mem mem' => ne ?_
    exact (apart i (le hi) j (le hj) i (le hi) j' (le hj') x mem mem').2
  · refine List.nodup_range.pairwise_of_forall_ne fun i hi i' hi' ne x mem mem' => ne ?_
    obtain ⟨j, hj, mem⟩ := List.mem_flatMap.1 mem
    obtain ⟨j', hj', mem'⟩ := List.mem_flatMap.1 mem'
    exact (apart i (le hi) j (le hj) i' (le hi') j' (le hj') x mem mem').1

/-- At most one entry for every pair. -/
theorem nodup_grid_option {α : Type} {m n : Nat} {entry : Nat → Nat → Option α}
    (apart : ∀ i ≤ m, ∀ j ≤ n, ∀ i' ≤ m, ∀ j' ≤ n, ∀ x, entry i j = some x →
      entry i' j' = some x → i = i' ∧ j = j') :
    ((List.range (m + 1)).flatMap fun i => (List.range (n + 1)).filterMap (entry i)).Nodup := by
  simp only [List.filterMap_eq_flatMap_toList]
  refine nodup_grid (fun i _ j _ => ?_) fun i hi j hj i' hi' j' hj' x mem mem' => ?_
  · cases entry i j <;> simp
  · exact apart i hi j hj i' hi' j' hj' x (Option.mem_toList.1 mem) (Option.mem_toList.1 mem')

theorem Batch.nodup_ofMade {made : List (Except Fault Clause)} (nodup : made.Nodup) :
    (Batch.ofMade made).clauses.Nodup := by
  refine List.Nodup.filterMap ?_ (nodup.sublist (List.takeWhile_sublist _))
  rintro (f | c) (f' | c') d taken taken' <;> cases taken <;> cases taken'
  rfl

end CardinalityClauses
