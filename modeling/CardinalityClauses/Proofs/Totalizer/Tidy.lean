import CardinalityClauses.Proofs.Encoding.Tidy
import CardinalityClauses.Proofs.Totalizer.Build

/-!
What a totalizer emits is tidy.

The literals of a tree are its inputs and the outputs of its inner nodes. Where they are over
distinct variables, the clauses of its adders have two or three literals each, over distinct
variables, and no clause stands for two pairs of counts or for two nodes (`Tree.Sized.tidy`). After
a build they are: next to the inputs they are the block of variables that the build took
(`Tree.literals_grow`).
-/

namespace CardinalityClauses.Totalizer

open Unary
open VariableSupply (block block_append)

/-! ### One adder -/

section Adder

variable {left right outputs : List Literal} {direction : Direction} {l r : Nat} {output : Literal}

theorem drawn_reach (mem : output ∈ outputs) (l r : Nat) :
    DrawnAt left right outputs (atLeast left l) (atLeast right r) [output.index]
      (.implication (atLeast left l ++ atLeast right r) output) := by
  simpa using drawn_implication (sublist_atLeast left l) (sublist_atLeast right r)
    ((List.singleton_sublist.2 mem).map Literal.index)

theorem drawn_exceed (mem : output ∈ outputs) (l r : Nat) :
    DrawnAt left right outputs (atMost left l) (atMost right r) [output.index]
      (.implication (atMost left l ++ atMost right r) output.complement) where
  indices_eq := by simp [Literal.complement]
  fromLeft := sublist_map_index_atMost left l
  fromRight := sublist_map_index_atMost right r
  fromOwn := List.singleton_sublist.2 (List.mem_map_of_mem mem)
  nonempty := List.cons_ne_nil _ _

theorem nodup_adder (narrow : outputs.length ≤ left.length + right.length)
    (nodup : DistinctAt left right outputs) :
    (adder direction left right outputs).clauses.Nodup := by
  obtain ⟨nodupLeft, nodupRight, -⟩ := List.nodup_append.1 (List.nodup_append.1 nodup).1
  cases direction with
  | atMost =>
      refine nodup_grid_option fun l hl r hr l' hl' r' hr' c made made' => ?_
      obtain ⟨-, output, found, rfl⟩ := reachClause_eq_some.1 made
      obtain ⟨-, output', found', same⟩ := reachClause_eq_some.1 made'
      have drawn' : DrawnAt left right outputs _ _ _ _ :=
        drawn_reach (List.mem_of_getElem? found') l' r'
      obtain ⟨sameLeft, sameRight, -⟩ := (drawn_reach (List.mem_of_getElem? found) l r).eq_of_eq
        (same ▸ drawn') nodup
      exact ⟨atLeast_inj nodupLeft hl hl' sameLeft, atLeast_inj nodupRight hr hr' sameRight⟩
  | atLeast =>
      refine Batch.nodup_ofMade (nodup_grid_option fun l hl r hr l' hl' r' hr' c made made' => ?_)
      obtain ⟨output, found, rfl⟩ := (exceedClause_eq_some narrow).1 made
      obtain ⟨output', found', same⟩ := (exceedClause_eq_some narrow).1 made'
      have drawn' : DrawnAt left right outputs _ _ _ _ :=
        drawn_exceed (List.mem_of_getElem? found') l' r'
      obtain ⟨sameLeft, sameRight, -⟩ := (drawn_exceed (List.mem_of_getElem? found) l r).eq_of_eq
        (Except.ok.inj same ▸ drawn') nodup
      exact ⟨atMost_inj nodupLeft hl hl' sameLeft, atMost_inj nodupRight hr hr' sameRight⟩

/-- The clauses of an adder are tidy, and each of them has an output of the node. -/
theorem tidy_adder (narrow : outputs.length ≤ left.length + right.length)
    (nodup : DistinctAt left right outputs) :
    Tidy 3 (· ∈ left.map Literal.index ++ right.map Literal.index ++ outputs.map Literal.index)
        (adder direction left right outputs).clauses ∧
      ∀ c ∈ (adder direction left right outputs).clauses,
        ∃ i ∈ c.indices, i ∈ outputs.map Literal.index := by
  refine tidy_of_drawn nodup (fun c hc => ?_) (nodup_adder narrow nodup)
  cases direction with
  | atMost =>
      obtain ⟨l, hl, r, hr, positive, output, found, rfl⟩ := mem_adder_atMost.1 hc
      refine ⟨_, _, _, drawn_reach (List.mem_of_getElem? found) l r, ?_⟩
      simp only [List.length_map, length_atLeast hl, length_atLeast hr, List.length_singleton]
      omega
  | atLeast =>
      obtain ⟨l, hl, r, hr, output, found, rfl⟩ := (mem_adder_atLeast narrow).1 hc
      refine ⟨_, _, _, drawn_exceed (List.mem_of_getElem? found) l r, ?_⟩
      have inside := (List.getElem?_eq_some_iff.1 found).1
      simp only [List.length_map, length_atMost hl, length_atMost hr, List.length_singleton]
      omega

end Adder

/-! ### The whole tree -/

namespace Tree

/-- The literals of all nodes: the inputs and the outputs. -/
def literals : Tree → List Literal
  | leaf input => [input]
  | node outputs left right => left.literals ++ right.literals ++ outputs

/-- The nodes of the layout have them. -/
theorem flatMap_outputs_layout (tree : Tree) (start : Nat) :
    (tree.layout start).flatMap Node.outputs = tree.literals := by
  induction tree generalizing start with
  | leaf input => rfl
  | node outputs left right ihLeft ihRight =>
      simp [layout, literals, ihLeft, ihRight, Node.outputs]

theorem outputs_sublist_literals (tree : Tree) : tree.outputs.Sublist tree.literals := by
  cases tree with
  | leaf input => exact List.Sublist.refl _
  | node outputs left right => exact List.sublist_append_right _ _

variable {limit : Nat} {tree : Tree} {direction : Direction}

theorem Sized.tidy (sized : tree.Sized limit) (nodup : (tree.literals.map Literal.index).Nodup) :
    Tidy 3 (· ∈ tree.literals.map Literal.index) (tree.clauses direction) := by
  induction tree with
  | leaf input => exact .nil
  | node outputs left right ihLeft ihRight =>
      simp only [literals, List.map_append] at nodup ⊢
      obtain ⟨nodupLeft, nodupRight, -⟩ := List.nodup_append.1 (List.nodup_append.1 nodup).1
      have drawn := (((left.outputs_sublist_literals.map Literal.index).append
        (right.outputs_sublist_literals.map Literal.index)).append
          (List.Sublist.refl (outputs.map Literal.index)))
      obtain ⟨tidy, owns⟩ := tidy_adder sized.narrow (nodup.sublist drawn)
      exact Tidy.node nodup (ihLeft sized.2.1 nodupLeft) (ihRight sized.2.2 nodupRight)
        (tidy.mono fun i hi => drawn.subset hi) owns

/-- After its growth a tree has the inputs and a block of variables. -/
theorem literals_grow (width : Nat → Nat) (shape : Halving Literal) (next : Nat) :
    (grow width shape next).1.literals.Perm
      (shape.toList ++ block next (demand width shape)) := by
  induction shape generalizing next with
  | tip input => exact List.Perm.refl _
  | fork left right ihLeft ihRight =>
      rw [grow_fork, literals, Halving.toList, demand, ← block_append, ← block_append]
      refine (((ihLeft next).append (ihRight _)).append_right _).trans ?_
      rw [List.perm_iff_count]
      intro l
      simp only [List.count_append, Nat.add_assoc]
      omega

end Tree

end CardinalityClauses.Totalizer
