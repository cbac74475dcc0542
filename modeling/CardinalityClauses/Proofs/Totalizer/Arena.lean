import CardinalityClauses.Proofs.Encoding.Arena
import CardinalityClauses.Proofs.Totalizer.Build

/-!
The arena of a totalizer.

The nodes of a tree are laid out children first, what is below the left child before what is below
the right one. So children stand before their parent, and the root stands last.
-/

namespace CardinalityClauses.Totalizer

open Arena

namespace Node

/-- The positions of the children. -/
def children : Node → Option (Nat × Nat)
  | leaf _ => none
  | internal _ _ _ left right => some (left, right)

/-- What a node has of its own above a tree over some inputs: it counts up to their number, and its
children stand before it. -/
def Own (position : Nat) : Node → Halving Literal → Prop
  | leaf input, .tip value => input = value
  | internal _ depth maxValue left right, .fork leftShape rightShape =>
      maxValue = (Halving.fork leftShape rightShape).size ∧
        depth = (Halving.fork leftShape rightShape).depth ∧ left < position ∧ right < position
  | _, _ => False

end Node

namespace Tree

/-- How the inputs are halved. -/
def shape : Tree → Halving Literal
  | leaf input => .tip input
  | node _ left right => .fork left.shape right.shape

theorem shape_grow (width : Nat → Nat) (halved : Halving Literal) (next : Nat) :
    (grow width halved next).1.shape = halved := by
  induction halved generalizing next with
  | tip input => rfl
  | fork left right ihLeft ihRight => rw [grow_fork, shape, ihLeft, ihRight]

theorem inputCount_eq_size (tree : Tree) : tree.inputCount = tree.shape.size := by
  induction tree with
  | leaf input => rfl
  | node outputs left right ihLeft ihRight => simp only [inputCount, shape, Halving.size, *]

theorem depth_eq_depth (tree : Tree) : tree.depth = tree.shape.depth := by
  induction tree with
  | leaf input => rfl
  | node outputs left right ihLeft ihRight => simp only [depth, shape, Halving.depth, *]

/-- A binary tree has one inner node less than it has leaves. -/
theorem nodeCount_eq (tree : Tree) : tree.nodeCount + 1 = 2 * tree.shape.size := by
  induction tree with
  | leaf input => rfl
  | node outputs left right ihLeft ihRight =>
      simp only [nodeCount, shape, Halving.size]
      omega

theorem nodeCount_pos (tree : Tree) : 0 < tree.nodeCount := by
  have := tree.nodeCount_eq
  have := tree.shape.size_pos
  omega

/-- The root and the children are all nodes of the layout. -/
theorem perm_kids_layout (tree : Tree) (start : Nat) :
    ((start + tree.nodeCount - 1) :: (tree.layout start).flatMap (kids Node.children)).Perm
      (List.range' start tree.nodeCount) := by
  induction tree generalizing start with
  | leaf input => exact List.Perm.refl _
  | node outputs left right ihLeft ihRight =>
      have both : List.range' start (left.nodeCount + right.nodeCount + 1) =
          List.range' start left.nodeCount ++
            List.range' (start + left.nodeCount) right.nodeCount ++
              [start + left.nodeCount + right.nodeCount] := by
        rw [List.range'_append_1, List.range'_1_concat, Nat.add_assoc]
      rw [nodeCount, both, List.perm_iff_count]
      intro position
      have countLeft := (List.perm_iff_count.1 (ihLeft start)) position
      have countRight := (List.perm_iff_count.1 (ihRight (start + left.nodeCount))) position
      simp only [layout, List.flatMap_append, List.flatMap_cons, List.flatMap_nil, kids,
        Node.children, List.count_append, List.count_cons, List.count_nil, List.append_nil]
        at countLeft countRight ⊢
      rw [show start + (left.nodeCount + right.nodeCount + 1) - 1 =
        start + left.nodeCount + right.nodeCount by omega]
      omega

/-- Wherever the layout of a tree is part of an arena, the tree stands at its root and some tree at
each of its nodes. -/
theorem stands_layout {nodes : List Node} (tree : Tree) (start : Nat)
    (part : PartAt nodes start (tree.layout start)) :
    Stands Node.children Node.Own nodes (start + tree.nodeCount - 1) tree.shape ∧
      ∀ i < tree.nodeCount, ∃ shape, Stands Node.children Node.Own nodes (start + i) shape := by
  induction tree generalizing start with
  | leaf input =>
      have here : Stands Node.children Node.Own nodes start (.tip input) :=
        .tip part.head rfl rfl
      refine ⟨here, fun i lt => ?_⟩
      obtain rfl : i = 0 := Nat.lt_one_iff.1 lt
      exact ⟨_, here⟩
  | node outputs left right ihLeft ihRight =>
      have partRight := part.left.right
      have root := part.right.head
      rw [List.length_append, length_layout, length_layout, ← Nat.add_assoc] at root
      rw [length_layout] at partRight
      obtain ⟨standsLeft, allLeft⟩ := ihLeft start part.left.left
      obtain ⟨standsRight, allRight⟩ := ihRight _ partRight
      have := left.nodeCount_pos
      have := right.nodeCount_pos
      have stands : Stands Node.children Node.Own nodes (start + left.nodeCount + right.nodeCount)
          (node outputs left right).shape := by
        refine .fork root rfl ⟨?_, ?_, ?_, ?_⟩ standsLeft standsRight
        · rw [inputCount_eq_size, inputCount_eq_size, Halving.size]
        · rw [depth_eq_depth, depth_eq_depth, Halving.depth]
        · omega
        · omega
      have last : start + (node outputs left right).nodeCount - 1 =
          start + left.nodeCount + right.nodeCount := by
        simp only [nodeCount]
        omega
      refine ⟨last ▸ stands, fun i lt => ?_⟩
      rw [nodeCount] at lt
      rcases Nat.lt_trichotomy i (left.nodeCount + right.nodeCount) with below | rfl | above
      · rcases Nat.lt_or_ge i left.nodeCount with inLeft | inRight
        · exact allLeft i inLeft
        · have found := allRight (i - left.nodeCount) (by omega)
          rwa [show start + left.nodeCount + (i - left.nodeCount) = start + i by omega] at found
      · exact ⟨_, by rwa [← Nat.add_assoc]⟩
      · omega

/-- An arena that is the layout of a tree. -/
theorem holds_layout (tree : Tree) :
    Holds Node.children Node.Own (tree.layout 0) (tree.nodeCount - 1) tree.shape.toList := by
  have length := tree.length_layout 0
  obtain ⟨reads, stands⟩ := tree.stands_layout 0 (partAt_self _)
  rw [Nat.zero_add] at reads
  refine .of_owned ?_ ?_ ⟨_, reads, rfl⟩ fun position inside => ?_
  · have := tree.nodeCount_eq
    rw [length, Halving.length_toList]
    omega
  · have perm := tree.perm_kids_layout 0
    rw [Nat.zero_add, ← List.range_eq_range'] at perm
    rwa [length]
  · have found := stands position (length ▸ inside)
    rwa [Nat.zero_add] at found

end Tree

/-- The root knows how deep the tree below it is. -/
theorem depth_of_stands {t : Totalizer} {position : Nat} {shape : Halving Literal}
    (root : t.root = some position)
    (stands : Stands Node.children Node.Own t.nodes position shape) :
    t.depth = .ok shape.depth := by
  have found : ∃ node, t.nodes[position]? = some node ∧ node.depth = shape.depth := by
    cases stands with
    | @tip _ node input found childless own =>
        refine ⟨node, found, ?_⟩
        cases node with
        | leaf input => rfl
        | internal outputs depth maxValue left right => cases childless
    | @fork _ _ _ node _ _ found linked own below beside =>
        refine ⟨node, found, ?_⟩
        cases node with
        | leaf input => cases linked
        | internal outputs depth maxValue left right => exact own.2.1
  obtain ⟨node, found, deep⟩ := found
  simp only [depth, rootNode, root, found]
  exact congrArg Except.ok deep

end CardinalityClauses.Totalizer
