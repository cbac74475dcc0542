import CardinalityClauses.Proofs.Encoding.Arena
import CardinalityClauses.Proofs.ModularTotalizer.Calls

/-!
The arena of a modular totalizer.

The nodes of a tree are laid out parents first, the two children of a node side by side. So children
stand after their parent, and the root stands first. How many literals the parts of a node have is
decided by the number of inputs below it; only the root, which was made first, has a lower part of
full length.
-/

namespace CardinalityClauses.ModularTotalizer

open Arena
open VariableSupply (block length_block)

namespace Node

/-- What a node has of its own above a tree over some inputs. An input is its own lower part. Above
several inputs the upper part has a literal for every multiple of the modulus that they can come to,
the lower part for every rest, and with an upper part there is a carry. The children stand after
the node. -/
def Own (modulus position : Nat) (node : Node) : Halving Literal → Prop
  | .tip input => node = ⟨[], [input], none, none⟩
  | .fork leftShape rightShape =>
      let inputs := (Halving.fork leftShape rightShape).size
      node.upper.length = inputs / modulus ∧
        node.lower.length = (if position = 0 then modulus - 1 else min (modulus - 1) inputs) ∧
        (node.carry.isSome = true ↔ node.upper ≠ []) ∧
        ∀ left right, node.children = some (left, right) → position < left ∧ position < right

end Node

namespace Tree

/-- How the inputs are halved. -/
def shape : Tree → Halving Literal
  | leaf input => .tip input
  | node _ _ _ left right => .fork left.shape right.shape

/-- The parts of a node have the lengths that go with the inputs below it, and with an upper part
there is a carry. -/
structure PartsExact (modulus : Nat) (upper lower : List Literal) (carry : Option Literal)
    (inputs : Nat) (full : Bool) : Prop where
  length_upper : upper.length = inputs / modulus
  length_lower : lower.length = if full then modulus - 1 else min (modulus - 1) inputs
  carry_iff : carry.isSome = true ↔ upper ≠ []

/-- The parts of all nodes have these lengths; the lower part of the root may be full. -/
def Exact (modulus : Nat) (full : Bool) : Tree → Prop
  | leaf _ => True
  | node upper lower carry left right =>
      PartsExact modulus upper lower carry (left.shape.size + right.shape.size) full ∧
        left.Exact modulus false ∧ right.Exact modulus false

section Grow

variable {modulus : Nat}

theorem isSome_carry {upper : List Literal} {n : Nat} (length : upper.length = n) (next : Nat) :
    (block next (min 1 n))[0]?.isSome = true ↔ upper ≠ [] := by
  rw [← List.length_pos_iff, length, isSome_getElem?, length_block]
  omega

theorem shape_grow (two : 2 ≤ modulus) {halved : Halving Literal} {upper lower : List Literal}
    (fit : PartsFit modulus halved upper lower) (next : Nat) :
    (grow modulus halved upper lower next).1.shape = halved := by
  induction halved generalizing upper lower next with
  | tip input => rfl
  | fork left right ihLeft ihRight =>
      rw [grow_fork two fit, shape, child, child, ihLeft (partsFit_fresh two left _),
        ihRight (partsFit_fresh two right _)]

theorem shape_child (two : 2 ≤ modulus) (halved : Halving Literal) (parts rest : Nat) :
    (child modulus halved parts rest).shape = halved :=
  shape_grow two (partsFit_fresh two halved parts) rest

theorem exact_child (two : 2 ≤ modulus) (halved : Halving Literal) (parts rest : Nat) :
    (child modulus halved parts rest).Exact modulus false := by
  induction halved generalizing parts rest with
  | tip input => trivial
  | fork left right ihLeft ihRight =>
      rw [child, grow_fork two (partsFit_fresh two _ parts)]
      refine ⟨⟨?_, ?_, ?_⟩, ihLeft _ _, ihRight _ _⟩
      · simp [shape_child two, upperWidth, upperCount]
      · simp [shape_child two, lowerWidth, lowerCount]
      · exact isSome_carry (length_block _ _) _

/-- The tree of a fork below given parts. -/
theorem exact_fork (two : 2 ≤ modulus) {left right : Halving Literal} {upper lower : List Literal}
    (fit : PartsFit modulus (.fork left right) upper lower)
    (full : lower.length = modulus - 1) (next : Nat) :
    (grow modulus (.fork left right) upper lower next).1.Exact modulus true := by
  rw [grow_fork two fit]
  refine ⟨⟨?_, full, isSome_carry fit.1 _⟩, exact_child two left _ _, exact_child two right _ _⟩
  rw [shape_child two, shape_child two]
  exact fit.1

end Grow

/-! ### The layout -/

/-- A binary tree has one inner node less than it has leaves. -/
theorem descendantCount_eq (tree : Tree) : tree.descendantCount + 2 = 2 * tree.shape.size := by
  induction tree with
  | leaf input => rfl
  | node upper lower carry left right ihLeft ihRight =>
      simp only [descendantCount, shape, Halving.size]
      omega

/-- The children of the root and of the nodes below it are all nodes below the root. -/
theorem perm_kids_descendants (tree : Tree) (start : Nat) :
    (kids Node.children (tree.rootNode start) ++
      (tree.descendants start).flatMap (kids Node.children)).Perm
        (List.range' start tree.descendantCount) := by
  induction tree generalizing start with
  | leaf input => exact List.Perm.refl _
  | node upper lower carry left right ihLeft ihRight =>
      have both : List.range' start (left.descendantCount + right.descendantCount + 2) =
          start :: (start + 1) :: (List.range' (start + 2) left.descendantCount ++
            List.range' (start + 2 + left.descendantCount) right.descendantCount) := by
        rw [List.range'_append_1]
        rfl
      rw [descendantCount, both, List.perm_iff_count]
      intro position
      have countLeft := List.perm_iff_count.1 (ihLeft (start + 2)) position
      have countRight :=
        List.perm_iff_count.1 (ihRight (start + 2 + left.descendantCount)) position
      simp only [rootNode, descendants, kids, List.flatMap_cons, List.flatMap_append,
        List.count_append, List.count_cons, List.count_nil] at countLeft countRight ⊢
      omega

/-- Wherever the root of a tree and the nodes below it are part of an arena, the tree stands at the
root and some tree at each of the other nodes. -/
theorem stands_descendants {modulus : Nat} {nodes : List Node} (tree : Tree) {full : Bool}
    {position start : Nat} (exact_ : tree.Exact modulus full)
    (root : nodes[position]? = some (tree.rootNode start))
    (part : PartAt nodes start (tree.descendants start)) (before : position < start)
    (top : full = decide (position = 0)) :
    Stands Node.children (Node.Own modulus) nodes position tree.shape ∧
      ∀ i < tree.descendantCount,
        ∃ shape, Stands Node.children (Node.Own modulus) nodes (start + i) shape := by
  induction tree generalizing full position start with
  | leaf input => exact ⟨.tip root rfl rfl, fun i lt => absurd lt (Nat.not_lt_zero i)⟩
  | node upper lower carry left right ihLeft ihRight =>
      obtain ⟨parts, exactLeft, exactRight⟩ := exact_
      have below := part.tail.tail
      have partRight := below.right
      rw [length_descendants] at partRight
      -- Only the root stands at the front, so no child has a full lower part.
      have child (k : Nat) : false = decide (start + k = 0) := by
        simp only [Bool.false_eq, decide_eq_false_iff_not]
        omega
      obtain ⟨standsLeft, allLeft⟩ :=
        ihLeft exactLeft part.head below.left (by omega) (child 0)
      obtain ⟨standsRight, allRight⟩ :=
        ihRight exactRight part.tail.head partRight (by omega) (child 1)
      constructor
      · refine .fork root rfl ⟨parts.length_upper, ?_, parts.carry_iff, ?_⟩ standsLeft standsRight
        · have length := parts.length_lower
          simp only [top, decide_eq_true_eq] at length
          exact length
        · rintro _ _ ⟨⟩
          omega
      · intro i lt
        rw [descendantCount] at lt
        obtain _ | _ | i := i
        · exact ⟨_, standsLeft⟩
        · exact ⟨_, standsRight⟩
        · rcases Nat.lt_or_ge i left.descendantCount with inLeft | inRight
          · have found := allLeft i inLeft
            rwa [show start + 2 + i = start + (i + 2) by omega] at found
          · have found := allRight (i - left.descendantCount) (by omega)
            rwa [show start + 2 + left.descendantCount + (i - left.descendantCount) =
              start + (i + 2) by omega] at found

/-- An arena that is the layout of a tree. -/
theorem holds_layout {modulus : Nat} (tree : Tree) (exact_ : tree.Exact modulus true) :
    Holds Node.children (Node.Own modulus) (tree.layout 0) 0 tree.shape.toList := by
  have length : (tree.layout 0).length = tree.descendantCount + 1 := by
    rw [layout, List.length_cons, length_descendants]
  have part := partAt_self (tree.layout 0)
  obtain ⟨reads, stands⟩ := tree.stands_descendants exact_ part.head part.tail Nat.one_pos rfl
  refine .of_owned ?_ ?_ ⟨_, reads, rfl⟩ fun position inside => ?_
  · have := tree.descendantCount_eq
    rw [length, Halving.length_toList]
    omega
  · have perm := tree.perm_kids_descendants 1
    rw [length, List.range_eq_range', List.range'_succ]
    exact perm.cons 0
  · cases position with
    | zero => exact ⟨_, reads⟩
    | succ position =>
        have found := stands position (by omega)
        rwa [Nat.add_comm] at found

end Tree

/-- Following the children from a node at which a tree stands measures the depth of the tree. -/
theorem depthFrom_of_stands {modulus : Nat} {nodes : List Node} {position : Nat}
    {shape : Halving Literal}
    (stands : Stands Node.children (Node.Own modulus) nodes position shape) {fuel : Nat}
    (enough : shape.depth ≤ fuel) :
    depthFrom nodes fuel position = .ok shape.depth := by
  induction stands generalizing fuel with
  | tip found childless own =>
      cases fuel with
      | zero => cases enough
      | succ fuel => simp only [depthFrom, found, childless, Halving.depth]
  | fork found linked own below beside ihBelow ihBeside =>
      rw [Halving.depth] at enough ⊢
      cases fuel with
      | zero => cases enough
      | succ fuel =>
          have deepBelow := @ihBelow fuel (by omega)
          have deepBeside := @ihBeside fuel (by omega)
          simp only [depthFrom, found, linked, deepBelow, deepBeside]
          rfl

end CardinalityClauses.ModularTotalizer
