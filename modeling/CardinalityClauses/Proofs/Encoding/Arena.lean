import CardinalityClauses.Literal
import CardinalityClauses.Proofs.Encoding.Halving
import Mathlib.Data.List.Nodup
import Mathlib.Data.Nat.Log

/-!
Trees in arenas.

An arena is a list of nodes that refer to their children by position. What it holds is read by
following these positions: at each of them stands a tree over some of the inputs (`Stands`). As all
of these trees are finite, following the children comes to an end wherever it begins, and if the
positions of the root and of all children together are all positions, once each, every other node
has exactly one parent.

Halving a list of inputs makes a tree of the least depth that a binary tree over so many inputs can
have (`Halving.depth_of_ofList?`).
-/

namespace CardinalityClauses

/-! ### The depth of a halved list -/

namespace Halving

variable {α : Type}

/-- The number of nodes on the longest way down. -/
def depth : Halving α → Nat
  | tip _ => 1
  | fork left right => max left.depth right.depth + 1

theorem depth_le_size (t : Halving α) : t.depth ≤ t.size := by
  induction t with
  | tip value => exact Nat.le_refl _
  | fork left right ihLeft ihRight =>
      have := left.size_pos
      have := right.size_pos
      simp only [depth, size]
      omega

/-- The longer half decides how often a number can be halved. -/
theorem clog_half {n : Nat} (two : 2 ≤ n) :
    max (Nat.clog 2 (n / 2)) (Nat.clog 2 (n - n / 2)) + 1 = Nat.clog 2 n := by
  have longer : Nat.clog 2 (n / 2) ≤ Nat.clog 2 (n - n / 2) :=
    Nat.clog_mono_right 2 (by omega)
  rw [Nat.max_eq_right longer, Nat.clog_of_two_le Nat.one_lt_two two]
  congr 2
  omega

/-- A list of two values or more is split into its halves. -/
theorem split_eq_some {fuel : Nat} {values : List α} (two : 2 ≤ values.length) {t : Halving α}
    (eq : split (fuel + 1) values = some t) :
    ∃ left right, t = fork left right ∧
      split fuel (values.take (values.length / 2)) = some left ∧
      split fuel (values.drop (values.length / 2)) = some right := by
  match values, two with
  | first :: second :: rest, _ =>
      simp only [split, Option.bind_eq_bind, Option.bind_eq_some_iff, Option.pure_def,
        Option.some.injEq] at eq
      obtain ⟨left, splitLeft, right, splitRight, rfl⟩ := eq
      exact ⟨left, right, rfl, splitLeft, splitRight⟩

/-- A single value is split no further. -/
theorem depth_split_of_few {fuel : Nat} {values : List α} (few : values.length < 2)
    {t : Halving α} (eq : split fuel values = some t) : t.depth = Nat.clog 2 values.length + 1 := by
  obtain _ | ⟨value, _ | ⟨second, rest⟩⟩ := values
  · simp [split] at eq
  · simp only [split, Option.some.injEq] at eq
    simp [← eq, depth]
  · simp only [List.length_cons] at few
    omega

theorem depth_split {fuel : Nat} {values : List α} (enough : values.length ≤ fuel + 1)
    {t : Halving α} (eq : split fuel values = some t) :
    t.depth = Nat.clog 2 values.length + 1 := by
  induction fuel generalizing values t with
  | zero => exact depth_split_of_few (by omega) eq
  | succ fuel ih =>
      rcases Nat.lt_or_ge values.length 2 with few | two
      · exact depth_split_of_few few eq
      · obtain ⟨left, right, rfl, splitLeft, splitRight⟩ := split_eq_some two eq
        have half : values.length / 2 ≤ values.length := Nat.div_le_self _ _
        rw [depth, ih (by rw [List.length_take]; omega) splitLeft,
          ih (by rw [List.length_drop]; omega) splitRight, List.length_take, List.length_drop,
          Nat.min_eq_left half, Nat.add_max_add_right, clog_half two]

/-- The tree of a list is as deep as its length can be halved, rounding up. -/
theorem depth_of_ofList? {values : List α} {t : Halving α} (eq : ofList? values = some t) :
    t.depth = Nat.clog 2 values.length + 1 :=
  depth_split (Nat.le_succ _) eq

end Halving

/-! ### Reading an arena -/

namespace Arena

variable {Node : Type}

/-- The positions that a node refers to. -/
def kids (children : Node → Option (Nat × Nat)) (node : Node) : List Nat :=
  match children node with
  | none => []
  | some (left, right) => [left, right]

/-- The node at one position refers to the other. -/
def IsChild (children : Node → Option (Nat × Nat)) (nodes : List Node) (child parent : Nat) :
    Prop :=
  ∃ node, nodes[parent]? = some node ∧ child ∈ kids children node

/-- What stands at a position: a node with what it has of its own, and below it, if it has children,
the trees that stand there. -/
inductive Stands (children : Node → Option (Nat × Nat)) (Own : Nat → Node → Halving Literal → Prop)
    (nodes : List Node) : (position : Nat) → Halving Literal → Prop
  | tip {position : Nat} {node : Node} {input : Literal} (found : nodes[position]? = some node)
      (childless : children node = none) (own : Own position node (.tip input)) :
      Stands children Own nodes position (.tip input)
  | fork {position left right : Nat} {node : Node} {leftShape rightShape : Halving Literal}
      (found : nodes[position]? = some node) (linked : children node = some (left, right))
      (own : Own position node (.fork leftShape rightShape))
      (below : Stands children Own nodes left leftShape)
      (beside : Stands children Own nodes right rightShape) :
      Stands children Own nodes position (.fork leftShape rightShape)

/-- An arena is the layout of a tree over the inputs. -/
structure Holds (children : Node → Option (Nat × Nat)) (Own : Nat → Node → Halving Literal → Prop)
    (nodes : List Node) (root : Nat) (inputs : List Literal) : Prop where
  length_eq : nodes.length = 2 * inputs.length - 1
  /-- Every node but the root has one parent. -/
  parent : ∀ child < nodes.length, child ≠ root → ∃! parent, IsChild children nodes child parent
  orphan : ∀ parent, ¬IsChild children nodes root parent
  /-- The leaves below the root are the inputs from left to right. -/
  reads : ∃ shape, Stands children Own nodes root shape ∧ shape.toList = inputs
  stands : ∀ position < nodes.length, ∃ shape, Stands children Own nodes position shape
  /-- There is no endless way down. -/
  wellFounded : WellFounded (IsChild children nodes)

variable {children : Node → Option (Nat × Nat)} {Own : Nat → Node → Halving Literal → Prop}
  {nodes : List Node} {position root : Nat} {shape : Halving Literal}

/-- From a node at which a tree stands there is no endless way down. -/
theorem Stands.acc (stands : Stands children Own nodes position shape) :
    Acc (IsChild children nodes) position := by
  induction stands with
  | tip found childless own =>
      refine ⟨_, fun child ⟨node, here, kid⟩ => ?_⟩
      cases found.symm.trans here
      simp [kids, childless] at kid
  | fork found linked own below beside ihBelow ihBeside =>
      refine ⟨_, fun child ⟨node, here, kid⟩ => ?_⟩
      cases found.symm.trans here
      simp only [kids, linked, List.mem_cons, List.not_mem_nil, or_false] at kid
      rcases kid with rfl | rfl
      · exact ihBelow
      · exact ihBeside

theorem wellFounded_isChild
    (stands : ∀ position < nodes.length, ∃ shape, Stands children Own nodes position shape) :
    WellFounded (IsChild children nodes) := by
  refine ⟨fun position => ?_⟩
  rcases Nat.lt_or_ge position nodes.length with inside | outside
  · obtain ⟨shape, stands⟩ := stands position inside
    exact stands.acc
  · refine ⟨_, fun child ⟨node, here, _⟩ => ?_⟩
    rw [List.getElem?_eq_none outside] at here
    cases here

section Owned

variable (owned : (root :: nodes.flatMap (kids children)).Perm (List.range nodes.length))

include owned

theorem nodup_of_owned : (root :: nodes.flatMap (kids children)).Nodup :=
  owned.nodup_iff.2 List.nodup_range

/-- The root is no child. -/
theorem orphan_of_owned (parent : Nat) : ¬IsChild children nodes root parent := by
  rintro ⟨node, found, kid⟩
  have nodup := List.nodup_cons.1 (nodup_of_owned owned)
  exact nodup.1 (List.mem_flatMap.2 ⟨node, List.mem_of_getElem? found, kid⟩)

/-- Every other node is the child of exactly one node. -/
theorem existsUnique_parent {child : Nat} (inside : child < nodes.length) (ne : child ≠ root) :
    ∃! parent, IsChild children nodes child parent := by
  have mem := (owned.mem_iff).2 (List.mem_range.2 inside)
  obtain ⟨node, mem, kid⟩ := List.mem_flatMap.1 ((List.mem_cons.1 mem).resolve_left ne)
  obtain ⟨parent, found⟩ := List.mem_iff_getElem?.1 mem
  refine ⟨parent, ⟨node, found, kid⟩, ?_⟩
  rintro other ⟨otherNode, otherFound, otherKid⟩
  -- Two parents would have the child in common.
  have apart := (List.nodup_flatMap.1 (List.nodup_cons.1 (nodup_of_owned owned)).2).2
  obtain ⟨insideParent, rfl⟩ := List.getElem?_eq_some_iff.1 found
  obtain ⟨insideOther, rfl⟩ := List.getElem?_eq_some_iff.1 otherFound
  rw [List.pairwise_iff_getElem] at apart
  rcases Nat.lt_trichotomy other parent with before | same | after
  · exact absurd kid (apart _ _ insideOther insideParent before otherKid)
  · exact same
  · exact absurd otherKid (apart _ _ insideParent insideOther after kid)

end Owned

/-- An arena holds a tree if the positions of its root and of all children are all positions, once
each, and if a tree stands everywhere. -/
theorem Holds.of_owned {inputs : List Literal} (length_eq : nodes.length = 2 * inputs.length - 1)
    (owned : (root :: nodes.flatMap (kids children)).Perm (List.range nodes.length))
    (reads : ∃ shape, Stands children Own nodes root shape ∧ shape.toList = inputs)
    (stands : ∀ position < nodes.length, ∃ shape, Stands children Own nodes position shape) :
    Holds children Own nodes root inputs where
  length_eq := length_eq
  parent := fun _ => existsUnique_parent owned
  orphan := orphan_of_owned owned
  reads := reads
  stands := stands
  wellFounded := wellFounded_isChild stands

/-! ### Parts of an arena -/

/-- From a position on stand these nodes. -/
def PartAt (nodes : List Node) (start : Nat) (part : List Node) : Prop :=
  ∀ i node, part[i]? = some node → nodes[start + i]? = some node

theorem partAt_self (nodes : List Node) : PartAt nodes 0 nodes :=
  fun i node found => by rwa [Nat.zero_add]

theorem PartAt.head {start : Nat} {node : Node} {rest : List Node}
    (part : PartAt nodes start (node :: rest)) : nodes[start]? = some node :=
  part 0 node rfl

theorem PartAt.tail {start : Nat} {node : Node} {rest : List Node}
    (part : PartAt nodes start (node :: rest)) : PartAt nodes (start + 1) rest := by
  intro i other found
  rw [Nat.add_assoc, Nat.add_comm 1]
  exact part (i + 1) other found

theorem PartAt.left {start : Nat} {first second : List Node}
    (part : PartAt nodes start (first ++ second)) : PartAt nodes start first := by
  intro i node found
  obtain ⟨inside, -⟩ := List.getElem?_eq_some_iff.1 found
  exact part i node (by rwa [List.getElem?_append_left inside])

theorem PartAt.right {start : Nat} {first second : List Node}
    (part : PartAt nodes start (first ++ second)) :
    PartAt nodes (start + first.length) second := by
  intro i node found
  rw [Nat.add_assoc]
  refine part (first.length + i) node ?_
  rwa [List.getElem?_append_right (Nat.le_add_right _ _), Nat.add_sub_cancel_left]

end Arena

end CardinalityClauses
