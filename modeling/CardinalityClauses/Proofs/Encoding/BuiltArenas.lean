import CardinalityClauses.Proofs.Encoding.Orderly
import CardinalityClauses.Proofs.ModularTotalizer.Arena
import CardinalityClauses.Proofs.Totalizer.Arena

/-!
The arenas of builds.

Main statement: a build over two inputs or more that does not fail fills the arena with one tree
over all inputs in their order. A totalizer has its root last and children before their parents, a
modular totalizer has its root first and children after their parents. Following children comes to
an end, and the depth is that of a tree whose inputs are halved again and again (`builds_shaped`).
-/

namespace CardinalityClauses

namespace Totalizer

open Arena

variable {σ : Type} [LawfulCollector σ] {direction : Direction} {maxBound : Nat}
  {inputs : List Literal} {shape : Halving Literal} {w : Workspace σ}

/-- The root of a build is the last node of the tree, however far the build came. -/
theorem root_encode (split : Halving.ofList? inputs = some shape) :
    ((ofInputs inputs).encode direction maxBound w).value.root = some (2 * inputs.length - 2) := by
  have count := (Tree.grow (outputCount direction maxBound) shape w.supply.next).1.nodeCount_eq
  rw [Tree.shape_grow, Halving.size_of_ofList? split] at count
  have last : some (0 + (Tree.grow (outputCount direction maxBound) shape
      w.supply.next).1.nodeCount - 1) = some (2 * inputs.length - 2) := by
    congr 1
    omega
  simp only [encode, ofInputs, split, buildTree, List.length_nil]
  split <;> exact last

/-- A build that comes to its end leaves the layout of a tree and knows how deep the tree is. -/
theorem encode_shaped (split : Halving.ofList? inputs = some shape)
    (done : ((ofInputs inputs).encode direction maxBound w).failure = none) :
    let o := (ofInputs inputs).encode direction maxBound w
    Holds Node.children Node.Own o.value.nodes (2 * inputs.length - 2) inputs ∧
      o.value.depth = .ok (Nat.clog 2 inputs.length + 1) := by
  intro o
  obtain ⟨-, nodes, -⟩ := encode_done split done
  obtain ⟨tree, grown⟩ :
    ∃ tree, (Tree.grow (outputCount direction maxBound) shape w.supply.next).1 = tree := ⟨_, rfl⟩
  have shaped : tree.shape = shape := grown ▸ Tree.shape_grow _ shape _
  have last : 0 + tree.nodeCount - 1 = 2 * inputs.length - 2 := by
    have count := tree.nodeCount_eq
    rw [shaped, Halving.size_of_ofList? split] at count
    omega
  rw [grown] at nodes
  have nodes : o.value.nodes = tree.layout 0 := nodes
  constructor
  · have holds := tree.holds_layout
    rwa [shaped, Halving.toList_of_ofList? split, ← nodes, ← Nat.zero_add tree.nodeCount, last]
      at holds
  · obtain ⟨stands, -⟩ := tree.stands_layout 0 (partAt_self _)
    rw [shaped, ← nodes, last] at stands
    rw [depth_of_stands (root_encode split) stands, Halving.depth_of_ofList? split]

end Totalizer

namespace ModularTotalizer

open Arena

variable {σ : Type} [LawfulCollector σ] {maxBound modulus : Nat} {preset : Option Nat}
  {inputs : List Literal} {shape : Halving Literal} {w : Workspace σ}

/-- The tree of a build stands with its root at the first free position, however far the build
came. -/
theorem root_buildTree (t : ModularTotalizer) (upper lower : List Literal)
    (clausesBefore variablesBefore : Nat) :
    let o := t.buildTree modulus maxBound shape upper lower clausesBefore variablesBefore w
    o.value.root = some t.nodes.length ∧ o.value.modulus = t.modulus := by
  simp only [buildTree]
  split <;> exact ⟨rfl, rfl⟩

theorem root_buildRoot {t : ModularTotalizer}
    (done : (t.buildRoot modulus maxBound shape w).failure = none) :
    let o := t.buildRoot modulus maxBound shape w
    o.value.root = some t.nodes.length ∧ o.value.modulus = t.modulus := by
  unfold buildRoot at done ⊢
  split at done
  · cases done
  split at done
  · cases done
  split at done
  · cases done
  · simp only [*]
    exact t.root_buildTree _ _ _ _

/-- A build that comes to its end leaves the layout of a tree, and following the children from the
root measures its depth. -/
theorem encode_shaped (fixed : ∀ m, preset = some m → 2 ≤ m) (positive : 0 < maxBound)
    (lt : maxBound < inputs.length)
    (done : ((ofPreset inputs preset).encode maxBound w).failure = none) :
    let o := (ofPreset inputs preset).encode maxBound w
    let modulus := modulusFor preset maxBound
    o.value.root = some 0 ∧ o.value.modulus = some modulus ∧
      Holds Node.children (Node.Own modulus) o.value.nodes 0 inputs ∧
      o.value.depth = .ok (Nat.clog 2 inputs.length + 1) := by
  intro o modulus
  have two : 2 ≤ modulus := two_le_modulusFor fixed positive
  obtain ⟨left, right, split, list⟩ := Halving.exists_fork (by omega : 2 ≤ inputs.length)
  obtain eq | ⟨f, eq⟩ := encode_cases positive lt split preset w
  swap
  · rw [eq] at done
    cases done
  have build :
      o = (ofPreset inputs (some modulus)).buildRoot modulus maxBound (.fork left right) w := eq
  rw [eq] at done
  obtain ⟨root, recorded⟩ := root_buildRoot done
  obtain ⟨-, nodes, -⟩ := buildRoot_done two split done
  rw [← build] at root recorded nodes
  have fit := partsFit_builtTree two split w.supply.next
  obtain ⟨tree, built⟩ :
    ∃ tree, builtTree modulus inputs (.fork left right) w.supply.next = tree := ⟨_, rfl⟩
  have shaped : tree.shape = .fork left right := built ▸ Tree.shape_grow two fit _
  have exact_ : tree.Exact modulus true :=
    built ▸ Tree.exact_fork two fit (VariableSupply.length_block _ _) _
  rw [built] at nodes
  have holds := tree.holds_layout exact_
  rw [shaped, list, ← nodes] at holds
  refine ⟨root, recorded, holds, ?_⟩
  have part := partAt_self (tree.layout 0)
  obtain ⟨stands, -⟩ := tree.stands_descendants exact_ part.head part.tail Nat.one_pos rfl
  have size := Halving.size_of_ofList? split
  have deep := (Halving.fork left right).depth_le_size
  rw [← nodes, shaped] at stands
  simp only [depth, root, ofPreset, List.length_nil]
  rw [depthFrom_of_stands stands (by rw [holds.length_eq]; omega), Halving.depth_of_ofList? split]

end ModularTotalizer

/-! ### Either kind of tree -/

open Arena

/-- The arena of every build over two inputs or more that does not fail holds one tree over them.

Of a totalizer the root stands last and children stand before their parent; a node counts up to the
number of the inputs below it. Of a modular totalizer the root stands first and children stand after
their parent; with the modulus that was recorded, the parts of a node have the lengths that go with
the inputs below it. Nothing is built for a maximum bound of zero or one that every assignment
meets. -/
theorem builds_shaped {σ : Type} [LawfulCollector σ] {inputs : List Literal}
    (several : 2 ≤ inputs.length) (w : Workspace σ) :
    (∀ direction maxBound,
      let o := (Totalizer.ofInputs inputs).encode direction maxBound w
      o.failure = none →
        o.value.root = some (2 * inputs.length - 2) ∧
        Holds Totalizer.Node.children Totalizer.Node.Own o.value.nodes (2 * inputs.length - 2)
          inputs ∧
        o.value.depth = .ok (Nat.clog 2 inputs.length + 1)) ∧
    ∀ preset maxBound, (∀ m, preset = some m → 2 ≤ m) →
      let o := (ModularTotalizer.ofPreset inputs preset).encode maxBound w
      (maxBound = 0 ∨ inputs.length ≤ maxBound →
        o = ⟨none, ModularTotalizer.ofPreset inputs preset, w⟩) ∧
      (0 < maxBound → maxBound < inputs.length → o.failure = none →
        o.value.root = some 0 ∧
        ∃ modulus, 2 ≤ modulus ∧ o.value.modulus = some modulus ∧
          Holds ModularTotalizer.Node.children (ModularTotalizer.Node.Own modulus) o.value.nodes 0
            inputs ∧
          o.value.depth = .ok (Nat.clog 2 inputs.length + 1)) := by
  constructor
  · intro direction maxBound o done
    obtain ⟨left, right, split, -⟩ := Halving.exists_fork several
    exact ⟨Totalizer.root_encode split, Totalizer.encode_shaped split done⟩
  · intro preset maxBound fixed o
    refine ⟨fun trivial => if_pos trivial, fun positive lt done => ?_⟩
    obtain ⟨root, recorded, shaped⟩ := ModularTotalizer.encode_shaped fixed positive lt done
    exact ⟨root, _, ModularTotalizer.two_le_modulusFor fixed positive, recorded, shaped⟩

section ThreeInputs

open ModularTotalizer.Usage (threeInputs)

/-- The theorem for upper bounds up to two. Three inputs are halved twice. -/
theorem builds_shaped_three :
    (∃ o, (Totalizer.ofInputs threeInputs).encode .atMost 2 threeTaken = o ∧
      o.value.root = some 4 ∧
      Holds Totalizer.Node.children Totalizer.Node.Own o.value.nodes 4 threeInputs ∧
      o.value.depth = .ok (Nat.clog 2 3 + 1)) ∧
    ∃ o, (ModularTotalizer.ofPreset threeInputs (some 2)).encode 2 threeTaken = o ∧
      o.value.root = some 0 ∧
      ∃ modulus, 2 ≤ modulus ∧ o.value.modulus = some modulus ∧
        Holds ModularTotalizer.Node.children (ModularTotalizer.Node.Own modulus) o.value.nodes 0
          threeInputs ∧
        o.value.depth = .ok (Nat.clog 2 3 + 1) := by
  obtain ⟨plain, modular⟩ := @builds_shaped Formula _ threeInputs (by decide) threeTaken
  obtain ⟨-, built⟩ := modular (some 2) 2 (by simp)
  exact ⟨⟨_, rfl, plain .atMost 2 (by decide)⟩,
    ⟨_, rfl, built (by decide) (by decide) (by decide)⟩⟩

end ThreeInputs

end CardinalityClauses
