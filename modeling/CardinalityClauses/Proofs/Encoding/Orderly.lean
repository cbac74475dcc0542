import CardinalityClauses.Proofs.ModularTotalizer.Tidy
import CardinalityClauses.Proofs.Totalizer.Tidy

/-!
Orderly builds.

Main statement: a build that does not fail takes the variables between two numbers, and each of
them stands at exactly one position of one node of its tree. What it emits is tidy, over these
variables and those of the inputs, and the encoder has counted the clauses and the variables
(`builds_orderly`).
-/

namespace CardinalityClauses

open LawfulCollector (contents)
open VariableSupply (block block_append)

/-! ### Builds -/

/-- If counting from nothing on ends well, so did the run, and the differences are counted. -/
theorem Tally.of_settle {clausesBefore variablesBefore clausesAfter variablesAfter : Nat}
    {failure : Option Failure} {tally : Tally}
    (settled : settle ⟨0, 0⟩ clausesBefore variablesBefore clausesAfter variablesAfter failure =
      (none, tally)) :
    failure = none ∧ tally = ⟨clausesAfter - clausesBefore, variablesAfter - variablesBefore⟩ := by
  have unsettled := settle_eq_or ⟨0, 0⟩ clausesBefore variablesBefore clausesAfter variablesAfter
    failure
  rw [settled] at unsettled
  obtain rfl : none = failure := by simpa using unsettled
  refine ⟨rfl, ?_⟩
  by_cases few : clausesAfter - clausesBefore < sizeRange
  · by_cases fresh : variablesAfter - variablesBefore < indexRange
    · simpa [settle, add, addWithin, few, fresh, eq_comm] using settled
    · simp [settle, add, addWithin, few, fresh] at settled
  · simp [settle, add, addWithin, few] at settled

section Builds

variable {σ : Type} [LawfulCollector σ] {most n : Nat} {inputs positions : List Literal}
  {tally : Tally} {w w' : Workspace σ} {cs : List Clause}

/-- A build took the variables between two numbers, and each of them stands at one position of one
node. What it emitted is tidy, over these variables and those of the inputs, and both were
counted. -/
structure Orderly (most : Nat) (inputs positions : List Literal) (tally : Tally)
    (w w' : Workspace σ) : Prop where
  next_le : w.supply.next ≤ w'.supply.next
  count_eq : ∀ i, w.supply.next ≤ i →
    (positions.map Literal.index).count i = if i < w'.supply.next then 1 else 0
  emitted : ∃ cs, contents w'.collector = contents w.collector ++ cs ∧
    Tidy most (fun i => i ∈ inputs.map Literal.index ∨ w.supply.next ≤ i ∧ i < w'.supply.next) cs ∧
    tally = ⟨cs.length, w'.supply.next - w.supply.next⟩

/-- This is so if nothing is built. -/
theorem Orderly.refl (most : Nat) (inputs : List Literal) (w : Workspace σ) :
    Orderly most inputs [] ⟨0, 0⟩ w w where
  next_le := Nat.le_refl _
  count_eq i le := by simp [Nat.not_lt_of_le le]
  emitted := ⟨[], by simp, .nil, by simp⟩

/-- It is so if the positions of a tree have the inputs and a block of variables, and if its clauses
are tidy where its positions are over distinct variables. -/
theorem Orderly.of_perm (distinct : (inputs.map Literal.index).Nodup)
    (old : LiteralsOver (· < w.supply.next) inputs) (grows : w.Grows w' cs n)
    (room : w'.supply.next ≤ Variable.maxIndex + 1)
    (perm : positions.Perm (inputs ++ block w.supply.next n))
    (tidy : (positions.map Literal.index).Nodup → Tidy most (· ∈ positions.map Literal.index) cs)
    (counted : tally = ⟨cs.length, n⟩) : Orderly most inputs positions tally w w' := by
  have next_eq := grows.next_eq
  have indices := perm.map Literal.index
  rw [List.map_append, VariableSupply.map_index_block_of_room (next_eq ▸ room)] at indices
  have older : ∀ i ∈ inputs.map Literal.index, i < w.supply.next := by
    simpa [LiteralsOver] using old
  have nodup : (inputs.map Literal.index ++ List.range' w.supply.next n).Nodup := by
    refine distinct.append List.nodup_range' fun i hi hi' => ?_
    have := older i hi
    have := (List.mem_range'_1.1 hi').1
    omega
  constructor
  · omega
  · intro i le
    rw [indices.count_eq, List.Nodup.count nodup]
    have fresh : i ∉ inputs.map Literal.index := fun hi => absurd (older i hi) (Nat.not_lt_of_le le)
    simp [fresh, next_eq, le]
  · refine ⟨cs, grows.contents_eq, (tidy (indices.nodup_iff.2 nodup)).mono fun i hi => ?_, ?_⟩
    · rcases List.mem_append.1 (indices.mem_iff.1 hi) with hi | hi
      · exact .inl hi
      · exact .inr (next_eq ▸ List.mem_range'_1.1 hi)
    · rw [counted, grows.next_sub]

end Builds

/-! ### Totalizers -/

namespace Totalizer

variable {σ : Type} [LawfulCollector σ] {direction : Direction} {maxBound : Nat}
  {inputs : List Literal} {shape : Halving Literal} {w : Workspace σ}

/-- A build that comes to its end leaves the whole tree and has counted it. -/
theorem encode_done (split : Halving.ofList? inputs = some shape)
    (done : ((ofInputs inputs).encode direction maxBound w).failure = none) :
    let o := (ofInputs inputs).encode direction maxBound w
    let tree := (Tree.grow (outputCount direction maxBound) shape w.supply.next).1
    let fresh := demand (outputCount direction maxBound) shape
    w.Grows o.work (tree.clauses direction) fresh ∧ o.value.nodes = tree.layout 0 ∧
      o.value.tally = ⟨(tree.clauses direction).length, fresh⟩ := by
  obtain ⟨tree, grown⟩ :
    ∃ tree, (Tree.grow (outputCount direction maxBound) shape w.supply.next).1 = tree := ⟨_, rfl⟩
  have taken : plannedVariables (tree.pieces direction 0) =
      demand (outputCount direction maxBound) shape :=
    grown ▸ Tree.plannedVariables_grow _ shape _ 0
  have sized : tree.Sized (countLimit direction maxBound) :=
    grown ▸ Tree.sized_grow direction maxBound shape w.supply.next
  obtain ⟨ran, finished⟩ := w.runPieces_ran (sized.complete 0)
  obtain ⟨finish, failure, w', eq⟩ : ∃ finish failure w', w.runPieces (tree.pieces direction 0) =
    ⟨finish, failure, w'⟩ := ⟨_, _, _, rfl⟩
  obtain ⟨failure', tally, settled⟩ : ∃ failure' tally, Tally.settle ⟨0, 0⟩ w.clauseCount
    w.supply.next w'.clauseCount w'.supply.next failure = (failure', tally) := ⟨_, _, rfl⟩
  rw [eq] at ran finished
  simp only [encode, ofInputs, split, buildTree, List.length_nil, Nat.zero_add, grown, eq,
    settled, List.nil_append] at done ⊢
  cases failure' with
  | some why => cases done
  | none =>
      obtain ⟨rfl, rfl⟩ := Tally.of_settle settled
      obtain rfl := finished rfl
      have grows := ran.grows
      rw [Tree.plannedClauses_pieces, taken] at grows
      refine ⟨grows.note _, ?_, ?_⟩
      · simpa [Node.keepOutputs] using Tree.keepOutputs_layout direction tree 0 0 []
      · rw [grows.clauseCount_sub, grows.next_sub]

/-- A build in either direction takes a block of variables, one for each output, and what it emits
is tidy. -/
theorem encode_orderly (distinct : (inputs.map Literal.index).Nodup)
    (old : LiteralsOver (· < w.supply.next) inputs)
    (done : ((ofInputs inputs).encode direction maxBound w).failure = none)
    (room : ((ofInputs inputs).encode direction maxBound w).work.supply.next ≤
      Variable.maxIndex + 1) :
    let o := (ofInputs inputs).encode direction maxBound w
    Orderly 3 inputs (o.value.nodes.flatMap Node.outputs) o.value.tally w o.work := by
  intro o
  rcases inputs with _ | ⟨first, rest⟩
  · exact .refl 3 [] w
  obtain ⟨shape, split, list⟩ := Halving.ofList?_spec (List.cons_ne_nil first rest)
  obtain ⟨grows, nodes, tally⟩ := encode_done split done
  refine .of_perm distinct old grows room ?_ (fun nodup => ?_) tally
  · rw [nodes, Tree.flatMap_outputs_layout, ← list]
    exact Tree.literals_grow _ shape w.supply.next
  · rw [nodes, Tree.flatMap_outputs_layout] at nodup ⊢
    exact (Tree.sized_grow direction maxBound shape w.supply.next).tidy nodup

end Totalizer

/-! ### Modular totalizers -/

namespace ModularTotalizer

variable {σ : Type} [LawfulCollector σ] {maxBound modulus : Nat} {preset : Option Nat}
  {inputs upper lower : List Literal} {left right : Halving Literal} {before w : Workspace σ}

/-- A build that comes to its end leaves the whole tree and has counted it along with the parts of
the root, which were taken before. -/
theorem buildTree_done (two : 2 ≤ modulus) (fit : PartsFit modulus (.fork left right) upper lower)
    (taken : before.Grows w [] (upper.length + lower.length))
    (done : ((ofPreset inputs (some modulus)).buildTree modulus maxBound (.fork left right) upper
      lower before.clauseCount before.supply.next w).failure = none) :
    let o := (ofPreset inputs (some modulus)).buildTree modulus maxBound (.fork left right) upper
      lower before.clauseCount before.supply.next w
    let tree := (Tree.grow modulus (.fork left right) upper lower w.supply.next).1
    let fresh := upper.length + lower.length + demandBelow modulus (.fork left right)
    before.Grows o.work (tree.clauses modulus maxBound) fresh ∧ o.value.nodes = tree.layout 0 ∧
      o.value.tally = ⟨(tree.clauses modulus maxBound).length, fresh⟩ := by
  obtain ⟨tree, grown⟩ : ∃ tree,
    (Tree.grow modulus (.fork left right) upper lower w.supply.next).1 = tree := ⟨_, rfl⟩
  have sized : tree.Sized modulus := grown ▸ Tree.sized_grow two fit _
  have planned : plannedVariables (tree.pieces modulus maxBound 0 1) =
      demandBelow modulus (.fork left right) :=
    grown ▸ Tree.plannedVariables_grow two fit _ 0 1
  obtain ⟨ran, finished⟩ := w.runPieces_ran (sized.complete two 0 1)
  obtain ⟨finish, failure, w', eq⟩ : ∃ finish failure w',
    w.runPieces (tree.pieces modulus maxBound 0 1) = ⟨finish, failure, w'⟩ := ⟨_, _, _, rfl⟩
  obtain ⟨failure', tally, settled⟩ : ∃ failure' tally, Tally.settle ⟨0, 0⟩ before.clauseCount
    before.supply.next w'.clauseCount w'.supply.next failure = (failure', tally) := ⟨_, _, rfl⟩
  rw [eq] at ran finished
  simp only [buildTree, ofPreset, List.length_nil, Nat.zero_add, grown, eq, settled,
    List.nil_append] at done ⊢
  cases failure' with
  | some why => cases done
  | none =>
      obtain ⟨rfl, rfl⟩ := Tally.of_settle settled
      obtain rfl := finished rfl
      have grows := taken.trans ran.grows
      rw [Tree.plannedClauses_pieces, planned, List.nil_append] at grows
      refine ⟨grows.note _, ?_, ?_⟩
      · have even := tree.even_descendantCount
        have all : 2 * ((tree.descendantCount + 1) / 2) = tree.descendantCount := by omega
        simp only [Tree.length_pieces, all, Tree.keepFirst_layout]
      · rw [grows.clauseCount_sub, grows.next_sub]

theorem buildRoot_done (two : 2 ≤ modulus)
    (split : Halving.ofList? inputs = some (.fork left right))
    (done : ((ofPreset inputs (some modulus)).buildRoot modulus maxBound (.fork left right)
      w).failure = none) :
    let o := (ofPreset inputs (some modulus)).buildRoot modulus maxBound (.fork left right) w
    let tree := builtTree modulus inputs (.fork left right) w.supply.next
    w.Grows o.work (tree.clauses modulus maxBound) (buildDemand modulus inputs) ∧
      o.value.nodes = tree.layout 0 ∧
      o.value.tally = ⟨(tree.clauses modulus maxBound).length, buildDemand modulus inputs⟩ := by
  have divided : divWithin inputs.length modulus = .ok (inputs.length / modulus) :=
    if_neg (by omega)
  have fit := partsFit_builtTree two split w.supply.next
  have demanded : buildDemand modulus inputs =
      (rootUpper modulus inputs w.supply.next).length +
        (rootLower modulus inputs w.supply.next).length +
          demandBelow modulus (.fork left right) := by
    simp [buildDemand, split, rootUpper, rootLower]
  rw [demanded, builtTree]
  unfold buildRoot at done ⊢
  simp only [ofPreset, divided] at done ⊢
  obtain ⟨w₁, takenUpper, ran₁⟩ | ⟨f, w₁, takenUpper, -⟩ :=
    w.takeLiterals_ran (inputs.length / modulus) none
  swap
  · simp only [takenUpper] at done
    cases done
  have next₁ : w₁.supply.next = w.supply.next + inputs.length / modulus := ran₁.grows.next_eq
  obtain ⟨w₂, takenLower, ran₂⟩ | ⟨f, w₂, takenLower, -⟩ := w₁.takeLiterals_ran (modulus - 1) none
  swap
  · simp only [takenUpper, takenLower] at done
    cases done
  have next₂ : w₂.supply.next = w.supply.next + inputs.length / modulus + (modulus - 1) := by
    rw [← next₁]
    exact ran₂.grows.next_eq
  have taken : w.Grows w₂ [] ((rootUpper modulus inputs w.supply.next).length +
      (rootLower modulus inputs w.supply.next).length) := by
    simpa [rootUpper, rootLower, plannedClauses, Piece.clauses] using (ran₁.trans ran₂).grows
  rw [next₁] at takenLower
  simp only [takenUpper, takenLower] at done ⊢
  rw [← next₂]
  exact buildTree_done two fit taken done

/-- The tree of a build has the inputs and a block of variables. -/
theorem literals_builtTree (two : 2 ≤ modulus)
    (split : Halving.ofList? inputs = some (.fork left right)) (next : Nat) :
    (builtTree modulus inputs (.fork left right) next).literals.Perm
      (inputs ++ block next (buildDemand modulus inputs)) := by
  have grown := Tree.literals_fork two (partsFit_builtTree two split next)
    (Tree.literals_child two left) (Tree.literals_child two right)
    (next + inputs.length / modulus + (modulus - 1))
  rw [Halving.toList_of_ofList? split] at grown
  have blocks : rootUpper modulus inputs next ++ rootLower modulus inputs next ++
      block (next + inputs.length / modulus + (modulus - 1))
        (demandBelow modulus (.fork left right)) = block next (buildDemand modulus inputs) := by
    simp only [rootUpper, rootLower, buildDemand, split, block_append, Nat.add_assoc]
  rwa [List.append_assoc, blocks] at grown

/-- A build chooses its modulus, or it ends at once. -/
theorem encode_cases (positive : 0 < maxBound) (lt : maxBound < inputs.length)
    (split : Halving.ofList? inputs = some (.fork left right)) (preset : Option Nat)
    (w : Workspace σ) :
    (ofPreset inputs preset).encode maxBound w =
        (ofPreset inputs (some (modulusFor preset maxBound))).buildRoot
          (modulusFor preset maxBound) maxBound (.fork left right) w ∨
      ∃ f, (ofPreset inputs preset).encode maxBound w =
        ⟨some (.fault f), ofPreset inputs preset, w⟩ := by
  have wanted : ¬(maxBound = 0 ∨ inputs.length ≤ maxBound) := by omega
  unfold encode
  obtain chosen | ⟨-, f, chosen⟩ := chooseModulus_eq_or (ofPreset inputs preset) maxBound <;>
    rw [chosen] <;> simp only [ofPreset, split]
  · exact .inl (if_neg wanted)
  · exact .inr ⟨f, if_neg wanted⟩

/-- A build takes a block of variables, one for each literal of a part and for each carry, and what
it emits is tidy. -/
theorem encode_orderly (fixed : ∀ m, preset = some m → 2 ≤ m)
    (distinct : (inputs.map Literal.index).Nodup) (old : LiteralsOver (· < w.supply.next) inputs)
    (done : ((ofPreset inputs preset).encode maxBound w).failure = none)
    (room : ((ofPreset inputs preset).encode maxBound w).work.supply.next ≤
      Variable.maxIndex + 1) :
    let o := (ofPreset inputs preset).encode maxBound w
    Orderly 4 inputs (o.value.nodes.flatMap Node.literals) o.value.tally w o.work := by
  intro o
  by_cases wanted : maxBound = 0 ∨ inputs.length ≤ maxBound
  · have unbuilt : o = ⟨none, ofPreset inputs preset, w⟩ := if_pos wanted
    rw [unbuilt]
    exact .refl 4 inputs w
  have positive : 0 < maxBound := by omega
  have lt : maxBound < inputs.length := by omega
  have two := two_le_modulusFor fixed positive
  obtain ⟨left, right, split, list⟩ := Halving.exists_fork (by omega : 2 ≤ inputs.length)
  have fit := partsFit_builtTree two split w.supply.next
  obtain eq | ⟨f, eq⟩ := encode_cases positive lt split preset w
  swap
  · rw [eq] at done
    cases done
  rw [eq] at done room
  simp only [o, eq]
  obtain ⟨grows, nodes, tally⟩ := buildRoot_done two split done
  obtain ⟨tree, built⟩ : ∃ tree, builtTree (modulusFor preset maxBound) inputs (.fork left right)
    w.supply.next = tree := ⟨_, rfl⟩
  have sized : tree.Sized (modulusFor preset maxBound) := built ▸ Tree.sized_grow two fit _
  rw [built] at grows nodes tally
  rw [nodes]
  have layout := tree.perm_literals_layout 0
  refine .of_perm distinct old grows room (layout.trans ?_) (fun nodup => ?_) tally
  · exact built ▸ literals_builtTree two split w.supply.next
  · have indices := layout.map Literal.index
    have tidy : Tidy 4 _ (tree.clauses _ maxBound) := sized.tidy two (indices.nodup_iff.1 nodup)
    exact tidy.mono fun i hi => indices.mem_iff.2 hi

end ModularTotalizer

/-! ### Either kind of tree -/

/-- Over inputs with distinct variables that were taken before, every build that does not fail is
orderly: that of a totalizer for bounds from either side with clauses of at most three literals, and
that of a modular totalizer with clauses of at most four, whether its modulus was fixed before or
not. -/
theorem builds_orderly {σ : Type} [LawfulCollector σ] {inputs : List Literal} {w : Workspace σ}
    (distinct : (inputs.map Literal.index).Nodup) (old : LiteralsOver (· < w.supply.next) inputs) :
    (∀ direction maxBound,
      let o := (Totalizer.ofInputs inputs).encode direction maxBound w
      o.failure = none → o.work.supply.next ≤ Variable.maxIndex + 1 →
        Orderly 3 inputs (o.value.nodes.flatMap Totalizer.Node.outputs) o.value.tally w o.work) ∧
    ∀ preset maxBound, (∀ m, preset = some m → 2 ≤ m) →
      let o := (ModularTotalizer.ofPreset inputs preset).encode maxBound w
      o.failure = none → o.work.supply.next ≤ Variable.maxIndex + 1 →
        Orderly 4 inputs (o.value.nodes.flatMap ModularTotalizer.Node.literals) o.value.tally w
          o.work := by
  constructor
  · intro direction maxBound o done room
    exact Totalizer.encode_orderly distinct old done room
  · intro preset maxBound fixed o done room
    exact ModularTotalizer.encode_orderly fixed distinct old done room

section ThreeInputs

open ModularTotalizer.Usage (threeInputs)

/-- Surroundings in which the variables of three inputs were taken. -/
def threeTaken : Workspace Formula :=
  ⟨.empty, ⟨3⟩, #[]⟩

/-- The theorem for upper bounds up to two. With the modulus two there are carries. -/
theorem builds_orderly_three :
    (∃ o, (Totalizer.ofInputs threeInputs).encode .atMost 2 threeTaken = o ∧
      o.value.tally = ⟨8, 5⟩ ∧ Orderly 3 threeInputs
        (o.value.nodes.flatMap Totalizer.Node.outputs) o.value.tally threeTaken o.work) ∧
    ∃ o, (ModularTotalizer.ofPreset threeInputs (some 2)).encode 2 threeTaken = o ∧
      o.value.tally = ⟨10, 6⟩ ∧ Orderly 4 threeInputs
        (o.value.nodes.flatMap ModularTotalizer.Node.literals) o.value.tally threeTaken o.work := by
  have old : LiteralsOver (· < threeTaken.supply.next) threeInputs := by
    simp [LiteralsOver, threeInputs, threeTaken]
  obtain ⟨plain, modular⟩ := builds_orderly (by decide) old
  exact ⟨⟨_, rfl, by decide, plain .atMost 2 (by decide) (by decide)⟩,
    ⟨_, rfl, by decide, modular (some 2) 2 (by simp) (by decide) (by decide)⟩⟩

end ThreeInputs

end CardinalityClauses
