import CardinalityClauses.Proofs.ModularTotalizer.Retry

/-!
Calls to a modular totalizer on a collector that never fails.

Between calls a modular totalizer is not built yet, or its tree is complete and its nodes can be
followed down to the inputs (`Settled`). Only a build can end in a fault, and only for want of
indices (`Settled.encode`).
-/

namespace CardinalityClauses.ModularTotalizer

/-! ### Following the children -/

/-- The links of a layout lead further down: from every node to two neighbours that stand after it
and are part of the layout. -/
def Downward (nodes : List Node) : Prop :=
  ∀ position node left right, nodes[position]? = some node → node.children = some (left, right) →
    position < left ∧ position < right ∧ left < nodes.length ∧ right < nodes.length

/-- Links that lead further down are followed to their end with fuel for the nodes that are left. -/
theorem Downward.exists_depthFrom {nodes : List Node} (down : Downward nodes)
    {fuel position : Nat} (inside : position < nodes.length)
    (enough : nodes.length < fuel + position) : ∃ n, depthFrom nodes fuel position = .ok n := by
  induction fuel generalizing position with
  | zero => omega
  | succ fuel ih =>
    have found : nodes[position]? = some nodes[position] := List.getElem?_eq_getElem inside
    rw [depthFrom, found]
    cases children : nodes[position].children with
    | none => exact ⟨1, by simp only [children]⟩
    | some both =>
      obtain ⟨left, right⟩ := both
      obtain ⟨afterLeft, afterRight, insideLeft, insideRight⟩ := down _ _ _ _ found children
      obtain ⟨leftDepth, leftOk⟩ := ih insideLeft (by omega)
      obtain ⟨rightDepth, rightOk⟩ := ih insideRight (by omega)
      exact ⟨max leftDepth rightDepth + 1, by simp only [children, leftOk, rightOk]; rfl⟩

namespace Tree

theorem even_descendantCount (tree : Tree) : tree.descendantCount % 2 = 0 := by
  induction tree with
  | leaf input => rfl
  | node upper lower carry left right ihLeft ihRight =>
    simp only [descendantCount]
    omega

theorem length_descendants (tree : Tree) (start : Nat) :
    (tree.descendants start).length = tree.descendantCount := by
  induction tree generalizing start with
  | leaf input => rfl
  | node upper lower carry left right ihLeft ihRight =>
    simp only [descendants, List.length_cons, List.length_append, ihLeft, ihRight,
      descendantCount]

theorem children_rootNode {tree : Tree} {start l r : Nat}
    (children : (tree.rootNode start).children = some (l, r)) :
    l = start ∧ r = start + 1 ∧ 2 ≤ tree.descendantCount := by
  cases tree with
  | leaf input => cases children
  | node upper lower carry left right =>
    cases children
    exact ⟨rfl, rfl, Nat.le_add_left _ _⟩

/-- The children of a node below the root stand side by side after it, an even number of positions
after the first of these nodes. -/
theorem children_descendants {tree : Tree} {start i l r : Nat} {node : Node}
    (found : (tree.descendants start)[i]? = some node) (children : node.children = some (l, r)) :
    start + i < l ∧ r = l + 1 ∧ l % 2 = start % 2 ∧ r < start + tree.descendantCount := by
  induction tree generalizing start i with
  | leaf input => cases found
  | node upper lower carry left right ihLeft ihRight =>
    have even := left.even_descendantCount
    simp only [descendants, descendantCount] at found ⊢
    match i with
    | 0 =>
      cases found
      obtain ⟨rfl, rfl, some⟩ := children_rootNode children
      omega
    | 1 =>
      cases found
      obtain ⟨rfl, rfl, some⟩ := children_rootNode children
      omega
    | i + 2 =>
      rw [List.getElem?_cons_succ, List.getElem?_cons_succ] at found
      rcases Nat.lt_or_ge i left.descendantCount with inLeft | inRight
      · rw [List.getElem?_append_left (by rwa [length_descendants])] at found
        have := ihLeft found
        omega
      · rw [List.getElem?_append_right (by rwa [length_descendants]), length_descendants] at found
        have := ihRight found
        omega

theorem children_layout {tree : Tree} {i l r : Nat} {node : Node}
    (found : (tree.layout 0)[i]? = some node) (children : node.children = some (l, r)) :
    i < l ∧ r = l + 1 ∧ l % 2 = 1 ∧ r < (tree.layout 0).length := by
  simp only [layout, List.length_cons, length_descendants] at found ⊢
  cases i with
  | zero =>
    cases found
    obtain ⟨rfl, rfl, some⟩ := children_rootNode children
    omega
  | succ i =>
    have := children_descendants (List.getElem?_cons_succ ▸ found) children
    omega

/-- However many pairs of children a build made, the links of the root and of these children lead
further down. -/
theorem downward_keepFirst_layout (tree : Tree) (pairs : Nat) :
    Downward (Node.keepFirst 0 (1 + 2 * pairs) (tree.layout 0)) := by
  intro position node left right found children
  simp only [Node.keepFirst, List.getElem?_map, Option.map_eq_some_iff] at found
  obtain ⟨whole, found, rfl⟩ := found
  rw [List.getElem?_take] at found
  split at found
  swap
  · cases found
  simp only [Node.keepFirst, List.length_map, List.length_take]
  split at children
  · rename_i l r linked
    split at children
    · rename_i made
      rw [linked] at children
      cases children
      have := children_layout found linked
      omega
    · cases children
  · rename_i unlinked
    rw [unlinked] at children
    cases children

end Tree

/-! ### The states between calls -/

/-- A modular totalizer over some inputs that is not built yet or was built to its end. -/
inductive Settled (inputs : List Literal) : ModularTotalizer → Prop
  | fresh {preset : Option Nat} (fixed : ∀ m, preset = some m → 2 ≤ m) :
      Settled inputs (ofPreset inputs preset)
  | built {t : ModularTotalizer} {modulus maxBound : Nat} {upper lower : List Literal}
      (same : t.inputs = inputs) (complete : t.Complete modulus maxBound upper lower)
      (deep : ∃ n, t.depth = .ok n) : Settled inputs t

/-- How many variables a request to build takes. -/
def encodeDemand (t : ModularTotalizer) (maxBound : Nat) : Nat :=
  if t.maxBound.isSome ∨ maxBound = 0 ∨ t.inputs.length ≤ maxBound then 0
  else buildDemand (modulusFor t.modulus maxBound) t.inputs

variable {inputs : List Literal} {t : ModularTotalizer} {preset : Option Nat}
  {modulus maxBound bound : Nat} {upper lower : List Literal}

theorem Settled.inputs_eq (settled : Settled inputs t) : t.inputs = inputs := by
  cases settled with
  | fresh fixed => rfl
  | built same complete deep => exact same

/-- Fixing a modulus keeps an encoder settled. -/
theorem Settled.setModulus {t' : ModularTotalizer} (settled : Settled inputs t)
    (set : t.setModulus modulus = .ok t') : Settled inputs t' := by
  unfold ModularTotalizer.setModulus at set
  split at set
  · cases set
  rename_i two
  cases settled with
  | fresh fixed =>
    cases set
    exact .fresh fun m eq => by cases eq; omega
  | built same complete deep =>
    obtain ⟨position, root, at_, -⟩ := complete.root
    simp [isBuilt, at_] at set

/-! ### Building -/

section Encode

variable {σ : Type} [Collector σ]

/-- What an encoder whose root is there answers to a request to build it. -/
theorem Complete.encode_eq (complete : t.Complete modulus maxBound upper lower) (w : Workspace σ) :
    t.encode bound w =
      ⟨if bound ≤ maxBound ∨ t.inputs.length ≤ bound then none
        else some (.refused .alreadyEncoded), t, w⟩ := by
  unfold ModularTotalizer.encode
  rw [complete.maxBound_eq]
  dsimp only
  split <;> rfl

theorem exists_depth_buildTree (preset : Option Nat) {shape : Halving Literal}
    {clausesBefore variablesBefore : Nat} (w : Workspace σ) :
    ∃ n, ((ofPreset inputs preset).buildTree modulus maxBound shape upper lower clausesBefore
      variablesBefore w).value.depth = .ok n := by
  have deep (tree : Tree) (pairs : Nat) :
      let nodes := Node.keepFirst 0 (1 + 2 * pairs) (tree.layout 0)
      ∃ n, depthFrom nodes (nodes.length + 1) 0 = .ok n :=
    (tree.downward_keepFirst_layout pairs).exists_depthFrom
      (by simp [Node.keepFirst, Tree.layout]) (Nat.lt_succ_self _)
  unfold buildTree
  dsimp only
  split <;> exact deep _ _

theorem exists_depth_buildRoot (preset : Option Nat) {shape : Halving Literal}
    (w : Workspace σ) :
    ∃ n, ((ofPreset inputs preset).buildRoot modulus maxBound shape w).value.depth = .ok n := by
  have unbuilt : ∃ n, (ofPreset inputs preset).depth = .ok n := ⟨0, rfl⟩
  unfold buildRoot
  dsimp only
  split
  · exact unbuilt
  split
  · exact unbuilt
  split
  · exact unbuilt
  · exact exists_depth_buildTree preset _

/-- A build links its nodes downwards, however it ends. -/
theorem exists_depth_encode (inputs : List Literal) (preset : Option Nat) (maxBound : Nat)
    (w : Workspace σ) : ∃ n, ((ofPreset inputs preset).encode maxBound w).value.depth = .ok n := by
  have unbuilt : ∃ n, (ofPreset inputs preset).depth = .ok n := ⟨0, rfl⟩
  change ∃ n, (if maxBound = 0 ∨ inputs.length ≤ maxBound then
    ⟨none, ofPreset inputs preset, w⟩ else _ : Outcome ModularTotalizer σ).value.depth = .ok n
  split
  · exact unbuilt
  split
  · exact exists_depth_buildRoot (some _) w
  · exact unbuilt
  · exact unbuilt

end Encode

section

variable {σ : Type} [ReliableCollector σ]

/-- The first build for a bound that needs a tree comes to its end, or literals cannot carry all
the indices it takes. -/
theorem encode_first (positive : 0 < maxBound) (lt : maxBound < inputs.length)
    (fixed : ∀ m, preset = some m → 2 ≤ m) (w : Workspace σ) :
    ∃ failure t w', (ofPreset inputs preset).encode maxBound w = ⟨failure, t, w'⟩ ∧
      ((failure = none ∧ t.inputs = inputs ∧ (∃ n, t.depth = .ok n) ∧ ∃ modulus upper lower,
          t.Complete modulus maxBound upper lower) ∨
        (∃ f, failure = some (.fault f)) ∧ Variable.maxIndex + 1 <
          w.supply.next + buildDemand (modulusFor preset maxBound) inputs) := by
  have two := two_le_modulusFor fixed positive
  obtain ⟨failure, t, w', encoded, ran, same, complete⟩ := encode_ran positive lt fixed w
  have deep := exists_depth_encode inputs preset maxBound w
  rw [encoded] at deep
  refine ⟨failure, t, w', encoded, ?_⟩
  rcases ran.done_or_crowded (Collector.unfailing_of_reliable _) with rfl | ⟨fault, full⟩
  · exact .inl ⟨rfl, same, deep, _, _, _, complete fun f => by simp⟩
  · rw [plannedVariables_buildPlan two] at full
    exact .inr ⟨fault, full⟩

/-- A request to build a settled encoder leaves it settled and ends in a fault only for want of
indices. -/
theorem Settled.encode (settled : Settled inputs t) (maxBound : Nat) (w : Workspace σ) :
    (t.encode maxBound w).Safe w (t.encodeDemand maxBound) (Settled inputs) := by
  cases settled with
  | built same complete deep =>
    rw [complete.encode_eq]
    refine .of_fine (fun f => ?_) (.built same complete deep)
    dsimp only
    split <;> simp
  | @fresh preset fixed =>
    by_cases trivial : maxBound = 0 ∨ inputs.length ≤ maxBound
    · have eq : (ofPreset inputs preset).encode maxBound w = ⟨none, ofPreset inputs preset, w⟩ :=
        if_pos trivial
      rw [eq]
      exact .of_fine (fun f => by simp) (.fresh fixed)
    have positive : 0 < maxBound := Nat.pos_of_ne_zero fun zero => trivial (.inl zero)
    have lt : maxBound < inputs.length := Nat.lt_of_not_le fun le => trivial (.inr le)
    have demand : (ofPreset inputs preset).encodeDemand maxBound =
        buildDemand (modulusFor preset maxBound) inputs :=
      if_neg (by simpa [ofPreset] using trivial)
    obtain ⟨failure, t, w', encoded, ending⟩ := encode_first positive lt fixed w
    rw [encoded, demand]
    refine .of_done_or_crowded (ending.imp_left ?_)
    rintro ⟨done, same, deep, modulus, upper, lower, complete⟩
    exact ⟨done, .built same complete deep⟩

/-! ### Enforcing -/

/-- An encoder that is not built enforces the bound zero and every bound that is met anyway; it
refuses the others. -/
theorem answer_enforceUpper_ofPreset (w : Workspace σ) :
    ((ofPreset inputs preset).enforceUpper bound w).1 =
      if inputs.length ≤ bound ∨ bound = 0 then none else some (.refused .notEncoded) := by
  by_cases many : inputs.length ≤ bound
  · rw [if_pos (.inl many)]
    exact congrArg Prod.fst (if_pos many)
  by_cases zero : bound = 0
  · obtain ⟨w', extended, -⟩ := w.extend_spec (inputs.map fun l => .unit l.complement)
    rw [if_pos (.inr zero)]
    exact congrArg Prod.fst ((if_neg many).trans ((if_pos zero).trans extended))
  · rw [if_neg (not_or.2 ⟨many, zero⟩)]
    exact congrArg Prod.fst ((if_neg many).trans (if_neg zero))

/-- A complete tree enforces the bounds up to its maximum and every bound that is met anyway; it
refuses the others. -/
theorem Complete.answer_enforceUpper (complete : t.Complete modulus maxBound upper lower)
    (w : Workspace σ) :
    (t.enforceUpper bound w).1 =
      if t.inputs.length ≤ bound ∨ bound ≤ maxBound then none
      else some (.refused .notEncoded) := by
  by_cases many : t.inputs.length ≤ bound
  · rw [if_pos (.inl many), ModularTotalizer.enforceUpper, if_pos many]
  by_cases le : bound ≤ maxBound
  · obtain ⟨w', enforced, -⟩ := complete.enforceUpper le w
    rw [if_pos (.inr le)]
    exact congrArg Prod.fst enforced
  · rw [if_neg (not_or.2 ⟨many, le⟩)]
    exact congrArg Prod.fst
      (complete.enforceUpper_beyond (Nat.lt_of_not_le le) (Nat.lt_of_not_le many) w)

/-- A request to enforce a bound on a complete tree does not end in a fault. -/
theorem Complete.enforceUpper_ne_fault (complete : t.Complete modulus maxBound upper lower)
    (bound : Nat) (w : Workspace σ) (f : Fault) :
    (t.enforceUpper bound w).1 ≠ some (.fault f) := by
  rw [complete.answer_enforceUpper]
  split <;> simp

/-- A request to enforce a bound on a settled encoder does not end in a fault. -/
theorem Settled.enforceUpper (settled : Settled inputs t) (bound : Nat) (w : Workspace σ)
    (f : Fault) : (t.enforceUpper bound w).1 ≠ some (.fault f) := by
  cases settled with
  | fresh fixed =>
    rw [answer_enforceUpper_ofPreset]
    split <;> simp
  | built same complete deep => exact complete.enforceUpper_ne_fault bound w f

end

/-- A settled encoder tells its depth. -/
theorem Settled.depth (settled : Settled inputs t) : ∃ n, t.depth = .ok n := by
  cases settled with
  | fresh fixed => exact ⟨0, rfl⟩
  | built same complete deep => exact deep

end CardinalityClauses.ModularTotalizer
