import CardinalityClauses.Proofs.Encoding.Tidy
import CardinalityClauses.Proofs.ModularTotalizer.Calls

/-!
What a modular totalizer emits is tidy.

A clause of an adder says that the children reach two counts, and it has one or two literals of the
node, so it has four literals at most (`About`). Which counts these are shows in the variables. The
clauses over the upper parts are not among those over the lower parts, since the counts of the lower
parts are never both zero. So the clauses of a tree over distinct variables are tidy
(`Tree.Sized.tidy`), and after a build the variables are distinct: next to the inputs they are the
block of variables that the build took (`Tree.literals_grow`).
-/

namespace CardinalityClauses.ModularTotalizer

open Unary
open VariableSupply (block block_append)

/-! ### Clauses about two counts -/

section About

variable {lefts rights own left right : List Literal} {i j i' j' : Nat} {c : Clause}

/-- The premises of the clause say that two counters reach two counts. The counters are among the
literals of the children, and one or two literals of the clause are of the node. -/
def About (lefts rights own left right : List Literal) (i j : Nat) (c : Clause) : Prop :=
  ∃ o, DrawnAt lefts rights own (atLeast left i) (atLeast right j) o c ∧
    2 ≤ (atLeast left i).length + (atLeast right j).length + o.length ∧ o.length ≤ 2

theorem about_of_own {l : Literal} {others : List Literal} (fromLeft : left.Sublist lefts)
    (fromRight : right.Sublist rights)
    (fromOwn : ((l :: others).map Literal.index).Sublist (own.map Literal.index))
    (few : others.length ≤ 1)
    (long : 2 ≤ ((Clause.implication (atLeast left i ++ atLeast right j) l).append
      others).length) :
    About lefts rights own left right i j
      ((Clause.implication (atLeast left i ++ atLeast right j) l).append others) := by
  have drawn := drawn_implication ((sublist_atLeast left i).trans fromLeft)
    ((sublist_atLeast right j).trans fromRight) fromOwn
  refine ⟨_, drawn, ?_, ?_⟩
  · rw [drawn.length_eq] at long
    simpa using long
  · simpa using few

theorem About.exists_drawn (hi : i ≤ left.length) (hj : j ≤ right.length)
    (about : About lefts rights own left right i j c) :
    ∃ p q o, Drawn (lefts.map Literal.index) (rights.map Literal.index) (own.map Literal.index)
      p q o c ∧ 2 ≤ p.length + q.length + o.length ∧ p.length + q.length + o.length ≤ 4 := by
  obtain ⟨o, drawn, long, short⟩ := about
  refine ⟨_, _, o, drawn, ?_⟩
  rw [length_atLeast hi, length_atLeast hj] at long
  rw [List.length_map, List.length_map, length_atLeast hi, length_atLeast hj]
  omega

/-- The clause tells which counts it is about. -/
theorem About.inj (fromLeft : left.Sublist lefts) (fromRight : right.Sublist rights)
    (nodup : DistinctAt lefts rights own)
    (hi : i ≤ left.length) (hj : j ≤ right.length) (hi' : i' ≤ left.length)
    (hj' : j' ≤ right.length) (about : About lefts rights own left right i j c)
    (about' : About lefts rights own left right i' j' c) : i = i' ∧ j = j' := by
  obtain ⟨o, drawn, -, -⟩ := about
  obtain ⟨o', drawn', -, -⟩ := about'
  obtain ⟨sameLeft, sameRight, -⟩ := drawn.eq_of_eq drawn' nodup
  obtain ⟨nodupLeft, nodupRight, -⟩ := List.nodup_append.1 (List.nodup_append.1 nodup).1
  exact ⟨atLeast_inj (nodupLeft.sublist (fromLeft.map _)) hi hi' sameLeft,
    atLeast_inj (nodupRight.sublist (fromRight.map _)) hj hj' sameRight⟩

/-- Counters without a variable in common reach different counts, unless both reach none. -/
theorem atLeast_eq_nil_of_disjoint {lower upper : List Literal}
    (nodup : ((lower ++ upper).map Literal.index).Nodup)
    (same : (atLeast lower i).map Literal.index = (atLeast upper i').map Literal.index) :
    atLeast lower i = [] := by
  rw [List.map_append] at nodup
  apply List.eq_nil_iff_forall_not_mem.2
  intro l mem
  have inLower := ((sublist_atLeast lower i).map Literal.index).subset (List.mem_map_of_mem mem)
  have inUpper := ((sublist_atLeast upper i').map Literal.index).subset
    (same ▸ List.mem_map_of_mem mem)
  exact (List.nodup_append.1 nodup).2.2 _ inLower _ inUpper rfl

end About

/-! ### One adder -/

section Lower

variable {modulus maxBound : Nat} {lefts rights own left right lower : List Literal}
  {carry : Option Literal} {i j : Nat} (sized : LowerSized modulus left right lower carry)
  (fromLeft : left.Sublist lefts) (fromRight : right.Sublist rights)
  (fromOwn : (lower ++ carry.toList).Sublist own)

include sized fromLeft fromRight fromOwn

theorem LowerSized.about_lowerClause (hi : i ≤ left.length) (hj : j ≤ right.length)
    {made : Except Fault Clause}
    (eq : lowerClause modulus maxBound left right lower carry i j = some made) :
    0 < i + j ∧ ∃ c, made = .ok c ∧ About lefts rights own left right i j c := by
  obtain ⟨⟨positive, -⟩, cases⟩ := (sized.lowerClause_eq_some hi hj).1 eq
  have premise := one_le_length_premises positive hi hj
  have about {l : Literal} {others : List Literal} (sub : (l :: others).Sublist own)
      (few : others.length ≤ 1) : About lefts rights own left right i j
        ((Clause.implication (atLeast left i ++ atLeast right j) l).append others) := by
    refine about_of_own fromLeft fromRight (sub.map _) few ?_
    simp only [Clause.length, Clause.append, Clause.implication, List.length_append,
      List.length_map, List.length_singleton] at premise ⊢
    omega
  refine ⟨positive, ?_⟩
  obtain ⟨-, l, found, rfl⟩ | ⟨-, l, rfl, rfl⟩ | ⟨-, l, found, rfl⟩ := cases
  · have mem := List.singleton_sublist.2 (List.mem_of_getElem? found)
    exact ⟨_, rfl, about ((mem.append_right _).trans fromOwn) Option.length_toList_le⟩
  · have sub := (List.sublist_append_right lower [l]).trans fromOwn
    exact ⟨_, (Clause.append_nil _).symm ▸ rfl, about sub (Nat.zero_le _)⟩
  · have mem := List.singleton_sublist.2 (List.mem_of_getElem? found)
    have sub := (mem.trans (List.sublist_append_left lower _)).trans fromOwn
    exact ⟨_, (Clause.append_nil _).symm ▸ rfl, about sub (Nat.zero_le _)⟩

/-- No two pairs of counts have a clause over the lower parts in common. -/
theorem LowerSized.nodup_lowerAdder (nodup : DistinctAt lefts rights own) :
    (lowerAdder modulus maxBound left right lower carry).clauses.Nodup := by
  refine Batch.nodup_ofMade (nodup_grid_option fun i hi j hj i' hi' j' hj' made eq eq' => ?_)
  obtain ⟨-, c, rfl, about⟩ := sized.about_lowerClause fromLeft fromRight fromOwn hi hj eq
  obtain ⟨-, c', same, about'⟩ := sized.about_lowerClause fromLeft fromRight fromOwn hi' hj' eq'
  cases same
  exact about.inj fromLeft fromRight nodup hi hj hi' hj' about'

theorem LowerSized.about_lowerAdder {c : Clause}
    (hc : c ∈ (lowerAdder modulus maxBound left right lower carry).clauses) :
    ∃ i ≤ left.length, ∃ j ≤ right.length, 0 < i + j ∧
      About lefts rights own left right i j c := by
  rw [lowerAdder, (Batch.ofMade_spec fun _ mem => sized.made_ok (mem_lowerMade.1 mem)).2,
    mem_lowerMade] at hc
  obtain ⟨i, hi, j, hj, eq⟩ := hc
  obtain ⟨positive, c, same, about⟩ := sized.about_lowerClause fromLeft fromRight fromOwn hi hj eq
  cases same
  exact ⟨i, hi, j, hj, positive, about⟩

end Lower

section Upper

variable {modulus maxBound : Nat} {lefts rights own left right upper : List Literal}
  {carry : Literal} {i j : Nat} {c : Clause} (fromLeft : left.Sublist lefts)
  (fromRight : right.Sublist rights) (fromOwn : (carry :: upper).Sublist own)

include fromLeft fromRight fromOwn

theorem about_upperClauses (parts : 0 < upper.length) (hi : i ≤ left.length)
    (hj : j ≤ right.length) (hc : c ∈ upperClauses left right upper carry i j) :
    About lefts rights own left right i j c := by
  have long : 2 ≤ c.length := of_decide_eq_true (List.mem_filter.1 hc).2
  obtain ⟨-, l, found, rfl⟩ | rfl := (mem_upperClauses parts hi hj).1 hc
  · have mem := List.mem_cons_of_mem carry (List.mem_of_getElem? found)
    have sub := (List.singleton_sublist.2 mem).trans fromOwn
    rw [← (Clause.implication _ l).append_nil] at long ⊢
    exact about_of_own fromLeft fromRight (sub.map _) (Nat.zero_le _) long
  · have sub := ((sublist_getElem? upper (i + j)).cons_cons carry).trans fromOwn
    exact about_of_own fromLeft fromRight (sub.map Literal.index) Option.length_toList_le long

/-- The clause that passes the carry on has the carry, and one that does not is another. -/
theorem ne_carriedClause (nodup : DistinctAt lefts rights own) {l : Literal} (mem : l ∈ upper) :
    Clause.implication (atLeast left i ++ atLeast right j) l ≠
      carriedClause left right upper carry i j := by
  have fromLeft := (sublist_atLeast left i).trans fromLeft
  have fromRight := (sublist_atLeast right j).trans fromRight
  have drawn := drawn_implication fromLeft fromRight
    (((List.singleton_sublist.2 (List.mem_cons_of_mem carry mem)).trans fromOwn).map Literal.index)
  have drawn' : DrawnAt lefts rights own _ _ _ (carriedClause left right upper carry i j) :=
    drawn_implication fromLeft fromRight
      ((((sublist_getElem? upper (i + j)).cons_cons carry).trans fromOwn).map Literal.index)
  rw [Clause.append_nil] at drawn
  intro same
  obtain ⟨-, -, own_eq⟩ := drawn.eq_of_eq (same ▸ drawn') nodup
  have distinct := (List.nodup_append.1 nodup).2.1.sublist (fromOwn.map Literal.index)
  rw [List.map_cons, List.nodup_cons] at distinct
  exact distinct.1 ((List.cons.inj own_eq).1 ▸ List.mem_map_of_mem mem)

theorem nodup_upperClauses (nodup : DistinctAt lefts rights own) (i j : Nat) :
    (upperClauses left right upper carry i j).Nodup := by
  refine List.Nodup.filter _ (List.nodup_append.2 ⟨?_, List.nodup_singleton _, ?_⟩)
  · split
    · exact List.nodup_nil
    · cases upper[i + j - 1]? <;> simp
  · intro c mem d carried
    rw [List.mem_singleton.1 carried]
    split at mem
    · cases mem
    · obtain ⟨l, found, rfl⟩ := Option.map_eq_some_iff.1 (Option.mem_toList.1 mem)
      exact ne_carriedClause fromLeft fromRight fromOwn nodup (List.mem_of_getElem? found)

/-- No two pairs of counts have a clause over the upper parts in common. -/
theorem nodup_upperAdder (parts : 0 < upper.length) (nodup : DistinctAt lefts rights own) :
    (upperAdder modulus maxBound left right upper carry).clauses.Nodup := by
  refine nodup_grid (fun i _ j _ => ?_) fun i hi j hj i' hi' j' hj' c mem mem' => ?_
  · split
    · exact nodup_upperClauses fromLeft fromRight fromOwn nodup i j
    · exact List.nodup_nil
  · split at mem
    swap
    · cases mem
    split at mem'
    swap
    · cases mem'
    have about := about_upperClauses fromLeft fromRight fromOwn parts hi hj mem
    have about' := about_upperClauses fromLeft fromRight fromOwn parts hi' hj' mem'
    exact about.inj fromLeft fromRight nodup hi hj hi' hj' about'

theorem about_upperAdder (parts : 0 < upper.length)
    (hc : c ∈ (upperAdder modulus maxBound left right upper carry).clauses) :
    ∃ i ≤ left.length, ∃ j ≤ right.length, About lefts rights own left right i j c := by
  obtain ⟨i, hi, j, hj, -, cases⟩ := (mem_upperAdder parts).1 hc
  have mem := (mem_upperClauses parts hi hj).2 cases
  exact ⟨i, hi, j, hj, about_upperClauses fromLeft fromRight fromOwn parts hi hj mem⟩

end Upper

/-! ### The whole tree -/

/-- The literals at the positions of a node. -/
def Node.literals (node : Node) : List Literal :=
  node.lower ++ node.carry.toList ++ node.upper

namespace Tree

/-- The literals of all nodes: the inputs, the parts and the carries. -/
def literals : Tree → List Literal
  | leaf input => [input]
  | node upper lower carry left right =>
      left.literals ++ right.literals ++ (lower ++ carry.toList ++ upper)

section Clauses

variable {modulus maxBound : Nat} {tree left right : Tree} {upper lower : List Literal}
  {carry : Option Literal}

theorem parts_sublist_literals (tree : Tree) :
    (tree.lower ++ tree.upper).Sublist tree.literals := by
  cases tree with
  | leaf input => exact List.Sublist.refl _
  | node upper lower carry left right =>
      exact ((List.sublist_append_left _ _).append_right _).trans (List.sublist_append_right _ _)

section Node

variable (sized : (node upper lower carry left right).Sized modulus) (two : 2 ≤ modulus)
  (nodup : DistinctAt (left.lower ++ left.upper) (right.lower ++ right.upper)
    (lower ++ carry.toList ++ upper))

include sized two nodup

/-- A clause over the lower parts has a premise about them, and one over the upper parts has
none. -/
theorem Sized.lowerAdder_apart {k : Literal} (set : carry = some k) :
    ∀ c ∈ (lowerAdder modulus maxBound left.lower right.lower lower carry).clauses,
      c ∉ (upperAdder modulus maxBound left.upper right.upper upper k).clauses := by
  intro c hc hc'
  subst set
  obtain ⟨i, hi, j, hj, positive, o, drawn, -⟩ := (sized.lowerSized two).about_lowerAdder
    (List.sublist_append_left _ left.upper) (List.sublist_append_left _ right.upper)
    (List.sublist_append_left _ upper) hc
  obtain ⟨i', -, j', -, o', drawn', -⟩ := about_upperAdder
    (List.sublist_append_right left.lower _) (List.sublist_append_right right.lower _)
    ((List.sublist_append_right lower [k]).append_right upper) (sized.parts rfl) hc'
  obtain ⟨sameLeft, sameRight, -⟩ := drawn.eq_of_eq drawn' nodup
  obtain ⟨nodupLeft, nodupRight, -⟩ := List.nodup_append.1 (List.nodup_append.1 nodup).1
  have premise := one_le_length_premises positive hi hj
  rw [atLeast_eq_nil_of_disjoint nodupLeft sameLeft,
    atLeast_eq_nil_of_disjoint nodupRight sameRight] at premise
  cases premise

theorem Sized.nodup_adderClauses :
    (adderClauses modulus maxBound left right upper lower carry).Nodup := by
  have low : (lowerAdder modulus maxBound left.lower right.lower lower carry).clauses.Nodup :=
    (sized.lowerSized two).nodup_lowerAdder (List.sublist_append_left _ _)
      (List.sublist_append_left _ _) (List.sublist_append_left _ _) nodup
  cases carry with
  | none => simpa [adderClauses, adder] using low
  | some k =>
      have up : (upperAdder modulus maxBound left.upper right.upper upper k).clauses.Nodup :=
        nodup_upperAdder (List.sublist_append_right _ _) (List.sublist_append_right _ _)
          ((List.sublist_append_right lower [k]).append_right upper) (sized.parts rfl) nodup
      simpa [adderClauses, adder] using low.append up (sized.lowerAdder_apart two nodup rfl)

theorem Sized.tidy_adderClauses :
    let own := (lower ++ carry.toList ++ upper).map Literal.index
    Tidy 4 (· ∈ (left.lower ++ left.upper).map Literal.index ++
        (right.lower ++ right.upper).map Literal.index ++ own)
      (adderClauses modulus maxBound left right upper lower carry) ∧
    ∀ c ∈ adderClauses modulus maxBound left right upper lower carry,
      ∃ i ∈ c.indices, i ∈ own := by
  refine tidy_of_drawn nodup (fun c hc => ?_) (sized.nodup_adderClauses two nodup)
  rcases mem_adderClauses.1 hc with low | ⟨k, rfl, up⟩
  · obtain ⟨i, hi, j, hj, -, about⟩ := (sized.lowerSized two).about_lowerAdder
      (List.sublist_append_left _ left.upper) (List.sublist_append_left _ right.upper)
      (List.sublist_append_left _ upper) low
    exact about.exists_drawn hi hj
  · obtain ⟨i, hi, j, hj, about⟩ := about_upperAdder
      (List.sublist_append_right left.lower _) (List.sublist_append_right right.lower _)
      ((List.sublist_append_right lower [k]).append_right upper) (sized.parts rfl) up
    exact about.exists_drawn hi hj

end Node

/-- The clauses of a tree over distinct variables are tidy. -/
theorem Sized.tidy (sized : tree.Sized modulus) (two : 2 ≤ modulus)
    (nodup : (tree.literals.map Literal.index).Nodup) :
    Tidy 4 (· ∈ tree.literals.map Literal.index) (tree.clauses modulus maxBound) := by
  induction tree with
  | leaf input => exact .nil
  | node upper lower carry left right ihLeft ihRight =>
      rw [literals, List.map_append, List.map_append] at nodup ⊢
      obtain ⟨nodupLeft, nodupRight, -⟩ := List.nodup_append.1 (List.nodup_append.1 nodup).1
      have drawn := ((left.parts_sublist_literals.map Literal.index).append
        (right.parts_sublist_literals.map Literal.index)).append
          (List.Sublist.refl ((lower ++ carry.toList ++ upper).map Literal.index))
      obtain ⟨tidy, owns⟩ := sized.tidy_adderClauses two (nodup.sublist drawn)
      have tidy := Tidy.node nodup (ihLeft sized.2.1 nodupLeft) (ihRight sized.2.2 nodupRight)
        (tidy.mono fun i hi => drawn.subset hi) owns
      exact tidy.perm List.perm_append_comm

end Clauses

/-! ### The literals of a tree -/

theorem perm_literals_rootNode (tree : Tree) (first start : Nat) :
    ((tree.rootNode first).literals ++ (tree.descendants start).flatMap Node.literals).Perm
      tree.literals := by
  induction tree generalizing first start with
  | leaf input => exact List.Perm.refl _
  | node upper lower carry left right ihLeft ihRight =>
      rw [List.perm_iff_count]
      intro l
      have countLeft := List.perm_iff_count.1 (ihLeft (start + 2) (start + 2)) l
      have countRight := List.perm_iff_count.1 (ihRight (start + 2 + left.descendantCount)
        (start + 2 + left.descendantCount)) l
      simp only [rootNode, descendants, literals, Node.literals, List.flatMap_cons,
        List.flatMap_append, List.count_append] at countLeft countRight ⊢
      omega

/-- The nodes of the layout have, in some order, the literals of the tree. -/
theorem perm_literals_layout (tree : Tree) (start : Nat) :
    ((tree.layout start).flatMap Node.literals).Perm tree.literals :=
  tree.perm_literals_rootNode (start + 1) (start + 1)

section Grow

variable {modulus : Nat}

theorem toList_carry (next n : Nat) :
    (block next (min 1 n))[0]?.toList = block next (min 1 n) := by
  rcases Nat.eq_zero_or_pos n with rfl | positive
  · rfl
  · rw [Nat.min_eq_left positive]
    rfl

/-- What a fork has, given what its children have. -/
theorem literals_fork {left right : Halving Literal} {upper lower : List Literal}
    (two : 2 ≤ modulus) (fit : PartsFit modulus (.fork left right) upper lower)
    (ofLeft : ∀ parts rest, (child modulus left parts rest).literals.Perm
      (left.toList ++ block parts (partsDemand modulus left) ++
        block rest (demandBelow modulus left)))
    (ofRight : ∀ parts rest, (child modulus right parts rest).literals.Perm
      (right.toList ++ block parts (partsDemand modulus right) ++
        block rest (demandBelow modulus right))) (next : Nat) :
    (grow modulus (.fork left right) upper lower next).1.literals.Perm
      ((Halving.fork left right).toList ++ (upper ++ lower) ++
        block next (demandBelow modulus (.fork left right))) := by
  rw [grow_fork two fit, literals, toList_carry, Halving.toList, demandBelow, ← block_append,
    ← block_append, ← block_append, ← block_append]
  refine (((ofLeft _ _).append (ofRight _ _)).append_right _).trans ?_
  rw [List.perm_iff_count]
  intro l
  simp only [List.count_append, Nat.add_assoc]
  omega

/-- A child has the inputs below it, its parts and a block of variables. -/
theorem literals_child (two : 2 ≤ modulus) (shape : Halving Literal) (parts rest : Nat) :
    (child modulus shape parts rest).literals.Perm
      (shape.toList ++ block parts (partsDemand modulus shape) ++
        block rest (demandBelow modulus shape)) := by
  induction shape generalizing parts rest with
  | tip input => exact List.Perm.refl _
  | fork left right ihLeft ihRight =>
      rw [partsDemand, ← block_append]
      exact literals_fork two (partsFit_fresh two _ parts) ihLeft ihRight rest

end Grow

/-! ### The end of a build -/

theorem length_pieces (modulus maxBound : Nat) (tree : Tree) (position start : Nat) :
    (tree.pieces modulus maxBound position start).length = tree.descendantCount := by
  induction tree generalizing position start with
  | leaf input => rfl
  | node upper lower carry left right ihLeft ihRight =>
      simp only [pieces, List.length_cons, List.length_append, ihLeft, ihRight, descendantCount]

/-- Once all nodes are made, all of them are linked. -/
theorem keepFirst_layout (tree : Tree) :
    Node.keepFirst 0 (1 + tree.descendantCount) (tree.layout 0) = tree.layout 0 := by
  have length : (tree.layout 0).length = 1 + tree.descendantCount := by
    rw [layout, List.length_cons, length_descendants, Nat.add_comm]
  rw [Node.keepFirst, ← length, List.take_length]
  refine (List.map_congr_left fun node mem => ?_).trans (List.map_id _)
  obtain ⟨i, found⟩ := List.mem_iff_getElem?.1 mem
  split
  · rename_i l r children
    have linked := children_layout found children
    exact if_pos (by omega)
  · rfl

end Tree

end CardinalityClauses.ModularTotalizer
