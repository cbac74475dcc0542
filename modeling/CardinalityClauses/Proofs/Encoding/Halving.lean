import CardinalityClauses.Encoding.Halving

/-!
Halving keeps the values of a list and their order.
-/

namespace CardinalityClauses.Halving

variable {α : Type}

@[simp]
theorem length_toList (t : Halving α) : t.toList.length = t.size := by
  induction t with
  | tip value => rfl
  | fork left right ihLeft ihRight => simp [toList, size, ihLeft, ihRight]

theorem size_pos (t : Halving α) : 0 < t.size := by
  induction t with
  | tip value => exact Nat.one_pos
  | fork left right ihLeft _ => simp only [size]; omega

/-- With enough fuel, every list but the empty one is split down to its values. -/
theorem split_spec {fuel : Nat} {values : List α} (nonempty : values ≠ [])
    (enough : values.length ≤ fuel + 1) : ∃ t, split fuel values = some t ∧ t.toList = values := by
  induction fuel generalizing values with
  | zero =>
      match values, nonempty, enough with
      | [value], _, _ => exact ⟨tip value, by simp [split], rfl⟩
      | _ :: _ :: _, _, enough => simp at enough
  | succ fuel ih =>
      match values, nonempty, enough with
      | [value], _, _ => exact ⟨tip value, by simp [split], rfl⟩
      | first :: second :: rest, _, enough =>
          let values := first :: second :: rest
          have two : 2 ≤ values.length := by simp [values]
          have half : 1 ≤ values.length / 2 ∧ values.length / 2 < values.length := by omega
          have enough : values.length ≤ fuel + 2 := enough
          obtain ⟨left, splitLeft, listLeft⟩ := @ih (values.take (values.length / 2))
            (List.ne_nil_of_length_pos (by rw [List.length_take]; omega))
            (by rw [List.length_take]; omega)
          obtain ⟨right, splitRight, listRight⟩ := @ih (values.drop (values.length / 2))
            (List.ne_nil_of_length_pos (by rw [List.length_drop]; omega))
            (by rw [List.length_drop]; omega)
          refine ⟨fork left right, ?_, ?_⟩
          · simp only [split]
            simp only [values] at splitLeft splitRight
            rw [splitLeft, splitRight]
            rfl
          · rw [toList, listLeft, listRight, List.take_append_drop]

/-- Every list but the empty one has a tree, and its tips are the list. -/
theorem ofList?_spec {values : List α} (nonempty : values ≠ []) :
    ∃ t, ofList? values = some t ∧ t.toList = values :=
  split_spec nonempty (Nat.le_succ _)

theorem toList_of_ofList? {values : List α} {t : Halving α} (eq : ofList? values = some t) :
    t.toList = values := by
  cases values with
  | nil => simp [ofList?, split] at eq
  | cons first rest =>
      obtain ⟨u, found, list⟩ := ofList?_spec (List.cons_ne_nil first rest)
      rw [found] at eq
      cases eq
      exact list

theorem size_of_ofList? {values : List α} {t : Halving α} (eq : ofList? values = some t) :
    t.size = values.length := by
  rw [← length_toList, toList_of_ofList? eq]

/-- The tree of two values or more is a fork. -/
theorem exists_fork {values : List α} (two : 2 ≤ values.length) :
    ∃ left right, ofList? values = some (fork left right) ∧
      (fork left right).toList = values := by
  have nonempty : values ≠ [] := List.ne_nil_of_length_pos (Nat.zero_lt_of_lt two)
  obtain ⟨tree, split, list⟩ := ofList?_spec nonempty
  cases tree with
  | tip value =>
      rw [← list] at two
      simp [toList] at two
  | fork left right => exact ⟨left, right, split, list⟩

end CardinalityClauses.Halving
