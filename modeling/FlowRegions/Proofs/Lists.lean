import Mathlib.Data.List.Perm.Subperm

/-!
Contract: facts about lists of indices that several parts of the theory share.

A list of indices without repetition is a numbering: an index has one position,
and there are no more positions than indices below the bound.
-/

namespace FlowRegions

theorem lt_length_of_getElem? {ι : Type} {items : List ι} {i : Nat} {x : ι}
    (found : items[i]? = some x) : i < items.length :=
  (List.getElem?_eq_some_iff.mp found).1

/-- What stands behind one more item: what stood there, or the item at the end. -/
theorem getElem?_concat_eq_some {ι : Type} {items : List ι} {i : Nat} {x y : ι} :
    (items ++ [x])[i]? = some y ↔ items[i]? = some y ∨ (i = items.length ∧ x = y) := by
  rcases Nat.lt_trichotomy i items.length with before | rfl | behind
  · rw [List.getElem?_append_left before]
    exact ⟨.inl, fun either => either.resolve_right fun last => Nat.ne_of_lt before last.1⟩
  · rw [List.getElem?_concat_length, List.getElem?_eq_none (Nat.le_refl _)]
    simp
  · have short : (items ++ [x]).length ≤ i := by
      rw [List.length_append, List.length_singleton]
      omega
    rw [List.getElem?_eq_none short, List.getElem?_eq_none (Nat.le_of_lt behind)]
    have notLast := Nat.ne_of_gt behind
    simp [notLast]

/-- Positions in a list without repetition are determined by their item. -/
theorem position_unique {ι : Type} {items : List ι} (distinct : items.Nodup) {i j : Nat} {x : ι}
    (first : items[i]? = some x) (second : items[j]? = some x) : i = j :=
  (List.getElem?_inj (lt_length_of_getElem? first) distinct).mp (first.trans second.symm)

section Bounded

variable {items : List Nat} {bound : Nat}

theorem length_le_of_lt (distinct : items.Nodup) (within : ∀ x ∈ items, x < bound) :
    items.length ≤ bound := by
  have inRange : items ⊆ List.range bound := fun x member => List.mem_range.mpr (within x member)
  have fits := (List.subperm_of_subset distinct inRange).length_le
  rwa [List.length_range] at fits

/-- A list as long as its bound holds everything below it. -/
theorem mem_of_length_eq (distinct : items.Nodup) (within : ∀ x ∈ items, x < bound)
    (full : items.length = bound) {x : Nat} (below : x < bound) : x ∈ items := by
  have inRange : items ⊆ List.range bound := fun x member => List.mem_range.mpr (within x member)
  have all := (List.subperm_of_subset distinct inRange).perm_of_length_le
    (by simp [full])
  exact all.mem_iff.mpr (List.mem_range.mpr below)

end Bounded

end FlowRegions
