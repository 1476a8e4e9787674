/-!
Contract: sorting by insertion.

The lists sorted in this library are short and mostly in order already, and
insertion follows the list, so that sorted lists of concrete numbers compute.
Equal elements keep their order.
-/

namespace FlowRegions

variable {α : Type}

/-- Puts an element in front of the first one it does not come behind. -/
def insertBy (le : α → α → Bool) (x : α) : List α → List α
  | [] => [x]
  | y :: rest => if le x y then x :: y :: rest else y :: insertBy le x rest

def sortBy (le : α → α → Bool) (items : List α) : List α :=
  items.foldr (insertBy le) []

def sortNats (numbers : List Nat) : List Nat :=
  sortBy (fun m n => decide (m ≤ n)) numbers

theorem insertBy_perm (le : α → α → Bool) (x : α) (items : List α) :
    (insertBy le x items).Perm (x :: items) := by
  induction items with
  | nil => exact List.Perm.refl _
  | cons y rest inductionHypothesis =>
      simp only [insertBy]
      split
      · exact List.Perm.refl _
      · exact (inductionHypothesis.cons y).trans (List.Perm.swap x y rest)

/-- Sorting keeps every element as often as it was there. -/
theorem sortBy_perm (le : α → α → Bool) (items : List α) : (sortBy le items).Perm items := by
  induction items with
  | nil => exact List.Perm.refl _
  | cons x rest inductionHypothesis =>
      exact (insertBy_perm le x (sortBy le rest)).trans (inductionHypothesis.cons x)

theorem mem_sortBy (le : α → α → Bool) (items : List α) (x : α) :
    x ∈ sortBy le items ↔ x ∈ items :=
  (sortBy_perm le items).mem_iff

theorem length_sortBy (le : α → α → Bool) (items : List α) :
    (sortBy le items).length = items.length :=
  (sortBy_perm le items).length_eq

theorem pairwise_insertBy (le : α → α → Bool)
    (transitive : ∀ x y z, le x y = true → le y z = true → le x z = true)
    (total : ∀ x y, le x y = false → le y x = true)
    (x : α) (items : List α) (sorted : items.Pairwise fun y z => le y z = true) :
    (insertBy le x items).Pairwise fun y z => le y z = true := by
  induction items with
  | nil => simp [insertBy]
  | cons y rest inductionHypothesis =>
      obtain ⟨least, restSorted⟩ := List.pairwise_cons.mp sorted
      simp only [insertBy]
      split
      · rename_i before
        refine List.pairwise_cons.mpr ⟨?_, sorted⟩
        intro z member
        rcases List.mem_cons.mp member with rfl | later
        · exact before
        · exact transitive x y z before (least z later)
      · rename_i behind
        refine List.pairwise_cons.mpr ⟨?_, inductionHypothesis restSorted⟩
        intro z member
        rcases List.mem_cons.mp ((insertBy_perm le x rest).mem_iff.mp member) with rfl | later
        · exact total z y (by simpa using behind)
        · exact least z later

/-- Sorting by a total order leaves a list in that order. -/
theorem pairwise_sortBy (le : α → α → Bool)
    (transitive : ∀ x y z, le x y = true → le y z = true → le x z = true)
    (total : ∀ x y, le x y = false → le y x = true) (items : List α) :
    (sortBy le items).Pairwise fun y z => le y z = true := by
  induction items with
  | nil => exact List.Pairwise.nil
  | cons x rest inductionHypothesis =>
      exact pairwise_insertBy le transitive total x _ inductionHypothesis

theorem pairwise_sortNats (numbers : List Nat) :
    (sortNats numbers).Pairwise fun m n => m ≤ n := by
  have sorted := pairwise_sortBy (fun m n : Nat => decide (m ≤ n))
    (fun x y z first second => by simp at *; omega)
    (fun x y notLe => by simp at *; omega) numbers
  exact sorted.imp fun le => of_decide_eq_true le

/-- Sorted numbers without repetition ascend strictly. -/
theorem pairwise_lt_sortNats {numbers : List Nat} (distinct : numbers.Nodup) :
    (sortNats numbers).Pairwise fun m n => m < n := by
  have sorted := (sortBy_perm (fun m n : Nat => decide (m ≤ n)) numbers).nodup_iff.mpr distinct
  exact (pairwise_sortNats numbers).and sorted |>.imp fun both =>
    Nat.lt_of_le_of_ne both.1 both.2

/-- Numbers that ascend are sorted already. -/
theorem sortNats_of_pairwise {numbers : List Nat}
    (ascending : numbers.Pairwise fun m n => m ≤ n) : sortNats numbers = numbers := by
  apply List.Perm.eq_of_pairwise (fun m n _ _ first second => Nat.le_antisymm first second)
    (pairwise_sortNats numbers) ascending
  exact sortBy_perm _ numbers

end FlowRegions
