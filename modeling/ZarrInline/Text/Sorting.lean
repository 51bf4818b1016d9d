import Mathlib

/-!
# Sorted strings

Strings sorted by their characters.  For scalar values this is the order of UTF-8 bytes
and of code points alike.
-/

namespace Text

variable {χ : Type} [LinearOrder χ]

/-- The strings in ascending order. -/
def sortStrings (ss : List (List χ)) : List (List χ) := ss.mergeSort fun a b => decide (a ≤ b)

theorem sortStrings_perm (ss : List (List χ)) : (sortStrings ss).Perm ss := List.mergeSort_perm _ _

theorem mem_sortStrings {s : List χ} {ss : List (List χ)} : s ∈ sortStrings ss ↔ s ∈ ss :=
  (sortStrings_perm ss).mem_iff

theorem sortStrings_sorted (ss : List (List χ)) : (sortStrings ss).Pairwise (· ≤ ·) := by
  have h := @List.pairwise_mergeSort _ (fun a b : List χ => decide (a ≤ b))
    (fun a b c hab hbc => decide_eq_true ((of_decide_eq_true hab).trans (of_decide_eq_true hbc)))
    (fun a b => by simpa using le_total a b) ss
  exact h.imp fun hab => of_decide_eq_true hab

/-- Sorting forgets the order there was. -/
theorem sortStrings_congr {ss ts : List (List χ)} (h : ss.Perm ts) :
    sortStrings ss = sortStrings ts :=
  List.Perm.eq_of_pairwise (fun _ _ _ _ hab hba => le_antisymm hab hba) (sortStrings_sorted ss)
    (sortStrings_sorted ts) ((sortStrings_perm ss).trans (h.trans (sortStrings_perm ts).symm))

end Text
