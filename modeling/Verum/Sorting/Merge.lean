import Mathlib.Data.List.Lex
import Mathlib.Data.List.Sort

namespace Sorting

section Merge

variable {α : Type}

/-- The top-down merge sort; of two entries that are not ordered the left one comes first. -/
def mergeSort (lt : α → α → Bool) (entries : List α) : List α :=
  if entries.length ≤ 1 then entries
  else
    (mergeSort lt (entries.take (entries.length / 2))).merge (mergeSort lt (entries.drop (entries.length / 2)))
      fun left right => !lt right left
termination_by entries.length
decreasing_by
  · rw [List.length_take]
    omega
  · rw [List.length_drop]
    omega

theorem mergeSort_perm (lt : α → α → Bool) (es : List α) : (mergeSort lt es).Perm es := by
  induction es using mergeSort.induct with
  | case1 es short =>
    rw [mergeSort, if_pos short]
  | case2 es long left right =>
    rw [mergeSort, if_neg long]
    have whole := (left.append right).trans (.of_eq (List.take_append_drop (es.length / 2) es))
    exact (List.merge_perm_append _).trans whole

variable {κ : Type} [LinearOrder κ] {lt : α → α → Bool} {key : α → κ}

theorem mergeSort_pairwise (byKey : ∀ a b, lt a b = true ↔ key a < key b) (es : List α) :
    (mergeSort lt es).Pairwise fun a b => key a ≤ key b := by
  have notLt (a b : α) : (!lt b a) = true ↔ key a ≤ key b := by
    rw [Bool.not_eq_true', ← Bool.not_eq_true, byKey, not_lt]
  induction es using mergeSort.induct with
  | case1 es short =>
    rw [mergeSort, if_pos short]
    match es, short with
    | [], _ => exact .nil
    | [a], _ => exact List.pairwise_singleton _ a
  | case2 es long left right =>
    rw [mergeSort, if_neg long]
    simp only [← notLt] at left right ⊢
    refine List.pairwise_merge ?_ ?_ _ _ left right
    · intro a b c fst snd
      rw [notLt] at *
      exact fst.trans snd
    · intro a b
      rw [Bool.or_eq_true, notLt, notLt]
      exact le_total _ _

theorem mergeSort_strict (byKey : ∀ a b, lt a b = true ↔ key a < key b) {es : List α}
    (distinct : (es.map key).Nodup) : (mergeSort lt es).Pairwise fun a b => key a < key b := by
  have sortedDistinct := ((mergeSort_perm lt es).map key).nodup_iff.mpr distinct
  rw [List.Nodup, List.pairwise_map] at sortedDistinct
  exact ((mergeSort_pairwise byKey es).and sortedDistinct).imp fun both => lt_of_le_of_ne both.1 both.2

theorem eq_of_perm_strict {es others : List α} (perm : es.Perm others)
    (ord : es.Pairwise fun a b => key a < key b) (ordered' : others.Pairwise fun a b => key a < key b) :
    es = others :=
  List.Perm.eq_of_pairwise (fun _ _ _ _ fst snd => absurd snd (lt_asymm fst)) ord ordered' perm

end Merge

end Sorting
