import Mathlib.Data.List.Perm.Basic

open List

namespace Sorting

variable {α : Type*} (compare : α → α → Ordering)

def InOrder (list : List α) : Prop := list.Pairwise fun a b => (compare a b).isLE

/-- The elements of a list, put in order. -/
structure Sorts (list sorted : List α) : Prop where
  perm : sorted.Perm list
  inOrder : InOrder compare sorted

/-- Made of runs in order, of one length but for the last, which may be shorter. -/
inductive Runs (width : Nat) : List α → Prop
  | last {run : List α} : run.length ≤ width → InOrder compare run → Runs width run
  | more {run rest : List α} : run.length = width → InOrder compare run → Runs width rest → Runs width (run ++ rest)

variable {compare} {list sorted left right : List α} {x y : α}

theorem isLE_of_lt (less : compare x y = .lt) : (compare x y).isLE := by
  rw [less]
  rfl

theorem Runs.inOrder {width : Nat} (runs : Runs compare width list) (short : list.length ≤ width) :
    InOrder compare list := by
  cases runs with
  | last _ inOrder => exact inOrder
  | @more run rest length inOrder _ =>
    rw [length_append] at short
    rwa [eq_nil_of_length_eq_zero (show rest.length = 0 by omega), append_nil]

theorem Runs.first {width : Nat} (runs : Runs compare width list) :
    InOrder compare (list.take width) ∧ Runs compare width (list.drop width) := by
  cases runs with
  | last short inOrder =>
    rw [take_of_length_le short, drop_eq_nil_of_le short]
    exact ⟨inOrder, .last (Nat.zero_le _) List.Pairwise.nil⟩
  | more length inOrder runs =>
    rw [take_left' length, drop_left' length]
    exact ⟨inOrder, runs⟩

theorem Sorts.before_last (ord : InOrder compare (list ++ [y])) (less : compare x y = .lt)
    (sorts : Sorts compare (x :: list) sorted) : Sorts compare (x :: (list ++ [y])) (sorted ++ [y]) := by
  rw [InOrder, pairwise_append] at ord
  obtain ⟨-, -, pre⟩ := ord
  refine ⟨sorts.perm.append_right [y], ?_⟩
  rw [InOrder, pairwise_append]
  refine ⟨sorts.inOrder, pairwise_singleton _ _, ?_⟩
  intro a mem b last
  rw [mem_singleton.mp last]
  rcases mem_cons.mp (sorts.perm.mem_iff.mp mem) with rfl | mem
  · exact isLE_of_lt less
  · exact pre a mem y (mem_singleton_self y)

section Order

variable [Std.TransCmp compare]

theorem isLE_iff : (compare x y).isLE ↔ compare y x ≠ .lt := by
  rw [@Std.OrientedCmp.eq_swap α compare _ x y]
  cases compare y x <;> decide

theorem Sorts.after_last (ord : InOrder compare (list ++ [y])) (notLess : compare x y ≠ .lt) :
    Sorts compare (x :: (list ++ [y])) (list ++ [y] ++ [x]) := by
  refine ⟨perm_append_singleton x _, ?_⟩
  have above : (compare y x).isLE := isLE_iff.mpr notLess
  have parts := ord
  rw [InOrder, pairwise_append] at parts
  obtain ⟨-, -, pre⟩ := parts
  rw [InOrder, pairwise_append]
  refine ⟨ord, pairwise_singleton _ _, ?_⟩
  intro a mem b last
  rw [mem_singleton.mp last]
  rcases mem_append.mp mem with mem | mem
  · exact Std.TransCmp.isLE_trans (pre a mem y (mem_singleton_self y)) above
  · rwa [mem_singleton.mp mem]

theorem Sorts.merge (fst : InOrder compare left) (snd : InOrder compare right) :
    Sorts compare (left ++ right) (left.merge right fun a b => (compare a b).isLE) where
  perm := merge_perm_append _
  inOrder := by
    refine pairwise_merge ?_ ?_ left right fst snd
    · intro a b c lower upper
      exact Std.TransCmp.isLE_trans lower upper
    · intro a b
      by_cases above : (compare a b).isLE
      · rw [above, Bool.true_or]
      · have less : compare b a = .lt := by
          by_contra notLess
          exact above (isLE_iff.mpr notLess)
        rw [isLE_of_lt less, Bool.or_true]

theorem Sorts.around {lower upper : List α} (below : ∀ a ∈ left, compare a x = .lt)
    (notBelow : ∀ b ∈ right, compare b x ≠ .lt) (fst : Sorts compare left lower)
    (snd : Sorts compare right upper) : Sorts compare (left ++ x :: right) (lower ++ x :: upper) := by
  refine ⟨fst.perm.append (snd.perm.cons x), ?_⟩
  rw [InOrder, pairwise_append, pairwise_cons]
  have above : ∀ b ∈ upper, (compare x b).isLE :=
    fun b mem => isLE_iff.mpr (notBelow b (snd.perm.mem_iff.mp mem))
  refine ⟨fst.inOrder, ⟨above, snd.inOrder⟩, ?_⟩
  intro a inLower b inUpper
  have less := isLE_of_lt (below a (fst.perm.mem_iff.mp inLower))
  rcases mem_cons.mp inUpper with rfl | inUpper
  · exact less
  · exact Std.TransCmp.isLE_trans less (above b inUpper)

end Order

end Sorting
