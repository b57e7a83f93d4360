import Verum.Collections.Memory
import Verum.Sorting.Runs
import Mathlib.Data.List.Induction

open List

namespace Collections

open Sorting

namespace Slice

section Operations

variable {T : Type} (compare : T → T → Ordering)

def swap (slice : List T) (a b : Nat) : Except Panic (List T) :=
  if a < slice.length ∧ b < slice.length then .ok (slice.swap a b)
  else .error (.assertion "swap indices out of bounds")

/-- The inner loop of the insertion sorts, in a run that starts at `start`. -/
def insertLoop (start : Nat) (slice : List T) : Nat → Except Panic (List T)
  | 0 => .ok slice
  | j + 1 => do
    if j + 1 > start then
      let x ← item slice (j + 1)
      let y ← item slice j
      if compare x y = .lt then
        let slice ← swap slice (j + 1) j
        insertLoop start slice j
      else .ok slice
    else .ok slice

/-- The outer loop of the insertion sorts, for `count` elements from `i` on. -/
def insertionLoop (start : Nat) (slice : List T) (i : Nat) : Nat → Except Panic (List T)
  | 0 => .ok slice
  | count + 1 => do
    let slice ← insertLoop compare start slice i
    insertionLoop start slice (i + 1) count

def insertionSortBy (slice : List T) : Except Panic (List T) := insertionLoop compare 0 slice 1 (slice.length - 1)

/-- The first pass of `merge_sort_by`, with a bound on its rounds. -/
def runsWithin : Nat → List T → Nat → Except Panic (List T)
  | 0, _, _ => .error .diverges
  | fuel + 1, slice, start => do
    if start < slice.length then
      let last := min (start + 32) slice.length
      let slice ← insertionLoop compare start slice (start + 1) (last - (start + 1))
      runsWithin fuel slice (start + 32)
    else .ok slice

/-- The first loop of `merge_by`, with a bound on its rounds; returns `li` and `wi` too. -/
def mergeWithin (leftBuf : List T) (rightEnd : Nat) :
    Nat → List T → Nat → Nat → Nat → Except Panic (List T × Nat × Nat)
  | 0, _, _, _, _ => .error .diverges
  | fuel + 1, slice, li, ri, wi => do
    if li < leftBuf.length ∧ ri < rightEnd then
      let right ← item slice ri
      let left ← item leftBuf li
      if compare right left ≠ .lt then
        let slice ← setItem slice wi left
        mergeWithin leftBuf rightEnd fuel slice (li + 1) ri (wi + 1)
      else
        let slice ← if wi ≠ ri then setItem slice wi right else .ok slice
        mergeWithin leftBuf rightEnd fuel slice li (ri + 1) (wi + 1)
    else .ok (slice, li, wi)

/-- The second loop of `merge_by`, for the `count` elements of the left run from `li` on. -/
def copyLeft (leftBuf : List T) (slice : List T) (li wi : Nat) : Nat → Except Panic (List T)
  | 0 => .ok slice
  | count + 1 => do
    let left ← item leftBuf li
    let slice ← setItem slice wi left
    copyLeft leftBuf slice (li + 1) (wi + 1) count

def mergeBy (slice : List T) (leftStart mid rightEnd : Nat) : Except Panic (List T) := do
  let leftBuf ← copyItems slice leftStart mid
  let (slice, li, wi) ← mergeWithin compare leftBuf rightEnd (rightEnd - leftStart + 1) slice 0 mid leftStart
  copyLeft leftBuf slice li wi (leftBuf.length - li)

def passWithin (width : Nat) : Nat → List T → Nat → Except Panic (List T)
  | 0, _, _ => .error .diverges
  | fuel + 1, slice, leftStart => do
    if leftStart < slice.length then
      let mid := min (leftStart + width) slice.length
      let rightEnd := min (leftStart + 2 * width) slice.length
      let slice ← if mid < rightEnd then mergeBy compare slice leftStart mid rightEnd else .ok slice
      passWithin width fuel slice (leftStart + 2 * width)
    else .ok slice

/-- The passes for greater and greater widths, with a bound on their number. -/
def passesWithin : Nat → List T → Nat → Except Panic (List T)
  | 0, _, _ => .error .diverges
  | fuel + 1, slice, width => do
    if width < slice.length then
      let slice ← passWithin compare width (slice.length + 1) slice 0
      passesWithin fuel slice (width * 2)
    else .ok slice

def mergeSortBy (slice : List T) : Except Panic (List T) := do
  let slice ← runsWithin compare (slice.length + 1) slice 0
  passesWithin compare (slice.length + 1) slice 32

/-- The loop of `qs_partition_by` for `count` elements from `j` on. -/
def partitionLoop (high : Nat) (slice : List T) (i j : Nat) : Nat → Except Panic (List T × Nat)
  | 0 => .ok (slice, i)
  | count + 1 => do
    let x ← item slice j
    let pivot ← item slice high
    if compare x pivot = .lt then
      let slice ← swap slice i j
      partitionLoop high slice (i + 1) (j + 1) count
    else partitionLoop high slice i (j + 1) count

def qsPartitionBy (slice : List T) (low high : Nat) : Except Panic (List T × Nat) := do
  let pivotIdx := low + (high - low) / 2
  let slice ← swap slice pivotIdx high
  let (slice, i) ← partitionLoop compare high slice low low (high - low)
  let slice ← swap slice i high
  .ok (slice, i)

/-- `quicksort_by`, with a bound on the depth of its calls. -/
def quicksortWithin : Nat → List T → Nat → Nat → Except Panic (List T)
  | 0, _, _, _ => .error .diverges
  | fuel + 1, slice, low, high => do
    if low < high then
      let (slice, pivot) ← qsPartitionBy compare slice low high
      let slice ← if pivot > 0 then quicksortWithin fuel slice low (pivot - 1) else .ok slice
      quicksortWithin fuel slice (pivot + 1) high
    else .ok slice

def sortBy (slice : List T) : Except Panic (List T) :=
  if slice.length ≤ 1 then .ok slice
  else if slice.length ≤ 32 then insertionSortBy compare slice
  else mergeSortBy compare slice

def sortUnstableBy (slice : List T) : Except Panic (List T) :=
  if slice.length ≤ 1 then .ok slice
  else if slice.length ≤ 16 then insertionSortBy compare slice
  else quicksortWithin compare (slice.length + 1) slice 0 (slice.length - 1)

/-- The comparison of `sort_by_key` and `sort_unstable_by_key`. -/
def compareKeys {K : Type} [Ord K] (key : T → K) (a b : T) : Ordering :=
  let ka := key a
  let kb := key b
  if Ord.compare ka kb = .lt then .lt
  else if Ord.compare ka kb = .gt then .gt
  else .eq

def sort [Ord T] (slice : List T) : Except Panic (List T) := sortBy Ord.compare slice

def sortByKey {K : Type} [Ord K] (key : T → K) (slice : List T) : Except Panic (List T) :=
  sortBy (compareKeys key) slice

def sortUnstable [Ord T] (slice : List T) : Except Panic (List T) := sortUnstableBy Ord.compare slice

def sortUnstableByKey {K : Type} [Ord K] (key : T → K) (slice : List T) : Except Panic (List T) :=
  sortUnstableBy (compareKeys key) slice

end Operations

section Items

variable {T : Type} {pre between after : List T} {x y : T} {i : Nat}

theorem item_here (isHere : i = pre.length) : item (pre ++ x :: after) i = .ok x := by
  subst isHere
  rw [item, List.getElem?_append_right (Nat.le_refl _), Nat.sub_self]
  rfl

theorem setItem_here (isHere : i = pre.length) :
    setItem (pre ++ x :: after) i y = .ok (pre ++ y :: after) := by
  subst isHere
  rw [setItem, if_pos (by simp), set_append_right _ _ (Nat.le_refl _), Nat.sub_self]
  rfl

theorem swap_comm (slice : List T) (a b : Nat) : swap slice a b = swap slice b a := by
  simp only [swap, List.swap_comm, and_comm]

theorem swap_here (pre between after : List T) (x y : T) {i j : Nat} (isFirst : i = pre.length)
    (isSecond : j = (pre ++ x :: between).length) :
    swap (pre ++ x :: between ++ y :: after) i j = .ok (pre ++ y :: between ++ x :: after) := by
  subst isFirst isSecond
  rw [swap, if_pos (by simp)]
  rw [swap_eq_of_lt (by simp) (by simp)]
  congr 1
  have inFront : pre.length < (pre ++ x :: between ++ y :: after).length := by simp
  have inBack : (pre ++ x :: between).length < (pre ++ x :: between ++ y :: after).length := by simp
  have fst : (pre ++ x :: between ++ y :: after)[pre.length] = x := by simp
  have snd : (pre ++ x :: between ++ y :: after)[(pre ++ x :: between).length] = y := by simp
  rw [fst, snd]
  simp

end Items

section Insertion

variable {T : Type} {compare : T → T → Ordering} {run : List T} {slice : List T}

theorem insertLoop_at_start {start j : Nat} (atStart : j ≤ start) : insertLoop compare start slice j = .ok slice := by
  cases j with
  | zero => rfl
  | succ j => rw [insertLoop, if_neg (by omega)]

variable [Std.TransCmp compare]

theorem insertLoop_spec (pre : List T) (x : T) (inOrder : InOrder compare run) (after : List T) :
    ∃ sorted, insertLoop compare pre.length (pre ++ (run ++ x :: after)) (pre.length + run.length) =
      .ok (pre ++ (sorted ++ after)) ∧ Sorts compare (x :: run) sorted := by
  induction run using List.reverseRecOn generalizing after with
  | nil =>
    exact ⟨[x], insertLoop_at_start (Nat.le_refl _), List.Perm.refl _, pairwise_singleton _ _⟩
  | append_singleton run y ih =>
    have shape : pre ++ (run ++ [y] ++ x :: after) = pre ++ run ++ y :: [] ++ x :: after := by simp
    have atY : item (pre ++ run ++ y :: [] ++ x :: after) (pre.length + run.length) = .ok y := by
      rw [append_assoc (pre ++ run), cons_append]
      exact item_here (by simp)
    have atX : item (pre ++ run ++ y :: [] ++ x :: after) (pre.length + run.length + 1) = .ok x :=
      item_here (by simp; omega)
    rw [shape, length_append, length_singleton, ← Nat.add_assoc, insertLoop, if_pos (by omega), atX, atY,
      okBind, okBind]
    split
    · rename_i lt
      have swapped : swap (pre ++ run ++ y :: [] ++ x :: after) (pre.length + run.length)
          (pre.length + run.length + 1) = .ok (pre ++ run ++ x :: [] ++ y :: after) :=
        swap_here (pre ++ run) [] after y x (by simp) (by simp; omega)
      rw [swap_comm] at swapped
      have moved : pre ++ run ++ x :: [] ++ y :: after = pre ++ (run ++ x :: y :: after) := by simp
      rw [swapped, okBind, moved]
      have inOrder' : InOrder compare run := inOrder.sublist (sublist_append_left run [y])
      obtain ⟨sorted, runs, sorts⟩ := ih inOrder' (y :: after)
      rw [runs]
      exact ⟨sorted ++ [y], by simp, sorts.before_last inOrder lt⟩
    · rename_i notLess
      refine ⟨run ++ [y] ++ [x], by simp, ?_⟩
      exact Sorts.after_last inOrder notLess

theorem insertionLoop_spec (pre : List T) (inOrder : InOrder compare run) (rest after : List T) :
    ∃ sorted, insertionLoop compare pre.length (pre ++ (run ++ rest ++ after)) (pre.length + run.length)
        rest.length = .ok (pre ++ (sorted ++ after)) ∧ Sorts compare (run ++ rest) sorted := by
  induction rest generalizing run with
  | nil => exact ⟨run, by simp [insertionLoop], by simp, inOrder⟩
  | cons x rest ih =>
    obtain ⟨longer, inserted, sorts⟩ := insertLoop_spec pre x inOrder (rest ++ after)
    have length : longer.length = run.length + 1 := sorts.perm.length_eq
    rw [length_cons, insertionLoop, append_assoc run, cons_append, inserted, okBind]
    obtain ⟨sorted, sortedRest, sorts'⟩ := ih sorts.inOrder
    rw [length, append_assoc, ← Nat.add_assoc] at sortedRest
    refine ⟨sorted, sortedRest, sorts'.perm.trans ?_, sorts'.inOrder⟩
    exact (sorts.perm.append_right rest).trans perm_middle.symm

variable (compare)

theorem insertionLoop_sorts (pre segment after : List T) :
    ∃ sorted, insertionLoop compare pre.length (pre ++ (segment ++ after)) (pre.length + 1)
        (segment.length - 1) = .ok (pre ++ (sorted ++ after)) ∧ Sorts compare segment sorted := by
  cases segment with
  | nil => exact ⟨[], rfl, List.Perm.refl _, List.Pairwise.nil⟩
  | cons x rest => exact insertionLoop_spec pre (pairwise_singleton _ x) rest after

theorem insertionSortBy_sorts (slice : List T) :
    ∃ sorted, insertionSortBy compare slice = .ok sorted ∧ Sorts compare slice sorted := by
  obtain ⟨sorted, runs, sorts⟩ := insertionLoop_sorts compare [] slice []
  rw [append_nil, append_nil] at runs
  exact ⟨sorted, runs, sorts⟩

end Insertion

section Merging

variable {T : Type} {compare : T → T → Ordering} {pre after rest left right : List T} {slice : List T}
  {width : Nat}

theorem copyLeft_spec (taken gap pre after : List T) (room : gap.length = left.length) :
    copyLeft (taken ++ left) (pre ++ (gap ++ after)) taken.length pre.length left.length =
      .ok (pre ++ (left ++ after)) := by
  induction left generalizing taken gap pre with
  | nil =>
    rw [eq_nil_of_length_eq_zero room]
    rfl
  | cons x left ih =>
    cases gap with
    | nil => cases room
    | cons y gap =>
      rw [length_cons, copyLeft, item_here rfl, okBind, cons_append, setItem_here rfl, okBind]
      have copied := ih (taken ++ [x]) gap (pre ++ [x]) (by simpa using room)
      simpa using copied

theorem runsWithin_end {fuel start : Nat} (atEnd : slice.length ≤ start) :
    runsWithin compare (fuel + 1) slice start = .ok slice := by
  rw [runsWithin, if_neg (by omega)]

theorem passWithin_end {fuel start : Nat} (atEnd : slice.length ≤ start) :
    passWithin compare width (fuel + 1) slice start = .ok slice := by
  rw [passWithin, if_neg (by omega)]

variable (compare) [Std.TransCmp compare]

theorem mergeWithin_spec (taken gap pre left right after : List T) (room : gap.length = left.length) {fuel : Nat}
    (he : left.length + right.length < fuel) :
    ∃ slice li wi, mergeWithin compare (taken ++ left) (pre.length + gap.length + right.length) fuel
        (pre ++ (gap ++ (right ++ after))) taken.length (pre.length + gap.length) pre.length =
          .ok (slice, li, wi) ∧
      copyLeft (taken ++ left) slice li wi ((taken ++ left).length - li) =
        .ok (pre ++ (left.merge right (fun a b => (compare a b).isLE) ++ after)) := by
  induction fuel generalizing taken gap pre left right with
  | zero => omega
  | succ fuel ih =>
    rw [mergeWithin]
    match left, right with
    | [], right =>
      rw [if_neg (by simp)]
      rw [eq_nil_of_length_eq_zero room]
      exact ⟨_, _, _, rfl, by simp [copyLeft]⟩
    | x :: left, [] =>
      rw [if_neg (by simp)]
      refine ⟨_, _, _, rfl, ?_⟩
      rw [length_append, Nat.add_sub_cancel_left, merge_right]
      exact copyLeft_spec taken gap pre after room
    | x :: left, y :: right =>
      cases gap with
      | nil => cases room
      | cons cell gap =>
        have atRight : item (pre ++ (cell :: gap ++ (y :: right ++ after))) (pre.length + (cell :: gap).length) =
            .ok y := by
          rw [← append_assoc, cons_append]
          exact item_here (length_append).symm
        rw [if_pos (by simp), atRight, okBind, item_here rfl, okBind, cons_merge_cons]
        split
        · rename_i notLess
          rw [if_pos (isLE_iff.mpr notLess), cons_append, setItem_here rfl, okBind]
          have merged := ih (taken ++ [x]) gap (pre ++ [x]) left (y :: right) (by simpa using room)
            (by simp at he ⊢; omega)
          simpa [Nat.add_assoc, Nat.add_comm, Nat.add_left_comm] using merged
        · rename_i lt
          rw [if_neg fun above => lt (isLE_iff.mp above), if_pos (by simp), cons_append, setItem_here rfl,
            okBind]
          have merged := ih taken (gap ++ [y]) (pre ++ [y]) (x :: left) right (by simpa using room)
            (by simp at he ⊢; omega)
          simpa [Nat.add_assoc, Nat.add_comm, Nat.add_left_comm] using merged

theorem mergeBy_spec (pre left right after : List T) :
    mergeBy compare (pre ++ (left ++ (right ++ after))) pre.length (pre.length + left.length)
        (pre.length + left.length + right.length) =
      .ok (pre ++ (left.merge right (fun a b => (compare a b).isLE) ++ after)) := by
  have leftBuf : copyItems (pre ++ (left ++ (right ++ after))) pre.length (pre.length + left.length) =
      .ok left := by
    rw [copyItems, if_pos (by simp), take_length_add_append, drop_left', take_left']
    · rfl
    · rfl
  have he : left.length + right.length < pre.length + left.length + right.length - pre.length + 1 := by omega
  obtain ⟨slice, li, wi, merged, copied⟩ := mergeWithin_spec compare [] left pre left right after rfl he
  rw [mergeBy, leftBuf, okBind]
  exact (congrArg (· >>= _) merged).trans copied

theorem runsWithin_spec (pre rest : List T) {fuel : Nat} (he : rest.length < fuel) :
    ∃ sorted, runsWithin compare fuel (pre ++ rest) pre.length = .ok (pre ++ sorted) ∧
      sorted.Perm rest ∧ Runs compare 32 sorted := by
  induction fuel generalizing pre rest with
  | zero => omega
  | succ fuel ih =>
    by_cases empty : rest = []
    · rw [empty, append_nil]
      exact ⟨[], by rw [runsWithin_end (Nat.le_refl _), append_nil], List.Perm.refl _,
        .last (Nat.zero_le _) List.Pairwise.nil⟩
    · have pos : 0 < rest.length := length_pos_iff.mpr empty
      rw [runsWithin, if_pos (by simpa using pos)]
      obtain ⟨sorted, inserted, sorts⟩ := insertionLoop_sorts compare pre (rest.take 32) (rest.drop 32)
      rw [take_append_drop, length_take] at inserted
      have n : min (pre.length + 32) (pre ++ rest).length - (pre.length + 1) =
          min 32 rest.length - 1 := by
        rw [length_append]
        omega
      dsimp only
      rw [n, inserted, okBind]
      have length : sorted.length = min 32 rest.length := by rw [sorts.perm.length_eq, length_take]
      by_cases short : rest.length ≤ 32
      · rw [drop_eq_nil_of_le short, append_nil]
        cases fuel with
        | zero => omega
        | succ fuel =>
          refine ⟨sorted, runsWithin_end (by rw [length_append]; omega), ?_, .last (by omega) sorts.inOrder⟩
          rw [take_of_length_le short] at sorts
          exact sorts.perm
      · obtain ⟨others, sortedOthers, perm, runs⟩ := ih (pre ++ sorted) (rest.drop 32)
          (by rw [length_drop]; omega)
        have isStart : (pre ++ sorted).length = pre.length + 32 := by rw [length_append]; omega
        rw [isStart, append_assoc, append_assoc] at sortedOthers
        refine ⟨sorted ++ others, sortedOthers, ?_, .more (by omega) sorts.inOrder runs⟩
        have joined := sorts.perm.append perm
        rwa [take_append_drop] at joined

theorem pass_step (pre rest : List T) (width : Nat) (next : List T → Except Panic (List T)) :
    let mid := min (pre.length + width) (pre ++ rest).length
    let rightEnd := min (pre.length + 2 * width) (pre ++ rest).length
    (if mid < rightEnd then mergeBy compare (pre ++ rest) pre.length mid rightEnd >>= next
      else .ok (pre ++ rest) >>= next) =
      next (pre ++ ((rest.take width).merge ((rest.drop width).take width) (fun a b => (compare a b).isLE) ++
        (rest.drop width).drop width)) := by
  intro mid rightEnd
  have whole : rest.take width ++ ((rest.drop width).take width ++ (rest.drop width).drop width) = rest := by
    rw [take_append_drop, take_append_drop]
  have isMid : mid = pre.length + (rest.take width).length := by
    rw [length_take]
    change min _ (pre ++ rest).length = _
    rw [length_append]
    omega
  have isEnd : rightEnd = pre.length + (rest.take width).length + ((rest.drop width).take width).length := by
    rw [length_take, length_take, length_drop]
    change min _ (pre ++ rest).length = _
    rw [length_append]
    omega
  split
  · have merged := mergeBy_spec compare pre (rest.take width) ((rest.drop width).take width)
      ((rest.drop width).drop width)
    rw [whole, ← isEnd, ← isMid] at merged
    rw [merged, okBind]
  · rename_i alone
    have none : (rest.drop width).take width = [] := eq_nil_of_length_eq_zero (by omega)
    rw [none, nil_append] at whole
    rw [none, merge_right, whole, okBind]

theorem passWithin_spec (pos : 0 < width) (pre : List T) {rest : List T} {fuel : Nat} (runs : Runs compare width rest)
    (he : rest.length < fuel) :
    ∃ merged, passWithin compare width fuel (pre ++ rest) pre.length = .ok (pre ++ merged) ∧
      merged.Perm rest ∧ Runs compare (2 * width) merged := by
  induction fuel generalizing pre rest with
  | zero => omega
  | succ fuel ih =>
    by_cases empty : rest = []
    · rw [empty, append_nil]
      exact ⟨[], by rw [passWithin_end (Nat.le_refl _), append_nil], List.Perm.refl _,
        .last (Nat.zero_le _) List.Pairwise.nil⟩
    · have ne : 0 < rest.length := length_pos_iff.mpr empty
      obtain ⟨firstInOrder, others⟩ := runs.first
      obtain ⟨secondInOrder, others⟩ := others.first
      have sorts := Sorts.merge firstInOrder secondInOrder
      rw [passWithin, if_pos (by simpa using ne)]
      have step := pass_step compare pre rest width fun slice =>
        passWithin compare width fuel slice (pre.length + 2 * width)
      refine (exists_congr fun _ => and_congr_left' (Eq.congr_left step)).mpr ?_
      rw [drop_drop, ← Nat.two_mul] at others ⊢
      generalize ((rest.take width).merge ((rest.drop width).take width) fun a b => (compare a b).isLE) = run at sorts ⊢
      have length : run.length = min (2 * width) rest.length := by
        rw [sorts.perm.length_eq]
        simp only [length_append, length_take, length_drop]
        omega
      have perm : run.Perm (rest.take (2 * width)) := by
        rw [Nat.two_mul, take_add]
        exact sorts.perm
      by_cases short : rest.length ≤ 2 * width
      · rw [drop_eq_nil_of_le short, append_nil]
        rw [take_of_length_le short] at perm
        cases fuel with
        | zero => omega
        | succ fuel =>
          exact ⟨run, passWithin_end (by rw [length_append]; omega), perm, .last (by omega) sorts.inOrder⟩
      · obtain ⟨merged, pass, permOthers, runs⟩ := ih (pre ++ run) others
          (by rw [length_drop]; omega)
        have isStart : (pre ++ run).length = pre.length + 2 * width := by rw [length_append]; omega
        rw [isStart, append_assoc, append_assoc] at pass
        refine ⟨run ++ merged, pass, ?_, .more (by omega) sorts.inOrder runs⟩
        have joined := perm.append permOthers
        rwa [take_append_drop] at joined

theorem passesWithin_spec (pos : 0 < width) (fuel : Nat) (runs : Runs compare width slice)
    (he : slice.length < width + fuel) (some : 0 < fuel) :
    ∃ sorted, passesWithin compare fuel slice width = .ok sorted ∧ Sorts compare slice sorted := by
  induction fuel generalizing slice width with
  | zero => cases some
  | succ fuel ih =>
    rw [passesWithin]
    split
    · obtain ⟨merged, pass, perm, runs⟩ := passWithin_spec compare pos [] runs (Nat.lt_succ_self _)
      rw [nil_append, nil_append] at pass
      have wider : Runs compare (width * 2) merged := by rwa [Nat.mul_comm]
      obtain ⟨sorted, passes, sorts⟩ := ih (by omega) wider (by rw [perm.length_eq]; omega) (by omega)
      exact ⟨sorted, (congrArg (· >>= _) pass).trans passes, sorts.perm.trans perm, sorts.inOrder⟩
    · rename_i reached
      exact ⟨slice, rfl, List.Perm.refl _, runs.inOrder (by omega)⟩

theorem mergeSortBy_sorts (slice : List T) :
    ∃ sorted, mergeSortBy compare slice = .ok sorted ∧ Sorts compare slice sorted := by
  obtain ⟨fst, runs, perm, inRuns⟩ := runsWithin_spec compare [] slice (Nat.lt_succ_self slice.length)
  obtain ⟨sorted, passes, sorts⟩ := passesWithin_spec compare (by decide) (fst.length + 1) inRuns (by omega)
    (Nat.succ_pos _)
  exact ⟨sorted, (congrArg (· >>= _) runs).trans passes, sorts.perm.trans perm, sorts.inOrder⟩

end Merging

section Partition

variable {T : Type} {compare : T → T → Ordering}

theorem sorts_of_short {slice : List T} (short : slice.length ≤ 1) : Sorts compare slice slice := by
  refine ⟨List.Perm.refl _, ?_⟩
  match slice with
  | [] => exact List.Pairwise.nil
  | [x] => exact pairwise_singleton _ x

theorem swap_to_end (pre between after : List T) (x : T) {j : Nat} (isEnd : j = pre.length + between.length) :
    ∃ moved, swap (pre ++ (between ++ x :: after)) pre.length j = .ok (pre ++ x :: (moved ++ after)) ∧
      moved.Perm between := by
  cases between with
  | nil =>
    refine ⟨[], ?_, List.Perm.refl _⟩
    rw [isEnd, length_nil, Nat.add_zero, swap, swap_self]
    exact if_pos (by simp)
  | cons y between =>
    refine ⟨between ++ [y], ?_, perm_append_singleton y between⟩
    have swapped : swap (pre ++ y :: between ++ x :: after) pre.length j =
        .ok (pre ++ x :: between ++ y :: after) := swap_here pre between after y x rfl (by simp [isEnd])
    simpa using swapped

variable (compare)

theorem partitionLoop_spec (pre less others : List T) (pivot : T) (lessThan : ∀ a ∈ less, compare a pivot = .lt)
    (notLess : ∀ b ∈ others, compare b pivot ≠ .lt) (unseen after : List T) :
    ∃ less' others', partitionLoop compare (pre.length + less.length + others.length + unseen.length)
        (pre ++ (less ++ (others ++ (unseen ++ pivot :: after)))) (pre.length + less.length)
        (pre.length + less.length + others.length) unseen.length =
          .ok (pre ++ (less' ++ (others' ++ pivot :: after)), pre.length + less'.length) ∧
      (∀ a ∈ less', compare a pivot = .lt) ∧ (∀ b ∈ others', compare b pivot ≠ .lt) ∧
      (less' ++ others').Perm (less ++ (others ++ unseen)) := by
  induction unseen generalizing less others with
  | nil => exact ⟨less, others, by simp [partitionLoop], lessThan, notLess, by simp⟩
  | cons x unseen ih =>
    have atX : item (pre ++ (less ++ (others ++ (x :: unseen ++ pivot :: after))))
        (pre.length + less.length + others.length) = .ok x := by
      rw [← append_assoc, ← append_assoc, cons_append]
      exact item_here (by simp; omega)
    have atPivot : item (pre ++ (less ++ (others ++ (x :: unseen ++ pivot :: after))))
        (pre.length + less.length + others.length + (x :: unseen).length) = .ok pivot := by
      rw [← append_assoc, ← append_assoc, ← append_assoc]
      exact item_here (by simp; omega)
    rw [length_cons] at atPivot ⊢
    rw [partitionLoop, atX, okBind, atPivot, okBind]
    split
    · rename_i isLess
      have isEnd : pre.length + less.length + others.length = (pre ++ less).length + others.length := by simp
      obtain ⟨moved, swapped, perm⟩ := swap_to_end (pre ++ less) others (unseen ++ pivot :: after) x isEnd
      rw [append_assoc, length_append] at swapped
      rw [cons_append, swapped, okBind]
      obtain ⟨less', others', loop, lessThan', notLess', perm'⟩ := ih (less ++ [x]) moved
        (by
          intro a mem
          rcases mem_append.mp mem with mem | mem
          · exact lessThan a mem
          · rwa [mem_singleton.mp mem])
        (fun b mem => notLess b (perm.mem_iff.mp mem))
      refine ⟨less', others', ?_, lessThan', notLess', perm'.trans ?_⟩
      · rw [← loop, length_append, length_singleton, perm.length_eq]
        simp only [append_assoc, cons_append, nil_append]
        congr 1 <;> omega
      · rw [append_assoc]
        refine List.Perm.append_left less ?_
        rw [singleton_append]
        exact ((perm.append_right unseen).cons x).trans perm_middle.symm
    · rename_i notIsLess
      obtain ⟨less', others', loop, lessThan', notLess', perm'⟩ := ih less (others ++ [x]) lessThan
        (by
          intro b mem
          rcases mem_append.mp mem with mem | mem
          · exact notLess b mem
          · rwa [mem_singleton.mp mem])
      refine ⟨less', others', ?_, lessThan', notLess', by simpa using perm'⟩
      rw [← loop, length_append, length_singleton]
      simp only [append_assoc, cons_append, nil_append]
      congr 1
      omega

theorem qsPartitionBy_spec (pre segment after : List T) (several : 2 ≤ segment.length) :
    ∃ less pivot others, qsPartitionBy compare (pre ++ (segment ++ after)) pre.length
        (pre.length + (segment.length - 1)) =
          .ok (pre ++ (less ++ pivot :: (others ++ after)), pre.length + less.length) ∧
      (∀ a ∈ less, compare a pivot = .lt) ∧ (∀ b ∈ others, compare b pivot ≠ .lt) ∧
      (less ++ pivot :: others).Perm segment := by
  obtain ⟨front, y, rfl⟩ : ∃ front y, segment = front ++ [y] :=
    ⟨_, _, (dropLast_append_getLast (length_pos_iff.mp (by omega))).symm⟩
  rw [length_append, length_singleton] at several ⊢
  obtain ⟨fst, x, between, isFront, length⟩ : ∃ fst x between, front = fst ++ x :: between ∧
      fst.length = front.length / 2 := by
    have hin : front.length / 2 < front.length := by omega
    refine ⟨front.take (front.length / 2), front[front.length / 2], front.drop (front.length / 2 + 1), ?_, ?_⟩
    · rw [← drop_eq_getElem_cons hin, take_append_drop]
    · rw [length_take]
      omega
  have isLength : front.length = fst.length + 1 + between.length := by
    rw [isFront, length_append, length_cons]
    omega
  have swapped : swap (pre ++ fst ++ x :: between ++ y :: after)
      (pre.length + (pre.length + front.length - pre.length) / 2) (pre.length + front.length) =
        .ok (pre ++ fst ++ y :: between ++ x :: after) :=
    swap_here (pre ++ fst) between after x y (by rw [length_append]; omega) (by simp; omega)
  have shape : pre ++ (front ++ [y] ++ after) = pre ++ fst ++ x :: between ++ y :: after := by
    rw [isFront]
    simp
  obtain ⟨less, others, loop, lessThan, notLess, perm⟩ := partitionLoop_spec compare pre [] [] x (by simp)
    (by simp) (fst ++ y :: between) after
  have unseen : (fst ++ y :: between).length = front.length := by
    rw [isLength, length_append, length_cons]
    omega
  simp only [nil_append, length_nil, Nat.add_zero] at loop perm
  rw [unseen] at loop
  have isEnd : pre.length + front.length = (pre ++ less).length + others.length := by
    have total := perm.length_eq
    rw [unseen, length_append] at total
    rw [length_append]
    omega
  obtain ⟨moved, swappedBack, permMoved⟩ := swap_to_end (pre ++ less) others after x isEnd
  rw [length_append, append_assoc, append_assoc] at swappedBack
  refine ⟨less, x, moved, ?_, lessThan, fun b mem => notLess b (permMoved.mem_iff.mp mem), ?_⟩
  · rw [qsPartitionBy, shape, Nat.add_sub_cancel]
    dsimp only
    rw [swapped, okBind, show pre.length + front.length - pre.length = front.length by omega]
    rw [show pre ++ fst ++ y :: between ++ x :: after = pre ++ (fst ++ y :: between ++ x :: after) by simp,
      loop, okBind]
    dsimp only
    rw [swappedBack, okBind]
  · rw [isFront]
    have lastFirst : (fst ++ x :: y :: between).Perm (fst ++ x :: between ++ [y]) := by
      rw [append_assoc, cons_append]
      exact ((perm_append_singleton y between).symm.cons x).append_left fst
    calc
      (less ++ x :: moved).Perm (x :: (less ++ moved)) := perm_middle
      _ |>.Perm (x :: (less ++ others)) := (permMoved.append_left less).cons x
      _ |>.Perm (x :: (fst ++ y :: between)) := perm.cons x
      _ |>.Perm (fst ++ x :: y :: between) := perm_middle.symm
      _ |>.Perm (fst ++ x :: between ++ [y]) := lastFirst

variable [Std.TransCmp compare]

theorem quicksortWithin_spec {fuel high : Nat} (pre segment after : List T) (he : segment.length < fuel)
    (isHigh : high + 1 = pre.length + segment.length) :
    ∃ sorted, quicksortWithin compare fuel (pre ++ (segment ++ after)) pre.length high =
        .ok (pre ++ (sorted ++ after)) ∧ Sorts compare segment sorted := by
  induction fuel generalizing pre segment after high with
  | zero => omega
  | succ fuel ih =>
    rw [quicksortWithin]
    split
    · obtain ⟨lt, pivot, others, parts, lessThan, notLess, perm⟩ :=
        qsPartitionBy_spec compare pre segment after (by omega)
      have length := perm.length_eq
      rw [length_append, length_cons] at length
      rw [show pre.length + (segment.length - 1) = high by omega] at parts
      rw [parts, okBind]
      obtain ⟨lower, sortsLower, inLower⟩ : ∃ lower, (∀ next : List T → Except Panic (List T),
          (if pre.length + lt.length > 0 then
            quicksortWithin compare fuel (pre ++ (lt ++ pivot :: (others ++ after))) pre.length
              (pre.length + lt.length - 1) >>= next
          else .ok (pre ++ (lt ++ pivot :: (others ++ after))) >>= next) =
            next (pre ++ (lower ++ pivot :: (others ++ after)))) ∧ Sorts compare lt lower := by
        by_cases pos : pre.length + lt.length > 0
        · have isHigh : pre.length + lt.length - 1 + 1 = pre.length + lt.length := by omega
          obtain ⟨lower, run, sorts⟩ := ih pre lt (pivot :: (others ++ after)) (by omega) isHigh
          exact ⟨lower, fun next => by rw [if_pos pos, run, okBind], sorts⟩
        · have none : lt = [] := eq_nil_of_length_eq_zero (by omega)
          refine ⟨lt, fun next => by rw [if_neg pos, okBind], List.Perm.refl _, ?_⟩
          rw [none]
          exact List.Pairwise.nil
      have lowerLength : lower.length = lt.length := inLower.perm.length_eq
      have isHigh' : high + 1 = (pre ++ (lower ++ [pivot])).length + others.length := by
        simp only [length_append, length_singleton]
        omega
      obtain ⟨upper, run, inUpper⟩ := ih (pre ++ (lower ++ [pivot])) others after (by omega) isHigh'
      rw [length_append, length_append, length_singleton, lowerLength, ← Nat.add_assoc] at run
      refine ⟨lower ++ pivot :: upper, ?_, ?_⟩
      · refine (sortsLower _).trans ?_
        simpa using run
      · obtain ⟨permWhole, inOrder⟩ := Sorts.around lessThan notLess inLower inUpper
        exact ⟨permWhole.trans perm, inOrder⟩
    · exact ⟨segment, rfl, sorts_of_short (by omega)⟩

end Partition

section Sorting

variable {T : Type} {compare : T → T → Ordering} [Std.TransCmp compare]

theorem sortBy_sorts (slice : List T) : ∃ sorted, sortBy compare slice = .ok sorted ∧ Sorts compare slice sorted := by
  rw [sortBy]
  split
  · rename_i short
    exact ⟨slice, rfl, sorts_of_short short⟩
  · split
    · exact insertionSortBy_sorts compare slice
    · exact mergeSortBy_sorts compare slice

theorem sortUnstableBy_sorts (slice : List T) :
    ∃ sorted, sortUnstableBy compare slice = .ok sorted ∧ Sorts compare slice sorted := by
  rw [sortUnstableBy]
  split
  · rename_i short
    exact ⟨slice, rfl, sorts_of_short short⟩
  · split
    · exact insertionSortBy_sorts compare slice
    · have isHigh : slice.length - 1 + 1 = ([] : List T).length + slice.length := by
        rw [length_nil]
        omega
      obtain ⟨sorted, run, sorts⟩ := quicksortWithin_spec compare [] slice [] (Nat.lt_succ_self _) isHigh
      rw [append_nil, append_nil] at run
      exact ⟨sorted, run, sorts⟩

theorem compareKeys_eq {K : Type} [Ord K] (key : T → K) (a b : T) :
    compareKeys key a b = Ord.compare (key a) (key b) := by
  rw [compareKeys]
  cases Ord.compare (key a) (key b) <;> decide

instance {K : Type} [Ord K] [Std.TransOrd K] (key : T → K) : Std.TransCmp (compareKeys key) where
  eq_swap {a b} := by
    rw [compareKeys_eq, compareKeys_eq]
    exact Std.OrientedCmp.eq_swap
  isLE_trans {a b c} := by
    rw [compareKeys_eq, compareKeys_eq, compareKeys_eq]
    exact Std.TransCmp.isLE_trans

end Sorting

end Slice

end Collections
