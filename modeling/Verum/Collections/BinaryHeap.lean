import Verum.Collections.Memory
import Verum.Sorting.HeapOrder
import Mathlib.Data.List.Perm.Basic

open List

namespace Collections

open Sorting

structure BinaryHeap (T : Type) where
  data : List T

namespace BinaryHeap

variable {T : Type} [LinearOrder T]

section Operations

/-- `data.swap(a, b)` -/
def swapItems (data : List T) (a b : Nat) : Except Panic (List T) :=
  if a < data.length ∧ b < data.length then .ok (data.swap a b)
  else .error (.assertion "swap indices out of bounds")

/-- `data.pop()` -/
def popLast (data : List T) : Option T × List T := (data.getLast?, data.dropLast)

/-- The loop of `sift_up`, with a bound on its passes. -/
def siftUpWithin : Nat → List T → Nat → Except Panic (List T)
  | 0, _, _ => .error .diverges
  | fuel + 1, data, current => do
    if current > 0 then
      let parent := (current - 1) / 2
      let x ← item data current
      let y ← item data parent
      if x > y then
        let data ← swapItems data current parent
        siftUpWithin fuel data parent
      else .ok data
    else .ok data

def siftUp (data : List T) (idx : Nat) : Except Panic (List T) := siftUpWithin (data.length + 1) data idx

/-- `i` when it is in range and its element greater than that of `largest`, else `largest`. -/
def larger (data : List T) (i largest : Nat) : Except Panic Nat :=
  if i < data.length then do
    let x ← item data i
    let y ← item data largest
    .ok (if x > y then i else largest)
  else .ok largest

/-- The loop of `sift_down`, with a bound on its passes. -/
def siftDownWithin : Nat → List T → Nat → Except Panic (List T)
  | 0, _, _ => .error .diverges
  | fuel + 1, data, current => do
    let left := 2 * current + 1
    let right := 2 * current + 2
    let largest ← larger data left current
    let largest ← larger data right largest
    if largest = current then .ok data
    else
      let data ← swapItems data current largest
      siftDownWithin fuel data largest

def siftDown (data : List T) (idx : Nat) : Except Panic (List T) := siftDownWithin (data.length + 1) data idx

/-- Sifts down the positions below `i`, the last one first. -/
def heapifyBelow : Nat → List T → Except Panic (List T)
  | 0, data => .ok data
  | i + 1, data => do
    let data ← siftDown data i
    heapifyBelow i data

def heapify (data : List T) : Except Panic (List T) :=
  if data.length ≤ 1 then .ok data else heapifyBelow (data.length / 2) data

def fromList (list : List T) : Except Panic (BinaryHeap T) := do
  let data ← heapify list
  .ok ⟨data⟩

def peek (heap : BinaryHeap T) : Option T := heap.data.head?

def push (heap : BinaryHeap T) (value : T) : Except Panic (BinaryHeap T) := do
  let data := heap.data ++ [value]
  let data ← siftUp data (data.length - 1)
  .ok ⟨data⟩

def pop (heap : BinaryHeap T) : Except Panic (Option T × BinaryHeap T) :=
  if heap.data.isEmpty then .ok (none, heap)
  else
    let len := heap.data.length
    if len = 1 then
      let (res, data) := popLast heap.data
      .ok (res, ⟨data⟩)
    else do
      let data ← swapItems heap.data 0 (len - 1)
      let (res, data) := popLast data
      if !data.isEmpty then
        let data ← siftDown data 0
        .ok (res, ⟨data⟩)
      else .ok (res, ⟨data⟩)

def pushPop (heap : BinaryHeap T) (value : T) : Except Panic (T × BinaryHeap T) :=
  match heap.data[0]? with
  | none => .ok (value, heap)
  | some top =>
    if value ≥ top then .ok (value, heap)
    else do
      let data ← setItem heap.data 0 value
      let data ← siftDown data 0
      .ok (top, ⟨data⟩)

def replace (heap : BinaryHeap T) (value : T) : Except Panic (Option T × BinaryHeap T) :=
  match heap.data[0]? with
  | none => .ok (none, ⟨heap.data ++ [value]⟩)
  | some old => do
    let data ← setItem heap.data 0 value
    let data ← siftDown data 0
    .ok (some old, ⟨data⟩)

/-- `peek_mut` and, when there is a top, `PeekMut.replace`. -/
def peekMutReplace (heap : BinaryHeap T) (value : T) : Except Panic (Option T × BinaryHeap T) :=
  if heap.data.isEmpty then .ok (none, heap)
  else do
    let old ← item heap.data 0
    let data ← setItem heap.data 0 value
    let data ← siftDown data 0
    .ok (some old, ⟨data⟩)

def clear (_ : BinaryHeap T) : BinaryHeap T := ⟨[]⟩

def retain (heap : BinaryHeap T) (f : T → Bool) : Except Panic (BinaryHeap T) := do
  let data ← heapify (heap.data.filter f)
  .ok ⟨data⟩

def extractIf (heap : BinaryHeap T) (f : T → Bool) : Except Panic (List T × BinaryHeap T) := do
  let extracted := heap.data.filter f
  let kept := heap.data.filter fun x => !f x
  let data ← heapify kept
  .ok (extracted, ⟨data⟩)

/-- Also under the name `merge`; the other heap is left empty. -/
def append (heap other : BinaryHeap T) : Except Panic (BinaryHeap T × BinaryHeap T) := do
  let data ← heapify (heap.data ++ other.data)
  .ok (⟨data⟩, ⟨[]⟩)

def removeAt (heap : BinaryHeap T) (idx : Nat) : Except Panic (BinaryHeap T) :=
  let last := heap.data.length - 1
  if idx = last then .ok ⟨(popLast heap.data).2⟩
  else do
    let data ← swapItems heap.data idx last
    let data := (popLast data).2
    let data ← siftDown data idx
    let data ← siftUp data idx
    .ok ⟨data⟩

def removeValue (heap : BinaryHeap T) (value : T) : Except Panic (Bool × BinaryHeap T) :=
  match heap.data.findIdx? (· == value) with
  | none => .ok (false, heap)
  | some i => do
    let heap ← heap.removeAt i
    .ok (true, heap)

def popAll : Nat → BinaryHeap T → List T → Except Panic (List T)
  | 0, _, _ => .error .diverges
  | fuel + 1, heap, res => do
    let (top, heap) ← heap.pop
    match top with
    | some v => popAll fuel heap (res ++ [v])
    | none => .ok res

def intoSortedList (heap : BinaryHeap T) : Except Panic (List T) := do
  let res ← popAll (heap.data.length + 1) heap []
  .ok res.reverse

def heapSort (list : List T) : Except Panic (List T) := do
  let heap ← fromList list
  let list ← popAll (heap.data.length + 1) heap []
  .ok list.reverse

end Operations

section Sifting

variable {data : List T} {i j k current largest : Nat}

/-- The element at a position, with a value below all of them past the end. -/
def cell (data : List T) (i : Nat) : WithBot T :=
  match data[i]? with
  | some x => x
  | none => ⊥

omit [LinearOrder T] in
theorem cell_of_getElem? {x : T} (hit : data[i]? = some x) : cell data i = x := by rw [cell, hit]

omit [LinearOrder T] in
theorem cell_of_le (beyond : data.length ≤ i) : cell data i = ⊥ := by
  rw [cell, List.getElem?_eq_none beyond]

omit [LinearOrder T] in
theorem cell_swap (fst : i < data.length) (snd : j < data.length) :
    cell (data.swap i j) = cell data ∘ Equiv.swap i j := by
  funext k
  rw [Function.comp_apply, cell, cell]
  have value : (data.swap i j)[k]? = data[Equiv.swap i j k]? := by
    by_cases isFirst : k = i
    · subst isFirst
      rw [Equiv.swap_apply_left, List.getElem?_eq_getElem (by rwa [length_swap]),
        getElem_swap_left_of_lt snd, List.getElem?_eq_getElem snd]
    · by_cases isSecond : k = j
      · subst isSecond
        rw [Equiv.swap_apply_right, List.getElem?_eq_getElem (by rwa [length_swap]),
          getElem_swap_right_of_lt fst, List.getElem?_eq_getElem fst]
      · rw [Equiv.swap_apply_of_ne_of_ne isFirst isSecond]
        by_cases hin : k < data.length
        · rw [List.getElem?_eq_getElem (by rwa [length_swap]), getElem_swap_of_ne isFirst isSecond,
            List.getElem?_eq_getElem hin]
        · rw [List.getElem?_eq_none (by rw [length_swap]; omega), List.getElem?_eq_none (by omega)]
  rw [value]

omit [LinearOrder T] in
theorem swapItems_of_lt (fst : i < data.length) (snd : j < data.length) :
    swapItems data i j = .ok (data.swap i j) := if_pos ⟨fst, snd⟩

omit [LinearOrder T] in
theorem item_cell (hin : i < data.length) : ∃ x, item data i = .ok x ∧ cell data i = x := by
  refine ⟨data[i], ?_, cell_of_getElem? (List.getElem?_eq_getElem hin)⟩
  rw [item, List.getElem?_eq_getElem hin]

theorem larger_eq (hin : largest < data.length) :
    larger data i largest = .ok (if cell data largest < cell data i then i else largest) := by
  rw [larger]
  split
  · rename_i hw
    obtain ⟨x, isX, cellX⟩ := item_cell hw
    obtain ⟨y, isY, cellY⟩ := item_cell hin
    rw [isX, okBind, isY, okBind, cellX, cellY]
    exact congrArg Except.ok (if_congr WithBot.coe_lt_coe.symm rfl rfl)
  · rename_i beyond
    rw [cell_of_le (Nat.le_of_not_lt beyond), if_neg not_lt_bot]

theorem lt_length_of_cell_lt (lt : cell data largest < cell data i) : i < data.length := by
  by_contra beyond
  rw [cell_of_le (Nat.le_of_not_lt beyond)] at lt
  exact not_lt_bot lt

theorem siftDownWithin_ok (fuel : Nat) (sinking : Sinking (cell data) k current) (from_k : k ≤ current)
    (hin : current < data.length) (he : data.length < fuel + current) :
    ∃ data', siftDownWithin fuel data current = .ok data' ∧ data'.Perm data ∧ OrderedFrom (cell data') k := by
  induction fuel generalizing data current with
  | zero => omega
  | succ fuel ih =>
    rw [siftDownWithin, larger_eq hin, okBind]
    generalize chosen₁ : (if cell data current < cell data (2 * current + 1) then 2 * current + 1 else current) = fst
    have first_spec : (fst = current ∨ fst = 2 * current + 1) ∧ fst < data.length ∧
        cell data current ≤ cell data fst ∧ cell data (2 * current + 1) ≤ cell data fst := by
      split at chosen₁
      · rename_i lt
        subst chosen₁
        exact ⟨.inr rfl, lt_length_of_cell_lt lt, lt.le, le_rfl⟩
      · rename_i notLess
        subst chosen₁
        exact ⟨.inl rfl, hin, le_rfl, not_lt.mp notLess⟩
    obtain ⟨isFirst, firstInside, atLeast, leftLe⟩ := first_spec
    rw [larger_eq firstInside, okBind]
    generalize chosen₂ : (if cell data fst < cell data (2 * current + 2) then 2 * current + 2 else fst) = largest
    have largest_spec : (largest = fst ∨ largest = 2 * current + 2) ∧ largest < data.length ∧
        cell data fst ≤ cell data largest ∧ cell data (2 * current + 2) ≤ cell data largest := by
      split at chosen₂
      · rename_i lt
        subst chosen₂
        exact ⟨.inr rfl, lt_length_of_cell_lt lt, lt.le, le_rfl⟩
      · rename_i notLess
        subst chosen₂
        exact ⟨.inl rfl, firstInside, le_rfl, not_lt.mp notLess⟩
    obtain ⟨isLargest, largestInside, atLeast', rightLe⟩ := largest_spec
    have greatest : ∀ i, 0 < i → above i = current → cell data i ≤ cell data largest := by
      intro i inner under
      rcases (above_eq_iff inner).mp under with rfl | rfl
      · exact leftLe.trans atLeast'
      · exact rightLe
    by_cases stays : largest = current
    · rw [if_pos stays]
      exact ⟨data, rfl, .refl _, sinking.finish (stays ▸ greatest)⟩
    · have child : largest = 2 * current + 1 ∨ largest = 2 * current + 2 := by omega
      have inner : 0 < largest := by omega
      have under : above largest = current := (above_eq_iff inner).mpr child
      rw [if_neg stays, swapItems_of_lt hin largestInside, okBind]
      have swapped := sinking.swap inner under from_k (atLeast.trans atLeast') greatest
      rw [← cell_swap hin largestInside] at swapped
      obtain ⟨data', run, perm, ord⟩ := ih swapped (by omega) (by rwa [length_swap])
        (by rw [length_swap]; omega)
      exact ⟨data', run, perm.trans (swap_perm data current largest), ord⟩

theorem siftDown_ok (sinking : Sinking (cell data) k current) (from_k : k ≤ current)
    (hin : current < data.length) :
    ∃ data', siftDown data current = .ok data' ∧ data'.Perm data ∧ OrderedFrom (cell data') k :=
  siftDownWithin_ok _ sinking from_k hin (by omega)

theorem siftUpWithin_ok (fuel : Nat) (rising : Rising (cell data) current) (hin : current < data.length)
    (he : current < fuel) :
    ∃ data', siftUpWithin fuel data current = .ok data' ∧ data'.Perm data ∧ OrderedFrom (cell data') 0 := by
  induction fuel generalizing data current with
  | zero => omega
  | succ fuel ih =>
    rw [siftUpWithin]
    by_cases inner : 0 < current
    · have lower := above_lt inner
      obtain ⟨x, isX, cellX⟩ := item_cell hin
      obtain ⟨y, isY, cellY⟩ := item_cell (lower.trans hin)
      rw [if_pos inner, isX, okBind, show (current - 1) / 2 = above current from rfl, isY, okBind]
      by_cases greater : x > y
      · rw [if_pos greater, swapItems_of_lt hin (lower.trans hin), okBind]
        have lt : cell data (above current) ≤ cell data current := by
          rw [cellX, cellY]
          exact WithBot.coe_le_coe.mpr greater.le
        have swapped := rising.swap inner lt
        rw [← cell_swap hin (lower.trans hin)] at swapped
        obtain ⟨data', run, perm, ord⟩ := ih swapped (by rw [length_swap]; omega) (by omega)
        exact ⟨data', run, perm.trans (swap_perm data current (above current)), ord⟩
      · rw [if_neg greater]
        refine ⟨data, rfl, .refl _, rising.finish fun _ => ?_⟩
        rw [cellX, cellY]
        exact WithBot.coe_le_coe.mpr (not_lt.mp greater)
    · rw [if_neg inner]
      exact ⟨data, rfl, .refl _, rising.finish fun pos => absurd pos inner⟩

theorem siftUp_ok (rising : Rising (cell data) current) (hin : current < data.length) :
    ∃ data', siftUp data current = .ok data' ∧ data'.Perm data ∧ OrderedFrom (cell data') 0 :=
  siftUpWithin_ok _ rising hin (by omega)

theorem heapifyBelow_ok (i : Nat) (ord : OrderedFrom (cell data) i) (hin : i ≤ data.length) :
    ∃ data', heapifyBelow i data = .ok data' ∧ data'.Perm data ∧ OrderedFrom (cell data') 0 := by
  induction i generalizing data with
  | zero => exact ⟨data, rfl, .refl _, ord⟩
  | succ i ih =>
    obtain ⟨data₁, sift, perm₁, ordered₁⟩ := siftDown_ok ord.sinking le_rfl hin
    obtain ⟨data₂, run, perm₂, ordered₂⟩ := ih ordered₁ (by rw [perm₁.length_eq]; omega)
    exact ⟨data₂, by rw [heapifyBelow, sift, okBind, run], perm₂.trans perm₁, ordered₂⟩

theorem heapify_ok (data : List T) :
    ∃ data', heapify data = .ok data' ∧ data'.Perm data ∧ OrderedFrom (cell data') 0 := by
  have leaves : ∀ k, data.length ≤ 2 * k + 1 → OrderedFrom (cell data) k := by
    intro k most i inner from_k
    rw [cell_of_le (by rw [above] at from_k; omega)]
    exact bot_le
  rw [heapify]
  split
  · exact ⟨data, rfl, .refl _, leaves 0 (by omega)⟩
  · exact heapifyBelow_ok _ (leaves _ (by omega)) (by omega)

end Sifting

section Specifications

variable {heap heap' : BinaryHeap T} {data : List T} {idx : Nat} {value x : T}

def Ordered (heap : BinaryHeap T) : Prop :=
  ∀ i, 0 < i → ∀ x ∈ heap.data[i]?, ∀ y ∈ heap.data[(i - 1) / 2]?, x ≤ y

def Greatest (elements : List T) (x : T) : Prop := x ∈ elements ∧ ∀ y ∈ elements, y ≤ x

theorem ordered_iff : Ordered heap ↔ OrderedFrom (cell heap.data) 0 := by
  constructor
  · intro ord i inner _
    by_cases hin : i < heap.data.length
    · have lower := above_lt inner
      obtain ⟨x, isX, cellX⟩ : ∃ x, heap.data[i]? = some x ∧ cell heap.data i = x :=
        ⟨_, List.getElem?_eq_getElem hin, cell_of_getElem? (List.getElem?_eq_getElem hin)⟩
      obtain ⟨y, isY, cellY⟩ : ∃ y, heap.data[above i]? = some y ∧ cell heap.data (above i) = y :=
        ⟨_, List.getElem?_eq_getElem (lower.trans hin),
          cell_of_getElem? (List.getElem?_eq_getElem (lower.trans hin))⟩
      rw [cellX, cellY]
      exact WithBot.coe_le_coe.mpr (ord i inner x isX y isY)
    · rw [cell_of_le (Nat.le_of_not_lt hin)]
      exact bot_le
  · intro ord i inner x isX y isY
    have hlt := ord i inner (Nat.zero_le _)
    rw [cell_of_getElem? isX, cell_of_getElem? (show heap.data[above i]? = some y from isY)] at hlt
    exact WithBot.coe_le_coe.mp hlt

theorem Ordered.greatest (ord : Ordered heap) (top : heap.data[0]? = some x) : Greatest heap.data x := by
  refine ⟨mem_of_getElem? top, ?_⟩
  intro y mem
  obtain ⟨i, hit⟩ := mem_iff_getElem?.mp mem
  have hlt := (ordered_iff.mp ord).le_root i
  rw [cell_of_getElem? hit, cell_of_getElem? top] at hlt
  exact WithBot.coe_le_coe.mp hlt

omit [LinearOrder T] in
theorem cell_takeOut (hin : idx < data.length - 1) (i : Nat) :
    cell (data.swap idx (data.length - 1)).dropLast i =
      if i < data.length - 1 then if i = idx then cell data (data.length - 1) else cell data i else ⊥ := by
  have length : (data.swap idx (data.length - 1)).dropLast.length = data.length - 1 := by
    rw [length_dropLast, length_swap]
  split
  · rename_i hw
    have eq : cell (data.swap idx (data.length - 1)).dropLast i = cell (data.swap idx (data.length - 1)) i := by
      rw [cell, cell, List.getElem?_dropLast, if_pos (by rwa [length_swap])]
    rw [eq, cell_swap (by omega) (by omega), Function.comp_apply]
    split
    · rename_i here
      rw [here, Equiv.swap_apply_left]
    · rename_i elsewhere
      rw [Equiv.swap_apply_of_ne_of_ne elsewhere (by omega)]
  · rename_i beyond
    exact cell_of_le (by omega)

omit [LinearOrder T] in
theorem perm_takeOut (hin : idx < data.length - 1) (hit : data[idx]? = some x) :
    (x :: (data.swap idx (data.length - 1)).dropLast).Perm data ∧
      (data.swap idx (data.length - 1)).getLast? = some x := by
  have hb : idx < data.length := by omega
  have ne : data.swap idx (data.length - 1) ≠ [] := by
    rw [← length_pos_iff, length_swap]
    omega
  have isLast : (data.swap idx (data.length - 1)).getLast ne = x := by
    rw [getLast_eq_getElem]
    have value : (data.swap idx (data.length - 1))[data.length - 1]? = some x := by
      rw [List.getElem?_eq_getElem (by rw [length_swap]; omega), getElem_swap_right_of_lt hb,
        ← List.getElem?_eq_getElem, hit]
    obtain ⟨_, value⟩ := List.getElem?_eq_some_iff.mp value
    simp only [length_swap]
    exact value
  refine ⟨?_, by rw [List.getLast?_eq_some_getLast ne, isLast]⟩
  have split := dropLast_append_getLast ne
  rw [isLast] at split
  exact (perm_append_singleton x _).symm.trans ((List.Perm.of_eq split).trans (swap_perm _ _ _))

theorem pop_ok (ord : Ordered heap) :
    heap.data = [] ∧ heap.pop = .ok (none, heap) ∨
      ∃ x heap', heap.pop = .ok (some x, heap') ∧ Greatest heap.data x ∧ (x :: heap'.data).Perm heap.data ∧
        Ordered heap' := by
  rw [pop]
  by_cases empty : heap.data = []
  · rw [if_pos (by simp [empty])]
    exact .inl ⟨empty, rfl⟩
  · rw [if_neg (by simpa using empty)]
    have pos := length_pos_iff.mpr empty
    obtain ⟨x, top⟩ : ∃ x, heap.data[0]? = some x := ⟨_, List.getElem?_eq_getElem pos⟩
    refine .inr ⟨x, ?_⟩
    have greatest := ord.greatest top
    by_cases single : heap.data.length = 1
    · obtain ⟨y, isSingle⟩ := length_eq_one_iff.mp single
      rw [isSingle] at top
      cases top
      refine ⟨⟨[]⟩, ?_, greatest, isSingle ▸ .refl _, ?_⟩
      · simp [isSingle, popLast]
      · intro i _ x absurd
        cases absurd
    · have several : 0 < heap.data.length - 1 := by omega
      obtain ⟨perm, isLast⟩ := perm_takeOut several top
      have length : (heap.data.swap 0 (heap.data.length - 1)).dropLast.length = heap.data.length - 1 := by
        rw [length_dropLast, length_swap]
      have sinking : Sinking (cell (heap.data.swap 0 (heap.data.length - 1)).dropLast) 0 0 := by
        constructor
        · intro i inner _ other
          have lower := above_lt inner
          rw [cell_takeOut several, cell_takeOut several]
          by_cases hw : i < heap.data.length - 1
          · rw [if_pos hw, if_neg inner.ne', if_pos (lower.trans hw), if_neg other]
            exact ordered_iff.mp ord i inner (Nat.zero_le _)
          · rw [if_neg hw]
            exact bot_le
        · intro i _ _ absurd
          exact absurd.false.elim
      obtain ⟨data', sift, sifted, ordered'⟩ := siftDown_ok sinking le_rfl (by omega)
      refine ⟨⟨data'⟩, ?_, greatest, (sifted.cons x).trans perm, ordered_iff.mpr ordered'⟩
      have ne : (heap.data.swap 0 (heap.data.length - 1)).dropLast.isEmpty = false := by
        rw [isEmpty_eq_false_iff, ← length_pos_iff]
        omega
      simp only [if_neg single, swapItems_of_lt pos (show heap.data.length - 1 < heap.data.length by omega),
        okBind, popLast, ne, Bool.not_false, if_true, isLast, sift]

theorem push_ok (ord : Ordered heap) (value : T) :
    ∃ heap', heap.push value = .ok heap' ∧ heap'.data.Perm (value :: heap.data) ∧ Ordered heap' := by
  have length : (heap.data ++ [value]).length - 1 = heap.data.length := by simp
  have old : ∀ i, i < heap.data.length → cell (heap.data ++ [value]) i = cell heap.data i := by
    intro i hin
    rw [cell, cell, List.getElem?_append_left hin]
  have beyond : ∀ i, heap.data.length < i → cell (heap.data ++ [value]) i = ⊥ := by
    intro i outside
    exact cell_of_le (by rw [length_append, length_singleton]; omega)
  have rising : Rising (cell (heap.data ++ [value])) heap.data.length := by
    constructor
    · intro i inner other
      have lower := above_lt inner
      rcases Nat.lt_or_gt_of_ne other with hin | outside
      · rw [old i hin, old _ (lower.trans hin)]
        exact ordered_iff.mp ord i inner (Nat.zero_le _)
      · rw [beyond i outside]
        exact bot_le
    · intro i inner under _
      rw [beyond i (under ▸ above_lt inner)]
      exact bot_le
  obtain ⟨data', sift, perm, ordered'⟩ := siftUp_ok rising (by simp)
  refine ⟨⟨data'⟩, ?_, perm.trans (perm_append_singleton value _), ordered_iff.mpr ordered'⟩
  simp only [push, length, sift, okBind]

theorem overwrite_ok (ord : Ordered heap) (top : heap.data[0]? = some x) (value : T) :
    ∃ data', setItem heap.data 0 value = .ok (heap.data.set 0 value) ∧
      siftDown (heap.data.set 0 value) 0 = .ok data' ∧ (x :: data').Perm (value :: heap.data) ∧
      Ordered ⟨data'⟩ := by
  obtain ⟨pos, isTop⟩ := List.getElem?_eq_some_iff.mp top
  have others : ∀ i, i ≠ 0 → cell (heap.data.set 0 value) i = cell heap.data i := by
    intro i other
    rw [cell, cell, List.getElem?_set_ne other.symm]
  have sinking : Sinking (cell (heap.data.set 0 value)) 0 0 := by
    constructor
    · intro i inner _ other
      rw [others i inner.ne', others _ other]
      exact ordered_iff.mp ord i inner (Nat.zero_le _)
    · intro i _ _ absurd
      exact absurd.false.elim
  obtain ⟨data', sift, perm, ordered'⟩ := siftDown_ok sinking le_rfl (by rwa [length_set])
  refine ⟨data', if_pos pos, sift, ?_, ordered_iff.mpr ordered'⟩
  obtain ⟨y, rest, split⟩ := exists_cons_of_ne_nil (length_pos_iff.mp pos)
  rw [split] at top perm ⊢
  cases top
  exact (perm.cons _).trans (.swap _ _ _)

theorem removeAt_ok (ord : Ordered heap) (hit : heap.data[idx]? = some x) :
    ∃ heap', heap.removeAt idx = .ok heap' ∧ (x :: heap'.data).Perm heap.data ∧ Ordered heap' := by
  obtain ⟨hin, isX⟩ := List.getElem?_eq_some_iff.mp hit
  rw [removeAt]
  by_cases last : idx = heap.data.length - 1
  · rw [if_pos last]
    have nonempty : heap.data ≠ [] := by
      intro empty
      rw [empty] at hin
      cases hin
    have isLast : heap.data.getLast nonempty = x := by
      rw [getLast_eq_getElem, ← isX]
      simp only [last]
    have split := dropLast_append_getLast nonempty
    rw [isLast] at split
    refine ⟨_, rfl, (perm_append_singleton x _).symm.trans (.of_eq split), ?_⟩
    intro i inner y isY z isZ
    simp only [popLast, List.getElem?_dropLast] at isY isZ
    split at isY
    · split at isZ
      · exact ord i inner y isY z isZ
      · cases isZ
    · cases isY
  · rw [if_neg last]
    have hw : idx < heap.data.length - 1 := by omega
    obtain ⟨perm, _⟩ := perm_takeOut hw hit
    have cells := cell_takeOut hw
    have length : (heap.data.swap idx (heap.data.length - 1)).dropLast.length = heap.data.length - 1 := by
      rw [length_dropLast, length_swap]
    rw [swapItems_of_lt hin (by omega), okBind]
    simp only [popLast]
    generalize (heap.data.swap idx (heap.data.length - 1)).dropLast = data at perm cells length ⊢
    have old := ordered_iff.mp ord
    have others : ∀ i, i ≠ idx → cell data i ≤ cell heap.data i := by
      intro i other
      rw [cells]
      by_cases hlt : i < heap.data.length - 1
      · rw [if_pos hlt, if_neg other]
      · rw [if_neg hlt]
        exact bot_le
    have kept : ∀ i, i < heap.data.length - 1 → i ≠ idx → cell data i = cell heap.data i := by
      intro i hlt other
      rw [cells, if_pos hlt, if_neg other]
    have children : ∀ i, 0 < i → above i = idx → cell data i ≤ cell heap.data idx := by
      intro i inner under
      have lower := above_lt inner
      exact (others i (by omega)).trans (under ▸ old i inner (Nat.zero_le _))
    have elsewhere : ∀ i, 0 < i → i ≠ idx → above i ≠ idx → cell data i ≤ cell data (above i) := by
      intro i inner notHere notUnder
      have lower := above_lt inner
      by_cases hlt : i < heap.data.length - 1
      · rw [kept (above i) (lower.trans hlt) notUnder]
        exact (others i notHere).trans (old i inner (Nat.zero_le _))
      · rw [cells, if_neg hlt]
        exact bot_le
    have grand : ∀ i, 0 < i → above i = idx → 0 < idx → cell data i ≤ cell data (above idx) := by
      intro i inner under pos
      have lower := above_lt pos
      rw [kept (above idx) (by omega) lower.ne]
      exact (children i inner under).trans (old idx pos (Nat.zero_le _))
    by_cases hf : 0 < idx → cell data idx ≤ cell data (above idx)
    · -- the element that moved here is not greater than its par, so that it can only go down
      have sinking : Sinking (cell data) 0 idx := by
        constructor
        · intro i inner _ notUnder
          by_cases here : i = idx
          · subst here
            exact hf inner
          · exact elsewhere i inner here notUnder
        · intro i inner under pos _
          exact grand i inner under pos
      obtain ⟨data₁, down, perm₁, ordered₁⟩ := siftDown_ok sinking (Nat.zero_le _) (by omega)
      obtain ⟨data₂, up, perm₂, ordered₂⟩ := siftUp_ok (ordered₁.rising idx) (by rw [perm₁.length_eq]; omega)
      refine ⟨⟨data₂⟩, ?_, ((perm₂.trans perm₁).cons x).trans perm, ordered_iff.mpr ordered₂⟩
      rw [down, okBind, up, okBind]
    · -- else it stays above its children, and can only go up
      push Not at hf
      obtain ⟨pos, greater⟩ := hf
      have stays : ∀ i, 0 < i → above i = idx → cell data i ≤ cell data idx := by
        intro i inner under
        exact (grand i inner under pos).trans greater.le
      have down : siftDown data idx = .ok data := by
        have here : idx < data.length := by omega
        rw [siftDown, siftDownWithin, larger_eq here,
          if_neg (not_lt.mpr (stays _ (by omega) ((above_eq_iff (by omega)).mpr (.inl rfl)))), okBind, larger_eq here,
          if_neg (not_lt.mpr (stays _ (by omega) ((above_eq_iff (by omega)).mpr (.inr rfl)))), okBind, if_pos rfl]
      have rising : Rising (cell data) idx := by
        constructor
        · intro i inner notHere
          by_cases under : above i = idx
          · rw [under]
            exact stays i inner under
          · exact elsewhere i inner notHere under
        · exact grand
      obtain ⟨data₂, up, perm₂, ordered₂⟩ := siftUp_ok rising (by omega)
      refine ⟨⟨data₂⟩, ?_, (perm₂.cons x).trans perm, ordered_iff.mpr ordered₂⟩
      rw [down, okBind, up, okBind]

end Specifications

end BinaryHeap

end Collections
