import Verum.Collections.BinaryHeap

open List

namespace Collections

namespace BinaryHeap

variable {T : Type} [LinearOrder T]

inductive HeapCall (T : Type) where
  | push (value : T)
  | pop
  | pushPop (value : T)
  | replace (value : T)
  | peekMutReplace (value : T)
  | retain (f : T → Bool)
  | extractIf (f : T → Bool)
  | append (other : BinaryHeap T)
  | merge (other : BinaryHeap T)
  | removeValue (value : T)
  | removeAt (idx : Nat)
  | clear

inductive HeapAnswer (T : Type) where
  | unit
  | element (value : Option T)
  | elements (values : List T)
  | flag (found : Bool)
  | other (heap : BinaryHeap T)

namespace HeapCall

def perform (heap : BinaryHeap T) : HeapCall T → Except Panic (HeapAnswer T × BinaryHeap T)
  | push value => do
    let heap ← heap.push value
    .ok (.unit, heap)
  | pop => do
    let (top, heap) ← heap.pop
    .ok (.element top, heap)
  | pushPop value => do
    let (top, heap) ← heap.pushPop value
    .ok (.element (some top), heap)
  | replace value => do
    let (old, heap) ← heap.replace value
    .ok (.element old, heap)
  | peekMutReplace value => do
    let (old, heap) ← heap.peekMutReplace value
    .ok (.element old, heap)
  | retain f => do
    let heap ← heap.retain f
    .ok (.unit, heap)
  | extractIf f => do
    let (extracted, heap) ← heap.extractIf f
    .ok (.elements extracted, heap)
  | append other => do
    let (heap, other) ← heap.append other
    .ok (.other other, heap)
  | merge other => do
    let (heap, other) ← heap.append other
    .ok (.other other, heap)
  | removeValue value => do
    let (found, heap) ← heap.removeValue value
    .ok (.flag found, heap)
  | removeAt idx => do
    let heap ← heap.removeAt idx
    .ok (.unit, heap)
  | clear => .ok (.unit, heap.clear)

/-- `remove_at` is only called on a position in range. -/
def InRange (heap : BinaryHeap T) : HeapCall T → Prop
  | removeAt idx => idx < heap.data.length
  | _ => True

/-- The answer of a call, and the elements it leaves, up to their order. -/
def Prescribes (before : List T) (call : HeapCall T) (answer : HeapAnswer T) (after : List T) : Prop :=
  match call with
  | push value => answer = .unit ∧ after.Perm (value :: before)
  | pop =>
    (before = [] ∧ answer = .element none ∧ after = []) ∨
      ∃ x, Greatest before x ∧ answer = .element (some x) ∧ (x :: after).Perm before
  | pushPop value =>
    ∃ x, Greatest (value :: before) x ∧ answer = .element (some x) ∧ (x :: after).Perm (value :: before)
  | replace value =>
    (before = [] ∧ answer = .element none ∧ after = [value]) ∨
      ∃ x, Greatest before x ∧ answer = .element (some x) ∧ (x :: after).Perm (value :: before)
  | peekMutReplace value =>
    (before = [] ∧ answer = .element none ∧ after = []) ∨
      ∃ x, Greatest before x ∧ answer = .element (some x) ∧ (x :: after).Perm (value :: before)
  | retain f => answer = .unit ∧ after.Perm (before.filter f)
  | extractIf f =>
    answer = .elements (before.filter f) ∧ after.Perm (before.filter fun x => !f x)
  | append other => answer = .other ⟨[]⟩ ∧ after.Perm (before ++ other.data)
  | merge other => answer = .other ⟨[]⟩ ∧ after.Perm (before ++ other.data)
  | removeValue value => answer = .flag (decide (value ∈ before)) ∧ after.Perm (before.erase value)
  | removeAt idx => answer = .unit ∧ ∃ x, before[idx]? = some x ∧ (x :: after).Perm before
  | clear => answer = .unit ∧ after = []

end HeapCall

/-- The heaps that the operations make of any list. -/
inductive Reachable : BinaryHeap T → Prop
  | fromList {list : List T} {heap : BinaryHeap T} : fromList list = .ok heap → Reachable heap
  | step {heap heap' : BinaryHeap T} {call : HeapCall T} {answer : HeapAnswer T} : Reachable heap →
      call.InRange heap → call.perform heap = .ok (answer, heap') → Reachable heap'

variable {heap : BinaryHeap T} {x : T}

theorem fromList_ok (list : List T) :
    ∃ heap, fromList list = .ok heap ∧ heap.data.Perm list ∧ Ordered heap := by
  obtain ⟨data, run, perm, ord⟩ := heapify_ok list
  exact ⟨⟨data⟩, by rw [fromList, run, okBind], perm, ordered_iff.mpr ord⟩

omit [LinearOrder T] in
theorem data_eq_nil (none : heap.data[0]? = none) : heap.data = [] := by
  rwa [List.getElem?_eq_none_iff, Nat.le_zero, length_eq_zero_iff] at none

theorem removeValue_ok (ord : Ordered heap) (v : T) :
    ∃ heap', heap.removeValue v = .ok (decide (v ∈ heap.data), heap') ∧
      heap'.data.Perm (heap.data.erase v) ∧ Ordered heap' := by
  rw [removeValue]
  cases search : heap.data.findIdx? (· == v) with
  | none =>
    have ha : v ∉ heap.data := by
      intro mem
      have differs := List.findIdx?_eq_none_iff.mp search v mem
      simp at differs
    refine ⟨heap, ?_, by rw [erase_of_not_mem ha], ord⟩
    rw [decide_eq_false ha]
  | some i =>
    obtain ⟨hin, eq, _⟩ := List.findIdx?_eq_some_iff_getElem.mp search
    have hit : heap.data[i]? = some v := by
      rw [List.getElem?_eq_getElem hin, beq_iff_eq.mp eq]
    have mem := mem_of_getElem? hit
    obtain ⟨heap', run, perm, ordered'⟩ := removeAt_ok ord hit
    refine ⟨heap', ?_, ?_, ordered'⟩
    · simp only [run, okBind]
      rw [decide_eq_true mem]
    · exact (perm.trans (perm_cons_erase mem)).cons_inv

theorem perform_ok (ord : Ordered heap) (call : HeapCall T) (hr : call.InRange heap) :
    ∃ answer heap', call.perform heap = .ok (answer, heap') ∧ call.Prescribes heap.data answer heap'.data ∧
      Ordered heap' := by
  cases call with
  | push v =>
    obtain ⟨heap', run, perm, ordered'⟩ := push_ok ord v
    exact ⟨.unit, heap', by rw [HeapCall.perform, run, okBind], ⟨rfl, perm⟩, ordered'⟩
  | pop =>
    rcases pop_ok ord with ⟨empty, run⟩ | ⟨x, heap', run, greatest, perm, ordered'⟩
    · exact ⟨.element none, heap, by rw [HeapCall.perform, run, okBind], .inl ⟨empty, rfl, empty⟩, ord⟩
    · exact ⟨.element (some x), heap', by rw [HeapCall.perform, run, okBind], .inr ⟨x, greatest, rfl, perm⟩, ordered'⟩
  | pushPop v =>
    rw [HeapCall.perform, pushPop]
    cases top : heap.data[0]? with
    | none =>
      have empty := data_eq_nil top
      refine ⟨.element (some v), heap, rfl, ⟨v, ?_, rfl, .refl _⟩, ord⟩
      rw [empty]
      exact ⟨mem_singleton_self _, fun y mem => (mem_singleton.mp mem).le⟩
    | some top' =>
      have greatest := ord.greatest top
      by_cases atLeast : v ≥ top'
      · refine ⟨.element (some v), heap, by simp only [if_pos atLeast, okBind], ⟨v, ?_, rfl, .refl _⟩, ord⟩
        refine ⟨.head _, fun y mem => ?_⟩
        rcases mem_cons.mp mem with rfl | mem
        · exact le_rfl
        · exact (greatest.2 y mem).trans atLeast
      · obtain ⟨data', write, sift, perm, ordered'⟩ := overwrite_ok ord top v
        refine ⟨.element (some top'), ⟨data'⟩, by simp only [if_neg atLeast, write, sift, okBind],
          ⟨top', ?_, rfl, perm⟩, ordered'⟩
        refine ⟨.tail _ greatest.1, fun y mem => ?_⟩
        rcases mem_cons.mp mem with rfl | mem
        · exact (not_le.mp atLeast).le
        · exact greatest.2 y mem
  | replace v =>
    rw [HeapCall.perform, replace]
    cases top : heap.data[0]? with
    | none =>
      have empty := data_eq_nil top
      refine ⟨.element none, ⟨[v]⟩, by simp only [empty, nil_append, okBind], .inl ⟨empty, rfl, rfl⟩, ?_⟩
      rintro (_ | i) inner x isX y isY
      · cases inner
      · cases isX
    | some old =>
      obtain ⟨data', write, sift, perm, ordered'⟩ := overwrite_ok ord top v
      exact ⟨.element (some old), ⟨data'⟩, by simp only [write, sift, okBind],
        .inr ⟨old, ord.greatest top, rfl, perm⟩, ordered'⟩
  | peekMutReplace v =>
    rw [HeapCall.perform, peekMutReplace]
    cases top : heap.data[0]? with
    | none =>
      have empty := data_eq_nil top
      exact ⟨.element none, heap, by simp only [empty, isEmpty_nil, if_true, okBind], .inl ⟨empty, rfl, empty⟩,
        ord⟩
    | some old =>
      obtain ⟨data', write, sift, perm, ordered'⟩ := overwrite_ok ord top v
      have ne : heap.data.isEmpty = false := isEmpty_eq_false_iff.mpr (ne_nil_of_mem (mem_of_getElem? top))
      refine ⟨.element (some old), ⟨data'⟩, ?_, .inr ⟨old, ord.greatest top, rfl, perm⟩, ordered'⟩
      simp only [ne, Bool.false_eq_true, if_false, item, top, write, sift, okBind]
  | retain f =>
    obtain ⟨data, run, perm, ordered'⟩ := heapify_ok (heap.data.filter f)
    exact ⟨.unit, ⟨data⟩, by simp only [HeapCall.perform, retain, run, okBind], ⟨rfl, perm⟩, ordered_iff.mpr ordered'⟩
  | extractIf f =>
    obtain ⟨data, run, perm, ordered'⟩ := heapify_ok (heap.data.filter fun x => !f x)
    exact ⟨_, ⟨data⟩, by simp only [HeapCall.perform, extractIf, run, okBind], ⟨rfl, perm⟩, ordered_iff.mpr ordered'⟩
  | append other | merge other =>
    obtain ⟨data, run, perm, ordered'⟩ := heapify_ok (heap.data ++ other.data)
    exact ⟨_, ⟨data⟩, by simp only [HeapCall.perform, append, run, okBind], ⟨rfl, perm⟩, ordered_iff.mpr ordered'⟩
  | removeValue v =>
    obtain ⟨heap', run, perm, ordered'⟩ := removeValue_ok ord v
    exact ⟨_, heap', by simp only [HeapCall.perform, run, okBind], ⟨rfl, perm⟩, ordered'⟩
  | removeAt idx =>
    have hit : heap.data[idx]? = some heap.data[idx] := List.getElem?_eq_getElem hr
    obtain ⟨heap', run, perm, ordered'⟩ := removeAt_ok ord hit
    exact ⟨.unit, heap', by simp only [HeapCall.perform, run, okBind], ⟨rfl, _, hit, perm⟩, ordered'⟩
  | clear => exact ⟨.unit, ⟨[]⟩, rfl, ⟨rfl, rfl⟩, fun i _ x absurd => by cases absurd⟩

theorem Reachable.ordered (reach : Reachable heap) : Ordered heap := by
  induction reach with
  | @fromList list heap built =>
    obtain ⟨heap', run, _, ord⟩ := fromList_ok list
    rw [run] at built
    cases built
    exact ord
  | @step heap heap' call answer _ hr run ih =>
    obtain ⟨answer', heap'', eq, _, ord⟩ := perform_ok ih call hr
    rw [run] at eq
    cases eq
    exact ord

theorem popAll_ok (fuel : Nat) (ord : Ordered heap) (he : heap.data.length < fuel) (res : List T) :
    ∃ popped, popAll fuel heap res = .ok (res ++ popped) ∧ popped.Perm heap.data ∧
      popped.Pairwise fun x y => y ≤ x := by
  induction fuel generalizing heap res with
  | zero => omega
  | succ fuel ih =>
    rw [popAll]
    rcases pop_ok ord with ⟨empty, run⟩ | ⟨x, heap', run, greatest, perm, ordered'⟩
    · exact ⟨[], by simp [run], by rw [empty], .nil⟩
    · have shorter := perm.length_eq
      rw [length_cons] at shorter
      obtain ⟨popped, rest, perm', sorted⟩ := ih ordered' (by omega) (res ++ [x])
      refine ⟨x :: popped, ?_, (perm'.cons x).trans perm, pairwise_cons.mpr ⟨?_, sorted⟩⟩
      · simp only [run, okBind, rest]
        rw [append_assoc, singleton_append]
      · intro y mem
        exact greatest.2 y (perm.subset (.tail _ (perm'.subset mem)))

theorem intoSortedList_ok (ord : Ordered heap) :
    ∃ sorted, heap.intoSortedList = .ok sorted ∧ sorted.Perm heap.data ∧ sorted.Pairwise (· ≤ ·) := by
  obtain ⟨popped, run, perm, sorted⟩ := popAll_ok (heap.data.length + 1) ord (by omega) []
  rw [nil_append] at run
  exact ⟨popped.reverse, by rw [intoSortedList, run, okBind], (reverse_perm _).trans perm,
    pairwise_reverse.mpr sorted⟩

/-- The heap keeps its order and its elements over every run, hands out a greatest element, and sorts. -/
theorem binaryHeap_exact (T : Type) [LinearOrder T] :
    (∀ list : List T, ∃ heap, fromList list = .ok heap ∧ heap.data.Perm list) ∧
    (∀ heap : BinaryHeap T, Reachable heap →
      Ordered heap ∧
      (heap.peek = none ↔ heap.data = []) ∧ (∀ x, heap.peek = some x → Greatest heap.data x) ∧
      (∀ call : HeapCall T, call.InRange heap → ∃ answer heap', call.perform heap = .ok (answer, heap') ∧
        call.Prescribes heap.data answer heap'.data) ∧
      ∃ sorted, heap.intoSortedList = .ok sorted ∧ sorted.Perm heap.data ∧ sorted.Pairwise (· ≤ ·)) ∧
    ∀ list : List T, ∃ sorted, heapSort list = .ok sorted ∧ sorted.Perm list ∧ sorted.Pairwise (· ≤ ·) := by
  refine ⟨?_, ?_, ?_⟩
  · intro list
    obtain ⟨heap, run, perm, _⟩ := fromList_ok list
    exact ⟨heap, run, perm⟩
  · intro heap reachable
    have ordered := reachable.ordered
    refine ⟨ordered, ?_, ?_, ?_, intoSortedList_ok ordered⟩
    · rw [peek, List.head?_eq_none_iff]
    · intro x top
      rw [peek, List.head?_eq_getElem?] at top
      exact ordered.greatest top
    · intro call inRange
      obtain ⟨answer, heap', run, prescribes, _⟩ := perform_ok ordered call inRange
      exact ⟨answer, heap', run, prescribes⟩
  · intro list
    obtain ⟨heap, built, perm, ordered⟩ := fromList_ok list
    obtain ⟨sorted, run, perm', pairwise⟩ := intoSortedList_ok ordered
    refine ⟨sorted, ?_, perm'.trans perm, pairwise⟩
    rw [heapSort, built, okBind]
    exact run

theorem binaryHeap_exact_three :
    Reachable (⟨[3, 1, 2]⟩ : BinaryHeap Nat) ∧ ∃ answer heap',
      HeapCall.perform ⟨[3, 1, 2]⟩ (.removeAt 1) = .ok (answer, heap') ∧
        HeapCall.Prescribes [3, 1, 2] (.removeAt 1) answer heap'.data := by
  have reachable : Reachable (⟨[3, 1, 2]⟩ : BinaryHeap Nat) := .fromList (show fromList [2, 1, 3] = .ok ⟨[3, 1, 2]⟩ from rfl)
  exact ⟨reachable, ((binaryHeap_exact Nat).2.1 _ reachable).2.2.2.1 (.removeAt 1) (by decide : 1 < 3)⟩

example : heapSort [3, 1, 2, 1] = .ok [1, 1, 2, 3] := by rfl

end BinaryHeap

end Collections
