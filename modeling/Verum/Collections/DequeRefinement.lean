import Verum.Collections.Deque
import Mathlib.Data.List.Destutter
import Mathlib.Data.Nat.Bitwise
import Mathlib.Data.Nat.ModEq

open List

namespace Collections

open Nat

section PowerOfTwo

theorem testBit_smearStep {n m width : Nat} (smeared : ∀ i, n.testBit i = true ↔ ∃ j < width, m.testBit (i + j) = true)
    (i : Nat) : (n ||| (n >>> width)).testBit i = true ↔ ∃ j < 2 * width, m.testBit (i + j) = true := by
  rw [testBit_or, testBit_shiftRight, Bool.or_eq_true, smeared, smeared]
  constructor
  · rintro (⟨j, hlt, set⟩ | ⟨j, hlt, set⟩)
    · exact ⟨j, by omega, set⟩
    · exact ⟨width + j, by omega, by rwa [show i + (width + j) = width + i + j by omega]⟩
  · rintro ⟨j, hlt, set⟩
    by_cases low : j < width
    · exact .inl ⟨j, low, set⟩
    · exact .inr ⟨j - width, by omega, by rwa [show width + i + (j - width) = i + j by omega]⟩

theorem testBit_smear (m i : Nat) : (smear m).testBit i = true ↔ ∃ j < 64, m.testBit (i + j) = true := by
  have start : ∀ i, m.testBit i = true ↔ ∃ j < 1, m.testBit (i + j) = true := by simp
  exact testBit_smearStep (testBit_smearStep (testBit_smearStep (testBit_smearStep (testBit_smearStep
    (testBit_smearStep start))))) i

theorem smear_eq {m : Nat} (pos : m ≠ 0) (small : m < 2 ^ 64) : smear m = 2 ^ (m.log2 + 1) - 1 := by
  apply eq_of_testBit_eq
  intro i
  rw [testBit_two_pow_sub_one, Bool.eq_iff_iff, testBit_smear, decide_eq_true_iff]
  have high : m.log2 < 64 := (log2_lt pos).mpr small
  constructor
  · rintro ⟨j, -, set⟩
    by_contra above
    have : m < 2 ^ (i + j) := ((log2_lt pos).mp (by omega))
    rw [testBit_lt_two_pow this] at set
    cases set
  · intro hlt
    exact ⟨m.log2 - i, by omega, by
      rw [show i + (m.log2 - i) = m.log2 by omega]
      exact testBit_log2 pos⟩

theorem nextPowerOfTwo_succeeds {n : Nat} (small : n ≤ maxInt) :
    Succeeds (nextPowerOfTwo n) fun m => (∃ k, m = 2 ^ k) ∧ n ≤ m ∧ m ≤ maxInt := by
  rw [nextPowerOfTwo]
  split
  · exact .ok ⟨⟨0, rfl⟩, by omega, by decide⟩
  · refine (checked_succeeds _).mono ?_
    rintro m ⟨rfl, hf⟩
    by_cases one : n - 1 = 0
    · rw [one] at hf ⊢
      exact ⟨⟨0, by decide⟩, by omega, hf⟩
    · have hr : n - 1 < 2 ^ 64 := by
        rw [maxInt] at small
        omega
      have power : smear (n - 1) + 1 = 2 ^ ((n - 1).log2 + 1) := by
        rw [smear_eq one hr]
        exact Nat.sub_add_cancel Nat.one_le_two_pow
      have hlt : n - 1 < 2 ^ ((n - 1).log2 + 1) := lt_log2_self
      exact ⟨⟨_, power⟩, by omega, hf⟩

end PowerOfTwo

namespace Deque

variable {T : Type} {memory : Memory} {self : Deque T} {xs : List T}

def cell (self : Deque T) (i : Nat) : Option T := self.data (self.physicalIndex i)

/-- The head lies in the buffer, whose capacity is zero or a power of two. -/
structure WellFormed (deque : Deque T) : Prop where
  layout : deque.cap = 0 ∧ deque.head = 0 ∨ (∃ k, deque.cap = 2 ^ k) ∧ deque.head < deque.cap
  cap_le : deque.cap ≤ maxInt
  len_le : deque.len ≤ deque.cap

/-- A well-formed deque whose elements, in logical order, are those of a list. -/
structure Represents (deque : Deque T) (xs : List T) : Prop extends WellFormed deque where
  length : deque.len = xs.length
  cells : ∀ i < xs.length, deque.cell i = xs[i]?

section Cells

theorem WellFormed.wrapIndex_eq (wf : WellFormed self) (ne : 0 < self.cap) (idx : Nat) :
    self.wrapIndex idx = idx % self.cap := by
  rcases wf.layout with ⟨empty, -⟩ | ⟨⟨k, power⟩, -⟩
  · omega
  · rw [wrapIndex, if_neg (by omega), power, and_two_pow_sub_one_eq_mod]

theorem WellFormed.head_lt (wf : WellFormed self) (ne : 0 < self.cap) : self.head < self.cap := by
  rcases wf.layout with ⟨empty, -⟩ | ⟨-, hlt⟩
  · omega
  · exact hlt

theorem WellFormed.physicalIndex_lt (wf : WellFormed self) (ne : 0 < self.cap) (idx : Nat) :
    self.physicalIndex idx < self.cap := by
  rw [physicalIndex, wf.wrapIndex_eq ne]
  exact mod_lt _ ne

theorem WellFormed.physicalIndex_inj (wf : WellFormed self) {i j : Nat} (hr : i < self.cap)
    (inRange' : j < self.cap) (eq : self.physicalIndex i = self.physicalIndex j) : i = j := by
  have ne : 0 < self.cap := by omega
  rw [physicalIndex, physicalIndex, wf.wrapIndex_eq ne, wf.wrapIndex_eq ne] at eq
  have congruent : Nat.ModEq self.cap i j := Nat.ModEq.add_left_cancel' self.head eq
  rw [Nat.ModEq, mod_eq_of_lt hr, mod_eq_of_lt inRange'] at congruent
  exact congruent

theorem read_cell {i : Nat} {v : T} (hh : self.cell i = some v) :
    self.read (self.physicalIndex i) = .ok v := by
  rw [cell] at hh
  rw [read, hh]

def put (self : Deque T) (i : Nat) (value : T) : Deque T :=
  { self with data := Function.update self.data (self.physicalIndex i) (some value) }

theorem WellFormed.write_eq (wf : WellFormed self) (ne : 0 < self.cap) (i : Nat) (v : T) :
    self.write (self.physicalIndex i) v = .ok (self.put i v) := by
  rw [write, if_pos (wf.physicalIndex_lt ne i), put]

theorem WellFormed.move_eq (wf : WellFormed self) (ne : 0 < self.cap) {src tgt : Nat} {v : T}
    (hh : self.cell src = some v) : self.move src tgt = .ok (self.put tgt v) := by
  rw [move, read_cell hh]
  exact wf.write_eq ne tgt v

@[simp] theorem put_cap {i : Nat} {v : T} : (self.put i v).cap = self.cap := rfl

@[simp] theorem put_len {i : Nat} {v : T} : (self.put i v).len = self.len := rfl

theorem WellFormed.put (wf : WellFormed self) (i : Nat) (v : T) : WellFormed (self.put i v) :=
  ⟨wf.layout, wf.cap_le, wf.len_le⟩

theorem WellFormed.cell_put (wf : WellFormed self) {i k : Nat} (hr : i < self.cap)
    (inRange' : k < self.cap) (v : T) :
    (self.put i v).cell k = if k = i then some v else self.cell k := by
  change Function.update self.data (self.physicalIndex i) (some v) (self.physicalIndex k) = _
  rw [Function.update_apply, cell]
  by_cases eq : k = i
  · rw [if_pos (eq ▸ rfl), if_pos eq]
  · rw [if_neg eq, if_neg fun equal => eq (wf.physicalIndex_inj inRange' hr equal)]

theorem WellFormed.setLen (wf : WellFormed self) {len : Nat} (hr : len ≤ self.cap) :
    WellFormed { self with len := len } := ⟨wf.layout, wf.cap_le, hr⟩

theorem Represents.read (rep : Represents self xs) {i : Nat} (hr : i < xs.length) :
    self.read (self.physicalIndex i) = .ok (xs.get ⟨i, hr⟩) := by
  apply read_cell
  rw [rep.cells i hr, List.getElem?_eq_getElem hr]
  rfl

theorem represents_new : Represents (new : Deque T) [] where
  layout := .inl ⟨rfl, rfl⟩
  cap_le := zero_le _
  len_le := zero_le _
  length := rfl
  cells := by simp

theorem withCapacity_succeeds {capacity : Nat} (small : capacity ≤ maxInt) :
    Succeeds (withCapacity memory capacity : Except Panic (Deque T)) fun deque => Represents deque [] := by
  rw [withCapacity]
  split
  · exact .ok represents_new
  · refine (nextPowerOfTwo_succeeds small).bind ?_
    rintro cap ⟨power, -, hf⟩
    refine (alloc_succeeds memory cap).bind ?_
    intro _ _
    have pos : 0 < cap := by
      obtain ⟨k, rfl⟩ := power
      exact Nat.two_pow_pos k
    exact .ok { layout := .inr ⟨power, pos⟩, cap_le := hf, len_le := zero_le _, length := rfl, cells := by simp }

end Cells

section Capacity

theorem WellFormed.tail_cases (wf : WellFormed self) (ne : 0 < self.len) :
    let tail := self.wrapIndex (self.head + self.len)
    (self.head < tail → self.head + self.len < self.cap ∧ ∀ i < self.len, self.cell i = self.data (self.head + i)) ∧
    (¬ self.head < tail → self.cap - self.head + tail = self.len ∧
      (∀ i < self.cap - self.head, self.cell i = self.data (self.head + i)) ∧
      ∀ i < tail, self.cell (self.cap - self.head + i) = self.data i) := by
  have pos : 0 < self.cap := lt_of_lt_of_le ne wf.len_le
  have hlt := wf.head_lt pos
  have hb := wf.len_le
  have hin : ∀ i, self.head + i < self.cap → self.cell i = self.data (self.head + i) := by
    intro i hr
    rw [cell, physicalIndex, wf.wrapIndex_eq pos, mod_eq_of_lt hr]
  have wrapped : ∀ i < self.head, self.cell (self.cap - self.head + i) = self.data i := by
    intro i hr
    rw [cell, physicalIndex, wf.wrapIndex_eq pos,
      show self.head + (self.cap - self.head + i) = i + self.cap by omega, add_mod_right,
      mod_eq_of_lt (by omega)]
  rw [wf.wrapIndex_eq pos]
  intro tail
  by_cases hf : self.head + self.len < self.cap
  · have isTail : tail = self.head + self.len := mod_eq_of_lt hf
    exact ⟨fun _ => ⟨hf, fun i hr => hin i (by omega)⟩, fun notBelow => by omega⟩
  · have isTail : tail = self.head + self.len - self.cap := by
      change (self.head + self.len) % self.cap = _
      rw [mod_eq_sub_mod (by omega), mod_eq_of_lt (by omega)]
    refine ⟨fun pre => by omega, fun _ => ⟨by omega, fun i hr => hin i (by omega), ?_⟩⟩
    exact fun i hr => wrapped i (by omega)

theorem reallocate_succeeds (rep : Represents self xs) {newCap : Nat} (power : ∃ k, newCap = 2 ^ k)
    (hf : newCap ≤ maxInt) (room : xs.length ≤ newCap) :
    Succeeds (self.reallocate memory newCap) fun deque => Represents deque xs ∧ deque.cap = newCap := by
  have pos : 0 < newCap := by
    obtain ⟨k, rfl⟩ := power
    exact Nat.two_pow_pos k
  have length := rep.length
  have copied : ∀ {newData : Nat → Option T}, (∀ i < xs.length, newData i = self.cell i) →
      Represents { self with data := newData, head := 0, cap := newCap } xs := by
    intro newData eq
    have wf : WellFormed { self with data := newData, head := 0, cap := newCap } :=
      ⟨.inr ⟨power, pos⟩, hf, by rw [length]; exact room⟩
    refine ⟨wf, length, fun i hr => ?_⟩
    rw [← rep.cells i hr, ← eq i hr, cell, physicalIndex, wf.wrapIndex_eq pos,
      zero_add, mod_eq_of_lt (lt_of_lt_of_le hr room)]
  rw [reallocate]
  refine (alloc_succeeds memory newCap).bind fun _ _ => ?_
  by_cases ne : self.len > 0
  · obtain ⟨straight, around⟩ := rep.tail_cases ne
    rw [if_pos ne]
    dsimp only
    split
    · rename_i hlt
      obtain ⟨hin, cells⟩ := straight hlt
      rw [memmove, if_pos ⟨by omega, by omega⟩]
      refine .ok ⟨copied fun i hr => ?_, rfl⟩
      rw [if_pos ⟨by omega, by omega⟩, cells i (by omega), Nat.sub_zero]
    · rename_i notBelow
      obtain ⟨total, fst, snd⟩ := around notBelow
      have hb := rep.len_le
      have headBelow := rep.head_lt (by omega)
      rw [memmove, if_pos ⟨by omega, by omega⟩]
      refine .ok_bind ?_
      rw [memmove, if_pos ⟨by omega, by omega⟩]
      refine .ok ⟨copied fun i hr => ?_, rfl⟩
      by_cases early : i < self.cap - self.head
      · rw [if_neg (by omega), if_pos ⟨by omega, by omega⟩, fst i early, Nat.sub_zero]
      · have late := snd (i - (self.cap - self.head)) (by omega)
        rw [if_pos ⟨by omega, by omega⟩, zero_add, ← late]
        congr 1
        omega
  · rw [if_neg ne]
    exact .ok ⟨copied fun i hr => by omega, rfl⟩

theorem growIfFull_succeeds (rep : Represents self xs) :
    Succeeds (self.growIfFull memory) fun deque => Represents deque xs ∧ deque.len < deque.cap := by
  have length := rep.length
  have hb := rep.len_le
  rw [growIfFull]
  split
  · rename_i full
    rw [grow]
    refine (checked_succeeds _).bind ?_
    rintro newCap ⟨rfl, hf⟩
    have power : ∃ k, (if self.cap = 0 then 4 else self.cap * 2) = 2 ^ k := by
      rcases rep.layout with ⟨empty, -⟩ | ⟨⟨k, isPower⟩, -⟩
      · exact ⟨2, by simp [empty]⟩
      · exact ⟨k + 1, by rw [if_neg (by simp [isPower]), isPower, pow_succ]⟩
    have room : xs.length < if self.cap = 0 then 4 else self.cap * 2 := by split <;> omega
    refine (reallocate_succeeds rep power hf room.le).mono ?_
    rintro deque ⟨still, isCap⟩
    exact ⟨still, by rw [still.length, isCap]; exact room⟩
  · exact .ok ⟨rep, by omega⟩

theorem reserve_succeeds (rep : Represents self xs) (additional : Int) :
    Succeeds (self.reserve memory additional) fun deque => Represents deque xs := by
  have length := rep.length
  have hb := rep.len_le
  rw [reserve]
  split
  · exact .error .overflow
  · split
    · refine (nextPowerOfTwo_succeeds (by omega)).bind ?_
      rintro newCap ⟨power, room, hf⟩
      exact (reallocate_succeeds rep power hf (by omega)).mono fun _ => And.left
    · exact .ok rep

theorem shrinkToFit_succeeds (rep : Represents self xs) :
    Succeeds (self.shrinkToFit memory) fun deque => Represents deque xs := by
  have length := rep.length
  have hb := rep.len_le
  rw [shrinkToFit]
  split
  · refine (nextPowerOfTwo_succeeds (hb.trans rep.cap_le)).bind ?_
    rintro newCap ⟨power, room, hf⟩
    split
    · exact (reallocate_succeeds rep power hf (by omega)).mono fun _ => And.left
    · exact .ok rep
  · split
    · rename_i empty nz
      have none : xs = [] := eq_nil_of_length_eq_zero (by omega)
      rw [dropBuffer, if_pos nz, none]
      exact .ok represents_new
    · exact .ok rep

end Capacity

section Ends

theorem pushBack_succeeds (rep : Represents self xs) (v : T) :
    Succeeds (self.pushBack memory v) fun deque => Represents deque (xs ++ [v]) := by
  rw [pushBack]
  refine (growIfFull_succeeds rep).bind ?_
  rintro self ⟨rep, room⟩
  have length := rep.length
  dsimp only
  rw [rep.write_eq (by omega)]
  refine .ok ⟨(rep.put _ _).setLen room, by simp [length], fun i hr => ?_⟩
  rw [length_append, length_singleton] at hr
  change (self.put self.len v).cell i = _
  rw [rep.cell_put room (by omega)]
  split
  · rename_i last
    rw [last, length, List.getElem?_concat_length]
  · rw [rep.cells i (by omega), List.getElem?_append_left (by omega)]

theorem pushFront_succeeds (rep : Represents self xs) (v : T) :
    Succeeds (self.pushFront memory v) fun deque => Represents deque (v :: xs) := by
  rw [pushFront]
  refine (growIfFull_succeeds rep).bind ?_
  rintro self ⟨rep, room⟩
  have length := rep.length
  have pos : 0 < self.cap := by omega
  have hlt := rep.head_lt pos
  have isHead : self.wrapIndex (self.head + self.cap - 1) = (self.head + self.cap - 1) % self.cap :=
    rep.wrapIndex_eq pos _
  let moved : Deque T := { self with head := self.wrapIndex (self.head + self.cap - 1) }
  have movedBelow : moved.head < self.cap := by
    change self.wrapIndex _ < _
    rw [isHead]
    exact mod_lt _ pos
  have wf : WellFormed moved := by
    refine ⟨.inr ⟨?_, movedBelow⟩, rep.cap_le, rep.len_le⟩
    rcases rep.layout with ⟨empty, -⟩ | ⟨power, -⟩
    · omega
    · exact power
  have atHead : moved.physicalIndex 0 = moved.head := by
    rw [physicalIndex, wf.wrapIndex_eq pos, add_zero, mod_eq_of_lt movedBelow]
  have cells : ∀ i, moved.cell (i + 1) = self.cell i := by
    intro i
    change self.data _ = self.data _
    rw [physicalIndex, physicalIndex, wf.wrapIndex_eq pos, rep.wrapIndex_eq pos]
    change self.data ((self.wrapIndex (self.head + self.cap - 1) + (i + 1)) % self.cap) = _
    rw [isHead, mod_add_mod, show self.head + self.cap - 1 + (i + 1) = self.head + i + self.cap by omega,
      add_mod_right]
  change Succeeds (moved.write moved.head v >>= _) _
  rw [← atHead, wf.write_eq pos]
  refine .ok ⟨(wf.put _ _).setLen room, by simp [length, moved], fun i hr => ?_⟩
  rw [length_cons] at hr
  change (moved.put 0 v).cell i = _
  rw [wf.cell_put pos (by change i < self.cap; omega)]
  cases i with
  | zero => rfl
  | succ i => rw [if_neg (by omega), cells, rep.cells i (by omega), List.getElem?_cons_succ]

theorem popBack_succeeds (rep : Represents self xs) :
    Succeeds self.popBack fun res => Represents res.1 xs.dropLast ∧ res.2 = xs.getLast? := by
  have length := rep.length
  rw [popBack]
  split
  · have none : xs = [] := eq_nil_of_length_eq_zero (by omega)
    subst none
    exact .ok ⟨rep, rfl⟩
  · have hr : xs.length - 1 < xs.length := by omega
    have read := rep.read hr
    dsimp only
    change Succeeds (self.read (self.physicalIndex (self.len - 1)) >>= _) _
    rw [length, read]
    have hb := rep.len_le
    refine .ok ⟨⟨rep.setLen (by omega), by simp, fun i hlt => ?_⟩, ?_⟩
    · rw [length_dropLast] at hlt
      change self.cell i = _
      rw [rep.cells i (by omega), List.getElem?_dropLast, if_pos hlt]
    · rw [List.getLast?_eq_getElem?, List.getElem?_eq_getElem hr]
      rfl

theorem popFront_succeeds (rep : Represents self xs) :
    Succeeds self.popFront fun res => Represents res.1 xs.tail ∧ res.2 = xs.head? := by
  have length := rep.length
  rw [popFront]
  split
  · have none : xs = [] := eq_nil_of_length_eq_zero (by omega)
    subst none
    exact .ok ⟨rep, rfl⟩
  · have hb := rep.len_le
    have pos : 0 < self.cap := by omega
    have hlt := rep.head_lt pos
    have read := rep.read (show 0 < xs.length by omega)
    rw [physicalIndex, rep.wrapIndex_eq pos, add_zero, mod_eq_of_lt hlt] at read
    rw [read]
    let moved : Deque T := { self with head := self.wrapIndex (self.head + 1), len := self.len - 1 }
    have movedBelow : moved.head < self.cap := by
      change self.wrapIndex _ < _
      rw [rep.wrapIndex_eq pos]
      exact mod_lt _ pos
    have wf : WellFormed moved := by
      refine ⟨.inr ⟨?_, movedBelow⟩, rep.cap_le, ?_⟩
      · rcases rep.layout with ⟨empty, -⟩ | ⟨power, -⟩
        · omega
        · exact power
      · change self.len - 1 ≤ self.cap
        omega
    refine .ok ⟨⟨wf, by simp [length], fun i hr => ?_⟩, ?_⟩
    · rw [length_tail] at hr
      rw [List.getElem?_tail, ← rep.cells (i + 1) (by omega)]
      change self.data (moved.physicalIndex i) = self.data (self.physicalIndex (i + 1))
      rw [physicalIndex, physicalIndex, wf.wrapIndex_eq pos, rep.wrapIndex_eq pos]
      change self.data ((self.wrapIndex (self.head + 1) + i) % self.cap) = _
      rw [rep.wrapIndex_eq pos, mod_add_mod, show self.head + 1 + i = self.head + (i + 1) by omega]
    · rw [List.head?_eq_getElem?, List.getElem?_eq_getElem (by omega)]
      rfl

end Ends

section Elements

theorem get_succeeds (rep : Represents self xs) (idx : Int) :
    Succeeds (self.get idx) fun res => res = if idx < 0 then none else xs[idx.toNat]? := by
  have length := rep.length
  rw [get]
  split
  · refine .ok ?_
    split
    · rfl
    · rw [List.getElem?_eq_none (by omega)]
  · have hr : idx.toNat < xs.length := by omega
    rw [rep.read hr]
    refine .ok ?_
    rw [if_neg (by omega), List.getElem?_eq_getElem hr]
    rfl

theorem Represents.put (rep : Represents self xs) {i : Nat} (hr : i < xs.length) (v : T) :
    Represents (self.put i v) (xs.set i v) := by
  have length := rep.length
  have hb := rep.len_le
  refine ⟨rep.toWellFormed.put i v, by simp [length], fun k hlt => ?_⟩
  rw [length_set] at hlt
  rw [rep.cell_put (by omega) (by omega), List.getElem?_set]
  split
  · rename_i eq
    rw [if_pos eq.symm]
  · rename_i ne
    rw [if_neg (Ne.symm ne), rep.cells k hlt]

theorem set_succeeds (rep : Represents self xs) (idx : Int) (v : T) :
    Succeeds (self.set idx v) fun res =>
      Represents res.1 (if idx < 0 then xs else xs.set idx.toNat v) ∧
        res.2 = if idx < 0 then none else xs[idx.toNat]? := by
  have length := rep.length
  have hb := rep.len_le
  rw [set]
  split
  · refine .ok ?_
    split
    · exact ⟨rep, rfl⟩
    · rw [set_eq_of_length_le (by omega), List.getElem?_eq_none (by omega)]
      exact ⟨rep, rfl⟩
  · have hr : idx.toNat < xs.length := by omega
    dsimp only
    rw [rep.read hr]
    refine .ok_bind ?_
    rw [rep.write_eq (by omega)]
    refine .ok ?_
    rw [if_neg (by omega), if_neg (by omega), List.getElem?_eq_getElem hr]
    exact ⟨rep.put hr v, rfl⟩

def swapped (xs : List T) (i j : Nat) : List T :=
  match xs[i]?, xs[j]? with
  | some a, some b => (xs.set i b).set j a
  | _, _ => xs

theorem swap_succeeds (rep : Represents self xs) {i j : Nat} (inI : i < xs.length) (inJ : j < xs.length) :
    Succeeds (self.swap i j) fun deque => Represents deque (swapped xs i j) := by
  have length := rep.length
  have hb := rep.len_le
  have vs : swapped xs i j = (xs.set i (xs.get ⟨j, inJ⟩)).set j (xs.get ⟨i, inI⟩) := by
    simp [swapped, List.getElem?_eq_getElem inI, List.getElem?_eq_getElem inJ]
  rw [swap, if_neg (by omega), if_neg (by omega), vs]
  split
  · rename_i eq
    obtain rfl : i = j := by exact_mod_cast eq
    have unchanged : (xs.set i (xs.get ⟨i, inJ⟩)).set i (xs.get ⟨i, inI⟩) = xs := by simp
    rw [unchanged]
    exact .ok rep
  · simp only [Int.toNat_natCast]
    rw [rep.read inI]
    refine .ok_bind ?_
    rw [rep.read inJ]
    refine .ok_bind ?_
    rw [rep.write_eq (by omega)]
    refine .ok_bind ?_
    have exchanged := rep.put inI (xs.get ⟨j, inJ⟩)
    change Succeeds ((self.put i (xs.get ⟨j, inJ⟩)).write ((self.put i (xs.get ⟨j, inJ⟩)).physicalIndex j) _) _
    rw [exchanged.write_eq (by simp; omega)]
    exact .ok (exchanged.put (by simpa using inJ) (xs.get ⟨i, inI⟩))

end Elements

section Shifting

theorem shiftRight_succeeds {idx n : Nat} (wf : WellFormed self) (room : idx + n < self.cap)
    (initialized : ∀ k < idx + n, (self.cell k).isSome) :
    Succeeds (self.shiftRight idx n) fun deque => WellFormed deque ∧ deque.cap = self.cap ∧ deque.len = self.len ∧
      ∀ k < self.cap, deque.cell k = if idx < k ∧ k ≤ idx + n then self.cell (k - 1) else self.cell k := by
  induction n generalizing self with
  | zero => exact .ok ⟨wf, rfl, rfl, fun k _ => by rw [if_neg (by omega)]⟩
  | succ n ih =>
    obtain ⟨v, hh⟩ := Option.isSome_iff_exists.mp (initialized (idx + n) (by omega))
    have cell : ∀ k < self.cap, (self.put (idx + n + 1) v).cell k =
        if k = idx + n + 1 then some v else self.cell k := fun k hlt =>
      wf.cell_put (by omega) hlt v
    rw [shiftRight, wf.move_eq (by omega) hh]
    refine .ok_bind ((ih (wf.put _ _) (by simp; omega) fun k hlt => ?_).mono ?_)
    · rw [cell k (by omega), if_neg (by omega)]
      exact initialized k (by omega)
    · rintro deque ⟨still, isCap, isLen, cells⟩
      refine ⟨still, isCap, isLen, fun k hlt => ?_⟩
      rw [cells k hlt]
      by_cases last : k = idx + n + 1
      · rw [if_neg (by omega), cell k hlt, if_pos last, if_pos (by omega), ← hh]
        congr 1
        omega
      · split
        · rw [cell _ (by omega), if_neg (by omega), if_pos (by omega)]
        · rw [cell k hlt, if_neg last, if_neg (by omega)]

theorem insert_succeeds (rep : Represents self xs) {idx : Nat} (hr : idx ≤ xs.length) (v : T) :
    Succeeds (self.insert memory idx v) fun deque => Represents deque (xs.insertIdx idx v) := by
  rw [insert, if_neg (by rw [rep.length]; omega)]
  refine (growIfFull_succeeds rep).bind ?_
  rintro self ⟨rep, room⟩
  have length := rep.length
  split
  · rename_i atEnd
    have isEnd : idx = xs.length := by omega
    rw [isEnd, insertIdx_length_self]
    exact pushBack_succeeds rep v
  · split
    · rename_i atStart
      obtain rfl : idx = 0 := by omega
      exact pushFront_succeeds rep v
    · simp only [Int.toNat_natCast]
      have initialized : ∀ k < idx + (self.len - idx), (self.cell k).isSome := by
        intro k hlt
        rw [rep.cells k (by omega), List.getElem?_eq_getElem (by omega)]
        rfl
      refine (shiftRight_succeeds rep.toWellFormed (by omega) initialized).bind ?_
      rintro deque ⟨wf, isCap, isLen, cells⟩
      rw [wf.write_eq (by omega)]
      refine .ok ⟨(wf.put _ _).setLen (by simp; omega), ?_, fun k hlt => ?_⟩
      · change deque.len + 1 = _
        rw [length_insertIdx_of_le_length hr]
        omega
      · rw [length_insertIdx_of_le_length hr] at hlt
        change (deque.put idx v).cell k = _
        rw [wf.cell_put (by omega) (by omega), List.getElem?_insertIdx]
        split
        · rename_i eq
          rw [if_neg (by omega), if_pos (by omega)]
        · rename_i ne
          rw [cells k (by omega)]
          split
          · rw [rep.cells _ (by omega), if_neg (by omega)]
          · rw [rep.cells _ (by omega), if_pos (by omega)]

end Shifting

section Compacting

/-- A loop has read the elements before `i` and written those it keeps to the front; `rest` are the
elements still to be read. -/
structure Compacting (deque : Deque T) (kept : List T) (i : Nat) (rest : List T) : Prop extends WellFormed deque where
  behind : kept.length ≤ i
  length : deque.len = i + rest.length
  front : ∀ k < kept.length, deque.cell k = kept[k]?
  back : ∀ k < rest.length, deque.cell (i + k) = rest[k]?

variable {kept rest : List T} {i : Nat} {item : T}

theorem Represents.compacting (rep : Represents self xs) : Compacting self [] 0 xs where
  toWellFormed := rep.toWellFormed
  behind := zero_le _
  length := by rw [rep.length, zero_add]
  front := by simp
  back k hlt := by rw [zero_add, rep.cells k hlt]

theorem Compacting.cell_next (compacting : Compacting self kept i (item :: rest)) : self.cell i = some item := by
  simpa using compacting.back 0 (by simp)

theorem Compacting.skip (compacting : Compacting self kept i (item :: rest)) : Compacting self kept (i + 1) rest where
  toWellFormed := compacting.toWellFormed
  behind := le_succ_of_le compacting.behind
  length := by
    have := compacting.length
    rw [length_cons] at this
    omega
  front := compacting.front
  back k hlt := by
    have := compacting.back (k + 1) (by simpa using hlt)
    rwa [List.getElem?_cons_succ, show i + (k + 1) = i + 1 + k by omega] at this

theorem Compacting.put (compacting : Compacting self kept i (item :: rest)) :
    Compacting (self.put kept.length item) (kept ++ [item]) (i + 1) rest := by
  have length := compacting.length
  have behind := compacting.behind
  have hb := compacting.len_le
  rw [length_cons] at length
  refine ⟨compacting.toWellFormed.put _ _, by simpa using behind, by simp [length]; omega, fun k hlt => ?_,
    fun k hlt => ?_⟩
  · rw [length_append, length_singleton] at hlt
    rw [compacting.cell_put (by omega) (by omega)]
    split
    · rename_i last
      rw [last, List.getElem?_concat_length]
    · rw [compacting.front k (by omega), List.getElem?_append_left (by omega)]
  · rw [compacting.cell_put (by omega) (by omega), if_neg (by omega)]
    exact compacting.skip.back k hlt

theorem Compacting.move (compacting : Compacting self kept i (item :: rest)) :
    self.move i kept.length = .ok (self.put kept.length item) := by
  have length := compacting.length
  have hb := compacting.len_le
  rw [length_cons] at length
  exact compacting.move_eq (by omega) compacting.cell_next

theorem Compacting.keep (compacting : Compacting self kept i (item :: rest)) :
    ∃ deque, self.keep kept.length i = .ok deque ∧ Compacting deque (kept ++ [item]) (i + 1) rest := by
  rw [Deque.keep]
  split
  · exact ⟨_, compacting.move, compacting.put⟩
  · rename_i together
    rw [not_not] at together
    have rest' := compacting.skip
    refine ⟨self, rfl, rest'.toWellFormed, by simp [together], rest'.length, fun k hlt => ?_, rest'.back⟩
    rw [length_append, length_singleton] at hlt
    by_cases last : k = kept.length
    · rw [last, List.getElem?_concat_length, together, compacting.cell_next]
    · rw [compacting.front k (by omega), List.getElem?_append_left (by omega)]

theorem Compacting.finish (compacting : Compacting self kept i []) : Represents { self with len := kept.length } kept where
  toWellFormed := by
    have length := compacting.length
    have behind := compacting.behind
    have hb := compacting.len_le
    exact compacting.setLen (by simp at length; omega)
  length := rfl
  cells := compacting.front

theorem partitionLoop_spec (stays : T → Bool) (compacting : Compacting self kept i rest) (extracted : List T) :
    ∃ deque, self.partitionLoop stays i kept.length extracted rest.length =
        .ok (deque, extracted ++ rest.filter fun item => !stays item) ∧
      Represents deque (kept ++ rest.filter stays) := by
  induction rest generalizing self kept i extracted with
  | nil =>
    refine ⟨{ self with len := kept.length }, by simp [partitionLoop], ?_⟩
    simpa using compacting.finish
  | cons item rest ih =>
    rw [length_cons, partitionLoop, read_cell compacting.cell_next]
    change ∃ deque, (if stays item then _ else _) = _ ∧ _
    by_cases staying : stays item = true
    · obtain ⟨deque, hk, next⟩ := compacting.keep
      obtain ⟨final, res, rep⟩ := ih next extracted
      rw [length_append, length_singleton] at res
      rw [if_pos staying, hk]
      exact ⟨final, by simpa [staying] using res, by simpa [staying] using rep⟩
    · obtain ⟨final, res, rep⟩ := ih compacting.skip (extracted ++ [item])
      rw [if_neg staying]
      exact ⟨final, by simpa [staying] using res, by simpa [staying] using rep⟩

theorem retain_spec (rep : Represents self xs) (f : T → Bool) :
    Succeeds (self.retain f) fun deque => Represents deque (xs.filter f) := by
  obtain ⟨deque, res, final⟩ := partitionLoop_spec f rep.compacting []
  rw [retain, rep.length]
  change Succeeds ((self.partitionLoop f 0 ([] : List T).length [] xs.length).map Prod.fst) _
  rw [res]
  exact .ok final

theorem extractIf_spec (rep : Represents self xs) (pred : T → Bool) :
    Succeeds (self.extractIf pred) fun res =>
      Represents res.1 (xs.filter fun item => !pred item) ∧ res.2 = xs.filter pred := by
  obtain ⟨deque, res, final⟩ := partitionLoop_spec (fun item => !pred item) rep.compacting []
  rw [extractIf, rep.length]
  change Succeeds (self.partitionLoop _ 0 ([] : List T).length [] xs.length) _
  rw [res]
  exact .ok ⟨final, by simp⟩

theorem dedupLoop_spec (eq : T → T → Bool) {last : T} (compacting : Compacting self (kept ++ [last]) i rest) :
    ∃ deque, self.dedupLoop eq (kept.length + 1) i rest.length =
        .ok (deque, (kept ++ rest.destutter' (fun a b => ¬ eq a b) last).length) ∧
      Represents deque (kept ++ rest.destutter' (fun a b => ¬ eq a b) last) := by
  induction rest generalizing self kept i last with
  | nil =>
    refine ⟨{ self with len := kept.length + 1 }, by simp [dedupLoop], ?_⟩
    simpa using compacting.finish
  | cons item rest ih =>
    have previous : self.cell (kept.length + 1 - 1) = some last := by
      rw [Nat.add_sub_cancel, compacting.front _ (by simp), List.getElem?_concat_length]
    rw [length_cons, dedupLoop, read_cell compacting.cell_next]
    change ∃ deque, (self.read (self.physicalIndex (kept.length + 1 - 1)) >>= fun prevItem => _) = _ ∧ _
    rw [read_cell previous]
    change ∃ deque, (if !eq last item then _ else _) = _ ∧ _
    by_cases ne : eq last item = true
    · obtain ⟨final, res, rep⟩ := ih compacting.skip
      rw [if_neg (by simpa using ne), List.destutter'_cons_neg _ (by simpa using ne)]
      exact ⟨final, res, rep⟩
    · obtain ⟨deque, hk, next⟩ := compacting.keep
      obtain ⟨final, res, rep⟩ := ih next
      rw [length_append, length_singleton] at hk res
      rw [if_pos (by simpa using ne), hk, List.destutter'_cons_pos _ (by simpa using ne)]
      exact ⟨final, by simpa using res, by simpa using rep⟩

theorem dedupBy_spec (rep : Represents self xs) (eq : T → T → Bool) :
    Succeeds (self.dedupBy eq) fun res =>
      Represents res.1 (xs.destutter fun a b => ¬ eq a b) ∧
        res.2 = xs.length - (xs.destutter fun a b => ¬ eq a b).length := by
  have length := rep.length
  rw [dedupBy]
  match xs, rep, length with
  | [], rep, length | [_], rep, length =>
    rw [if_pos (by simp [length])]
    exact .ok ⟨by simpa using rep, by simp⟩
  | fst :: snd :: rest, rep, length =>
    rw [if_neg (by simp [length])]
    obtain ⟨deque, hk, next⟩ := rep.compacting.keep
    obtain rfl : self = deque := by simpa [Deque.keep] using hk
    obtain ⟨final, res, represents'⟩ := @dedupLoop_spec T self [] _ 1 eq fst next
    dsimp only
    rw [length, length_cons, Nat.add_sub_cancel]
    change Succeeds (self.dedupLoop eq 1 1 (snd :: rest).length >>= _) _
    simp only [length_nil, zero_add, nil_append] at res represents'
    rw [res]
    exact .ok ⟨represents', rfl⟩

theorem shiftLeft_spec (compacting : Compacting self kept (kept.length + 1) rest) :
    ∃ deque, self.shiftLeft kept.length rest.length = .ok deque ∧
      Compacting deque (kept ++ rest) (kept.length + 1 + rest.length) [] := by
  induction rest generalizing self kept with
  | nil => exact ⟨self, rfl, by simpa using compacting⟩
  | cons item rest ih =>
    have put := compacting.put
    rw [show kept.length + 1 = (kept ++ [item]).length by simp] at put
    obtain ⟨deque, res, final⟩ := ih put
    rw [length_cons, shiftLeft, compacting.move]
    refine ⟨deque, by simpa using res, ?_⟩
    simpa [add_assoc, add_comm, add_left_comm] using final

theorem remove_succeeds (rep : Represents self xs) (idx : Int) :
    Succeeds (self.remove idx) fun res =>
      Represents res.1 (if idx < 0 then xs else xs.eraseIdx idx.toNat) ∧
        res.2 = if idx < 0 then none else xs[idx.toNat]? := by
  have length := rep.length
  rw [remove]
  split
  · refine .ok ?_
    split
    · exact ⟨rep, rfl⟩
    · rw [eraseIdx_of_length_le (by omega), List.getElem?_eq_none (by omega)]
      exact ⟨rep, rfl⟩
  · have hr : idx.toNat < xs.length := by omega
    rw [rep.read hr]
    refine .ok_bind ?_
    have front : (xs.take idx.toNat).length = idx.toNat := length_take_of_le hr.le
    have compacting : Compacting self (xs.take idx.toNat) ((xs.take idx.toNat).length + 1) (xs.drop (idx.toNat + 1)) := by
      refine ⟨rep.toWellFormed, by omega, by simp; omega, fun k hlt => ?_, fun k hlt => ?_⟩
      · rw [rep.cells k (by omega), List.getElem?_take_of_lt (by omega)]
      · rw [length_drop] at hlt
        rw [rep.cells _ (by omega), List.getElem?_drop, front]
    obtain ⟨deque, res, final⟩ := shiftLeft_spec compacting
    have left : self.len - 1 - idx.toNat = (xs.drop (idx.toNat + 1)).length := by simp; omega
    rw [front] at res
    rw [left, res]
    refine .ok ⟨?_, ?_⟩
    · rw [if_neg (by omega), eraseIdx_eq_take_drop_succ]
      have finished := final.finish
      have n : deque.len - 1 = (xs.take idx.toNat ++ xs.drop (idx.toNat + 1)).length := by
        rw [final.length]
        simp
      rw [← n] at finished
      exact finished
    · rw [if_neg (by omega), List.getElem?_eq_getElem hr]
      rfl

end Compacting

section Whole

theorem swapped_ends (front inner back : List T) (x y : T) :
    swapped (front ++ x :: (inner ++ [y]) ++ back) front.length (front.length + (inner.length + 1)) =
      front ++ [y] ++ inner ++ (x :: back) := by
  have fst : (front ++ x :: (inner ++ [y]) ++ back)[front.length]? = some x := by simp
  have snd : (front ++ x :: (inner ++ [y]) ++ back)[front.length + (inner.length + 1)]? = some y := by
    rw [append_assoc, List.getElem?_append_right (by omega)]
    simp
  rw [swapped, fst, snd]
  simp

theorem reverseLoop_succeeds {front mid back : List T} {steps : Nat}
    (rep : Represents self (front ++ mid ++ back)) (he : mid.length ≤ steps) :
    Succeeds (self.reverseLoop front.length (front.length + mid.length - 1) steps) fun deque =>
      Represents deque (front ++ mid.reverse ++ back) := by
  induction steps generalizing self front mid back with
  | zero =>
    obtain rfl : mid = [] := eq_nil_of_length_eq_zero (by omega)
    exact .ok rep
  | succ steps ih =>
    rw [reverseLoop]
    match mid, rep, he with
    | [], rep, _ | [_], rep, _ =>
      rw [if_neg (by simp)]
      exact .ok rep
    | x :: z :: rest, rep, he =>
      obtain ⟨inner, y, split⟩ : ∃ inner y, z :: rest = inner ++ [y] :=
        ⟨(z :: rest).dropLast, (z :: rest).getLast (by simp), by rw [dropLast_append_getLast]⟩
      rw [split] at rep he ⊢
      have hi : front.length + (x :: (inner ++ [y])).length - 1 = front.length + (inner.length + 1) := by simp
      rw [hi, if_pos (by omega)]
      refine (swap_succeeds rep (by simp) (by simp)).bind ?_
      intro deque swappedEnds
      rw [swapped_ends] at swappedEnds
      have next := ih swappedEnds (by simp at he; omega)
      have bounds : (front ++ [y]).length + inner.length - 1 = front.length + (inner.length + 1) - 1 := by
        simp
      rw [bounds, length_append, length_singleton] at next
      exact next.mono fun final rep => by simpa using rep

theorem reverse_succeeds (rep : Represents self xs) :
    Succeeds self.reverse fun deque => Represents deque xs.reverse := by
  have length := rep.length
  rw [reverse]
  split
  · rename_i short
    have eq : xs.reverse = xs := by
      match xs, length, short with
      | [], _, _ | [_], _, _ => rfl
      | x :: y :: rest, length, short => simp at length; omega
    rw [eq]
    exact .ok rep
  · have whole := @reverseLoop_succeeds T self [] xs [] self.len (by simpa using rep) (by omega)
    simpa [length] using whole

theorem truncateLoop_succeeds {newLen steps : Nat} (rep : Represents self xs)
    (he : xs.length ≤ newLen + steps) :
    Succeeds (truncateLoop newLen self steps) fun deque => Represents deque (xs.take newLen) := by
  induction steps generalizing self xs with
  | zero =>
    rw [take_of_length_le (by omega)]
    exact .ok rep
  | succ steps ih =>
    have length := rep.length
    rw [truncateLoop]
    split
    · refine (popBack_succeeds rep).bind ?_
      rintro ⟨deque, popped⟩ ⟨shorter, -⟩
      refine (ih shorter (by simp; omega)).mono fun final rep => ?_
      rwa [dropLast_eq_take, take_take, min_eq_left (by omega)] at rep
    · rw [take_of_length_le (by omega)]
      exact .ok rep

theorem truncate_succeeds (rep : Represents self xs) (newLen : Nat) :
    Succeeds (self.truncate newLen) fun deque => Represents deque (xs.take newLen) := by
  have length := rep.length
  rw [truncate]
  split
  · rw [take_of_length_le (by omega)]
    exact .ok rep
  · exact truncateLoop_succeeds rep (by omega)

theorem appendLoop_succeeds {other : Deque T} {ys : List T} {steps : Nat} (rep : Represents self xs)
    (represents' : Represents other ys) (he : ys.length < steps) :
    Succeeds (self.appendLoop memory other steps) fun res =>
      Represents res.1 (xs ++ ys) ∧ Represents res.2 [] := by
  induction steps generalizing self other xs ys with
  | zero => omega
  | succ steps ih =>
    rw [appendLoop]
    refine (popFront_succeeds represents').bind ?_
    rintro ⟨other, popped⟩ ⟨shorter, isHead⟩
    cases ys with
    | nil =>
      obtain rfl : popped = none := isHead
      exact .ok ⟨by simpa using rep, shorter⟩
    | cons v ys =>
      obtain rfl : popped = some v := isHead
      refine (pushBack_succeeds rep v).bind fun deque longer => ?_
      simpa using ih longer shorter (by simpa using he)

theorem append_succeeds {other : Deque T} {ys : List T} (rep : Represents self xs)
    (represents' : Represents other ys) :
    Succeeds (self.append memory other) fun res => Represents res.1 (xs ++ ys) ∧ Represents res.2 [] := by
  rw [append]
  refine (reserve_succeeds rep _).bind fun deque rep => ?_
  exact appendLoop_succeeds rep represents' (by rw [represents'.length]; omega)

theorem splitLoop_succeeds {other : Deque T} {ys : List T} {i n : Nat} (rep : Represents self xs)
    (represents' : Represents other ys) (total : i + n = xs.length) :
    Succeeds (self.splitLoop memory other i n) fun deque => Represents deque (ys ++ xs.drop i) := by
  induction n generalizing other ys i with
  | zero =>
    rw [drop_of_length_le (by omega), append_nil]
    exact .ok represents'
  | succ n ih =>
    have hr : i < xs.length := by omega
    rw [splitLoop]
    refine (get_succeeds rep i).bind ?_
    rintro hit isFound
    rw [if_neg (by omega), Int.toNat_natCast, List.getElem?_eq_getElem hr] at isFound
    subst isFound
    refine (pushBack_succeeds represents' _).bind fun deque longer => ?_
    rw [drop_eq_getElem_cons hr, ← singleton_append, ← append_assoc]
    exact ih longer (by omega)

theorem splitOff_succeeds (rep : Represents self xs) {at' : Nat} (hr : at' ≤ xs.length) :
    Succeeds (self.splitOff memory at') fun res =>
      Represents res.1 (xs.take at') ∧ Represents res.2 (xs.drop at') := by
  have length := rep.length
  have hb := rep.len_le
  have hf := rep.cap_le
  rw [splitOff, if_neg (by omega)]
  simp only [Int.toNat_natCast]
  refine (withCapacity_succeeds (by omega)).bind fun other empty => ?_
  refine (splitLoop_succeeds rep empty (by omega)).bind fun other back => ?_
  refine (truncate_succeeds rep at').bind fun deque front => ?_
  exact .ok ⟨front, by simpa using back⟩

theorem sliceFromRawParts_spec {start n : Nat} {vs : List T} (length : vs.length = n)
    (cells : ∀ i < n, self.data (start + i) = vs[i]?) : self.sliceFromRawParts start n = .ok vs := by
  induction n generalizing start vs with
  | zero => rw [eq_nil_of_length_eq_zero length, sliceFromRawParts]
  | succ n ih =>
    cases vs with
    | nil => simp at length
    | cons v vs =>
      have fst : self.data start = some v := by simpa using cells 0 (by omega)
      have hl : ∀ i < n, self.data (start + 1 + i) = vs[i]? := by
        intro i hlt
        have := cells (i + 1) (by omega)
        rwa [List.getElem?_cons_succ, show start + (i + 1) = start + 1 + i by omega] at this
      have rest := ih (by simpa using length) hl
      rw [sliceFromRawParts, read, fst]
      simp [rest]

theorem asSlices_succeeds (rep : Represents self xs) :
    Succeeds self.asSlices fun slices => slices.1 ++ slices.2 = xs := by
  have length := rep.length
  rw [asSlices]
  split
  · have none : xs = [] := eq_nil_of_length_eq_zero (by omega)
    exact .ok (by simp [none])
  · obtain ⟨straight, around⟩ := rep.tail_cases (by omega)
    dsimp only
    split
    · rename_i hlt
      have cells := (straight hlt).2
      rw [sliceFromRawParts_spec length.symm fun i hr => by
        rw [← cells i hr, rep.cells i (by omega)]]
      exact .ok (by simp)
    · rename_i notBelow
      obtain ⟨total, fst, snd⟩ := around notBelow
      have early : self.sliceFromRawParts self.head (self.cap - self.head) = .ok (xs.take (self.cap - self.head)) := by
        refine sliceFromRawParts_spec (by simp; omega) fun i hr => ?_
        rw [← fst i hr, rep.cells i (by omega), List.getElem?_take_of_lt hr]
      have late : self.sliceFromRawParts 0 (self.wrapIndex (self.head + self.len)) =
          .ok (xs.drop (self.cap - self.head)) := by
        refine sliceFromRawParts_spec (by simp; omega) fun i hr => ?_
        rw [zero_add, ← snd i hr, rep.cells _ (by omega), List.getElem?_drop]
      rw [early, late]
      exact .ok (take_append_drop _ _)

end Whole

end Deque

end Collections
