import Verum.Collections.DequeRefinement
import Verum.Collections.Slice
import Mathlib.Data.List.Rotate

namespace Collections

open Nat

open Sorting

namespace Deque

variable {T : Type} (self : Deque T)

section Operations

def rotateLeft (n : Nat) : Deque T :=
  if self.len ≤ 1 ∨ n = 0 then self
  else
    let n := n % self.len
    { self with head := self.wrapIndex (self.head + n) }

def rotateRight (n : Nat) : Deque T :=
  if self.len ≤ 1 ∨ n = 0 then self
  else
    let n := n % self.len
    { self with head := self.wrapIndex (self.head - n + self.cap : Int).toNat }

/-- The slice returned is the one of the first `len` cells of the buffer. -/
def makeContiguous : Deque T :=
  if self.head ≠ 0 ∧ self.len > 0 then
    let self := self.rotateLeft self.head
    { self with head := 0 }
  else self

def fillSlice (slice : List T) : Deque T :=
  { self with data := fun i => if i < slice.length then slice[i]? else self.data i }

/-- The common body of the sort operations: `sortSlice` works on the slice in place. -/
def sortContiguous (sortSlice : List T → Except Panic (List T)) : Except Panic (Deque T) := do
  if self.len ≤ 1 then .ok self
  else
    let self := self.makeContiguous
    let slice ← self.sliceFromRawParts 0 self.len
    let slice ← sortSlice slice
    .ok (self.fillSlice slice)

def sort [Ord T] : Except Panic (Deque T) := self.sortContiguous Slice.sort

def sortBy (compare : T → T → Ordering) : Except Panic (Deque T) := self.sortContiguous (Slice.sortBy compare)

def sortByKey {K : Type} [Ord K] (keyFn : T → K) : Except Panic (Deque T) :=
  self.sortContiguous (Slice.sortByKey keyFn)

def sortUnstable [Ord T] : Except Panic (Deque T) := self.sortContiguous Slice.sortUnstable

def sortUnstableBy (compare : T → T → Ordering) : Except Panic (Deque T) :=
  self.sortContiguous (Slice.sortUnstableBy compare)

def sortUnstableByKey {K : Type} [Ord K] (keyFn : T → K) : Except Panic (Deque T) :=
  self.sortContiguous (Slice.sortUnstableByKey keyFn)

end Operations

section Spare

/-- The slots after the last element hold the first `n` elements again. -/
def RepeatsAfter (xs : List T) (n : Nat) : Prop := ∀ i < n % xs.length, self.cell (xs.length + i) = xs[i]?

/-- The slots before the head hold the last `n` elements again. -/
def RepeatsBefore (xs : List T) (n : Nat) : Prop :=
  ∀ i < n % xs.length, self.cell (self.cap - n % xs.length + i) = xs[xs.length - n % xs.length + i]?

def HoldsFromStart (xs : List T) : Prop := ∀ i < xs.length, self.data i = xs[i]?

end Spare

variable {self} {xs : List T}

section Rotation

theorem WellFormed.cell_moveHead (wf : WellFormed self) (ne : 0 < self.cap) (shift i : Nat) :
    cell { self with head := (self.head + shift) % self.cap } i = self.cell (shift + i) := by
  have moved : ({ self with head := (self.head + shift) % self.cap } : Deque T).physicalIndex i =
      self.physicalIndex (shift + i) := by
    have eq : ∀ idx, ({ self with head := (self.head + shift) % self.cap } : Deque T).wrapIndex idx =
        self.wrapIndex idx := fun _ => rfl
    rw [physicalIndex, physicalIndex, eq, wf.wrapIndex_eq ne, wf.wrapIndex_eq ne,
      mod_add_mod, add_assoc]
  rw [cell, moved]
  rfl

theorem WellFormed.moveHead (wf : WellFormed self) (ne : 0 < self.cap) (shift : Nat) :
    WellFormed { self with head := (self.head + shift) % self.cap } where
  layout := by
    rcases wf.layout with ⟨empty, -⟩ | ⟨power, -⟩
    · omega
    · exact .inr ⟨power, mod_lt _ ne⟩
  cap_le := wf.cap_le
  len_le := wf.len_le

theorem WellFormed.cell_add_cap (wf : WellFormed self) (ne : 0 < self.cap) (i : Nat) :
    self.cell (self.cap + i) = self.cell i := by
  rw [cell, cell, physicalIndex, physicalIndex, wf.wrapIndex_eq ne, wf.wrapIndex_eq ne,
    add_left_comm, add_mod_left]

theorem represents_moveHead (rep : Represents self xs) (ne : 0 < self.cap) (shift n : Nat) :
    Represents { self with head := (self.head + shift) % self.cap } (xs.rotate n) ↔
      ∀ i < xs.length, self.cell (shift + i) = xs[(i + n) % xs.length]? := by
  constructor
  · intro rotated i hr
    rw [← rep.cell_moveHead ne, rotated.cells i (by rwa [List.length_rotate]),
      List.getElem?_rotate hr]
  · intro cells
    refine ⟨rep.moveHead ne shift, by rw [List.length_rotate]; exact rep.length, ?_⟩
    intro i hr
    rw [List.length_rotate] at hr
    rw [rep.cell_moveHead ne, cells i hr, List.getElem?_rotate hr]

theorem rotate_of_multiple (xs : List T) {n : Nat} (multiple : n = 0 ∨ n = xs.length) :
    xs.rotate n = xs ∧ n % xs.length = 0 := by
  rcases multiple with rfl | rfl
  · exact ⟨List.rotate_zero xs, zero_mod _⟩
  · exact ⟨List.rotate_length xs, mod_self _⟩

theorem rotateLeft_exact (rep : Represents self xs) {n : Nat} (hr : n ≤ xs.length) :
    Represents (self.rotateLeft n) (xs.rotate n) ↔ self.RepeatsAfter xs n := by
  have length := rep.length
  rw [rotateLeft]
  split
  · rename_i returns
    have multiple : n = 0 ∨ n = xs.length := by omega
    obtain ⟨eq, none⟩ := rotate_of_multiple xs multiple
    rw [eq, RepeatsAfter, none]
    exact ⟨fun _ i hlt => absurd hlt (not_lt_zero i), fun _ => rep⟩
  · rename_i several
    have hb := rep.len_le
    have pos : 0 < self.cap := by omega
    have lt : n % self.len < self.len := mod_lt _ (by omega)
    dsimp only
    rw [rep.wrapIndex_eq pos, represents_moveHead rep pos, RepeatsAfter, ← length]
    generalize isShift : n % self.len = shift at lt ⊢
    have idx : ∀ i, (i + n) % self.len = (i + shift) % self.len := fun i => by rw [← isShift, add_mod_mod]
    constructor
    · intro cells i hlt
      have late := cells (self.len - shift + i) (by omega)
      rwa [idx, show self.len - shift + i + shift = i + self.len by omega, add_mod_right,
        Nat.mod_eq_of_lt (by omega), show shift + (self.len - shift + i) = self.len + i by omega] at late
    · intro repeats i hlt
      rw [idx]
      by_cases early : i + shift < self.len
      · rw [Nat.mod_eq_of_lt early, add_comm, rep.cells _ (by omega)]
      · have wrapped := repeats (i + shift - self.len) (by omega)
        rw [show self.len + (i + shift - self.len) = shift + i by omega] at wrapped
        rw [wrapped, mod_eq_sub_mod (by omega), Nat.mod_eq_of_lt (by omega)]

theorem rotateRight_exact (rep : Represents self xs) {n : Nat} (hr : n ≤ xs.length) :
    Represents (self.rotateRight n) (xs.rotate (xs.length - n)) ↔ self.RepeatsBefore xs n := by
  have length := rep.length
  rw [rotateRight]
  split
  · rename_i returns
    have multiple : n = 0 ∨ n = xs.length := by omega
    have multiple' : xs.length - n = 0 ∨ xs.length - n = xs.length := by omega
    obtain ⟨-, none⟩ := rotate_of_multiple xs multiple
    obtain ⟨eq, -⟩ := rotate_of_multiple xs multiple'
    rw [eq, RepeatsBefore, none]
    exact ⟨fun _ i hlt => absurd hlt (not_lt_zero i), fun _ => rep⟩
  · rename_i several
    have hb := rep.len_le
    have pos : 0 < self.cap := by omega
    have lt : n % self.len < self.len := mod_lt _ (by omega)
    have isHead : (self.head - (n % self.len : Nat) + self.cap : Int).toNat = self.head + (self.cap - n % self.len) := by
      omega
    dsimp only
    rw [isHead, rep.wrapIndex_eq pos, represents_moveHead rep pos, RepeatsBefore, ← length]
    generalize isShift : n % self.len = shift at lt ⊢
    have early : ∀ i < shift, (i + (self.len - n)) % self.len = self.len - shift + i := by
      intro i hlt
      rcases lt_or_eq_of_le (length ▸ hr) with proper | whole
      · rw [Nat.mod_eq_of_lt proper] at isShift
        rw [Nat.mod_eq_of_lt (by omega)]
        omega
      · rw [whole, mod_self] at isShift
        omega
    have late : ∀ i < self.len, shift ≤ i → (i + (self.len - n)) % self.len = i - shift := by
      intro i hlt above
      rcases lt_or_eq_of_le (length ▸ hr) with proper | whole
      · rw [Nat.mod_eq_of_lt proper] at isShift
        rw [mod_eq_sub_mod (by omega), Nat.mod_eq_of_lt (by omega)]
        omega
      · rw [whole, mod_self] at isShift
        rw [whole, Nat.sub_self, Nat.add_zero, Nat.mod_eq_of_lt hlt]
        omega
    constructor
    · intro cells i hlt
      have fst := cells i (by omega)
      rwa [early i hlt] at fst
    · intro repeats i hlt
      by_cases fst : i < shift
      · rw [early i fst]
        exact repeats i fst
      · rw [late i hlt (by omega), show self.cap - shift + i = self.cap + (i - shift) by omega,
          rep.cell_add_cap pos, rep.cells _ (by omega)]

end Rotation

section Contiguous

theorem makeContiguous_eq (ne : 0 < self.len) : self.makeContiguous = { self with head := 0 } := by
  rw [makeContiguous]
  split
  · rw [rotateLeft]
    split <;> rfl
  · rename_i already
    have atStart : self.head = 0 := by omega
    rw [← atStart]

theorem WellFormed.head_zero (wf : WellFormed self) (ne : 0 < self.cap) {ys : List T}
    (length : self.len = ys.length) : Represents { self with head := 0 } ys ↔ self.HoldsFromStart ys := by
  have hb := wf.len_le
  have atStart : WellFormed { self with head := 0 } := by
    refine ⟨?_, wf.cap_le, hb⟩
    rcases wf.layout with ⟨empty, -⟩ | ⟨power, -⟩
    · omega
    · exact .inr ⟨power, ne⟩
  have cells : ∀ i < ys.length, cell { self with head := 0 } i = self.data i := by
    intro i hr
    rw [cell, physicalIndex, atStart.wrapIndex_eq ne, zero_add,
      Nat.mod_eq_of_lt (show i < self.cap by omega)]
  constructor
  · intro hh i hr
    rw [← cells i hr, hh.cells i hr]
  · intro hh
    refine ⟨atStart, length, fun i hr => ?_⟩
    rw [cells i hr, hh i hr]

theorem sliceFromRawParts_inv {start n : Nat} {vs : List T}
    (reads : self.sliceFromRawParts start n = .ok vs) :
    vs.length = n ∧ ∀ i < n, self.data (start + i) = vs[i]? := by
  induction n generalizing start vs with
  | zero =>
    cases reads
    exact ⟨rfl, fun i hlt => absurd hlt (not_lt_zero i)⟩
  | succ n ih =>
    rw [sliceFromRawParts, read] at reads
    cases atStart : self.data start with
    | none => rw [atStart] at reads; cases reads
    | some v =>
      rw [atStart] at reads
      cases rest : self.sliceFromRawParts (start + 1) n with
      | error => rw [rest] at reads; cases reads
      | ok others =>
        rw [rest] at reads
        cases reads
        obtain ⟨length, cells⟩ := ih rest
        refine ⟨by rw [List.length_cons, length], fun i hlt => ?_⟩
        cases i with
        | zero => exact atStart
        | succ i =>
          rw [List.getElem?_cons_succ, ← cells i (by omega)]
          congr 1
          omega

theorem HoldsFromStart.slice {ys : List T} (hh : self.HoldsFromStart ys) (head len : Nat) :
    sliceFromRawParts { self with head := head, len := len } 0 ys.length = .ok ys := by
  refine sliceFromRawParts_spec rfl fun i hr => ?_
  rw [zero_add]
  exact hh i hr

theorem makeContiguous_exact (rep : Represents self xs) :
    Represents self.makeContiguous xs ∧ self.makeContiguous.sliceFromRawParts 0 xs.length = .ok xs ↔
      self.HoldsFromStart xs := by
  have length := rep.length
  have hb := rep.len_le
  by_cases empty : xs = []
  · have unchanged : self.makeContiguous = self := by
      rw [makeContiguous, if_neg]
      rw [length, empty]
      simp
    rw [unchanged, empty]
    rw [empty] at rep
    exact ⟨fun _ i hlt => absurd hlt (not_lt_zero i), fun _ => ⟨rep, rfl⟩⟩
  · have pos : 0 < self.len := length ▸ List.length_pos_iff.mpr empty
    rw [makeContiguous_eq pos, rep.head_zero (by omega) length]
    exact ⟨And.left, fun hh => ⟨hh, hh.slice 0 self.len⟩⟩

/-- The buffer holds the elements from its first slot on, in any order. -/
def HoldsPermuted (self : Deque T) (xs : List T) : Prop := ∃ ys : List T, ys.Perm xs ∧ self.HoldsFromStart ys

theorem WellFormed.fillSlice_represents (wf : WellFormed self) (ne : 0 < self.cap) {slice ys : List T}
    (length : self.len = slice.length) (length' : self.len = ys.length) :
    Represents (fillSlice { self with head := 0 } slice) ys ↔ slice = ys := by
  have filled : WellFormed (self.fillSlice slice) := ⟨wf.layout, wf.cap_le, wf.len_le⟩
  refine (filled.head_zero ne length').trans ?_
  have cells : ∀ i < slice.length, (self.fillSlice slice).data i = slice[i]? := fun _ hr => if_pos hr
  constructor
  · intro hh
    apply List.ext_getElem?
    intro i
    by_cases hr : i < slice.length
    · rw [← cells i hr, hh i (by omega)]
    · rw [List.getElem?_eq_none (by omega), List.getElem?_eq_none (by omega)]
  · rintro rfl
    exact cells

def SortsContent (compare : T → T → Ordering) (outcome : Except Panic (Deque T)) (xs : List T) : Prop :=
  ∃ sorted ys, outcome = .ok sorted ∧ Represents sorted ys ∧ Sorts compare xs ys

theorem sortContiguous_exact (rep : Represents self xs) {compare : T → T → Ordering}
    {sortSlice : List T → Except Panic (List T)}
    (sorts : ∀ slice, ∃ sorted, sortSlice slice = .ok sorted ∧ Sorts compare slice sorted) :
    SortsContent compare (self.sortContiguous sortSlice) xs ↔ xs.length ≤ 1 ∨ self.HoldsPermuted xs := by
  have length := rep.length
  have hb := rep.len_le
  rw [sortContiguous]
  split
  · rename_i short
    rw [length] at short
    exact ⟨fun _ => .inl short, fun _ => ⟨self, xs, rfl, rep, Slice.sorts_of_short short⟩⟩
  · rename_i several
    have ne : 0 < self.cap := by omega
    dsimp only
    rw [makeContiguous_eq (by omega)]
    constructor
    · rintro ⟨sorted, ys, out, hh, perm, -⟩
      refine .inr ?_
      change (sliceFromRawParts { self with head := 0 } 0 self.len >>= _) = _ at out
      cases read : sliceFromRawParts { self with head := 0 } 0 self.len with
      | error => rw [read] at out; cases out
      | ok slice =>
        obtain ⟨sliceLength, cells⟩ := sliceFromRawParts_inv read
        obtain ⟨res, run, sliceSorts⟩ := sorts slice
        rw [read, okBind, run, okBind] at out
        cases out
        have resultLength : res.length = self.len := by rw [sliceSorts.perm.length_eq, sliceLength]
        have eq := (rep.fillSlice_represents ne resultLength.symm hh.length).mp hh
        subst eq
        refine ⟨slice, sliceSorts.perm.symm.trans perm, fun i hr => ?_⟩
        rw [← cells i (by omega), zero_add]
    · rintro (short | ⟨ys, perm, hh⟩)
      · omega
      · have read := hh.slice 0 self.len
        rw [perm.length_eq, ← length] at read
        obtain ⟨res, run, sliceSorts⟩ := sorts ys
        refine ⟨fillSlice { self with head := 0 } res, res, ?_, ?_, sliceSorts.perm.trans perm, sliceSorts.inOrder⟩
        · change (sliceFromRawParts { self with head := 0 } 0 self.len >>= _) = _
          rw [read, okBind, run, okBind]
        · have resultLength : self.len = res.length := by rw [sliceSorts.perm.length_eq, perm.length_eq, length]
          exact (rep.fillSlice_represents ne resultLength resultLength).mpr rfl

end Contiguous

theorem rotation_and_linearisation (represents : Represents self xs) {n : Nat} (inRange : n ≤ xs.length) :
    (Represents (self.rotateLeft n) (xs.drop n ++ xs.take n) ↔ self.RepeatsAfter xs n) ∧
    (Represents (self.rotateRight n) (xs.drop (xs.length - n) ++ xs.take (xs.length - n)) ↔
      self.RepeatsBefore xs n) ∧
    (Represents self.makeContiguous xs ∧ self.makeContiguous.sliceFromRawParts 0 xs.length = .ok xs ↔
      self.HoldsFromStart xs) ∧
    (∀ (compare : T → T → Ordering) [Std.TransCmp compare],
      (SortsContent compare (self.sortBy compare) xs ↔ xs.length ≤ 1 ∨ self.HoldsPermuted xs) ∧
      (SortsContent compare (self.sortUnstableBy compare) xs ↔ xs.length ≤ 1 ∨ self.HoldsPermuted xs)) ∧
    (∀ [Ord T] [Std.TransOrd T],
      (SortsContent (T := T) Ord.compare self.sort xs ↔ xs.length ≤ 1 ∨ self.HoldsPermuted xs) ∧
      (SortsContent (T := T) Ord.compare self.sortUnstable xs ↔ xs.length ≤ 1 ∨ self.HoldsPermuted xs)) ∧
    ∀ (K : Type) [Ord K] [Std.TransOrd K] (key : T → K),
      (SortsContent (fun a b => Ord.compare (key a) (key b)) (self.sortByKey key) xs ↔
        xs.length ≤ 1 ∨ self.HoldsPermuted xs) ∧
      (SortsContent (fun a b => Ord.compare (key a) (key b)) (self.sortUnstableByKey key) xs ↔
        xs.length ≤ 1 ∨ self.HoldsPermuted xs) := by
  have left := rotateLeft_exact represents inRange
  have right := rotateRight_exact represents inRange
  rw [List.rotate_eq_drop_append_take inRange] at left
  rw [List.rotate_eq_drop_append_take (sub_le _ _)] at right
  refine ⟨left, right, makeContiguous_exact represents, ?_, ?_, ?_⟩
  · intro compare _
    exact ⟨sortContiguous_exact represents Slice.sortBy_sorts, sortContiguous_exact represents Slice.sortUnstableBy_sorts⟩
  · intro _ _
    exact ⟨sortContiguous_exact represents Slice.sortBy_sorts, sortContiguous_exact represents Slice.sortUnstableBy_sorts⟩
  · intro K _ _ key
    have byKey : (fun a b => Ord.compare (key a) (key b)) = Slice.compareKeys key := by
      funext a b
      exact (Slice.compareKeys_eq key a b).symm
    rw [byKey]
    exact ⟨sortContiguous_exact represents Slice.sortBy_sorts, sortContiguous_exact represents Slice.sortUnstableBy_sorts⟩

/-- Three elements pushed to a buffer of four slots, and the first of them popped. -/
def partlyFilled : Deque Nat where
  data := Function.update (Function.update (Function.update (fun _ => none) 0 (some 1)) 1 (some 2)) 2 (some 3)
  head := 1
  len := 2
  cap := 4

theorem partlyFilled_represents : Represents partlyFilled [2, 3] where
  layout := .inr ⟨⟨2, rfl⟩, by decide⟩
  cap_le := by decide
  len_le := by decide
  length := rfl
  cells := by
    intro i hr
    match i with
    | 0 | 1 => rfl

theorem rotation_and_linearisation_partlyFilled : 1 ≤ [2, 3].length ∧ Represents partlyFilled [2, 3] ∧
    (Represents (partlyFilled.rotateLeft 1) ([2, 3].drop 1 ++ [2, 3].take 1) ↔ partlyFilled.RepeatsAfter [2, 3] 1) ∧
    (SortsContent (T := Nat) Ord.compare partlyFilled.sort [2, 3] ↔
      [2, 3].length ≤ 1 ∨ partlyFilled.HoldsPermuted [2, 3]) := by
  have whole := rotation_and_linearisation partlyFilled_represents (n := 1) (by decide)
  exact ⟨by decide, partlyFilled_represents, whole.1, whole.2.2.2.2.1.1⟩

theorem rotation_loses_elements : (do
      let deque ← (new : Deque Nat).pushBack ⟨8, fun _ => true⟩ 1
      let deque ← deque.pushBack ⟨8, fun _ => true⟩ 2
      let deque ← deque.pushBack ⟨8, fun _ => true⟩ 3
      deque.popFront) = .ok (partlyFilled, some 1) ∧
    Represents partlyFilled [2, 3] ∧ ¬ Represents (partlyFilled.rotateLeft 1) [3, 2] ∧
    ¬ Represents (partlyFilled.rotateRight 1) [3, 2] ∧ ¬ Represents partlyFilled.makeContiguous [2, 3] ∧
    ¬ SortsContent (T := Nat) Ord.compare partlyFilled.sort [2, 3] := by
  refine ⟨rfl, partlyFilled_represents, ?_, ?_, ?_, ?_⟩
  · intro holds
    exact absurd (holds.cells 1 (by decide)) (by decide)
  · intro holds
    exact absurd (holds.cells 0 (by decide)) (by decide)
  · intro holds
    exact absurd (holds.cells 0 (by decide)) (by decide)
  · intro sorts
    rcases (sortContiguous_exact partlyFilled_represents Slice.sortBy_sorts).mp sorts with short | ⟨ys, perm, holds⟩
    · exact absurd short (by decide)
    · have length : 0 < ys.length := by
        rw [perm.length_eq]
        decide
      have stale : some 1 = ys[0]? := holds 0 length
      have member : 1 ∈ [2, 3] := perm.mem_iff.mp (List.mem_of_getElem? stale.symm)
      exact absurd member (by decide)

end Deque

end Collections
