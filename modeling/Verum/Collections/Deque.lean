import Verum.Collections.Memory

namespace Collections

/-- `data` gives the initialized cells of the buffer. -/
structure Deque (T : Type) where
  data : Nat → Option T
  head : Nat
  len : Nat
  cap : Nat

def smear (n : Nat) : Nat :=
  let n := n ||| (n >>> 1)
  let n := n ||| (n >>> 2)
  let n := n ||| (n >>> 4)
  let n := n ||| (n >>> 8)
  let n := n ||| (n >>> 16)
  n ||| (n >>> 32)

def nextPowerOfTwo (n : Nat) : Except Panic Nat := if n = 0 then .ok 1 else checked (smear (n - 1) + 1)

namespace Deque

variable {T : Type} (memory : Memory) (self : Deque T)

def new : Deque T := ⟨fun _ => none, 0, 0, 0⟩

def withCapacity (capacity : Nat) : Except Panic (Deque T) := do
  if capacity = 0 then .ok new
  else
    let cap ← nextPowerOfTwo capacity
    alloc memory cap
    .ok ⟨fun _ => none, 0, 0, cap⟩

def wrapIndex (idx : Nat) : Nat := if self.cap = 0 then 0 else idx &&& (self.cap - 1)

def physicalIndex (idx : Nat) : Nat := self.wrapIndex (self.head + idx)

section Access

def read (offset : Nat) : Except Panic T :=
  match self.data offset with
  | some value => .ok value
  | none => .error .invalidAccess

def write (offset : Nat) (value : T) : Except Panic (Deque T) :=
  if offset < self.cap then .ok { self with data := Function.update self.data offset (some value) }
  else .error .invalidAccess

def move (source target : Nat) : Except Panic (Deque T) := do
  let value ← self.read (self.physicalIndex source)
  self.write (self.physicalIndex target) value

def sliceFromRawParts (start : Nat) : Nat → Except Panic (List T)
  | 0 => .ok []
  | count + 1 => do
    let value ← self.read start
    let rest ← sliceFromRawParts (start + 1) count
    .ok (value :: rest)

/-- `count` cells copied from `start` on to a buffer of capacity `newCap`, from `offset` on. -/
def memmove (newCap : Nat) (newData : Nat → Option T) (offset start count : Nat) :
    Except Panic (Nat → Option T) :=
  if start + count ≤ self.cap ∧ offset + count ≤ newCap then
    .ok fun i => if offset ≤ i ∧ i < offset + count then self.data (start + (i - offset)) else newData i
  else .error .invalidAccess

end Access

section Capacity

def reallocate (newCap : Nat) : Except Panic (Deque T) := do
  alloc memory newCap
  let newData := fun _ => none
  let newData ←
    if self.len > 0 then
      let tail := self.wrapIndex (self.head + self.len)
      if self.head < tail then self.memmove newCap newData 0 self.head self.len
      else
        let firstLen := self.cap - self.head
        let newData ← self.memmove newCap newData 0 self.head firstLen
        self.memmove newCap newData firstLen 0 tail
    else .ok newData
  .ok { self with data := newData, head := 0, cap := newCap }

def grow : Except Panic (Deque T) := do
  let newCap ← checked (if self.cap = 0 then 4 else self.cap * 2)
  self.reallocate memory newCap

def growIfFull : Except Panic (Deque T) := if self.len = self.cap then self.grow memory else .ok self

def reserve (additional : Int) : Except Panic (Deque T) := do
  let required := self.len + additional
  if required > maxInt then .error .overflow
  else if required > self.cap then
    let newCap ← nextPowerOfTwo required.toNat
    self.reallocate memory newCap
  else .ok self

def dropBuffer : Deque T :=
  if self.cap > 0 then { data := fun _ => none, cap := 0, head := 0, len := 0 }
  else { self with head := 0, len := 0 }

def shrinkToFit : Except Panic (Deque T) := do
  if self.len > 0 then
    let newCap ← nextPowerOfTwo self.len
    if newCap < self.cap then self.reallocate memory newCap else .ok self
  else if self.cap > 0 then .ok self.dropBuffer
  else .ok self

end Capacity

section Ends

def pushBack (value : T) : Except Panic (Deque T) := do
  let self ← self.growIfFull memory
  let tail := self.physicalIndex self.len
  let self ← self.write tail value
  .ok { self with len := self.len + 1 }

def pushFront (value : T) : Except Panic (Deque T) := do
  let self ← self.growIfFull memory
  let self := { self with head := self.wrapIndex (self.head + self.cap - 1) }
  let self ← self.write self.head value
  .ok { self with len := self.len + 1 }

def popBack : Except Panic (Deque T × Option T) := do
  if self.len = 0 then .ok (self, none)
  else
    let self := { self with len := self.len - 1 }
    let value ← self.read (self.physicalIndex self.len)
    .ok (self, some value)

def popFront : Except Panic (Deque T × Option T) := do
  if self.len = 0 then .ok (self, none)
  else
    let value ← self.read self.head
    .ok ({ self with head := self.wrapIndex (self.head + 1), len := self.len - 1 }, some value)

end Ends

section Elements

variable (idx : Int)

def get : Except Panic (Option T) := do
  if idx < 0 ∨ idx ≥ self.len then .ok none
  else
    let value ← self.read (self.physicalIndex idx.toNat)
    .ok (some value)

def set (value : T) : Except Panic (Deque T × Option T) := do
  if idx < 0 ∨ idx ≥ self.len then .ok (self, none)
  else
    let phys := self.physicalIndex idx.toNat
    let old ← self.read phys
    let self ← self.write phys value
    .ok (self, some old)

def swap (i j : Int) : Except Panic (Deque T) := do
  if ¬ (i ≥ 0 ∧ i < self.len) then .error (.assertion "Index i out of bounds")
  else if ¬ (j ≥ 0 ∧ j < self.len) then .error (.assertion "Index j out of bounds")
  else if i = j then .ok self
  else
    let physI := self.physicalIndex i.toNat
    let physJ := self.physicalIndex j.toNat
    let tmp ← self.read physI
    let other ← self.read physJ
    let self ← self.write physI other
    self.write physJ tmp

/-- The loop of `insert`, with `count` elements from `idx` on left to move back by one. -/
def shiftRight (self : Deque T) (idx : Nat) : Nat → Except Panic (Deque T)
  | 0 => .ok self
  | count + 1 => do
    let self ← self.move (idx + count) (idx + count + 1)
    shiftRight self idx count

def insert (value : T) : Except Panic (Deque T) := do
  if ¬ (idx ≥ 0 ∧ idx ≤ self.len) then .error (.assertion "Deque insert index out of bounds")
  else
    let self ← self.growIfFull memory
    if idx = self.len then self.pushBack memory value
    else if idx = 0 then self.pushFront memory value
    else
      let self ← self.shiftRight idx.toNat (self.len - idx.toNat)
      let self ← self.write (self.physicalIndex idx.toNat) value
      .ok { self with len := self.len + 1 }

/-- The loop of `remove` from `i` on, with `count` elements left to move forward by one. -/
def shiftLeft (self : Deque T) (i : Nat) : Nat → Except Panic (Deque T)
  | 0 => .ok self
  | count + 1 => do
    let self ← self.move (i + 1) i
    shiftLeft self (i + 1) count

def remove : Except Panic (Deque T × Option T) := do
  if idx < 0 ∨ idx ≥ self.len then .ok (self, none)
  else
    let value ← self.read (self.physicalIndex idx.toNat)
    let self ← self.shiftLeft idx.toNat (self.len - 1 - idx.toNat)
    .ok ({ self with len := self.len - 1 }, some value)

end Elements

section Whole

def reverseLoop (self : Deque T) (lo hi : Nat) : Nat → Except Panic (Deque T)
  | 0 => .ok self
  | steps + 1 => do
    if lo < hi then
      let self ← self.swap lo hi
      reverseLoop self (lo + 1) (hi - 1) steps
    else .ok self

def reverse : Except Panic (Deque T) :=
  if self.len ≤ 1 then .ok self else self.reverseLoop 0 (self.len - 1) self.len

/-- One kept element of a loop that reads at `i` and writes at `kept`. -/
def keep (kept i : Nat) : Except Panic (Deque T) := if kept ≠ i then self.move i kept else .ok self

/-- The loop of `retain` and `extract_if` with `count` elements left; the elements that do not stay
are collected. -/
def partitionLoop (stays : T → Bool) (self : Deque T) (i kept : Nat) (extracted : List T) :
    Nat → Except Panic (Deque T × List T)
  | 0 => .ok ({ self with len := kept }, extracted)
  | count + 1 => do
    let item ← self.read (self.physicalIndex i)
    if stays item then
      let self ← self.keep kept i
      partitionLoop stays self (i + 1) (kept + 1) extracted count
    else partitionLoop stays self (i + 1) kept (extracted ++ [item]) count

def retain (f : T → Bool) : Except Panic (Deque T) :=
  (self.partitionLoop f 0 0 [] self.len).map Prod.fst

def extractIf (pred : T → Bool) : Except Panic (Deque T × List T) :=
  self.partitionLoop (fun item => !pred item) 0 0 [] self.len

def dedupLoop (same : T → T → Bool) (self : Deque T) (write read : Nat) : Nat → Except Panic (Deque T × Nat)
  | 0 => .ok ({ self with len := write }, write)
  | count + 1 => do
    let readItem ← self.read (self.physicalIndex read)
    let prevItem ← self.read (self.physicalIndex (write - 1))
    if !same prevItem readItem then
      let self ← self.keep write read
      dedupLoop same self (write + 1) (read + 1) count
    else dedupLoop same self write (read + 1) count

def dedupBy (same : T → T → Bool) : Except Panic (Deque T × Nat) := do
  if self.len ≤ 1 then .ok (self, 0)
  else
    let originalLen := self.len
    let (self, write) ← self.dedupLoop same 1 1 (self.len - 1)
    .ok (self, originalLen - write)

def dedup [BEq T] : Except Panic (Deque T × Nat) := self.dedupBy fun prev item => !(item != prev)

/-- At most `steps` elements popped; the loop stops at `new_len`. -/
def truncateLoop (newLen : Nat) (self : Deque T) : Nat → Except Panic (Deque T)
  | 0 => .ok self
  | steps + 1 => do
    if self.len > newLen then
      let (self, _) ← self.popBack
      truncateLoop newLen self steps
    else .ok self

def truncate (newLen : Nat) : Except Panic (Deque T) :=
  if newLen ≥ self.len then .ok self else self.truncateLoop newLen self.len

/-- One pop more than `other` has elements ends the loop. -/
def appendLoop (self other : Deque T) : Nat → Except Panic (Deque T × Deque T)
  | 0 => .ok (self, other)
  | steps + 1 => do
    match ← other.popFront with
    | (other, some value) =>
      let self ← self.pushBack memory value
      appendLoop self other steps
    | (other, none) => .ok (self, other)

def append (other : Deque T) : Except Panic (Deque T × Deque T) := do
  let self ← self.reserve memory other.len
  self.appendLoop memory other (other.len + 1)

def splitLoop (other : Deque T) (i : Nat) : Nat → Except Panic (Deque T)
  | 0 => .ok other
  | count + 1 => do
    match ← self.get i with
    | some value =>
      let other ← other.pushBack memory value
      splitLoop other (i + 1) count
    | none => .ok other

def splitOff (at' : Int) : Except Panic (Deque T × Deque T) := do
  if ¬ (at' ≥ 0 ∧ at' ≤ self.len) then .error (.assertion "Deque split_off index out of bounds")
  else
    let other ← withCapacity memory (self.len - at'.toNat)
    let other ← self.splitLoop memory other at'.toNat (self.len - at'.toNat)
    let self ← self.truncate at'.toNat
    .ok (self, other)

def asSlices : Except Panic (List T × List T) := do
  if self.len = 0 then
    let first ← self.sliceFromRawParts 0 0
    let second ← self.sliceFromRawParts 0 0
    .ok (first, second)
  else
    let tail := self.wrapIndex (self.head + self.len)
    if self.head < tail then
      let first ← self.sliceFromRawParts self.head self.len
      let second ← self.sliceFromRawParts 0 0
      .ok (first, second)
    else
      let first ← self.sliceFromRawParts self.head (self.cap - self.head)
      let second ← self.sliceFromRawParts 0 tail
      .ok (first, second)

end Whole

end Deque

end Collections
