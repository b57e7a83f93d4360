import Verum.Collections.Memory

namespace Collections

/-- `hash` is 0 for an empty slot and -1 for a deleted one. -/
structure Slot (K V : Type) where
  contents : Option (K × V)
  hash : Int
  psl : Nat

structure Map (K V : Type) where
  entries : Nat → Slot K V
  len : Nat
  tombstones : Nat
  cap : Nat

def initialCapacity : Nat := 16

def loadFactorNum : Nat := 7

def loadFactorDen : Nat := 8

def tombstone : Int := -1

def slotSize : Nat := 32

def Slot.zeroed {K V : Type} : Slot K V := ⟨none, 0, 0⟩

/-- `entry.hash == hash && entry.key == key` -/
def Slot.holds {K V : Type} [BEq K] (slot : Slot K V) (key : K) (hash : Int) : Bool :=
  slot.hash == hash && slot.contents.any fun entry => entry.1 == key

/-- The absolute value of a 64-bit integer, its least value staying as it is. -/
def wrappingAbs (n : Int) : Int := if n = -2 ^ 63 then n else n.natAbs

namespace Map

variable {K V : Type} (memory : Memory) (hashValue : K → Int)

def new : Map K V := ⟨fun _ => .zeroed, 0, 0, 0⟩

def makeHashVal (key : K) : Int :=
  let h := wrappingAbs (hashValue key)
  if h ≤ 1 then h + 2 else h

section Probing

variable (self : Map K V)

/-- `hash & mask` on 64 bits. -/
def index (hash : Int) : Nat := (hash % 2 ^ 64).toNat &&& (self.cap - 1)

def nextIndex (idx : Nat) : Nat := (idx + 1) &&& (self.cap - 1)

def entryAt (idx : Nat) : Option (K × V) := (self.entries idx).contents

variable [BEq K]

/-- The loop of every lookup, which ends at the slot of the key, at an empty slot or at a resident that
is closer to its home; all but `get` also stop after `cap` steps. -/
def findLoop (guarded : Bool) (key : K) (hash : Int) : Nat → Nat → Nat → Except Panic (Option Nat)
  | 0, _, _ => .error .diverges
  | steps + 1, idx, psl =>
    let entry := self.entries idx
    if entry.hash = 0 then .ok none
    else if entry.hash > 0 ∧ entry.holds key hash then .ok (some idx)
    else if entry.hash > 0 ∧ psl > entry.psl then .ok none
    else if guarded ∧ psl + 1 > self.cap then .ok none
    else findLoop guarded key hash steps (self.nextIndex idx) (psl + 1)

/-- The slot of a key. With an empty slot in the table no lookup takes more steps than `cap`. -/
def find (guarded : Bool) (key : K) : Except Panic (Option Nat) :=
  if self.cap = 0 then .ok none
  else
    let hash := makeHashVal hashValue key
    self.findLoop guarded key hash (self.cap + 1) (self.index hash) 0

def get (key : K) : Except Panic (Option V) := do
  let found ← self.find hashValue false key
  .ok (found.bind fun idx => (self.entryAt idx).map Prod.snd)

def getKeyValue (key : K) : Except Panic (Option (K × V)) := do
  let found ← self.find hashValue true key
  .ok (found.bind self.entryAt)

def containsKey (key : K) : Except Panic Bool := do
  let found ← self.find hashValue true key
  .ok found.isSome

def insertLoop (self : Map K V) : Nat → Nat → Nat → K → V → Int → Except Panic (Map K V × Option V)
  | 0, _, _, _, _, _ => .error .diverges
  | steps + 1, idx, psl, key, value, hash =>
    let entry := self.entries idx
    if entry.hash = 0 ∨ entry.hash = tombstone then
      .ok ({ self with
        entries := Function.update self.entries idx ⟨some (key, value), hash, psl⟩
        tombstones := if entry.hash = tombstone then self.tombstones - 1 else self.tombstones
        len := self.len + 1 }, none)
    else if entry.holds key hash then
      .ok ({ self with
        entries := Function.update self.entries idx
          { entry with contents := entry.contents.map fun old => (old.1, value) } },
        entry.contents.map Prod.snd)
    else
      match entry.contents with
      | none => .error .invalidAccess
      | some resident =>
        if psl > entry.psl then
          let self := { self with entries := Function.update self.entries idx ⟨some (key, value), hash, psl⟩ }
          insertLoop self steps (self.nextIndex idx) (entry.psl + 1) resident.1 resident.2 entry.hash
        else insertLoop self steps (self.nextIndex idx) (psl + 1) key value hash

def insertInternal (key : K) (value : V) (hash : Int) : Except Panic (Map K V × Option V) :=
  self.insertLoop (self.cap + 1) (self.index hash) 0 key value hash

end Probing

section Capacity

variable [BEq K] (self : Map K V)

/-- The entries of the old table at the given indices are inserted one after the other. -/
def rehash (oldEntries : Nat → Slot K V) : Map K V → List Nat → Except Panic (Map K V)
  | self, [] => .ok self
  | self, i :: indices => do
    let entry := oldEntries i
    if entry.hash > 0 then
      match entry.contents with
      | none => .error .invalidAccess
      | some (key, value) =>
        let (self, _) ← self.insertInternal key value entry.hash
        rehash oldEntries self indices
    else rehash oldEntries self indices

def swapInTable (newCap : Nat) : Except Panic (Map K V) :=
  rehash self.entries ⟨fun _ => .zeroed, 0, 0, newCap⟩ (List.range self.cap)

def resize (newCap : Nat) : Except Panic (Map K V) := do
  alloc ⟨slotSize, memory.grants⟩ newCap
  self.swapInTable newCap

def compact : Except Panic (Map K V) := self.resize memory self.cap

def ensureCapacity : Except Panic (Map K V) := do
  if self.cap = 0 then self.resize memory initialCapacity
  else
    let threshold := self.cap * loadFactorNum / loadFactorDen
    if self.len + self.tombstones ≥ threshold then
      let newCap ← checked (if self.len * 2 > self.cap then self.cap * 2 else self.cap)
      self.resize memory newCap
    else .ok self

/-- The capacity doubled until it reaches `minCap`. -/
def doubled (minCap : Int) : Nat → Nat → Except Panic Nat
  | 0, _ => .error .diverges
  | steps + 1, newCap =>
    if newCap < minCap then do
      let newCap ← checked (newCap * 2)
      doubled minCap steps newCap
    else .ok newCap

def reserve (additional : Int) : Except Panic (Map K V) := do
  let needed ← checkedInt (self.len + additional)
  let scaled ← checkedInt (needed * loadFactorDen)
  let minCap := scaled.tdiv loadFactorNum + 1
  if minCap > self.cap then
    let newCap ← doubled minCap 64 (if self.cap = 0 then initialCapacity else self.cap)
    self.resize memory newCap
  else .ok self

end Capacity

section Changes

variable [BEq K] (self : Map K V)

def insert (key : K) (value : V) : Except Panic (Map K V × Option V) := do
  let self ← self.ensureCapacity memory
  self.insertInternal key value (makeHashVal hashValue key)

/-- The slot becomes a tombstone, and the table is rebuilt when it has too many of them. -/
def removeAt (idx : Nat) : Except Panic (Map K V) :=
  let self := { self with
    entries := Function.update self.entries idx { self.entries idx with hash := tombstone }
    len := self.len - 1
    tombstones := self.tombstones + 1 }
  if self.tombstones > self.cap / 4 then self.compact memory else .ok self

def removeEntry (key : K) : Except Panic (Map K V × Option (K × V)) := do
  match ← self.find hashValue true key with
  | none => .ok (self, none)
  | some idx =>
    let removed := self.entryAt idx
    let self ← self.removeAt memory idx
    .ok (self, removed)

def remove (key : K) : Except Panic (Map K V × Option V) := do
  let (self, removed) ← self.removeEntry memory hashValue key
  .ok (self, removed.map Prod.snd)

def clear : Map K V :=
  if self.cap = 0 then self
  else
    { self with
      entries := fun i => if i < self.cap then { self.entries i with hash := 0, psl := 0 } else self.entries i
      len := 0
      tombstones := 0 }

end Changes

end Map

end Collections
