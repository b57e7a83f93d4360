import Verum.Collections.MapRuns

namespace Collections

/-- The entry's map, and the slot of its key. -/
structure OccupiedEntry (K V : Type) where
  map : Map K V
  idx : Nat
  key : K

structure VacantEntry (K V : Type) where
  map : Map K V
  hash : Int
  key : K

inductive MapEntry (K V : Type) where
  | occupied (entry : OccupiedEntry K V)
  | vacant (entry : VacantEntry K V)

namespace Map

variable {K V : Type} [BEq K] (memory : Memory) (hashValue : K → Int) (self : Map K V)

section Entries

def getMut (key : K) : Except Panic (Option Nat) := self.find hashValue false key

/-- The loop of `entry`, which also stops at a deleted slot; `none` stands for a vacant entry. -/
def entryLoop (key : K) (hash : Int) : Nat → Nat → Nat → Except Panic (Option Nat)
  | 0, _, _ => .error .diverges
  | steps + 1, idx, psl =>
    let slot := self.entries idx
    if slot.hash = 0 ∨ slot.hash = tombstone then .ok none
    else if slot.hash > 0 ∧ slot.holds key hash then .ok (some idx)
    else if slot.hash > 0 ∧ psl > slot.psl then .ok none
    else if psl + 1 > self.cap then .ok none
    else entryLoop key hash steps (self.nextIndex idx) (psl + 1)

def entry (key : K) : Except Panic (MapEntry K V) := do
  let self ← self.ensureCapacity memory
  let hash := makeHashVal hashValue key
  let found ← self.entryLoop key hash (self.cap + 1) (self.index hash) 0
  match found with
  | some idx => .ok (.occupied ⟨self, idx, key⟩)
  | none => .ok (.vacant ⟨self, hash, key⟩)

/-- The loop that looks for an inserted entry by its hash; it has seen every slot after `cap` steps. -/
def slotOfHash (hash : Int) : Nat → Nat → Except Panic Nat
  | 0, _ => .error .diverges
  | steps + 1, idx =>
    if (self.entries idx).hash > 0 ∧ (self.entries idx).hash = hash then .ok idx
    else slotOfHash hash steps (self.nextIndex idx)

def setValue (idx : Nat) (value : V) : Map K V :=
  self.put idx { self.entries idx with contents := (self.entries idx).contents.map fun entry => (entry.1, value) }

end Entries

section Sweeping

/-- The common body of `retain` and `extract_if` for one slot: `f` gives the new value and whether the entry
stays, and an entry that does not is returned. -/
def sweepAt (f : K → V → V × Bool) (i : Nat) : Except Panic (Map K V × Option (K × V)) :=
  let entry := self.entries i
  if entry.hash > 0 then
    match entry.contents with
    | none => .error .invalidAccess
    | some (key, value) =>
      let (value, stays) := f key value
      if stays then .ok (self.put i { entry with contents := some (key, value) }, none)
      else
        .ok ({ self.put i ⟨some (key, value), tombstone, 0⟩ with
          len := self.len - 1
          tombstones := self.tombstones + 1 }, some (key, value))
  else .ok (self, none)

def sweepLoop (f : K → V → V × Bool) (self : Map K V) : List Nat → Except Panic (Map K V × List (K × V))
  | [] => .ok (self, [])
  | i :: indices => do
    let (self, removed) ← self.sweepAt f i
    let (self, extracted) ← sweepLoop f self indices
    .ok (self, removed.toList ++ extracted)

def sweep (f : K → V → V × Bool) : Except Panic (Map K V × List (K × V)) := do
  if self.cap = 0 then .ok (self, [])
  else
    let (self, extracted) ← self.sweepLoop f (List.range self.cap)
    if self.tombstones > self.cap / 4 then
      let self ← self.compact memory
      .ok (self, extracted)
    else .ok (self, extracted)

def retain (f : K → V → V × Bool) : Except Panic (Map K V) := do
  let (self, _) ← self.sweep memory f
  .ok self

def extractIf (f : K → V → Bool) : Except Panic (Map K V × List (K × V)) :=
  self.sweep memory fun key value => (value, !f key value)

omit [BEq K] in
/-- The deleted slot is not counted. -/
def popEntry : Map K V × Option (K × V) :=
  if self.len = 0 then (self, none)
  else
    match (List.range self.cap).find? fun i => (self.entries i).hash > 0 with
    | none => (self, none)
    | some i =>
      ({ self.put i { self.entries i with hash := tombstone } with len := self.len - 1 }, self.entryAt i)

end Sweeping

section Shrinking

def minForLoad : Except Panic Int := do
  let scaled ← checkedInt (self.len * loadFactorDen)
  .ok (scaled.tdiv loadFactorNum + 1)

def shrinkTable (target : Int) : Except Panic (Map K V) := do
  let newCap ← doubled target 64 initialCapacity
  if newCap < self.cap then self.resize memory newCap else .ok self

def shrinkToFit : Except Panic (Map K V) := do
  if self.len = 0 then
    if self.cap > 0 then .ok { self with entries := fun _ => .zeroed, cap := 0, tombstones := 0 } else .ok self
  else
    let minCap ← self.minForLoad
    self.shrinkTable memory minCap

def shrinkTo (minCapacity : Int) : Except Panic (Map K V) := do
  let minForLoad ← self.minForLoad
  self.shrinkTable memory (if minCapacity > minForLoad then minCapacity else minForLoad)

end Shrinking

end Map

namespace OccupiedEntry

variable {K V : Type} [BEq K] (memory : Memory) (entry : OccupiedEntry K V)

def getMut : Nat := entry.idx

def removeEntry : Except Panic (Map K V × Option (K × V)) := do
  let removed := entry.map.entryAt entry.idx
  let map ← entry.map.removeAt memory entry.idx
  .ok (map, removed)

def insert (value : V) : Map K V × Option V :=
  (entry.map.setValue entry.idx value, (entry.map.entryAt entry.idx).map Prod.snd)

end OccupiedEntry

/-- The new map, and the slot that the reference to the value points to. -/
def VacantEntry.insert {K V : Type} [BEq K] (entry : VacantEntry K V) (value : V) : Except Panic (Map K V × Nat) := do
  let (map, _) ← entry.map.insertInternal entry.key value entry.hash
  let idx ← map.slotOfHash entry.hash map.cap (map.index entry.hash)
  .ok (map, idx)

namespace MapEntry

variable {K V : Type} [BEq K] (entry : MapEntry K V)

omit [BEq K] in
def key : K :=
  match entry with
  | .occupied entry => entry.key
  | .vacant entry => entry.key

omit [BEq K] in
def table : Map K V :=
  match entry with
  | .occupied entry => entry.map
  | .vacant entry => entry.map

def orInsert (default : V) : Except Panic (Map K V × Nat) :=
  match entry with
  | .occupied entry => .ok (entry.map, entry.getMut)
  | .vacant entry => entry.insert default

def orInsertWith (default : Unit → V) : Except Panic (Map K V × Nat) :=
  match entry with
  | .occupied entry => .ok (entry.map, entry.getMut)
  | .vacant entry => entry.insert (default ())

def orInsertWithKey (default : K → V) : Except Panic (Map K V × Nat) :=
  match entry with
  | .occupied entry => .ok (entry.map, entry.getMut)
  | .vacant entry => do
    let value := default entry.key
    let (map, _) ← entry.map.insertInternal entry.key value entry.hash
    let idx ← map.slotOfHash entry.hash map.cap (map.index entry.hash)
    .ok (map, idx)

theorem orInsertWith_eq (default : Unit → V) : entry.orInsertWith default = entry.orInsert (default ()) := by
  cases entry <;> rfl

theorem orInsertWithKey_eq (default : K → V) :
    entry.orInsertWithKey default = entry.orInsert (default entry.key) := by
  cases entry <;> rfl

omit [BEq K] in
def andModify (f : V → V) : MapEntry K V :=
  match entry with
  | .occupied entry =>
    match entry.map.entryAt entry.idx with
    | some (_, value) => .occupied { entry with map := entry.map.setValue entry.idx (f value) }
    | none => .occupied entry
  | .vacant entry => .vacant entry

end MapEntry

/-- The operations that change a map. -/
inductive TableCall (K V : Type) where
  | insert (key : K) (value : V)
  | remove (key : K)
  | clear
  | reserve (additional : Int)
  | shrinkToFit
  | shrinkTo (minCapacity : Int)
  | retain (f : K → V → V × Bool)
  | extractIf (f : K → V → Bool)
  | popEntry
  | entryOrInsert (key : K) (default : V)
  | entryOrInsertWith (key : K) (default : Unit → V)
  | entryOrInsertWithKey (key : K) (default : K → V)
  | entryInsert (key : K) (value : V)
  | entryAndModify (key : K) (f : V → V)
  | entryRemove (key : K)

namespace TableCall

variable {K V : Type} [BEq K] (memory : Memory) (hashValue : K → Int)

/-- The map after a call. A write through a returned reference changes a value and nothing else, as that of
`entryAndModify`. -/
def perform (map : Map K V) : TableCall K V → Except Panic (Map K V)
  | .insert key value => do
    let (map, _) ← map.insert memory hashValue key value
    .ok map
  | .remove key => do
    let (map, _) ← map.remove memory hashValue key
    .ok map
  | .clear => .ok map.clear
  | .reserve additional => map.reserve memory additional
  | .shrinkToFit => map.shrinkToFit memory
  | .shrinkTo minCapacity => map.shrinkTo memory minCapacity
  | .retain f => map.retain memory f
  | .extractIf f => do
    let (map, _) ← map.extractIf memory f
    .ok map
  | .popEntry => .ok map.popEntry.1
  | .entryOrInsert key default => do
    let entry ← map.entry memory hashValue key
    let (map, _) ← entry.orInsert default
    .ok map
  | .entryOrInsertWith key default => do
    let entry ← map.entry memory hashValue key
    let (map, _) ← entry.orInsertWith default
    .ok map
  | .entryOrInsertWithKey key default => do
    let entry ← map.entry memory hashValue key
    let (map, _) ← entry.orInsertWithKey default
    .ok map
  | .entryInsert key value => do
    match ← map.entry memory hashValue key with
    | .occupied entry => .ok (entry.insert value).1
    | .vacant entry =>
      let (map, _) ← entry.insert value
      .ok map
  | .entryAndModify key f => do
    let entry ← map.entry memory hashValue key
    .ok (entry.andModify f).table
  | .entryRemove key => do
    match ← map.entry memory hashValue key with
    | .occupied entry =>
      let (map, _) ← entry.removeEntry memory
      .ok map
    | .vacant entry => .ok entry.map

/-- Holds of the map now and after every one of the calls that returns. -/
def Throughout (property : Map K V → Prop) (map : Map K V) : List (TableCall K V) → Prop
  | [] => property map
  | call :: calls => property map ∧
    match perform memory hashValue map call with
    | .ok map => Throughout property map calls
    | .error _ => True

end TableCall

end Collections
