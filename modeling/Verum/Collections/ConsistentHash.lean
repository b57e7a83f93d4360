import Verum.Collections.SortedMap
import Mathlib.Data.List.Rotate

namespace Collections

instance linearOrderUInt64 : LinearOrder UInt64 where
  le_refl := UInt64.le_refl
  le_trans _ _ _ := UInt64.le_trans
  le_antisymm _ _ := UInt64.le_antisymm
  le_total := UInt64.le_total
  lt_iff_le_not_ge a b := by
    rw [UInt64.lt_iff_toNat_lt, UInt64.le_iff_toNat_le, UInt64.le_iff_toNat_le]
    omega
  toDecidableLE := inferInstance

/-- A hash function with a digest of 32 bytes, the ring's being SHA-256. -/
abbrev Digest := List UInt8 → Vector UInt8 32

def position (digest : Vector UInt8 32) : UInt64 :=
  (List.finRange 8).foldl (fun r k => r ||| ((digest.get (k.castLE (by decide))).toUInt64 <<< (8 * k.val).toUInt64)) 0

def vnodePosition (digest : Digest) (name : String) (vnodeIdx : Nat) : UInt64 :=
  let digits := (Nat.toDigits 10 vnodeIdx).map fun digit => digit.toUInt8
  position (digest (name.toUTF8.toList ++ [0x2d] ++ digits))

def hash64 (digest : Digest) (key : List UInt8) : UInt64 := position (digest key)

structure ConsistentHashRing where
  positions : SortedMap UInt64 String
  nodes : List String
  virtualNodes : Int

namespace ConsistentHashRing

def defaultVirtualNodes : Int := 160

def new : ConsistentHashRing := ⟨.empty, [], defaultVirtualNodes⟩

def withVirtualNodes (n : Int) : ConsistentHashRing := { new with virtualNodes := if n < 1 then 1 else n }

section Nodes

variable (digest : Digest) (self : ConsistentHashRing) (name : String)

def addNode : ConsistentHashRing :=
  if self.nodes.contains name then self
  else
    { self with
      positions := (List.range self.virtualNodes.toNat).foldl
        (fun positions i => positions.insert (vnodePosition digest name i) name) self.positions
      nodes := self.nodes ++ [name] }

def removeNode : ConsistentHashRing × Bool :=
  if !self.nodes.contains name then (self, false)
  else
    ({ self with
      positions := (List.range self.virtualNodes.toNat).foldl
        (fun positions i => positions.remove (vnodePosition digest name i)) self.positions
      nodes := self.nodes.erase name }, true)

end Nodes

section Lookup

variable (digest : Digest) (self : ConsistentHashRing)

def sortedPositions : List UInt64 := self.positions.keys

def findSuccessor (target : UInt64) : Option String :=
  let after := self.sortedPositions.findSome? fun position =>
    if target ≤ position then self.positions.get position else none
  after.or (self.sortedPositions.head?.bind self.positions.get)

def nodeForKey (key : List UInt8) : Option String :=
  if self.positions.entries.length = 0 then none else self.findSuccessor (hash64 digest key)

/-- The walk from index `start + i`, with the steps that are left in one turn of the ring. -/
def nodesLoop (start capped : Nat) : Nat → Nat → List String → List String
  | 0, _, out => out
  | steps + 1, i, out =>
    if out.length < capped then
      let index := (start + i) % self.sortedPositions.length
      match self.sortedPositions[index]?.bind self.positions.get with
      | some name => nodesLoop start capped steps (i + 1) (if out.contains name then out else out ++ [name])
      | none => nodesLoop start capped steps (i + 1) out
    else out

def nodesForKey (key : List UInt8) (count : Int) : List String :=
  if self.positions.entries.length = 0 ∨ count ≤ 0 then []
  else
    let capped := if count > self.nodes.length then self.nodes.length else count.toNat
    let start := (self.sortedPositions.takeWhile fun position => position < hash64 digest key).length
    self.nodesLoop start capped self.sortedPositions.length 0 []

end Lookup

end ConsistentHashRing

namespace ConsistentHashRing

variable {digest : Digest} {self : ConsistentHashRing}

section Placement

variable {positions : SortedMap UInt64 String} {position : UInt64} {owner name : String} {names : List String}

theorem maps_foldl_insert (place : Nat → UInt64) (name : String) (n : Nat) :
    ((List.range n).foldl (fun positions i => positions.insert (place i) name) positions).Maps position owner ↔
      owner = name ∧ (∃ i < n, place i = position) ∨
        (∀ i < n, place i ≠ position) ∧ positions.Maps position owner := by
  induction n with
  | zero => simp
  | succ n ih =>
    rw [List.range_succ, List.foldl_append, List.foldl_cons, List.foldl_nil, SortedMap.maps_insert, ih]
    simp only [Nat.lt_succ_iff_lt_or_eq, or_imp, forall_and, forall_eq, or_and_right, exists_or, exists_eq_left]
    by_cases last : place n = position
    · subst last
      tauto
    · have last' : position ≠ place n := fun eq => last eq.symm
      simp only [last, last', or_false, false_and, false_or, not_false_eq_true, ne_eq, and_true, true_and]

theorem maps_foldl_remove (place : Nat → UInt64) (n : Nat) :
    ((List.range n).foldl (fun positions i => positions.remove (place i)) positions).Maps position owner ↔
      (∀ i < n, place i ≠ position) ∧ positions.Maps position owner := by
  induction n with
  | zero => simp
  | succ n ih =>
    rw [List.range_succ, List.foldl_append, List.foldl_cons, List.foldl_nil, SortedMap.maps_remove, ih]
    simp only [Nat.lt_succ_iff_lt_or_eq, or_imp, forall_and, forall_eq, ne_comm (a := place n)]
    tauto

/-- Every node has its virtual nodes on the ring, and nothing else is there. -/
structure Placed (digest : Digest) (ring : ConsistentHashRing) : Prop where
  maps_iff : ∀ position name, ring.positions.Maps position name ↔
    name ∈ ring.nodes ∧ ∃ i < ring.virtualNodes.toNat, vnodePosition digest name i = position
  nodup : ring.nodes.Nodup
  positive : 1 ≤ ring.virtualNodes

def DistinctPositions (digest : Digest) (names : List String) (virtualNodes : Int) : Prop :=
  ∀ a ∈ names, ∀ b ∈ names, ∀ i < virtualNodes.toNat, ∀ j < virtualNodes.toNat,
    vnodePosition digest a i = vnodePosition digest b j → a = b ∧ i = j

theorem placed_withVirtualNodes (n : Int) : Placed digest (withVirtualNodes n) where
  maps_iff := by simp [withVirtualNodes, new, SortedMap.empty, SortedMap.Maps]
  nodup := by simp [withVirtualNodes, new]
  positive := by
    simp only [withVirtualNodes]
    split <;> omega

theorem placed_addNode (placed : Placed digest self) (known : self.nodes ⊆ names) (isKnown : name ∈ names)
    (nd : DistinctPositions digest names self.virtualNodes) : Placed digest (self.addNode digest name) := by
  rw [addNode]
  split
  · exact placed
  · rename_i ha
    have isNew : name ∉ self.nodes := by simpa using ha
    refine ⟨fun position owner => ?_, ?_, placed.positive⟩
    · simp only [maps_foldl_insert, placed.maps_iff, List.mem_append, List.mem_singleton]
      constructor
      · rintro (⟨rfl, taken⟩ | ⟨-, isNode, taken⟩)
        · exact ⟨.inr rfl, taken⟩
        · exact ⟨.inl isNode, taken⟩
      · rintro ⟨isNode | rfl, i, hr, rfl⟩
        · refine .inr ⟨fun j inRange' eq => ?_, isNode, i, hr, rfl⟩
          have both := nd name isKnown owner (known isNode) j inRange' i hr eq
          exact isNew (both.1 ▸ isNode)
        · exact .inl ⟨rfl, i, hr, rfl⟩
    · exact List.Nodup.append placed.nodup (by simp) (by simpa using isNew)

theorem maps_removeNode (placed : Placed digest self) (known : self.nodes ⊆ names)
    (nd : DistinctPositions digest names self.virtualNodes) (position : UInt64) (owner : String) :
    (self.removeNode digest name).1.positions.Maps position owner ↔
      self.positions.Maps position owner ∧ owner ≠ name := by
  rw [removeNode]
  split
  · rename_i ha
    have isAbsent : name ∉ self.nodes := by simpa using ha
    refine ⟨fun maps => ⟨maps, ?_⟩, And.left⟩
    rintro rfl
    exact isAbsent ((placed.maps_iff position owner).mp maps).1
  · rename_i has
    have isNode : name ∈ self.nodes := by simpa using has
    simp only [maps_foldl_remove]
    constructor
    · rintro ⟨free, maps⟩
      refine ⟨maps, ?_⟩
      rintro rfl
      obtain ⟨-, i, hr, taken⟩ := (placed.maps_iff position owner).mp maps
      exact free i hr taken
    · rintro ⟨maps, ne⟩
      refine ⟨fun i hr taken => ne ?_, maps⟩
      obtain ⟨isOwner, j, inRange', rfl⟩ := (placed.maps_iff position owner).mp maps
      exact ((nd name (known isNode) owner (known isOwner) i hr j inRange' taken).1).symm

@[simp] theorem removeNode_virtualNodes : (self.removeNode digest name).1.virtualNodes = self.virtualNodes := by
  rw [removeNode]
  split <;> rfl

@[simp] theorem removeNode_nodes : (self.removeNode digest name).1.nodes = self.nodes.erase name := by
  rw [removeNode]
  split
  · rename_i ha
    exact (List.erase_of_not_mem (by simpa using ha)).symm
  · rfl

theorem placed_removeNode (placed : Placed digest self) (name : String) (known : self.nodes ⊆ names)
    (nd : DistinctPositions digest names self.virtualNodes) :
    Placed digest (self.removeNode digest name).1 where
  maps_iff position owner := by
    rw [maps_removeNode placed known nd, placed.maps_iff, removeNode_nodes, removeNode_virtualNodes,
      placed.nodup.mem_erase_iff]
    tauto
  nodup := by
    rw [removeNode_nodes]
    exact placed.nodup.erase name
  positive := by
    rw [removeNode_virtualNodes]
    exact placed.positive

end Placement

section Walk

/-- The entries in the order of one turn of the ring from `target`. -/
def walk (self : ConsistentHashRing) (target : UInt64) : List (UInt64 × String) :=
  (self.positions.entries.filter fun entry => target ≤ entry.1) ++
    self.positions.entries.filter fun entry => ¬ target ≤ entry.1

variable {entry : UInt64 × String} {other : ConsistentHashRing} {name : String}

theorem mem_walk {target : UInt64} : entry ∈ self.walk target ↔ entry ∈ self.positions.entries := by
  simp only [walk, List.mem_append, List.mem_filter, decide_eq_true_eq]
  tauto

theorem get_of_mem (mem : entry ∈ self.positions.entries) :
    self.positions.get entry.1 = some entry.2 := SortedMap.get_eq_some.mpr mem

theorem findSome_sortedPositions {es : List (UInt64 × String)} {get : UInt64 → Option String}
    (has : ∀ entry ∈ es, get entry.1 = some entry.2) (target : UInt64) :
    ((es.map Prod.fst).findSome? fun position => if target ≤ position then get position else none) =
      (es.filter fun entry => target ≤ entry.1).head?.map Prod.snd := by
  induction es with
  | nil => rfl
  | cons entry es ih =>
    have tail := ih fun other mem => has other (.tail _ mem)
    rw [List.map_cons, List.findSome?_cons]
    by_cases after : target ≤ entry.1
    · simp [after, has entry (List.mem_cons_self ..)]
    · simpa [after] using tail

theorem findSuccessor_eq (target : UInt64) : self.findSuccessor target = (self.walk target).head?.map Prod.snd := by
  rw [findSuccessor, sortedPositions, SortedMap.keys,
    findSome_sortedPositions (fun _ => get_of_mem) target, walk, List.head?_append]
  cases hit : (self.positions.entries.filter fun entry => target ≤ entry.1).head? with
  | some entry => rfl
  | none =>
    have pre : (self.positions.entries.filter fun entry => ¬ target ≤ entry.1) = self.positions.entries := by
      rw [List.head?_eq_none_iff, List.filter_eq_nil_iff] at hit
      exact List.filter_eq_self.mpr (by simpa using hit)
    rw [pre]
    cases es : self.positions.entries with
    | nil => rfl
    | cons entry rest =>
      have mem : entry ∈ self.positions.entries := by simp [es]
      simpa using get_of_mem mem

theorem nodeForKey_eq (key : List UInt8) :
    self.nodeForKey digest key = (self.walk (hash64 digest key)).head?.map Prod.snd := by
  rw [nodeForKey]
  split
  · rename_i empty
    rw [walk, List.eq_nil_of_length_eq_zero empty]
    rfl
  · exact findSuccessor_eq _

theorem walk_filter
    (lt : ∀ position owner, other.positions.Maps position owner ↔
      self.positions.Maps position owner ∧ owner ≠ name) (target : UInt64) :
    other.walk target = (self.walk target).filter fun entry => entry.2 ≠ name := by
  have es : other.positions.entries = self.positions.entries.filter fun entry => entry.2 ≠ name := by
    refine other.positions.ascending.ext (List.Pairwise.filter _ self.positions.ascending) fun entry => ?_
    rw [List.mem_filter, decide_eq_true_eq]
    exact lt entry.1 entry.2
  rw [walk, walk, es, List.filter_append, List.filter_comm]
  exact congrArg _ (List.filter_comm ..)

theorem nodeForKey_less
    (lt : ∀ position owner, other.positions.Maps position owner ↔
      self.positions.Maps position owner ∧ owner ≠ name) (key : List UInt8)
    (notOwned : self.nodeForKey digest key ≠ some name) :
    other.nodeForKey digest key = self.nodeForKey digest key := by
  rw [nodeForKey_eq] at notOwned ⊢
  rw [nodeForKey_eq, walk_filter lt]
  cases walked : self.walk (hash64 digest key) with
  | nil => rfl
  | cons entry rest =>
    have ne : entry.2 ≠ name := fun eq => notOwned (by simp [walked, eq])
    rw [List.filter_cons_of_pos (by simpa using ne)]
    rfl

end Walk

section Replicas

/-- Names not yet collected, in the order they come, up to `capped` of them. -/
def collect (capped : Nat) : List String → List String → List String
  | [], out => out
  | name :: names, out =>
    if out.length < capped then collect capped names (if out.contains name then out else out ++ [name]) else out

attribute [grind =] collect

theorem prefix_collect (capped : Nat) (names out : List String) : out <+: collect capped names out := by
  induction names generalizing out with
  | nil => exact List.prefix_refl out
  | cons name names ih =>
    rw [collect]
    split
    · split
      · exact ih out
      · exact (List.prefix_append out [name]).trans (ih (out ++ [name]))
    · exact List.prefix_refl out

variable {capped : Nat} {names out : List String} {target : UInt64}

theorem collect_subset : collect capped names out ⊆ out ++ names := by
  induction names generalizing out with
  | nil => simp [collect]
  | cons name names ih =>
    rw [collect]
    intro other mem
    split at mem
    · split at mem
      · have := ih mem
        grind
      · simpa using ih mem
    · exact List.mem_append_left _ mem

theorem collect_distinct {he : List String} (nodup : out.Nodup) (few : out.length ≤ capped)
    (nd : he.Nodup) (many : capped ≤ he.length) (hit : he ⊆ out ++ names) :
    (collect capped names out).length = capped ∧ (collect capped names out).Nodup := by
  induction names generalizing out with
  | nil =>
    have hb := (List.subperm_of_subset nd (by simpa using hit)).length_le
    exact ⟨by rw [collect]; omega, nodup⟩
  | cons name names ih =>
    rw [collect]
    split
    · rename_i room
      by_cases old : name ∈ out
      · rw [if_pos (by simpa using old)]
        refine ih nodup few fun other mem => ?_
        have := hit mem
        grind
      · rw [if_neg (by simpa using old)]
        have unique : (out ++ [name]).Nodup := List.Nodup.append nodup (by simp) (by simpa using old)
        exact ih unique (by simpa using Nat.succ_le_of_lt room) (by simpa using hit)
    · exact ⟨by omega, nodup⟩

theorem takeWhile_length (target : UInt64) :
    (self.sortedPositions.takeWhile fun position => position < target).length =
      (self.positions.entries.takeWhile fun entry => entry.1 < target).length := by
  rw [sortedPositions, SortedMap.keys, List.takeWhile_map, List.length_map]
  rfl

theorem takeWhile_eq_filter {es : List (UInt64 × String)} (ascending : Entries.Ascending es)
    (target : UInt64) :
    (es.takeWhile fun entry => entry.1 < target) = es.filter (fun entry => ¬ target ≤ entry.1) ∧
    (es.dropWhile fun entry => entry.1 < target) = es.filter (fun entry => target ≤ entry.1) := by
  induction ascending with
  | nil => simp
  | @cons entry es pre _ ih =>
    by_cases hlt : entry.1 < target
    · simpa [hlt] using ih
    · have after : ∀ other ∈ es, target ≤ other.1 := fun other mem =>
        (not_lt.mp hlt).trans (pre other mem).le
      have none : (es.filter fun entry => ¬ target ≤ entry.1) = [] := by
        simpa [List.filter_eq_nil_iff] using after
      have all : (es.filter fun entry => target ≤ entry.1) = es :=
        List.filter_eq_self.mpr (by simpa using after)
      simp only [not_le] at none
      simp [hlt, not_lt.mp hlt, none, all]

theorem walk_eq_rotate (target : UInt64) :
    self.walk target =
      self.positions.entries.rotate (self.positions.entries.takeWhile fun entry => entry.1 < target).length := by
  obtain ⟨pre, after⟩ := takeWhile_eq_filter self.positions.ascending target
  set front := self.positions.entries.takeWhile fun entry => entry.1 < target with isFront
  set back := self.positions.entries.dropWhile fun entry => entry.1 < target with isBack
  calc self.walk target = back ++ front := by rw [walk, pre, after]
    _ = (front ++ back).rotate front.length := (List.rotate_append_length_eq front back).symm
    _ = self.positions.entries.rotate front.length := by rw [isFront, isBack, List.takeWhile_append_dropWhile]

theorem nodesLoop_eq {start : Nat} (walked : self.walk target = self.positions.entries.rotate start) :
    ∀ (steps i : Nat) (out : List String), i + steps = self.positions.entries.length →
      self.nodesLoop start capped steps i out = collect capped (((self.walk target).drop i).map Prod.snd) out := by
  intro steps
  have length : (self.walk target).length = self.positions.entries.length := by rw [walked, List.length_rotate]
  induction steps with
  | zero =>
    intro i out total
    rw [List.drop_eq_nil_of_le (by omega)]
    rfl
  | succ steps ih =>
    intro i out total
    have hr : i < (self.walk target).length := by omega
    have entry : self.sortedPositions[(start + i) % self.sortedPositions.length]?.bind self.positions.get =
        some ((self.walk target).get ⟨i, hr⟩).2 := by
      have mem : (self.walk target).get ⟨i, hr⟩ ∈ self.positions.entries := mem_walk.mp (List.get_mem ..)
      have eq : self.positions.entries[(start + i) % self.positions.entries.length]? =
          some ((self.walk target).get ⟨i, hr⟩) := by
        rw [Nat.add_comm, ← List.getElem?_rotate (by omega), ← walked]
        simp
      rw [sortedPositions, SortedMap.keys, List.length_map, List.getElem?_map, eq]
      exact get_of_mem mem
    rw [nodesLoop, List.drop_eq_getElem_cons hr, List.map_cons, collect]
    simp only [entry, List.get_eq_getElem]
    split
    · exact ih (i + 1) _ (by omega)
    · rfl

theorem nodesForKey_eq (key : List UInt8) {n : Int} (pos : 0 < n) :
    self.nodesForKey digest key n =
      collect (min n self.nodes.length).toNat ((self.walk (hash64 digest key)).map Prod.snd) [] := by
  rw [nodesForKey]
  split
  · rename_i empty
    have none : self.positions.entries = [] := List.eq_nil_of_length_eq_zero (by omega)
    rw [walk, none]
    rfl
  · have capped : (if n > self.nodes.length then self.nodes.length else n.toNat) =
        (min n self.nodes.length).toNat := by split <;> omega
    have length : self.sortedPositions.length = self.positions.entries.length := by simp [sortedPositions, SortedMap.keys]
    rw [capped, length, takeWhile_length, nodesLoop_eq (walk_eq_rotate _) _ _ _ (by omega), List.drop_zero]

theorem collect_head (pos : 0 < capped) (names : List String) :
    (collect capped names []).head? = names.head? := by
  cases names with
  | nil => rfl
  | cons name names =>
    rw [collect, if_pos (by simpa using pos)]
    obtain ⟨rest, split⟩ := prefix_collect capped names [name]
    exact split ▸ rfl

theorem mem_walk_names (placed : Placed digest self) {name : String} :
    name ∈ (self.walk target).map Prod.snd ↔ name ∈ self.nodes := by
  simp only [List.mem_map, mem_walk, Prod.exists, exists_eq_right]
  constructor
  · rintro ⟨position, maps⟩
    exact ((placed.maps_iff position name).mp maps).1
  · intro isNode
    have pos := placed.positive
    exact ⟨_, (placed.maps_iff _ name).mpr ⟨isNode, 0, by omega, rfl⟩⟩

theorem nodesForKey_replicas (placed : Placed digest self) (key : List UInt8) (n : Int) :
    (self.nodesForKey digest key n).length = (min n self.nodes.length).toNat ∧
      (self.nodesForKey digest key n).Nodup ∧ self.nodesForKey digest key n ⊆ self.nodes ∧
      (0 < n → (self.nodesForKey digest key n).head? = self.nodeForKey digest key) := by
  by_cases pos : 0 < n
  · rw [nodesForKey_eq key pos, nodeForKey_eq]
    have known : self.nodes ⊆ [] ++ (self.walk (hash64 digest key)).map Prod.snd := fun name isNode =>
      (mem_walk_names placed).mpr isNode
    have many : (min n self.nodes.length).toNat ≤ self.nodes.length := by omega
    obtain ⟨length, nodup⟩ := collect_distinct List.nodup_nil (Nat.zero_le _) placed.nodup many known
    refine ⟨length, nodup, fun name mem => ?_, fun _ => ?_⟩
    · exact (mem_walk_names placed).mp (by simpa using collect_subset mem)
    · cases nodes : self.nodes with
      | nil =>
        have none : (self.walk (hash64 digest key)).map Prod.snd = [] := List.eq_nil_iff_forall_not_mem.mpr
          fun name mem => by simpa [nodes] using (mem_walk_names placed).mp mem
        rw [none, List.map_eq_nil_iff.mp none]
        rfl
      | cons node rest =>
        rw [collect_head (by rw [List.length_cons]; omega), List.head?_map]
  · have none : self.nodesForKey digest key n = [] := by rw [nodesForKey, if_pos (.inr (by omega))]
    rw [none]
    exact ⟨by simp; omega, by simp, by simp, fun positive' => absurd positive' pos⟩

end Replicas

inductive Change where
  | addNode (name : String)
  | removeNode (name : String)

def Change.name : Change → String
  | .addNode name => name
  | .removeNode name => name

def apply (digest : Digest) (self : ConsistentHashRing) : Change → ConsistentHashRing
  | .addNode name => self.addNode digest name
  | .removeNode name => (self.removeNode digest name).1

def run (digest : Digest) (self : ConsistentHashRing) (changes : List Change) : ConsistentHashRing :=
  changes.foldl (apply digest) self

section Runs

variable {name : String} {names : List String}

@[simp] theorem addNode_virtualNodes : (self.addNode digest name).virtualNodes = self.virtualNodes := by
  rw [addNode]
  split <;> rfl

theorem addNode_nodes_subset (known : self.nodes ⊆ names) (isKnown : name ∈ names) :
    (self.addNode digest name).nodes ⊆ names := by
  rw [addNode]
  split
  · exact known
  · exact List.append_subset.mpr ⟨known, by simpa using isKnown⟩

theorem placed_run (names : List String) {changes : List Change} (placed : Placed digest self)
    (known : self.nodes ⊆ names) (named : ∀ change ∈ changes, change.name ∈ names)
    (nd : DistinctPositions digest names self.virtualNodes) :
    Placed digest (run digest self changes) ∧ (run digest self changes).nodes ⊆ names ∧
      (run digest self changes).virtualNodes = self.virtualNodes := by
  induction changes generalizing self with
  | nil => exact ⟨placed, known, rfl⟩
  | cons change changes ih =>
    have isNamed : change.name ∈ names := named change (by simp)
    have hl : ∀ other ∈ changes, other.name ∈ names := fun other mem => named other (.tail _ mem)
    cases change with
    | addNode name =>
      obtain ⟨stays, hw, eq⟩ := ih (placed_addNode placed known isNamed nd)
        (addNode_nodes_subset known isNamed) hl (by rwa [addNode_virtualNodes])
      exact ⟨stays, hw, eq.trans addNode_virtualNodes⟩
    | removeNode name =>
      obtain ⟨stays, hw, eq⟩ := ih (placed_removeNode placed name known nd)
        (by rw [removeNode_nodes]; exact fun _ mem => known (List.mem_of_mem_erase mem)) hl
        (by rwa [removeNode_virtualNodes])
      exact ⟨stays, hw, eq.trans removeNode_virtualNodes⟩

/-- The owners of keys before and after a change of one node, and the replicas of a key. -/
structure DisruptsMinimally (digest : Digest) (ring : ConsistentHashRing) (name : String) : Prop where
  add : ∀ key, (ring.addNode digest name).nodeForKey digest key = ring.nodeForKey digest key ∨
    (ring.addNode digest name).nodeForKey digest key = some name
  remove : ∀ removed key, ring.nodeForKey digest key ≠ some removed →
    (ring.removeNode digest removed).1.nodeForKey digest key = ring.nodeForKey digest key
  restore : ∀ key,
    ((ring.addNode digest name).removeNode digest name).1.nodeForKey digest key = ring.nodeForKey digest key
  sorted : ring.sortedPositions.Pairwise (· < ·)
  replicas : ∀ key count, (ring.nodesForKey digest key count).length = (min count ring.nodes.length).toNat ∧
    (ring.nodesForKey digest key count).Nodup ∧ ring.nodesForKey digest key count ⊆ ring.nodes ∧
    (0 < count → (ring.nodesForKey digest key count).head? = ring.nodeForKey digest key)

theorem maps_iff_addNode (placed : Placed digest self) (known : self.nodes ⊆ names) (isKnown : name ∈ names)
    (ha : name ∉ self.nodes) (nd : DistinctPositions digest names self.virtualNodes) (position : UInt64)
    (owner : String) : self.positions.Maps position owner ↔
      (self.addNode digest name).positions.Maps position owner ∧ owner ≠ name := by
  have added := placed_addNode placed known isKnown nd
  rw [placed.maps_iff, added.maps_iff, addNode_virtualNodes, addNode, if_neg (by simpa using ha)]
  simp only [List.mem_append, List.mem_singleton]
  constructor
  · rintro ⟨isNode, taken⟩
    exact ⟨⟨.inl isNode, taken⟩, fun eq => ha (eq ▸ isNode)⟩
  · rintro ⟨⟨isNode | eq, taken⟩, ne⟩
    · exact ⟨isNode, taken⟩
    · exact absurd eq ne

theorem run_disruptsMinimally (digest : Digest) (virtualNodes : Int) (changes : List Change) (name : String)
    (distinct : DistinctPositions digest (name :: changes.map Change.name) (withVirtualNodes virtualNodes).virtualNodes)
    (absent : name ∉ (run digest (withVirtualNodes virtualNodes) changes).nodes) :
    DisruptsMinimally digest (run digest (withVirtualNodes virtualNodes) changes) name := by
  obtain ⟨placed, known, same⟩ := placed_run (name :: changes.map Change.name)
    (placed_withVirtualNodes virtualNodes) (by simp [withVirtualNodes, new])
    (fun change mem => .tail _ (List.mem_map_of_mem mem)) distinct
  set ring := run digest (withVirtualNodes virtualNodes) changes
  rw [← same] at distinct
  have isKnown : name ∈ name :: changes.map Change.name := by simp
  have less := maps_iff_addNode placed known isKnown absent distinct
  refine ⟨fun key => ?_, fun removed key notOwned => ?_, fun key => ?_, SortedMap.keys_ascending,
    nodesForKey_replicas placed⟩
  · by_cases owned : (ring.addNode digest name).nodeForKey digest key = some name
    · exact .inr owned
    · exact .inl (nodeForKey_less less key owned).symm
  · exact nodeForKey_less (maps_removeNode placed known distinct) key notOwned
  · have restored : ((ring.addNode digest name).removeNode digest name).1.positions = ring.positions := by
      refine SortedMap.ext_maps fun position owner => ?_
      rw [less, maps_removeNode (placed_addNode placed known isKnown distinct)
        (addNode_nodes_subset known isKnown) (by rwa [addNode_virtualNodes])]
    rw [nodeForKey_eq, nodeForKey_eq, walk, walk, restored]

/-- SHA-256 of `a-0`, `b-0` and `c-0`. -/
def sampleDigest : Digest
  | [0x61, 0x2d, 0x30] =>
        #v[104, 87, 24, 23, 201, 108, 92, 131, 45, 223, 63, 78, 203, 30, 228, 58, 12, 157, 175, 184, 165,
      167, 221, 227, 121, 235, 80, 162, 148, 204, 58, 164]
  | [0x62, 0x2d, 0x30] =>
        #v[201, 77, 49, 98, 251, 221, 103, 115, 196, 144, 229, 10, 253, 129, 60, 158, 174, 6, 100, 79, 221,
      21, 140, 137, 192, 58, 52, 186, 95, 122, 172, 234]
  | [0x63, 0x2d, 0x30] =>
        #v[182, 56, 136, 182, 224, 62, 11, 107, 56, 108, 253, 127, 50, 23, 148, 227, 89, 69, 225, 163, 191,
      80, 13, 136, 187, 7, 6, 19, 218, 180, 16, 111]
  | _ => Vector.replicate 32 0

theorem run_disruptsMinimally_sample :
    DisruptsMinimally sampleDigest (run sampleDigest (withVirtualNodes 1) [.addNode "a", .addNode "b"]) "c" := by
  have distinct : DistinctPositions sampleDigest ["c", "a", "b"] 1 := by
    unfold DistinctPositions
    decide +kernel
  have absent : "c" ∉ (run sampleDigest (withVirtualNodes 1) [.addNode "a", .addNode "b"]).nodes := by
    decide +kernel
  exact run_disruptsMinimally sampleDigest 1 [.addNode "a", .addNode "b"] "c" distinct absent

end Runs

end ConsistentHashRing

end Collections
