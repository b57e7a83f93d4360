import Verum.Collections.Memory
import Mathlib.Data.Set.Card

open List

namespace Collections

open Nat

open Function

/-- The children are a finite map, given by its entries. -/
structure TrieNode (V : Type) where
  value : Option V
  children : List (UInt8 × TrieNode V)

namespace TrieNode

variable {V : Type}

def empty : TrieNode V := ⟨none, []⟩

def child (node : TrieNode V) (b : UInt8) : Option (TrieNode V) := node.children.lookup b

def setChild (node : TrieNode V) (b : UInt8) (child : TrieNode V) : TrieNode V :=
  { node with children := (b, child) :: node.children.filter fun entry => entry.1 ≠ b }

def insert (value : V) : List UInt8 → TrieNode V → Option V × TrieNode V
  | [], node => (node.value, { node with value := some value })
  | b :: key, node =>
    let (prior, child) := insert value key ((node.child b).getD empty)
    (prior, node.setChild b child)

def remove : List UInt8 → TrieNode V → Option V × TrieNode V
  | [], node => (node.value, { node with value := none })
  | b :: key, node =>
    match node.child b with
    | some child =>
      let (prior, child) := remove key child
      (prior, node.setChild b child)
    | none => (none, node)

def walkTo : List UInt8 → TrieNode V → Option (TrieNode V)
  | [], node => some node
  | b :: key, node =>
    match node.child b with
    | some child => walkTo key child
    | none => none

/-- The loop of `longest_prefix` at index `i`, with the best entry so far. -/
def longestFrom : List UInt8 → TrieNode V → Nat → Option (Nat × V) → Option (Nat × V)
  | [], _, _, best => best
  | b :: key, node, i, best =>
    match node.child b with
    | some child =>
      longestFrom key child (i + 1) (match child.value with
        | some v => some (i + 1, v)
        | none => best)
    | none => best

theorem sizeOf_child_lt {node child : TrieNode V} {b : UInt8} (hit : node.child b = some child) :
    sizeOf child < sizeOf node := by
  obtain ⟨front, back, split, _⟩ := lookup_eq_some_iff.mp hit
  have mem : (b, child) ∈ node.children := by simp [split]
  have inEntry := sizeOf_lt_of_mem mem
  rw [Prod.mk.sizeOf_spec] at inEntry
  cases node with
  | mk value kids =>
    rw [TrieNode.mk.sizeOf_spec]
    change 1 + sizeOf b + sizeOf child < sizeOf kids at inEntry
    omega

/-- The entries below a node; `keys` gives the order in which its maps hand out their keys. -/
def collectEntries (keys : List UInt8 → List UInt8) (node : TrieNode V) (base : List UInt8) : List (List UInt8 × V) :=
  (match node.value with
    | some v => [(base, v)]
    | none => []) ++
  (keys base).flatMap fun k =>
    match _ : node.child k with
    | some child => collectEntries keys child (base ++ [k])
    | none => []
termination_by sizeOf node
decreasing_by exact sizeOf_child_lt (by assumption)

end TrieNode

structure Trie (V : Type) where
  root : TrieNode V
  /-- Count of entries. -/
  size : Int

namespace Trie

variable {V : Type}

def new : Trie V := ⟨.empty, 0⟩

def insert (trie : Trie V) (key : List UInt8) (value : V) : Option V × Trie V :=
  let (prior, root) := trie.root.insert value key
  (prior, ⟨root, if prior.isNone then trie.size + 1 else trie.size⟩)

def get (trie : Trie V) (key : List UInt8) : Option V :=
  match trie.root.walkTo key with
  | some node => node.value
  | none => none

def contains (trie : Trie V) (key : List UInt8) : Bool := (trie.get key).isSome

def remove (trie : Trie V) (key : List UInt8) : Option V × Trie V :=
  let (prior, root) := trie.root.remove key
  (prior, ⟨root, if prior.isSome then trie.size - 1 else trie.size⟩)

def longestPrefix (trie : Trie V) (key : List UInt8) : Option (List UInt8 × V) :=
  let best := match trie.root.value with
    | some v => some (0, v)
    | none => none
  (trie.root.longestFrom key 0 best).map fun (len, v) => (key.take len, v)

def entriesWithPrefix (keys : List UInt8 → List UInt8) (trie : Trie V) (base : List UInt8) :
    List (List UInt8 × V) :=
  match trie.root.walkTo base with
  | some sub => sub.collectEntries keys base
  | none => []

def len (trie : Trie V) : Int := trie.size

/-- The maps of children hand out each of their keys once, in some order. -/
def Iterates (keys : List UInt8 → List UInt8) (trie : Trie V) : Prop :=
  ∀ base node, trie.root.walkTo base = some node →
    (keys base).Nodup ∧ ∀ b, b ∈ keys base ↔ (node.child b).isSome

end Trie

inductive TrieCall (V : Type) where
  | insert (key : List UInt8) (value : V)
  | remove (key : List UInt8)

namespace TrieCall

variable {V : Type}

def perform (trie : Trie V) : TrieCall V → Option V × Trie V
  | insert key value => trie.insert key value
  | remove key => trie.remove key

def run (calls : List (TrieCall V)) : Trie V := calls.foldl (fun trie call => (call.perform trie).2) .new

def model (map : List UInt8 → Option V) : TrieCall V → List UInt8 → Option V
  | insert key value => update map key (some value)
  | remove key => update map key none

def modelRun (calls : List (TrieCall V)) : List UInt8 → Option V := calls.foldl model fun _ => none

end TrieCall

namespace TrieNode

variable {V : Type} {node sub : TrieNode V} {b c : UInt8} {key other base : List UInt8} {value v : V}

def valueAt (node : TrieNode V) (key : List UInt8) : Option V := (node.walkTo key).bind TrieNode.value

@[simp] theorem valueAt_nil : node.valueAt [] = node.value := rfl

theorem valueAt_cons : node.valueAt (b :: key) = (node.child b).bind fun child => child.valueAt key := by
  rw [valueAt, walkTo]
  cases node.child b <;> rfl

theorem valueAt_empty (key : List UInt8) : (empty : TrieNode V).valueAt key = none := by
  cases key with
  | nil => rfl
  | cons b key => rw [valueAt_cons]; rfl

theorem valueAt_getD_empty : ((node.child b).getD empty).valueAt key = node.valueAt (b :: key) := by
  rw [valueAt_cons]
  cases node.child b with
  | none => exact valueAt_empty key
  | some child => rfl

theorem walkTo_append : node.walkTo (key ++ other) = (node.walkTo key).bind (walkTo other) := by
  induction key generalizing node with
  | nil => rfl
  | cons b key ih =>
    rw [cons_append, walkTo, walkTo]
    cases node.child b with
    | none => rfl
    | some child => exact ih

theorem valueAt_append : node.valueAt (key ++ other) = (node.walkTo key).bind fun sub => sub.valueAt other := by
  rw [valueAt, walkTo_append, Option.bind_assoc]
  rfl

@[simp] theorem value_setChild : (node.setChild b sub).value = node.value := rfl

theorem child_setChild : (node.setChild b sub).child c = if c = b then some sub else node.child c := by
  rw [child, setChild, lookup_cons]
  split
  · rename_i eq
    rw [if_pos (beq_iff_eq.mp eq)]
  · rename_i different
    have ne : c ≠ b := ne_of_beq_false different
    rw [lookup_filter_ne, if_neg ne, if_neg ne, child]

theorem valueAt_setChild : (node.setChild b sub).valueAt (c :: key) =
    if c = b then sub.valueAt key else node.valueAt (c :: key) := by
  rw [valueAt_cons, child_setChild]
  split
  · rfl
  · exact valueAt_cons.symm

theorem insert_spec (node : TrieNode V) (key : List UInt8) (value : V) : (node.insert value key).1 = node.valueAt key ∧
    (node.insert value key).2.valueAt = update node.valueAt key (some value) := by
  induction key generalizing node with
  | nil =>
    refine ⟨rfl, ?_⟩
    funext other
    cases other with
    | nil => rfl
    | cons c other =>
      rw [update_of_ne (cons_ne_nil c other), valueAt_cons, valueAt_cons]
      rfl
  | cons b key ih =>
    obtain ⟨prior, hlt⟩ := ih ((node.child b).getD empty)
    refine ⟨prior.trans valueAt_getD_empty, ?_⟩
    funext other
    change (node.setChild b _).valueAt other = _
    cases other with
    | nil => rw [update_of_ne (cons_ne_nil b key).symm]; rfl
    | cons c other =>
      rw [valueAt_setChild, hlt]
      by_cases eq : c = b
      · subst eq
        rw [if_pos rfl]
        by_cases here : other = key
        · rw [here, update_self, update_self]
        · rw [update_of_ne here, update_of_ne (by simpa using here), valueAt_getD_empty]
      · rw [if_neg eq, update_of_ne (by simp [eq])]

theorem remove_spec (node : TrieNode V) (key : List UInt8) : (node.remove key).1 = node.valueAt key ∧
    (node.remove key).2.valueAt = update node.valueAt key none := by
  induction key generalizing node with
  | nil =>
    refine ⟨rfl, ?_⟩
    funext other
    cases other with
    | nil => rfl
    | cons c other =>
      rw [update_of_ne (cons_ne_nil c other), valueAt_cons, valueAt_cons]
      rfl
  | cons b key ih =>
    rw [TrieNode.remove]
    cases hit : node.child b with
    | none =>
      have ha : node.valueAt (b :: key) = none := by rw [valueAt_cons, hit]; rfl
      exact ⟨ha.symm, (update_eq_self_iff.mpr ha.symm).symm⟩
    | some sub =>
      obtain ⟨prior, hlt⟩ := ih sub
      have through : ∀ other, node.valueAt (b :: other) = sub.valueAt other := by
        intro other
        rw [valueAt_cons, hit]
        rfl
      refine ⟨prior.trans (through key).symm, ?_⟩
      funext other
      change (node.setChild b _).valueAt other = _
      cases other with
      | nil => rw [update_of_ne (cons_ne_nil b key).symm]; rfl
      | cons c other =>
        rw [valueAt_setChild, hlt]
        by_cases eq : c = b
        · subst eq
          rw [if_pos rfl]
          by_cases here : other = key
          · rw [here, update_self, update_self]
          · rw [update_of_ne here, update_of_ne (by simpa using here), through]
        · rw [if_neg eq, update_of_ne (by simp [eq])]

theorem longestFrom_spec (node : TrieNode V) (key : List UInt8) (i : Nat) (best : Option (Nat × V)) :
    (∃ j v, 0 < j ∧ j ≤ key.length ∧ node.valueAt (key.take j) = some v ∧
      (∀ k, j < k → k ≤ key.length → node.valueAt (key.take k) = none) ∧
      node.longestFrom key i best = some (i + j, v)) ∨
    ((∀ k, 0 < k → k ≤ key.length → node.valueAt (key.take k) = none) ∧ node.longestFrom key i best = best) := by
  induction key generalizing node i best with
  | nil => exact .inr ⟨fun k pos hb => absurd pos (by simpa using hb), rfl⟩
  | cons b key ih =>
    rw [longestFrom]
    cases hit : node.child b with
    | none =>
      refine .inr ⟨?_, rfl⟩
      intro k pos _
      obtain ⟨k, rfl⟩ := exists_eq_succ_of_ne_zero pos.ne'
      rw [take_succ_cons, valueAt_cons, hit]
      rfl
    | some sub =>
      have through : ∀ k, node.valueAt ((b :: key).take (k + 1)) = sub.valueAt (key.take k) := by
        intro k
        rw [take_succ_cons, valueAt_cons, hit]
        rfl
      have hl : ∀ j, (∀ k, j < k → k ≤ key.length → sub.valueAt (key.take k) = none) →
          ∀ k, j + 1 < k → k ≤ (b :: key).length → node.valueAt ((b :: key).take k) = none := by
        intro j empty k above hb
        obtain ⟨k, rfl⟩ := exists_eq_succ_of_ne_zero (ne_zero_of_lt above)
        rw [through]
        exact empty k (lt_of_succ_lt_succ above) (le_of_succ_le_succ hb)
      rcases ih sub (i + 1) (match sub.value with | some v => some (i + 1, v) | none => best) with
        ⟨j, v, pos, hb, hit, empty, res⟩ | ⟨empty, res⟩
      · refine .inl ⟨j + 1, v, succ_pos j, succ_le_succ hb, (through j).trans hit, hl j empty, ?_⟩
        simp only [res]
        rw [add_assoc, add_comm 1 j]
      · simp only [res]
        cases value : sub.value with
        | some v =>
          exact .inl ⟨1, v, one_pos, succ_le_succ (zero_le _), (through 0).trans value, hl 0 empty, rfl⟩
        | none =>
          refine .inr ⟨?_, rfl⟩
          intro k pos hb
          rcases lt_or_eq_of_le (succ_le_of_lt pos) with above | rfl
          · exact hl 0 empty k above hb
          · exact (through 0).trans value

theorem collectEntries_eq (keys : List UInt8 → List UInt8) (node : TrieNode V) (base : List UInt8) :
    node.collectEntries keys base = (node.value.toList.map fun v => (base, v)) ++
      (keys base).flatMap fun k => (node.child k).elim [] fun child => child.collectEntries keys (base ++ [k]) := by
  rw [collectEntries]
  congr 1
  · cases node.value <;> rfl
  · congr 1
    funext k
    cases node.child k <;> rfl

section Collecting

variable {trie : Trie V} {keys : List UInt8 → List UInt8}

theorem collectEntries_spec (iterates : trie.Iterates keys) (hit : trie.root.walkTo base = some node) :
    (∀ key v, (key, v) ∈ node.collectEntries keys base ↔ base <+: key ∧ trie.root.valueAt key = some v) ∧
      ((node.collectEntries keys base).map Prod.fst).Nodup := by
  induction measured : sizeOf node using Nat.strong_induction_on generalizing node base with
  | _ size ih =>
    obtain ⟨keysNodup, mem_keys⟩ := iterates base node hit
    have hlt : ∀ suffix, trie.root.valueAt (base ++ suffix) = node.valueAt suffix := by
      intro suffix
      rw [valueAt_append, hit]
      rfl
    have kids : ∀ {k child}, node.child k = some child →
        (∀ key v, (key, v) ∈ child.collectEntries keys (base ++ [k]) ↔
          base ++ [k] <+: key ∧ trie.root.valueAt key = some v) ∧
        ((child.collectEntries keys (base ++ [k])).map Prod.fst).Nodup := by
      intro k child isChild
      apply ih (sizeOf child) (measured ▸ sizeOf_child_lt isChild) _ rfl
      rw [walkTo_append, hit]
      simp [walkTo, isChild]
    constructor
    · intro key v
      rw [collectEntries_eq, mem_append, mem_map, mem_flatMap]
      constructor
      · rintro (⟨value, mem, eq⟩ | ⟨k, _, mem⟩)
        · cases eq
          refine ⟨prefix_refl _, ?_⟩
          have here := hlt []
          rw [append_nil] at here
          rw [here]
          exact Option.mem_toList.mp mem
        · cases isChild : node.child k with
          | none => simp [isChild] at mem
          | some child =>
            rw [isChild] at mem
            obtain ⟨longer, value⟩ := ((kids isChild).1 key v).mp mem
            exact ⟨(prefix_append base [k]).trans longer, value⟩
      · rintro ⟨⟨suffix, rfl⟩, value⟩
        rw [hlt] at value
        cases suffix with
        | nil =>
          refine .inl ⟨v, ?_, by rw [append_nil]⟩
          rw [Option.mem_toList]
          exact value
        | cons k suffix =>
          rw [valueAt_cons] at value
          cases isChild : node.child k with
          | none => simp [isChild] at value
          | some child =>
            refine .inr ⟨k, (mem_keys k).mpr (isChild ▸ rfl), ?_⟩
            have split : base ++ k :: suffix = base ++ [k] ++ suffix := by simp
            have rooted := hlt (k :: suffix)
            rw [valueAt_cons] at rooted
            rw [isChild]
            exact ((kids isChild).1 _ v).mpr ⟨split ▸ prefix_append _ _, rooted.trans value⟩
    · have ne : ∀ k key, key ∈ (((node.child k).elim [] fun child =>
          child.collectEntries keys (base ++ [k])).map Prod.fst) → base ++ [k] <+: key := by
        intro k key mem
        obtain ⟨⟨key, v⟩, hin, rfl⟩ := mem_map.mp mem
        cases isChild : node.child k with
        | none => simp [isChild] at hin
        | some child =>
          rw [isChild] at hin
          exact (((kids isChild).1 key v).mp hin).1
      rw [collectEntries_eq, map_append, map_flatMap, nodup_append]
      refine ⟨?_, ?_, ?_⟩
      · cases node.value <;> simp
      · rw [nodup_flatMap]
        constructor
        · intro k _
          cases isChild : node.child k with
          | none => exact nodup_nil
          | some child => exact (kids isChild).2
        · apply keysNodup.imp
          intro first snd different key inFirst inSecond
          obtain ⟨restFirst, rfl⟩ := ne first key inFirst
          obtain ⟨restSecond, eq⟩ := ne snd _ inSecond
          simp at eq
          exact different eq.1.symm
      · intro key here other hin eq
        subst eq
        obtain ⟨_, rfl⟩ : ¬ node.value = none ∧ key = base := by simpa using here
        obtain ⟨k, _, hin⟩ := mem_flatMap.mp hin
        have longer := (ne k key hin).length_le
        rw [length_append, length_singleton] at longer
        omega

end Collecting

end TrieNode

section Refinement

variable {V : Type} {trie : Trie V} {map : List UInt8 → Option V}

/-- The trie holds the map, and counts its keys. -/
structure Trie.Represents (trie : Trie V) (map : List UInt8 → Option V) : Prop where
  values : trie.root.valueAt = map
  finite : {key | (map key).isSome}.Finite
  size : trie.size = {key | (map key).isSome}.ncard

namespace Trie.Represents

theorem new : Represents (Trie.new : Trie V) fun _ => none where
  values := by
    funext key
    exact TrieNode.valueAt_empty key
  finite := by simp
  size := by simp [Trie.new]

theorem get (rep : Represents trie map) (key : List UInt8) : trie.get key = map key := by
  rw [← rep.values, Trie.get, TrieNode.valueAt]
  cases trie.root.walkTo key <;> rfl

theorem insert (rep : Represents trie map) (key : List UInt8) (value : V) :
    (trie.insert key value).1 = map key ∧
      Represents (trie.insert key value).2 (update map key (some value)) := by
  obtain ⟨prior, vs⟩ := trie.root.insert_spec key value
  rw [rep.values] at prior vs
  have support : {other | (update map key (some value) other).isSome} =
      Insert.insert key {other | (map other).isSome} := by
    ext other
    by_cases eq : other = key
    · simp [eq]
    · simp [eq]
  refine ⟨prior, vs, support ▸ rep.finite.insert key, ?_⟩
  rw [support]
  change (if (trie.root.insert value key).1.isNone then trie.size + 1 else trie.size) = _
  rw [prior, rep.size]
  cases hit : map key with
  | none =>
    have hf : key ∉ {other | (map other).isSome} := by simp [hit]
    rw [Set.ncard_insert_of_notMem hf rep.finite]
    rfl
  | some old =>
    have mem : key ∈ {other | (map other).isSome} := by simp [hit]
    rw [Set.insert_eq_of_mem mem]
    rfl

theorem remove (rep : Represents trie map) (key : List UInt8) :
    (trie.remove key).1 = map key ∧ Represents (trie.remove key).2 (update map key none) := by
  obtain ⟨prior, vs⟩ := trie.root.remove_spec key
  rw [rep.values] at prior vs
  have support : {other | (update map key none other).isSome} = {other | (map other).isSome} \ {key} := by
    ext other
    by_cases eq : other = key
    · simp [eq]
    · simp [eq]
  refine ⟨prior, vs, support ▸ rep.finite.sdiff, ?_⟩
  rw [support]
  change (if (trie.root.remove key).1.isSome then trie.size - 1 else trie.size) = _
  rw [prior, rep.size]
  cases hit : map key with
  | none =>
    have ha : key ∉ {other | (map other).isSome} := by simp [hit]
    rw [Set.sdiff_singleton_eq_self ha]
    rfl
  | some old =>
    have mem : key ∈ {other | (map other).isSome} := by simp [hit]
    have pos := (Set.ncard_pos rep.finite).mpr ⟨key, mem⟩
    rw [Set.ncard_sdiff_singleton_of_mem mem]
    simp only [Option.isSome_some, if_true]
    omega

theorem perform (rep : Represents trie map) (call : TrieCall V) :
    Represents (call.perform trie).2 (call.model map) := by
  cases call with
  | insert key value => exact (rep.insert key value).2
  | remove key => exact (rep.remove key).2

theorem run (calls : List (TrieCall V)) : Represents (TrieCall.run calls) (TrieCall.modelRun calls) := by
  induction calls using List.reverseRecOn with
  | nil => exact new
  | append_singleton calls call ih =>
    rw [TrieCall.run, TrieCall.modelRun, foldl_append, foldl_append]
    exact ih.perform call

theorem longestPrefix_cases (rep : Represents trie map) (s : List UInt8) :
    (∃ j v, j ≤ s.length ∧ map (s.take j) = some v ∧ (∀ k, j < k → k ≤ s.length → map (s.take k) = none) ∧
      trie.longestPrefix s = some (s.take j, v)) ∨
    (∀ k, k ≤ s.length → map (s.take k) = none) ∧ trie.longestPrefix s = none := by
  rw [← rep.values, Trie.longestPrefix]
  have atRoot : trie.root.valueAt (s.take 0) = trie.root.value := by rw [take_zero, TrieNode.valueAt_nil]
  rcases trie.root.longestFrom_spec s 0 (match trie.root.value with | some v => some (0, v) | none => none) with
    ⟨j, v, _, hb, hit, hl, res⟩ | ⟨hl, res⟩
  · refine .inl ⟨j, v, hb, hit, hl, ?_⟩
    simp only [res, Option.map_some, zero_add]
  · simp only [res]
    cases value : trie.root.value with
    | some v => exact .inl ⟨0, v, zero_le _, atRoot.trans value, hl, rfl⟩
    | none =>
      refine .inr ⟨?_, rfl⟩
      intro k hb
      rcases Nat.eq_zero_or_pos k with rfl | pos
      · exact atRoot.trans value
      · exact hl k pos hb

theorem longestPrefix (rep : Represents trie map) (s : List UInt8) :
    (∀ key v, trie.longestPrefix s = some (key, v) ↔
      key <+: s ∧ map key = some v ∧ ∀ other, other <+: s → (map other).isSome → other.length ≤ key.length) ∧
    (trie.longestPrefix s = none ↔ ∀ key, key <+: s → map key = none) := by
  have taken : ∀ key, key <+: s → key = s.take key.length ∧ key.length ≤ s.length := fun key begins =>
    ⟨prefix_iff_eq_take.mp begins, begins.length_le⟩
  rcases rep.longestPrefix_cases s with ⟨j, v, hb, hit, hl, res⟩ | ⟨ha, res⟩
  · have length : (s.take j).length = j := length_take_of_le hb
    have longest : ∀ other, other <+: s → (map other).isSome → other.length ≤ j := by
      intro other begins stored
      obtain ⟨eq, hw⟩ := taken other begins
      by_contra longer
      rw [eq, hl _ (Nat.lt_of_not_le longer) hw] at stored
      exact Bool.false_ne_true stored
    constructor
    · intro key w
      rw [res]
      constructor
      · intro eq
        cases eq
        exact ⟨List.take_prefix j s, hit, length.symm ▸ longest⟩
      · rintro ⟨begins, stored, most⟩
        have least := longest key begins (stored ▸ rfl)
        have atLeast := most _ (List.take_prefix j s) (hit ▸ rfl)
        rw [length] at atLeast
        have eq := (taken key begins).1
        rw [le_antisymm least atLeast] at eq
        rw [eq, hit] at stored
        rw [eq, Option.some.inj stored]
    · rw [res]
      constructor
      · intro absurd
        cases absurd
      · intro none
        rw [none _ (List.take_prefix j s)] at hit
        cases hit
  · constructor
    · intro key w
      rw [res]
      constructor
      · intro absurd
        cases absurd
      · rintro ⟨begins, stored, _⟩
        obtain ⟨eq, hw⟩ := taken key begins
        rw [eq, ha _ hw] at stored
        cases stored
    · refine ⟨fun _ key begins => ?_, fun _ => res⟩
      obtain ⟨eq, hw⟩ := taken key begins
      rw [eq]
      exact ha _ hw

theorem entriesWithPrefix {keys : List UInt8 → List UInt8} (rep : Represents trie map)
    (iterates : trie.Iterates keys) (base : List UInt8) :
    (∀ key v, (key, v) ∈ trie.entriesWithPrefix keys base ↔ base <+: key ∧ map key = some v) ∧
      ((trie.entriesWithPrefix keys base).map Prod.fst).Nodup := by
  rw [Trie.entriesWithPrefix, ← rep.values]
  cases hit : trie.root.walkTo base with
  | some sub => exact TrieNode.collectEntries_spec iterates hit
  | none =>
    refine ⟨?_, nodup_nil⟩
    intro key v
    constructor
    · intro mem
      cases mem
    · rintro ⟨⟨suffix, rfl⟩, stored⟩
      rw [TrieNode.valueAt_append, hit] at stored
      cases stored

end Trie.Represents

/-- The trie is a finite map from byte strings, over every run. -/
theorem trie_refines_map (calls : List (TrieCall V)) :
    let trie := TrieCall.run calls
    let map := TrieCall.modelRun calls
    (∀ key, trie.get key = map key ∧ trie.contains key = (map key).isSome) ∧
      {key | (map key).isSome}.Finite ∧ trie.len = {key | (map key).isSome}.ncard ∧
      (∀ key value, (trie.insert key value).1 = map key ∧ (trie.remove key).1 = map key) ∧
      (∀ s, (∀ key v, trie.longestPrefix s = some (key, v) ↔
          key <+: s ∧ map key = some v ∧ ∀ other, other <+: s → (map other).isSome → other.length ≤ key.length) ∧
        (trie.longestPrefix s = none ↔ ∀ key, key <+: s → map key = none)) ∧
      ∀ keys, trie.Iterates keys → ∀ base,
        (∀ key v, (key, v) ∈ trie.entriesWithPrefix keys base ↔ base <+: key ∧ map key = some v) ∧
          ((trie.entriesWithPrefix keys base).map Prod.fst).Nodup := by
  intro trie map
  have represents : trie.Represents map := Trie.Represents.run calls
  refine ⟨?_, represents.finite, represents.size, ?_, represents.longestPrefix, ?_⟩
  · intro key
    rw [Trie.contains, represents.get]
    exact ⟨rfl, rfl⟩
  · intro key value
    exact ⟨(represents.insert key value).1, (represents.remove key).1⟩
  · intro keys iterates base
    exact represents.entriesWithPrefix iterates base

theorem trie_refines_map_single :
    let trie := TrieCall.run [.insert [1] "a"]
    let keys := fun base : List UInt8 => if base = [] then [1] else []
    trie.Iterates keys ∧ ∀ key v, (key, v) ∈ trie.entriesWithPrefix keys [] ↔
      [] <+: key ∧ TrieCall.modelRun [.insert [1] "a"] key = some v := by
  intro trie keys
  have child : ∀ b, trie.root.child b = if b = 1 then some ⟨some "a", []⟩ else none := by
    intro b
    change List.lookup b [(1, _)] = _
    rw [lookup_cons]
    split
    · rename_i same
      rw [if_pos (beq_iff_eq.mp same)]
      rfl
    · rename_i different
      rw [if_neg (ne_of_beq_false different)]
      rfl
  have iterates : trie.Iterates keys := by
    intro base node found
    cases base with
    | nil =>
      cases found
      refine ⟨nodup_singleton _, ?_⟩
      intro b
      rw [child]
      by_cases one : b = 1 <;> simp [keys, one]
    | cons c base =>
      refine ⟨nodup_nil, ?_⟩
      intro b
      rw [TrieNode.walkTo, child] at found
      by_cases one : c = 1
      · rw [if_pos one] at found
        cases base with
        | nil =>
          cases found
          simp [keys, TrieNode.child]
        | cons d base => cases found
      · rw [if_neg one] at found
        cases found
  exact ⟨iterates, ((trie_refines_map _).2.2.2.2.2 _ iterates []).1⟩

example : (TrieCall.run [.insert [1, 2] "a", .insert [1] "b", .remove [1, 2]]).longestPrefix [1, 2, 3] =
    some ([1], "b") := by decide

end Refinement

end Collections
