import Verum.Collections.Memory
import Verum.Partition.Forest
import Mathlib.Data.List.AList

namespace Collections

open Finset

open Function

open Partition

section Structures

structure UnionFindInt where
  parent : List Nat
  rank : List Nat
  /-- Cached component count, updated by every successful union. -/
  components : Int
  /-- Cached size of each root's component. -/
  size : List Nat

namespace UnionFindInt

def new (n : Int) : UnionFindInt :=
  let count := if n < 0 then 0 else n.toNat
  { parent := List.range count
    rank := List.replicate count 0
    components := count
    size := List.replicate count 1 }

/-- `find` with a bound on the depth of its recursion. -/
def findWithin : Nat → UnionFindInt → Nat → Except Panic (Nat × UnionFindInt)
  | 0, _, _ => .error .diverges
  | fuel + 1, uf, x => do
    let p ← item uf.parent x
    if p = x then .ok (x, uf)
    else
      let (root, uf) ← findWithin fuel uf p
      let parent ← setItem uf.parent x root
      .ok (root, { uf with parent })

def find (uf : UnionFindInt) (x : Nat) : Except Panic (Nat × UnionFindInt) := findWithin (uf.parent.length + 1) uf x

def union (uf : UnionFindInt) (a b : Nat) : Except Panic (Bool × UnionFindInt) := do
  let (ra, uf) ← uf.find a
  let (rb, uf) ← uf.find b
  if ra = rb then .ok (false, uf)
  else
    let rankA ← item uf.rank ra
    let rankB ← item uf.rank rb
    let (big, small) := if rankA < rankB then (rb, ra) else (ra, rb)
    let parent ← setItem uf.parent small big
    let bigSize ← item uf.size big
    let smallSize ← item uf.size small
    let size ← setItem uf.size big (bigSize + smallSize)
    if rankA = rankB then
      let bigRank ← item uf.rank big
      let rank ← setItem uf.rank big (bigRank + 1)
      .ok (true, { parent, rank, components := uf.components - 1, size })
    else .ok (true, { uf with parent, components := uf.components - 1, size })

def sameSet (uf : UnionFindInt) (a b : Nat) : Except Panic (Bool × UnionFindInt) := do
  let (ra, uf) ← uf.find a
  let (rb, uf) ← uf.find b
  .ok (ra == rb, uf)

/-- Size of the component containing `x`. -/
def componentSize (uf : UnionFindInt) (x : Nat) : Except Panic (Nat × UnionFindInt) := do
  let (r, uf) ← uf.find x
  let size ← item uf.size r
  .ok (size, uf)

def componentCount (uf : UnionFindInt) : Int := uf.components

end UnionFindInt

/-- The maps are finite maps, each with the entry of a key at most once. -/
structure UnionFind (T : Type) where
  parent : AList fun _ : T => T
  rank : AList fun _ : T => Nat
  size : AList fun _ : T => Nat
  components : Int

namespace UnionFind

variable {T : Type} [DecidableEq T]

def new : UnionFind T := ⟨∅, ∅, ∅, 0⟩

/-- Ensure `x` is known to the structure. -/
def make (uf : UnionFind T) (x : T) : UnionFind T :=
  if x ∈ uf.parent then uf
  else
    { parent := uf.parent.insert x x
      rank := uf.rank.insert x 0
      size := uf.size.insert x 1
      components := uf.components + 1 }

/-- `find` with a bound on the depth of its recursion. -/
def findWithin : Nat → UnionFind T → T → Except Panic (T × UnionFind T)
  | 0, _, _ => .error .diverges
  | fuel + 1, uf, x =>
    match uf.parent.lookup x with
    | none => .ok (x, uf)
    | some p =>
      if p = x then .ok (p, uf)
      else do
        let (root, uf) ← findWithin fuel uf p
        .ok (root, { uf with parent := uf.parent.insert x root })

def find (uf : UnionFind T) (x : T) : Except Panic (T × UnionFind T) := findWithin (uf.parent.keys.length + 1) uf x

def union (uf : UnionFind T) (a b : T) : Except Panic (Bool × UnionFind T) := do
  let uf := uf.make a
  let uf := uf.make b
  let (ra, uf) ← uf.find a
  let (rb, uf) ← uf.find b
  if ra = rb then .ok (false, uf)
  else
    let rankA := (uf.rank.lookup ra).getD 0
    let rankB := (uf.rank.lookup rb).getD 0
    let (big, small) := if rankA < rankB then (rb, ra) else (ra, rb)
    let parent := uf.parent.insert small big
    let bigSize := (uf.size.lookup big).getD 1
    let smallSize := (uf.size.lookup small).getD 1
    let size := uf.size.insert big (bigSize + smallSize)
    let rank := if rankA = rankB then uf.rank.insert big ((uf.rank.lookup big).getD 0 + 1) else uf.rank
    .ok (true, { parent, rank, size, components := uf.components - 1 })

def sameSet (uf : UnionFind T) (a b : T) : Except Panic (Bool × UnionFind T) := do
  let (ra, uf) ← uf.find a
  let (rb, uf) ← uf.find b
  .ok (ra == rb, uf)

def componentSize (uf : UnionFind T) (x : T) : Except Panic (Nat × UnionFind T) := do
  let (r, uf) ← uf.find x
  .ok ((uf.size.lookup r).getD 1, uf)

def componentCount (uf : UnionFind T) : Int := uf.components

end UnionFind

end Structures

section Entries

variable {T β : Type}

theorem item_of_lt {list : List β} {i : Nat} (hin : i < list.length) (default : β) :
    item list i = .ok (list.getD i default) := by
  rw [item, List.getD_eq_getElem?_getD, List.getElem?_eq_getElem hin, Option.getD_some]

theorem setItem_of_lt {list : List β} {i : Nat} (hin : i < list.length) (v : β) :
    setItem list i v = .ok (list.set i v) := if_pos hin

theorem getD_set (list : List β) {i : Nat} (hin : i < list.length) (v : β) (default : Nat → β) :
    (fun x => (list.set i v).getD x (default x)) =
      update (fun x => list.getD x (default x)) i v := by
  funext x
  by_cases here : x = i
  · subst here
    simp [List.getD_eq_getElem?_getD, hin]
  · rw [update_of_ne here, List.getD_eq_getElem?_getD, List.getD_eq_getElem?_getD,
      List.getElem?_set_ne (Ne.symm here)]

theorem getD_range (n x : Nat) : (List.range n).getD x x = x := by
  rw [List.getD_eq_getElem?_getD]
  by_cases hin : x < n
  · rw [List.getElem?_range hin, Option.getD_some]
  · rw [List.getElem?_eq_none (by simpa using hin), Option.getD_none]

theorem getD_replicate (n : Nat) (v : β) (x : Nat) : (List.replicate n v).getD x v = v := by
  rw [List.getD_eq_getElem?_getD, List.getElem?_replicate]
  split <;> rfl

theorem lookup_insert_getD [DecidableEq T] (map : AList fun _ : T => β) (key : T) (v : β) (default : T → β) :
    (fun x => ((map.insert key v).lookup x).getD (default x)) =
      update (fun x => (map.lookup x).getD (default x)) key v := by
  funext x
  by_cases here : x = key
  · subst here
    rw [AList.lookup_insert, update_self, Option.getD_some]
  · rw [AList.lookup_insert_ne here, update_of_ne here]

end Entries

namespace UnionFindInt

variable {n : Nat} {pairs : List (Nat × Nat)} {uf uf' : UnionFindInt} {x a b r : Nat}

def parentOf (uf : UnionFindInt) (x : Nat) : Nat := uf.parent.getD x x

def rankOf (uf : UnionFindInt) (x : Nat) : Nat := uf.rank.getD x 0

def sizeOf (uf : UnionFindInt) (x : Nat) : Nat := uf.size.getD x 1

/-- The lists hold a forest of the elements below `n` for the pairs united. -/
structure Holds (n : Nat) (pairs : List (Nat × Nat)) (uf : UnionFindInt) : Prop where
  parents : uf.parent.length = n
  ranks : uf.rank.length = n
  sizes : uf.size.length = n
  tracks : Tracks uf.parentOf uf.rankOf uf.sizeOf (Finset.range n) uf.components pairs

theorem new_holds (n : Int) : Holds n.toNat [] (new n) := by
  have count : (if n < 0 then 0 else n.toNat) = n.toNat := by
    split <;> omega
  have parents : (new n).parentOf = id := by
    funext x
    exact getD_range _ x
  have ranks : (new n).rankOf = fun _ => 0 := by
    funext x
    exact getD_replicate _ 0 x
  have sizes : (new n).sizeOf = fun _ => 1 := by
    funext x
    exact getD_replicate _ 1 x
  refine ⟨by simp [new, count], by simp [new, count], by simp [new, count], ?_⟩
  rw [parents, ranks, sizes]
  have singletons := Tracks.of_singletons (Finset.range n.toNat)
  rwa [card_range, ← show (new n).components = n.toNat by simp [new, count]] at singletons

theorem findWithin_keeps (holds : Holds n pairs uf) (fuel : Nat) (inside : x < n)
    (he : above uf.rankOf (Finset.range n) x < fuel) :
    ∃ r parent, findWithin fuel uf x = .ok (r, { uf with parent }) ∧ parent.length = n ∧
      Leads uf.parentOf x r ∧
      Keeps uf.rankOf (Finset.range n) uf.parentOf (parentOf { uf with parent }) := by
  induction fuel generalizing x with
  | zero => exact absurd he (Nat.not_lt_zero _)
  | succ fuel ih =>
    have hit : item uf.parent x = .ok (uf.parentOf x) := item_of_lt (holds.parents ▸ inside) x
    rw [findWithin, hit, okBind]
    by_cases isRoot : uf.parentOf x = x
    · rw [if_pos isRoot]
      exact ⟨x, uf.parent, rfl, holds.parents, .root isRoot, .refl holds.tracks.ranked holds.tracks.closed⟩
    · have rises := above_parent_lt holds.tracks.ranked holds.tracks.closed isRoot
      have parentInside := mem_range.mp (holds.tracks.closed x isRoot).2
      obtain ⟨root, parent, call, length, leads, keeps⟩ := ih parentInside (by omega)
      have bound : x < parent.length := length ▸ inside
      have stored : parentOf { uf with parent := parent.set x root } =
          update (parentOf { uf with parent }) x root := getD_set parent bound root id
      have leadsX : Leads uf.parentOf x root := .step leads
      rw [if_neg isRoot, call, okBind]
      simp only [setItem_of_lt bound, okBind]
      refine ⟨root, parent.set x root, rfl, by rw [List.length_set, length], leadsX, ?_⟩
      rw [stored]
      apply keeps.compress leadsX _ (mem_range.mpr inside)
      intro same
      exact isRoot (same ▸ leadsX.isRoot)

theorem Holds.find_holds (holds : Holds n pairs uf) (inside : x < n) :
    ∃ r uf', uf.find x = .ok (r, uf') ∧ Holds n pairs uf' ∧ uf'.rank = uf.rank ∧
      Leads uf'.parentOf x r ∧ ∀ y s, Leads uf.parentOf y s → Leads uf'.parentOf y s := by
  have bounded : above uf.rankOf (Finset.range n) x < uf.parent.length + 1 := by
    have most : above uf.rankOf (Finset.range n) x ≤ (Finset.range n).card := card_filter_le _ _
    rw [card_range] at most
    rw [holds.parents]
    omega
  obtain ⟨r, parent, call, length, leads, keeps⟩ := findWithin_keeps holds _ inside bounded
  exact ⟨r, _, call, ⟨length, holds.ranks, holds.sizes, holds.tracks.keep keeps⟩, rfl,
    (keeps.leads x r).mpr leads, fun y s => (keeps.leads y s).mpr⟩

theorem Holds.union_holds (holds : Holds n pairs uf) (insideA : a < n) (insideB : b < n) :
    ∃ united uf', uf.union a b = .ok (united, uf') ∧ (united = true ↔ ¬ Joined pairs a b) ∧
      Holds n ((a, b) :: pairs) uf' := by
  obtain ⟨ra, uf, callA, holds, _, leadsA, _⟩ := holds.find_holds insideA
  obtain ⟨rb, uf, callB, holds, _, leadsB, keeps⟩ := holds.find_holds insideB
  replace leadsA := keeps a ra leadsA
  have closed := holds.tracks.closed
  have knownA := leadsA.inside closed (mem_range.mpr insideA)
  have knownB := leadsB.inside closed (mem_range.mpr insideB)
  have rangeA : ra < n := mem_range.mp knownA
  have rangeB : rb < n := mem_range.mp knownB
  have same := holds.tracks.same_iff leadsA leadsB
  rw [union, callA, okBind]
  simp only
  rw [callB, okBind]
  by_cases shared : ra = rb
  · rw [if_pos shared]
    have joined := same.mp shared
    exact ⟨false, uf, rfl, by simp [joined], holds.parents, holds.ranks, holds.sizes, holds.tracks.rejoin joined⟩
  · rw [if_neg shared, item_of_lt (holds.ranks ▸ rangeA) 0, okBind, item_of_lt (holds.ranks ▸ rangeB) 0, okBind]
    generalize chosen : (if uf.rank.getD ra 0 < uf.rank.getD rb 0 then (rb, ra) else (ra, rb)) = pair
    obtain ⟨big, small⟩ := pair
    have inside : big < n ∧ small < n := by
      split at chosen
      · cases chosen
        exact ⟨rangeB, rangeA⟩
      · cases chosen
        exact ⟨rangeA, rangeB⟩
    have bigSizes : big < uf.size.length := holds.sizes ▸ inside.1
    have bigRanks : big < uf.rank.length := holds.ranks ▸ inside.1
    have smallParents : small < uf.parent.length := holds.parents ▸ inside.2
    have smallSizes : small < uf.size.length := holds.sizes ▸ inside.2
    have united := holds.tracks.unite leadsA leadsB shared knownA knownB chosen.symm
    have apart : true = true ↔ ¬ Joined pairs a b := by simp [← same, shared]
    simp only [setItem_of_lt smallParents, item_of_lt bigSizes 1, item_of_lt smallSizes 1, setItem_of_lt bigSizes,
      item_of_lt bigRanks 0, setItem_of_lt bigRanks, okBind]
    have parents : parentOf { uf with parent := uf.parent.set small big } =
        update uf.parentOf small big := getD_set _ smallParents big id
    have sizes : ∀ size, sizeOf { uf with size := uf.size.set big size } = update uf.sizeOf big size :=
      fun size => getD_set _ bigSizes size fun _ => 1
    have ranks : ∀ rank, rankOf { uf with rank := uf.rank.set big rank } = update uf.rankOf big rank :=
      fun rank => getD_set _ bigRanks rank fun _ => 0
    rw [← parents, ← sizes, ← ranks] at united
    by_cases even : uf.rank.getD ra 0 = uf.rank.getD rb 0
    · rw [if_pos even]
      rw [if_pos (show uf.rankOf ra = uf.rankOf rb from even)] at united
      exact ⟨true, _, rfl, apart, by simp [holds.parents], by simp [holds.ranks], by simp [holds.sizes], united⟩
    · rw [if_neg even]
      rw [if_neg (show uf.rankOf ra ≠ uf.rankOf rb from even)] at united
      exact ⟨true, _, rfl, apart, by simp [holds.parents], holds.ranks, by simp [holds.sizes], united⟩

theorem Holds.sameSet_holds (hh : Holds n pairs uf) (insideA : a < n) (insideB : b < n) :
    ∃ eq uf', uf.sameSet a b = .ok (eq, uf') ∧ (eq = true ↔ Joined pairs a b) ∧ Holds n pairs uf' := by
  obtain ⟨ra, uf, callA, hh, _, leadsA, _⟩ := hh.find_holds insideA
  obtain ⟨rb, uf, callB, hh, _, leadsB, hk⟩ := hh.find_holds insideB
  refine ⟨ra == rb, uf, ?_, ?_, hh⟩
  · rw [sameSet, callA, okBind]
    simp only
    rw [callB, okBind]
  · rw [beq_iff_eq]
    exact hh.tracks.same_iff (hk a ra leadsA) leadsB

theorem Holds.componentSize_holds (hh : Holds n pairs uf) (hin : x < n) :
    ∃ uf', uf.componentSize x = .ok ({y | Joined pairs x y}.ncard, uf') ∧ Holds n pairs uf' := by
  obtain ⟨r, uf, call, hh, _, leads, _⟩ := hh.find_holds hin
  have root : r < uf.size.length := by
    rw [hh.sizes]
    exact mem_range.mp (leads.inside hh.tracks.closed (mem_range.mpr hin))
  refine ⟨uf, ?_, hh⟩
  rw [componentSize, call, okBind, ← hh.tracks.size_eq leads]
  simp only
  rw [item_of_lt root 1, okBind]
  rfl

end UnionFindInt

namespace UnionFind

variable {T : Type} [DecidableEq T] {pairs : List (T × T)} {uf uf' : UnionFind T} {x a b r : T}

def parentOf (uf : UnionFind T) (x : T) : T := (uf.parent.lookup x).getD x

def rankOf (uf : UnionFind T) (x : T) : Nat := (uf.rank.lookup x).getD 0

def sizeOf (uf : UnionFind T) (x : T) : Nat := (uf.size.lookup x).getD 1

def known (uf : UnionFind T) : Finset T := uf.parent.keys.toFinset

theorem mem_known : x ∈ uf.known ↔ x ∈ uf.parent := by rw [known, List.mem_toFinset, AList.mem_keys]

def Holds (pairs : List (T × T)) (uf : UnionFind T) : Prop :=
  Tracks uf.parentOf uf.rankOf uf.sizeOf uf.known uf.components pairs

theorem known_insert (uf : UnionFind T) (mem : x ∈ uf.known) (parent : T) :
    known { uf with parent := uf.parent.insert x parent } = uf.known := by
  ext y
  rw [mem_known, mem_known, AList.mem_insert]
  constructor
  · rintro (rfl | old)
    · exact mem_known.mp mem
    · exact old
  · exact .inr

theorem new_holds : Holds [] (new : UnionFind T) := by
  have none : ∀ {β : Type} (x : T), (∅ : AList fun _ : T => β).lookup x = none := fun x => AList.lookup_empty x
  have parents : (new : UnionFind T).parentOf = id := by
    funext x
    rw [parentOf, new, none]
    rfl
  have ranks : (new : UnionFind T).rankOf = fun _ => 0 := by
    funext x
    rw [rankOf, new, none]
    rfl
  have sizes : (new : UnionFind T).sizeOf = fun _ => 1 := by
    funext x
    rw [sizeOf, new, none]
    rfl
  rw [Holds, parents, ranks, sizes]
  exact Tracks.of_singletons ∅

theorem Holds.make_holds (holds : Holds pairs uf) (x : T) :
    Holds pairs (uf.make x) ∧ (uf.make x).known = insert x uf.known := by
  rw [make]
  split
  · rename_i mem
    exact ⟨holds, (insert_eq_of_mem (mem_known.mpr mem)).symm⟩
  · rename_i fresh
    have unknown : x ∉ uf.known := fun mem => fresh (mem_known.mp mem)
    have grown : known { uf with parent := uf.parent.insert x x } = insert x uf.known := by
      ext y
      rw [mem_known, AList.mem_insert, mem_insert, mem_known]
    have parents : parentOf { uf with parent := uf.parent.insert x x } = uf.parentOf := by
      have absent : (uf.parent.lookup x).getD x = x := by
        rw [AList.lookup_eq_none.mpr fresh, Option.getD_none]
      rw [show parentOf { uf with parent := uf.parent.insert x x } = update uf.parentOf x x from
        lookup_insert_getD _ x x id, update_eq_self_iff]
      exact absent.symm
    have registered := Tracks.register holds unknown
    rw [← parents, ← grown] at registered
    rw [show update uf.rankOf x 0 = rankOf { uf with rank := uf.rank.insert x 0 } from
      (lookup_insert_getD _ x 0 fun _ => 0).symm, show update uf.sizeOf x 1 =
      sizeOf { uf with size := uf.size.insert x 1 } from (lookup_insert_getD _ x 1 fun _ => 1).symm] at registered
    exact ⟨registered, grown⟩

theorem findWithin_keeps (holds : Holds pairs uf) (fuel : Nat) (he : above uf.rankOf uf.known x < fuel) :
    ∃ r parent, findWithin fuel uf x = .ok (r, { uf with parent }) ∧ known { uf with parent } = uf.known ∧
      Leads uf.parentOf x r ∧ Keeps uf.rankOf uf.known uf.parentOf (parentOf { uf with parent }) := by
  induction fuel generalizing x with
  | zero => exact absurd he (Nat.not_lt_zero _)
  | succ fuel ih =>
    have stays : Keeps uf.rankOf uf.known uf.parentOf uf.parentOf := .refl holds.ranked holds.closed
    rw [findWithin]
    cases hit : uf.parent.lookup x with
    | none =>
      have isRoot : uf.parentOf x = x := by rw [parentOf, hit, Option.getD_none]
      exact ⟨x, uf.parent, rfl, rfl, .root isRoot, stays⟩
    | some p =>
      have parent : uf.parentOf x = p := by rw [parentOf, hit, Option.getD_some]
      have inside : x ∈ uf.known := by
        rw [mem_known, ← AList.lookup_isSome, hit]
        rfl
      by_cases isRoot : p = x
      · simp only [if_pos isRoot]
        subst isRoot
        exact ⟨p, uf.parent, rfl, rfl, .root parent, stays⟩
      · have rises := above_parent_lt holds.ranked holds.closed (parent ▸ isRoot)
        rw [parent] at rises
        obtain ⟨root, map, call, knows, leads, keeps⟩ := ih (by omega : above uf.rankOf uf.known p < fuel)
        have leadsX : Leads uf.parentOf x root := .step (parent.symm ▸ leads)
        have stored : parentOf { uf with parent := map.insert x root } =
            update (parentOf { uf with parent := map }) x root := lookup_insert_getD map x root id
        simp only [if_neg isRoot, call, okBind]
        refine ⟨root, map.insert x root, rfl, ?_, leadsX, ?_⟩
        · rw [← knows]
          exact known_insert { uf with parent := map } (knows.symm ▸ inside) root
        · rw [stored]
          apply keeps.compress leadsX _ inside
          intro same
          have isRoot' := leadsX.isRoot
          rw [← same, parent] at isRoot'
          exact isRoot isRoot'

theorem Holds.find_holds (holds : Holds pairs uf) (x : T) :
    ∃ r uf', uf.find x = .ok (r, uf') ∧ Holds pairs uf' ∧ uf'.known = uf.known ∧ Leads uf'.parentOf x r ∧
      ∀ y s, Leads uf.parentOf y s → Leads uf'.parentOf y s := by
  have bounded : above uf.rankOf uf.known x < uf.parent.keys.length + 1 := by
    have most : above uf.rankOf uf.known x ≤ uf.known.card := card_filter_le _ _
    have keys : uf.known.card ≤ uf.parent.keys.length := List.toFinset_card_le _
    omega
  obtain ⟨r, parent, call, knows, leads, keeps⟩ := findWithin_keeps holds _ bounded
  have tracks := Tracks.keep holds keeps
  rw [← knows] at tracks
  exact ⟨r, _, call, tracks, knows, (keeps.leads x r).mpr leads, fun y s => (keeps.leads y s).mpr⟩

theorem Holds.union_holds (holds : Holds pairs uf) (a b : T) :
    ∃ united uf', uf.union a b = .ok (united, uf') ∧ (united = true ↔ ¬ Joined pairs a b) ∧
      Holds ((a, b) :: pairs) uf' ∧ uf'.known = insert b (insert a uf.known) := by
  obtain ⟨holds, knownA⟩ := holds.make_holds a
  obtain ⟨holds, knownB⟩ := holds.make_holds b
  rw [knownA] at knownB
  have insideA : a ∈ ((uf.make a).make b).known := by
    rw [knownB]
    exact mem_insert_of_mem (mem_insert_self _ _)
  have insideB : b ∈ ((uf.make a).make b).known := by
    rw [knownB]
    exact mem_insert_self _ _
  rw [union]
  simp only
  generalize (uf.make a).make b = registered at holds knownB insideA insideB ⊢
  obtain ⟨ra, hit, callA, holds, known₁, leadsA, _⟩ := holds.find_holds a
  obtain ⟨rb, found', callB, holds, known₂, leadsB, keeps⟩ := holds.find_holds b
  replace leadsA := keeps a ra leadsA
  have knows : found'.known = registered.known := known₂.trans known₁
  have knownRA := leadsA.inside holds.closed (knows.symm ▸ insideA)
  have knownRB := leadsB.inside holds.closed (knows.symm ▸ insideB)
  have same := holds.same_iff leadsA leadsB
  rw [callA, okBind]
  simp only
  rw [callB, okBind]
  rw [← knows] at knownB
  by_cases shared : ra = rb
  · rw [if_pos shared]
    have joined := same.mp shared
    exact ⟨false, found', rfl, by simp [joined], holds.rejoin joined, knownB⟩
  · rw [if_neg shared]
    generalize chosen : (if (found'.rank.lookup ra).getD 0 < (found'.rank.lookup rb).getD 0
      then (rb, ra) else (ra, rb)) = pair
    obtain ⟨big, small⟩ := pair
    have insideSmall : small ∈ found'.known := by
      split at chosen
      · cases chosen
        exact knownRA
      · cases chosen
        exact knownRB
    have united := Tracks.unite holds leadsA leadsB shared knownRA knownRB chosen.symm
    have apart : true = true ↔ ¬ Joined pairs a b := by simp [← same, shared]
    have parents : parentOf { found' with parent := found'.parent.insert small big } =
        update found'.parentOf small big := lookup_insert_getD _ small big id
    have sizes : ∀ size, sizeOf { found' with size := found'.size.insert big size } =
        update found'.sizeOf big size := fun size => lookup_insert_getD _ big size fun _ => 1
    have ranks : ∀ rank, rankOf { found' with rank := found'.rank.insert big rank } =
        update found'.rankOf big rank := fun rank => lookup_insert_getD _ big rank fun _ => 0
    have knows := known_insert found' insideSmall big
    rw [← parents, ← sizes, ← ranks, ← knows] at united
    refine ⟨true, _, rfl, apart, ?_, knows.trans knownB⟩
    by_cases even : found'.rankOf ra = found'.rankOf rb
    · rw [if_pos even] at united
      rw [if_pos (show (found'.rank.lookup ra).getD 0 = (found'.rank.lookup rb).getD 0 from even)]
      exact united
    · rw [if_neg even] at united
      rw [if_neg (show (found'.rank.lookup ra).getD 0 ≠ (found'.rank.lookup rb).getD 0 from even)]
      exact united

theorem Holds.sameSet_holds (hh : Holds pairs uf) (a b : T) :
    ∃ eq uf', uf.sameSet a b = .ok (eq, uf') ∧ (eq = true ↔ Joined pairs a b) ∧ Holds pairs uf' ∧
      uf'.known = uf.known := by
  obtain ⟨ra, hit, callA, hh, known₁, leadsA, _⟩ := hh.find_holds a
  obtain ⟨rb, found', callB, hh, known₂, leadsB, hk⟩ := hh.find_holds b
  refine ⟨ra == rb, found', ?_, ?_, hh, known₂.trans known₁⟩
  · rw [sameSet, callA, okBind]
    simp only
    rw [callB, okBind]
  · rw [beq_iff_eq]
    exact hh.same_iff (hk a ra leadsA) leadsB

theorem Holds.componentSize_holds (hh : Holds pairs uf) (x : T) :
    ∃ uf', uf.componentSize x = .ok ({y | Joined pairs x y}.ncard, uf') ∧ Holds pairs uf' ∧
      uf'.known = uf.known := by
  obtain ⟨r, hit, call, hh, knows, leads, _⟩ := hh.find_holds x
  refine ⟨hit, ?_, hh, knows⟩
  rw [componentSize, call, okBind, ← hh.size_eq leads]
  rfl

end UnionFind

end Collections
