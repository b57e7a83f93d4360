import Verum.Collections.Map
import Mathlib.Data.List.Perm.Basic
import Mathlib.Data.Nat.Bitwise
import Mathlib.Data.Nat.ModEq

open List

namespace Collections

open Function

theorem filterMap_range_perm {α : Type} (f : Nat → Option α) {i n : Nat} (hr : i < n) :
    ((List.range n).filterMap f).Perm ((f i).toList ++ (List.range n).filterMap (update f i none)) := by
  induction n with
  | zero => omega
  | succ n ih =>
    rw [range_succ, filterMap_append, filterMap_append]
    by_cases last : i = n
    · subst last
      have pre : (List.range i).filterMap (update f i none) = (List.range i).filterMap f := by
        refine filterMap_congr fun j hlt => ?_
        rw [update_of_ne (Nat.ne_of_lt (mem_range.mp hlt))]
      rw [pre]
      cases hit : f i with
      | none | some v => simp [hit]
    · have kept : update f i none n = f n := update_of_ne (Ne.symm last) ..
      have single : List.filterMap (update f i none) [n] = List.filterMap f [n] := by
        simp only [filterMap_cons, filterMap_nil, kept]
      rw [single, ← append_assoc]
      exact (ih (by omega)).append_right _

namespace Map

variable {K V : Type} {map : Map K V}

section Places

def place (map : Map K V) (hash : Int) (distance : Nat) : Nat := (map.index hash + distance) % map.cap

def live (slot : Slot K V) : Option (K × V) := if 0 < slot.hash then slot.contents else none

def contents (map : Map K V) : List (K × V) := (List.range map.cap).filterMap fun i => live (map.entries i)

/-- The places of the slots with a hash, which are the empty slots for 0. -/
def marked (map : Map K V) (hash : Int) : List Nat :=
  (List.range map.cap).filterMap fun i => if (map.entries i).hash = hash then some i else none

def put (map : Map K V) (i : Nat) (slot : Slot K V) : Map K V :=
  { map with entries := update map.entries i slot }
variable {i : Nat} {slot : Slot K V} {hash : Int}

@[simp] theorem put_cap : (map.put i slot).cap = map.cap := rfl

@[simp] theorem put_place : (map.put i slot).place = map.place := rfl

@[simp] theorem put_self : (map.put i slot).entries i = slot := update_self ..

theorem put_of_ne {j : Nat} (ne : j ≠ i) : (map.put i slot).entries j = map.entries j :=
  update_of_ne ne ..

theorem contents_put (hr : i < map.cap) (slot : Slot K V) :
    ∃ rest, map.contents.Perm ((live (map.entries i)).toList ++ rest) ∧
      (map.put i slot).contents.Perm ((live slot).toList ++ rest) := by
  refine ⟨_, filterMap_range_perm _ hr, ?_⟩
  have after := filterMap_range_perm (fun j => live ((map.put i slot).entries j)) hr
  have eq : update (fun j => live ((map.put i slot).entries j)) i none =
      update (fun j => live (map.entries j)) i none := by
    funext j
    by_cases isI : j = i
    · simp [isI]
    · simp [update_of_ne isI, put_of_ne isI]
  rw [put_self, eq] at after
  exact after

theorem marked_put (hr : i < map.cap) (slot : Slot K V) (hash : Int) :
    ((map.put i slot).marked hash).length + (if (map.entries i).hash = hash then 1 else 0) =
      (map.marked hash).length + if slot.hash = hash then 1 else 0 := by
  have pre := (filterMap_range_perm
    (fun j => if (map.entries j).hash = hash then some j else none) hr).length_eq
  have after := (filterMap_range_perm
    (fun j => if ((map.put i slot).entries j).hash = hash then some j else none) hr).length_eq
  have eq : update (fun j => if ((map.put i slot).entries j).hash = hash then some j else none) i none =
      update (fun j => if (map.entries j).hash = hash then some j else none) i none := by
    funext j
    by_cases isI : j = i
    · simp [isI]
    · simp [update_of_ne isI, put_of_ne isI]
  rw [put_self, eq, length_append] at after
  rw [length_append] at pre
  change ((map.put i slot).marked hash).length = _ at after
  change (map.marked hash).length = _ at pre
  rw [pre, after]
  split <;> split <;> simp <;> omega

theorem mem_contents {e : K × V} :
    e ∈ map.contents ↔ ∃ i < map.cap, 0 < (map.entries i).hash ∧ (map.entries i).contents = some e := by
  simp only [contents, mem_filterMap, mem_range, live]
  constructor
  · rintro ⟨i, hr, isLive⟩
    split at isLive
    · exact ⟨i, hr, by assumption, isLive⟩
    · cases isLive
  · rintro ⟨i, hr, occupied, ie⟩
    exact ⟨i, hr, by rw [if_pos occupied, ie]⟩

theorem mem_marked : i ∈ map.marked hash ↔ i < map.cap ∧ (map.entries i).hash = hash := by
  simp only [marked, mem_filterMap, mem_range, Option.ite_none_right_eq_some, Option.some_inj]
  constructor
  · rintro ⟨j, hr, isHash, rfl⟩
    exact ⟨hr, isHash⟩
  · rintro ⟨hr, isHash⟩
    exact ⟨i, hr, isHash, rfl⟩

theorem exists_marked (some : 0 < (map.marked hash).length) : ∃ i < map.cap, (map.entries i).hash = hash := by
  obtain ⟨i, mem⟩ := exists_mem_of_length_pos some
  exact ⟨i, mem_marked.mp mem⟩

theorem contents_length
    (kinds : ∀ i < map.cap, (map.entries i).hash = 0 ∨ (map.entries i).hash = tombstone ∨
      (live (map.entries i)).isSome) :
    map.contents.length + (map.marked 0).length + (map.marked tombstone).length = map.cap := by
  rw [contents, marked, marked]
  generalize map.cap = n at kinds
  induction n with
  | zero => rfl
  | succ n ih =>
    have pre := ih fun i hlt => kinds i (by omega)
    simp only [range_succ, filterMap_append, length_append, filterMap_cons, filterMap_nil]
    rcases kinds n (Nat.lt_succ_self n) with empty | deleted | isLive
    · have notDeleted : (map.entries n).hash ≠ tombstone := by rw [empty]; decide
      have noEntry : live (map.entries n) = none := if_neg (by omega)
      simp only [noEntry, if_pos empty, if_neg notDeleted, length_cons, length_nil]
      omega
    · have notEmpty : (map.entries n).hash ≠ 0 := by rw [deleted]; decide
      have noEntry : live (map.entries n) = none := if_neg (by rw [deleted]; decide)
      simp only [noEntry, if_pos deleted, if_neg notEmpty, length_cons, length_nil]
      omega
    · obtain ⟨e, ie⟩ := Option.isSome_iff_exists.mp isLive
      have pos : 0 < (map.entries n).hash := by
        by_contra notLive
        rw [live, if_neg notLive] at ie
        cases ie
      have notDeleted : (map.entries n).hash ≠ tombstone := by
        rw [tombstone]
        omega
      simp only [ie, if_neg pos.ne', if_neg notDeleted, length_cons, length_nil]
      omega

end Places

section Arithmetic

variable (power : ∃ k, map.cap = 2 ^ k)
include power

theorem cap_pos : 0 < map.cap := by
  obtain ⟨k, isPower⟩ := power
  rw [isPower]
  exact Nat.two_pow_pos k

theorem index_lt (hash : Int) : map.index hash < map.cap := by
  obtain ⟨k, isPower⟩ := power
  rw [index, isPower, Nat.and_two_pow_sub_one_eq_mod]
  exact Nat.mod_lt _ (Nat.two_pow_pos k)

theorem place_lt (hash : Int) (distance : Nat) : map.place hash distance < map.cap := Nat.mod_lt _ (cap_pos power)

theorem place_zero (hash : Int) : map.place hash 0 = map.index hash := Nat.mod_eq_of_lt (index_lt power hash)

theorem nextIndex_place (hash : Int) (distance : Nat) :
    map.nextIndex (map.place hash distance) = map.place hash (distance + 1) := by
  obtain ⟨k, isPower⟩ := power
  rw [nextIndex, place, place, isPower, Nat.and_two_pow_sub_one_eq_mod, Nat.mod_add_mod, Nat.add_assoc]

omit power in
theorem place_inj {hash : Int} {d e : Nat} (hr : d < map.cap) (inRange' : e < map.cap)
    (eq : map.place hash d = map.place hash e) : d = e := by
  have congruent : Nat.ModEq map.cap d e := Nat.ModEq.add_left_cancel' (map.index hash) eq
  rwa [Nat.ModEq, Nat.mod_eq_of_lt hr, Nat.mod_eq_of_lt inRange'] at congruent

theorem exists_distance (hash : Int) {i : Nat} (hr : i < map.cap) : ∃ d < map.cap, map.place hash d = i := by
  have hlt := index_lt power hash
  by_cases after : map.index hash ≤ i
  · exact ⟨i - map.index hash, by omega, by
      rw [place, Nat.add_sub_cancel' after, Nat.mod_eq_of_lt hr]⟩
  · exact ⟨i + map.cap - map.index hash, by omega, by
      rw [place, show map.index hash + (i + map.cap - map.index hash) = i + map.cap by omega, Nat.add_mod_right,
        Nat.mod_eq_of_lt hr]⟩

end Arithmetic

end Map

end Collections
