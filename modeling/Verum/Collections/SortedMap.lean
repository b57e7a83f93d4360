import Mathlib.Data.List.Sort

namespace Entries

variable {K V : Type*} [LinearOrder K]

def Ascending (entries : List (K × V)) : Prop := entries.Pairwise fun first second => first.1 < second.1

def insert (key : K) (value : V) : List (K × V) → List (K × V)
  | [] => [(key, value)]
  | entry :: entries =>
    if key < entry.1 then (key, value) :: entry :: entries
    else if entry.1 < key then entry :: insert key value entries
    else (key, value) :: entries

def remove (key : K) (entries : List (K × V)) : List (K × V) := entries.filter fun entry => entry.1 ≠ key

def get (key : K) (entries : List (K × V)) : Option V :=
  (entries.find? fun entry => entry.1 = key).map Prod.snd

variable {entries : List (K × V)} {key : K} {value : V}

theorem Ascending.eq_of_key (ascending : Ascending entries) {fst snd : K × V}
    (inFirst : fst ∈ entries) (inSecond : snd ∈ entries) (eq : fst.1 = snd.1) : fst = snd := by
  induction ascending with
  | nil => cases inFirst
  | cons pre _ ih =>
    rcases List.mem_cons.mp inFirst with rfl | firstLater
    · rcases List.mem_cons.mp inSecond with rfl | secondLater
      · rfl
      · exact absurd eq (pre _ secondLater).ne
    · rcases List.mem_cons.mp inSecond with rfl | secondLater
      · exact absurd eq.symm (pre _ firstLater).ne
      · exact ih firstLater secondLater

theorem mem_insert (ascending : Ascending entries) {e : K × V} :
    e ∈ insert key value entries ↔ e = (key, value) ∨ e.1 ≠ key ∧ e ∈ entries := by
  induction ascending with
  | nil => simp [insert]
  | @cons head rest pre _ ih =>
    rw [insert]
    split
    · rename_i hlt
      have apart : ∀ other ∈ head :: rest, other.1 ≠ key := by
        intro other mem
        rcases List.mem_cons.mp mem with rfl | mem
        · exact hlt.ne'
        · exact (hlt.trans (pre other mem)).ne'
      rw [List.mem_cons]
      exact or_congr_right ⟨fun mem => ⟨apart e mem, mem⟩, And.right⟩
    · split
      · rename_i above
        rw [List.mem_cons, ih, List.mem_cons]
        constructor
        · rintro (rfl | rfl | ⟨differ, mem⟩)
          · exact .inr ⟨above.ne, .inl rfl⟩
          · exact .inl rfl
          · exact .inr ⟨differ, .inr mem⟩
        · rintro (rfl | ⟨differ, rfl | mem⟩)
          · exact .inr (.inl rfl)
          · exact .inl rfl
          · exact .inr (.inr ⟨differ, mem⟩)
      · rename_i notBelow notAbove
        have eq : head.1 = key := le_antisymm (not_lt.mp notBelow) (not_lt.mp notAbove)
        rw [List.mem_cons, List.mem_cons]
        constructor
        · rintro (rfl | mem)
          · exact .inl rfl
          · exact .inr ⟨eq ▸ (pre e mem).ne', .inr mem⟩
        · rintro (rfl | ⟨differ, rfl | mem⟩)
          · exact .inl rfl
          · exact absurd eq differ
          · exact .inr mem

theorem Ascending.insert (ascending : Ascending entries) (key : K) (value : V) :
    Ascending (Entries.insert key value entries) := by
  induction ascending with
  | nil => exact List.pairwise_singleton _ _
  | @cons head rest pre tail ih =>
    rw [Entries.insert]
    split
    · rename_i hlt
      refine .cons ?_ (.cons pre tail)
      intro other mem
      rcases List.mem_cons.mp mem with rfl | mem
      · exact hlt
      · exact hlt.trans (pre other mem)
    · split
      · rename_i above
        refine .cons ?_ ih
        intro other mem
        rcases (mem_insert tail).mp mem with rfl | ⟨-, mem⟩
        · exact above
        · exact pre other mem
      · rename_i notBelow notAbove
        have eq : head.1 = key := le_antisymm (not_lt.mp notBelow) (not_lt.mp notAbove)
        exact .cons (fun other mem => eq ▸ pre other mem) tail

theorem mem_remove {e : K × V} : e ∈ remove key entries ↔ e.1 ≠ key ∧ e ∈ entries := by
  simp [remove, and_comm]

theorem Ascending.remove (ascending : Ascending entries) (key : K) : Ascending (Entries.remove key entries) :=
  List.Pairwise.filter _ ascending

theorem get_eq_some (ascending : Ascending entries) : get key entries = some value ↔ (key, value) ∈ entries := by
  rw [get, Option.map_eq_some_iff]
  constructor
  · rintro ⟨e, hit, rfl⟩
    have eq : e.1 = key := by simpa using List.find?_some hit
    exact eq ▸ List.mem_of_find?_eq_some hit
  · intro mem
    have hit : (entries.find? fun e => e.1 = key).isSome := by
      rw [List.find?_isSome]
      exact ⟨(key, value), mem, by simp⟩
    obtain ⟨e, ie⟩ := Option.isSome_iff_exists.mp hit
    have eq : e.1 = key := by simpa using List.find?_some ie
    refine ⟨e, ie, ?_⟩
    rw [ascending.eq_of_key (List.mem_of_find?_eq_some ie) mem eq]

theorem Ascending.ext {fst snd : List (K × V)} (inOrder : Ascending fst) (inOrder' : Ascending snd)
    (eq : ∀ e, e ∈ fst ↔ e ∈ snd) : fst = snd :=
  have : Std.Antisymm fun a b : K × V => a.1 < b.1 := ⟨fun _ _ hlt above => absurd above hlt.asymm⟩
  have : Std.Irrefl fun a b : K × V => a.1 < b.1 := ⟨fun _ => lt_irrefl _⟩
  List.Pairwise.eq_of_mem_iff inOrder inOrder' eq

end Entries

/-- A finite map as the list of its entries in the order of the keys. -/
structure SortedMap (K V : Type*) [LinearOrder K] where
  entries : List (K × V)
  ascending : Entries.Ascending entries

namespace SortedMap

variable {K V : Type*} [LinearOrder K]

def empty : SortedMap K V := ⟨[], .nil⟩

def insert (map : SortedMap K V) (key : K) (value : V) : SortedMap K V :=
  ⟨Entries.insert key value map.entries, map.ascending.insert key value⟩

def remove (map : SortedMap K V) (key : K) : SortedMap K V :=
  ⟨Entries.remove key map.entries, map.ascending.remove key⟩

def get (map : SortedMap K V) (key : K) : Option V := Entries.get key map.entries

def keys (map : SortedMap K V) : List K := map.entries.map Prod.fst

def Maps (map : SortedMap K V) (key : K) (value : V) : Prop := (key, value) ∈ map.entries

variable {map : SortedMap K V} {key other : K} {value v' : V}

theorem maps_insert : (map.insert key value).Maps other v' ↔
    other = key ∧ v' = value ∨ other ≠ key ∧ map.Maps other v' := by
  rw [Maps, insert, Entries.mem_insert map.ascending, Prod.mk.injEq]
  rfl

theorem maps_remove : (map.remove key).Maps other value ↔ other ≠ key ∧ map.Maps other value :=
  Entries.mem_remove

theorem get_eq_some : map.get key = some value ↔ map.Maps key value := Entries.get_eq_some map.ascending

theorem get_insert : (map.insert key value).get other = if other = key then some value else map.get other := by
  apply Option.ext
  intro hit
  rw [get_eq_some, maps_insert]
  split
  · rename_i eq
    simp [eq, eq_comm]
  · rename_i ne
    simp [ne, get_eq_some]

theorem ext_maps {fst snd : SortedMap K V}
    (eq : ∀ key value, fst.Maps key value ↔ snd.Maps key value) : fst = snd := by
  have entries := fst.ascending.ext snd.ascending fun e => eq e.1 e.2
  cases fst
  cases snd
  simpa using entries

theorem keys_ascending : map.keys.Pairwise (· < ·) := List.pairwise_map.mpr map.ascending

end SortedMap
