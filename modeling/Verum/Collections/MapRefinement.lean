import Verum.Collections.MapCapacity

namespace Collections

namespace Association

variable {K V : Type} [BEq K]

def lookup (entries : List (K × V)) (key : K) : Option (K × V) := entries.find? fun entry => entry.1 == key

/-- The value of a key is set, and a key that is present stays as it is. -/
def assign (entries : List (K × V)) (key : K) (value : V) : List (K × V) :=
  if (lookup entries key).isSome then
    entries.map fun entry => if entry.1 == key then (entry.1, value) else entry
  else (key, value) :: entries

def erase (entries : List (K × V)) (key : K) : List (K × V) := entries.filter fun entry => !(entry.1 == key)

variable {entries rest : List (K × V)} {key : K} {entry : K × V}

theorem lookup_none (ha : lookup entries key = none) (mem : entry ∈ entries) : ¬ (entry.1 == key) = true :=
  List.find?_eq_none.mp ha entry mem

theorem lookup_some (has : lookup entries key = some entry) : entry ∈ entries ∧ (entry.1 == key) = true :=
  ⟨List.mem_of_find?_eq_some has, List.find?_some (p := fun entry : K × V => entry.1 == key) has⟩

variable [EquivBEq K]

theorem apart (nd : Map.Distinct (entry :: rest)) (eq : (entry.1 == key) = true) {other : K × V}
    (mem : other ∈ rest) : ¬ (other.1 == key) = true :=
  fun same' => (List.pairwise_cons.mp nd).1 other mem (BEq.trans eq (BEq.symm same'))

theorem assign_perm (v : V) (has : lookup entries key = some entry) (nd : Map.Distinct entries)
    (perm : entries.Perm (entry :: rest)) : (assign entries key v).Perm ((entry.1, v) :: rest) := by
  have eq := (lookup_some has).2
  have kept : rest.map (fun entry => if entry.1 == key then (entry.1, v) else entry) = rest := by
    conv_rhs => rw [← List.map_id rest]
    exact List.map_congr_left fun other mem => if_neg (apart (nd.perm perm) eq mem)
  rw [assign, has, if_pos Option.isSome_some]
  refine (perm.map _).trans ?_
  rw [List.map_cons, if_pos eq, kept]

theorem erase_perm (has : lookup entries key = some entry) (nd : Map.Distinct entries)
    (perm : entries.Perm (entry :: rest)) : (erase entries key).Perm rest := by
  have eq := (lookup_some has).2
  have kept : rest.filter (fun entry => !(entry.1 == key)) = rest := by
    rw [List.filter_eq_self]
    intro other mem
    rw [Bool.not_eq_true', ← Bool.not_eq_true]
    exact apart (nd.perm perm) eq mem
  refine (perm.filter _).trans ?_
  rw [List.filter_cons_of_neg (by rw [eq]; decide), kept]

omit [EquivBEq K] in
theorem erase_absent (ha : lookup entries key = none) : erase entries key = entries := by
  rw [erase, List.filter_eq_self]
  intro entry mem
  rw [Bool.not_eq_true', ← Bool.not_eq_true]
  exact lookup_none ha mem

end Association

namespace Map

open Association

variable {K V : Type} {hashValue : K → Int} {map : Map K V} [BEq K] {entries : List (K × V)} {key : K}

theorem Represents.absent (rep : Represents hashValue map entries) (ha : lookup entries key = none) :
    map.Absent key := by
  intro i hr entry pos ie
  have mem : entry ∈ map.contents := mem_contents.mpr ⟨i, hr, pos, ie⟩
  exact lookup_none ha (rep.contents_perm.subset mem)

theorem Represents.present (rep : Represents hashValue map entries) {entry : K × V}
    (has : lookup entries key = some entry) :
    Sound hashValue map ∧ map.len + map.tombstones < map.cap ∧ initialCapacity ≤ map.cap ∧
      ∃ i < map.cap, Fits hashValue map (map.entries i) entry i := by
  have mem := rep.contents_perm.symm.subset (lookup_some has).1
  obtain ⟨i, hr, pos, ie⟩ := mem_contents.mp mem
  cases rep with
  | unallocated noTable => omega
  | table hs large room =>
    obtain ⟨entry', hf⟩ := hs.fits i hr pos
    obtain rfl : entry' = entry := Option.some_inj.mp (hf.isEntry.symm.trans ie)
    exact ⟨hs, room, large, i, hr, hf⟩

theorem Represents.find_absent (rep : Represents hashValue map entries) (ha : lookup entries key = none)
    (guarded : Bool) : map.find hashValue guarded key = .ok none := by
  have isAbsent := rep.absent ha
  cases rep with
  | unallocated noTable => rw [find, if_pos noTable]
  | table hs _ room => exact hs.find_absent room isAbsent guarded

/-- A deleted slot that the insertion reuses comes after the slot of the key, or the key is absent and
no entry was probed past the deleted slot from further away. -/
def KeepsOrder (hashValue : K → Int) (map : Map K V) (key : K) : Prop :=
  ∀ t < map.cap, map.Reuses (makeHashVal hashValue key) t →
    (∃ e < t, (map.entries (map.place (makeHashVal hashValue key) e)).holds key (makeHashVal hashValue key) = true) ∨
      map.Absent key ∧ map.Harmless (makeHashVal hashValue key) 0 t

theorem Sound.keepsOrder_of_fresh (hs : Sound hashValue map) (hf : map.tombstones = 0) :
    KeepsOrder hashValue map key := fun _ _ reuses => absurd reuses (hs.not_reuses hf)

theorem KeepsOrder.harmless (hk : KeepsOrder hashValue map key) (ha : map.Absent key)
    (power : ∃ k, map.cap = 2 ^ k) {t : Nat} (hr : t < map.cap)
    (reuses : map.Reuses (makeHashVal hashValue key) t) : map.Harmless (makeHashVal hashValue key) 0 t := by
  rcases hk t hr reuses with ⟨e, pre, hh⟩ | ⟨-, harmless⟩
  · exact absurd hh (ha.not_holds (place_lt power _ e) (reuses.2 e pre))
  · exact harmless

section Consistent

variable [EquivBEq K] (con : ∀ a b : K, a == b → hashValue a = hashValue b)
variable {entry : K × V} {i : Nat}

include con in
theorem Represents.find_present (rep : Represents hashValue map entries)
    (has : lookup entries key = some entry) (guarded : Bool) :
    ∃ i, map.find hashValue guarded key = .ok (some i) ∧ i < map.cap ∧ Fits hashValue map (map.entries i) entry i := by
  obtain ⟨hs, -, -, i, hr, hf⟩ := rep.present has
  exact ⟨i, hs.find_present con hr hf.positive hf.isEntry (lookup_some has).2 guarded, hr,
    hf⟩

include con in
theorem Represents.get_eq (rep : Represents hashValue map entries) (key : K) :
    map.get hashValue key = .ok ((lookup entries key).map Prod.snd) := by
  rw [get]
  cases hit : lookup entries key with
  | none =>
    rw [rep.find_absent hit]
    rfl
  | some entry =>
    obtain ⟨i, isFound, -, hf⟩ := rep.find_present con hit false
    rw [isFound, okBind, Option.bind_some, entryAt, hf.isEntry]

include con in
theorem Represents.getKeyValue_eq (rep : Represents hashValue map entries) (key : K) :
    map.getKeyValue hashValue key = .ok (lookup entries key) := by
  rw [getKeyValue]
  cases hit : lookup entries key with
  | none =>
    rw [rep.find_absent hit]
    rfl
  | some entry =>
    obtain ⟨i, isFound, -, hf⟩ := rep.find_present con hit true
    rw [isFound, okBind, Option.bind_some, entryAt, hf.isEntry]

include con in
theorem Represents.containsKey_eq (rep : Represents hashValue map entries) (key : K) :
    map.containsKey hashValue key = .ok (lookup entries key).isSome := by
  rw [containsKey]
  cases hit : lookup entries key with
  | none =>
    rw [rep.find_absent hit]
    rfl
  | some entry =>
    obtain ⟨i, isFound, -⟩ := rep.find_present con hit true
    rw [isFound]
    rfl

theorem KeepsOrder.clear (keeps : KeepsOrder hashValue map key) (hs : Sound hashValue map)
    (inRange : i < map.cap) (fits : Fits hashValue map (map.entries i) entry i) (same : (entry.1 == key) = true)
    (con : hashValue entry.1 = hashValue key) :
    ∀ d < (map.entries i).psl, (map.entries (map.place (map.entries i).hash d)).hash ≠ tombstone := by
  have hashed : makeHashVal hashValue key = (map.entries i).hash := by
    rw [fits.hashed, makeHashVal_congr con]
  intro d
  induction d using Nat.strong_induction_on with
  | _ d ih =>
    intro hlt deleted
    have occupied (e : Nat) (pre : e < d) : 0 < (map.entries (map.place (map.entries i).hash e)).hash := by
      rcases hs.kinds _ (place_lt hs.power (map.entries i).hash e) with empty | deleted' | pos
      · exact absurd empty (fits.passed e (pre.trans hlt)).1
      · exact absurd deleted' (ih e pre (pre.trans hlt))
      · exact pos
    have reuses : map.Reuses (makeHashVal hashValue key) d := by
      rw [hashed]
      exact ⟨deleted, occupied⟩
    rcases keeps d (hlt.trans fits.close) reuses with ⟨e, pre, holds⟩ | ⟨absent, -⟩
    · rw [hashed] at holds
      exact hs.not_holds_before inRange fits same (pre.trans hlt) (occupied e pre) holds
    · exact absent i inRange entry fits.positive fits.isEntry same

include con in
theorem Represents.insertInternal_succeeds (rep : Represents hashValue map entries)
    (spare : map.len + map.tombstones + 1 < map.cap) (keeps : KeepsOrder hashValue map key)
    (pos : 0 < makeHashVal hashValue key) (v : V) :
    ∃ map', map.insertInternal key v (makeHashVal hashValue key) =
        .ok (map', (lookup entries key).map Prod.snd) ∧
      Represents hashValue map' (assign entries key v) := by
  have distinct := rep.distinct
  cases hit : lookup entries key with
  | none =>
    have absent := rep.absent hit
    cases rep with
    | unallocated noTable => omega
    | table hs large room holds =>
      obtain ⟨map', inserted, adds⟩ := hs.insertInternal_absent room v pos absent
        fun t inRange reuses => keeps.harmless absent hs.power inRange reuses
      refine ⟨map', inserted, .table adds.sound (adds.sameCap ▸ large) ?_ ?_⟩
      · have len := adds.added.length_eq
        have reused := adds.reused
        rw [List.length_cons, ← hs.counted, ← adds.sound.counted] at len
        rw [adds.sameCap]
        omega
      · rw [assign, hit]
        exact adds.added.trans (holds.cons _)
  | some entry =>
    obtain ⟨hs, room, large, i, inRange, fits⟩ := rep.present hit
    have same := (lookup_some hit).2
    have clear := keeps.clear hs inRange fits same (con _ _ same)
    obtain ⟨sound', rest, pre, after⟩ := hs.revalue inRange fits v
    refine ⟨_, hs.insertInternal_present inRange fits same v (con _ _ same) clear, ?_⟩
    refine .table sound' large room (after.trans ?_)
    exact (assign_perm v hit distinct (rep.contents_perm.symm.trans pre)).symm

include con in
theorem Represents.insert_succeeds (rep : Represents hashValue map entries) (memory : Memory) (v : V)
    (hr : hashValue key ≠ -2 ^ 63)
    (hk : map.len + map.tombstones < map.cap * loadFactorNum / loadFactorDen → KeepsOrder hashValue map key) :
    Succeeds (map.insert memory hashValue key v) fun res =>
      Represents hashValue res.1 (assign entries key v) ∧ res.2 = (lookup entries key).map Prod.snd := by
  rw [insert]
  refine (rep.ensureCapacity_succeeds memory).bind ?_
  rintro map' ⟨represents', spare, hf⟩
  have keeps' : KeepsOrder hashValue map' key := by
    rcases hf with hf | ⟨rfl, hlt⟩
    · cases represents' with
      | unallocated noTable => omega
      | table hs => exact hs.keepsOrder_of_fresh hf
    · exact hk hlt
  obtain ⟨map'', inserted, represents''⟩ :=
    represents'.insertInternal_succeeds con spare keeps' (makeHashVal_pos hr) v
  rw [inserted]
  exact .ok ⟨represents'', rfl⟩

omit [EquivBEq K] in
theorem Sound.delete (hs : Sound hashValue map) (inRange : i < map.cap)
    (fits : Fits hashValue map (map.entries i) entry i) (slot : Slot K V) (deleted : slot.hash = tombstone) :
    0 < map.len ∧
      Sound hashValue { map.put i slot with len := map.len - 1, tombstones := map.tombstones + 1 } ∧
      ∃ rest, map.contents.Perm (entry :: rest) ∧ (map.put i slot).contents.Perm rest := by
  obtain ⟨rest, pre, after⟩ := contents_put inRange slot
  rw [live_fits fits] at pre
  have noEntry : live slot = none := if_neg (by rw [deleted]; decide)
  rw [noEntry] at after
  have marks := marked_put inRange slot tombstone
  rw [if_neg fits.not_tombstone, if_pos deleted, ← hs.buried] at marks
  have len := pre.length_eq
  rw [← hs.counted] at len
  change map.len = rest.length + 1 at len
  refine ⟨by omega, ⟨(hs.toOrdered.bury i _ deleted).recount _ _, ?_, ?_⟩, rest, pre, after⟩
  · change map.len - 1 = (map.put i _).contents.length
    rw [after.length_eq, len]
    rfl
  · exact marks.symm

theorem Represents.removeAt_succeeds (rep : Represents hashValue map entries) (memory : Memory)
    (has : lookup entries key = some entry) (inRange : i < map.cap)
    (fits : Fits hashValue map (map.entries i) entry i) :
    Succeeds (map.removeAt memory i) fun map' => Represents hashValue map' (erase entries key) := by
  obtain ⟨hs, room, large, -⟩ := rep.present has
  obtain ⟨ne, sound', rest, pre, after⟩ := hs.delete inRange fits { map.entries i with hash := tombstone } rfl
  have erased : (erase entries key).Perm rest :=
    erase_perm has rep.distinct (rep.contents_perm.symm.trans pre)
  have represents' : Represents hashValue { map.put i { map.entries i with hash := tombstone } with
      len := map.len - 1, tombstones := map.tombstones + 1 } (erase entries key) :=
    .table sound' large (by dsimp only [put_cap]; omega) (after.trans erased.symm)
  rw [removeAt]
  dsimp only
  split
  · rw [compact]
    have short : (erase entries key).length < map.cap := by
      have len := represents'.len_eq
      dsimp only at len
      omega
    exact (represents'.resize_succeeds memory hs.power (by dsimp only; omega)).mono fun map' rebuilds =>
      .of_rebuilds rebuilds large short
  · exact .ok represents'

include con in
theorem Represents.removeEntry_succeeds (rep : Represents hashValue map entries) (memory : Memory) (key : K) :
    Succeeds (map.removeEntry memory hashValue key) fun res =>
      Represents hashValue res.1 (erase entries key) ∧ res.2 = lookup entries key := by
  rw [removeEntry]
  cases hit : lookup entries key with
  | none =>
    rw [rep.find_absent hit, okBind]
    exact .ok ⟨by rwa [erase_absent hit], rfl⟩
  | some entry =>
    obtain ⟨i, isFound, hr, hf⟩ := rep.find_present con hit true
    rw [isFound, okBind]
    refine (rep.removeAt_succeeds memory hit hr hf).bind fun map' represents' => ?_
    exact .ok ⟨represents', hf.isEntry⟩

include con in
theorem Represents.remove_succeeds (rep : Represents hashValue map entries) (memory : Memory) (key : K) :
    Succeeds (map.remove memory hashValue key) fun res =>
      Represents hashValue res.1 (erase entries key) ∧ res.2 = (lookup entries key).map Prod.snd := by
  rw [remove]
  refine (rep.removeEntry_succeeds con memory key).bind ?_
  rintro ⟨map', removed⟩ ⟨represents', rfl⟩
  exact .ok ⟨represents', rfl⟩

end Consistent

theorem Represents.clear_represents (rep : Represents hashValue map entries) :
    Represents hashValue map.clear [] := by
  rw [clear]
  cases rep with
  | unallocated noTable noEntries noTombstones =>
    rw [if_pos noTable]
    exact .unallocated noTable noEntries noTombstones rfl
  | table hs large room =>
    rw [if_neg hs.cap_pos.ne']
    have empty (i : Nat) (hr : i < map.cap) :
        ((if i < map.cap then { map.entries i with hash := 0, psl := 0 } else map.entries i) : Slot K V).hash = 0 := by
      rw [if_pos hr]
    refine .table (sound_of_empty hs.power empty rfl rfl) large hs.cap_pos ?_
    rw [contents_of_empty empty]

theorem represents_new : Represents hashValue (Map.new : Map K V) [] := .unallocated rfl rfl rfl rfl

end Map

end Collections
