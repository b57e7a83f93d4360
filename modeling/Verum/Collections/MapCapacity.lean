import Verum.Collections.MapInsertion

open List

namespace Collections.Map

variable {K V : Type} {hashValue : K → Int} {map : Map K V}

def zeroed (cap : Nat) : Map K V := ⟨fun _ => .zeroed, 0, 0, cap⟩

theorem contents_of_empty (empty : ∀ i < map.cap, (map.entries i).hash = 0) : map.contents = [] := by
  rw [contents, filterMap_eq_nil_iff]
  intro i mem
  rw [live, if_neg]
  rw [empty i (mem_range.mp mem)]
  decide

theorem sound_of_empty [BEq K] (power : ∃ k, map.cap = 2 ^ k) (empty : ∀ i < map.cap, (map.entries i).hash = 0)
    (noEntries : map.len = 0) (noTombstones : map.tombstones = 0) : Sound hashValue map := by
  have none_marked : map.marked tombstone = [] := by
    rw [eq_nil_iff_forall_not_mem]
    intro i mem
    obtain ⟨inRange, deleted⟩ := mem_marked.mp mem
    rw [empty i inRange] at deleted
    cases deleted
  have none_live {i : Nat} (inRange : i < map.cap) : ¬ 0 < (map.entries i).hash := by
    rw [empty i inRange]
    decide
  refine ⟨⟨power, fun i inRange => .inl (empty i inRange), fun i inRange pos => absurd pos (none_live inRange),
    fun i inRange _ pos => absurd pos (none_live inRange)⟩, ?_, ?_⟩
  · rw [contents_of_empty empty, noEntries]
    rfl
  · rw [none_marked, noTombstones]
    rfl

def Distinct [BEq K] (entries : List (K × V)) : Prop := entries.Pairwise fun a b => ¬ (a.1 == b.1) = true

theorem Distinct.perm [BEq K] [EquivBEq K] {xs ys : List (K × V)} (nd : Distinct xs) (perm : xs.Perm ys) :
    Distinct ys :=
  (perm.pairwise_iff fun ne eq => ne (BEq.symm eq)).mp nd

/-- The table is rebuilt with the same entries and without deleted slots. -/
structure Rebuilds (hashValue : K → Int) [BEq K] (newCap : Nat) (entries : List (K × V)) (map' : Map K V) : Prop where
  sound : Sound hashValue map'
  isCap : map'.cap = newCap
  kept : map'.contents.Perm entries
  none_deleted : map'.tombstones = 0

section Rebuilding

variable [BEq K] [EquivBEq K]
variable {entries : List (K × V)} {newCap : Nat}

omit [EquivBEq K] in
theorem Sound.absent_of_distinct {e : K × V} (nd : Distinct (map.contents ++ e :: entries)) :
    map.Absent e.1 := by
  intro j hr other pos isOther eq
  have ne := (pairwise_append.mp nd).2.2 other (mem_contents.mpr ⟨j, hr, pos, isOther⟩) e
    mem_cons_self
  exact ne eq

omit [EquivBEq K] in
theorem Sound.not_reuses (hs : Sound hashValue map) (fresh : map.tombstones = 0) {hash : Int} {t : Nat} :
    ¬ map.Reuses hash t := by
  rintro ⟨deleted, -⟩
  have none_marked : map.marked tombstone = [] := length_eq_zero_iff.mp (hs.buried.symm.trans fresh)
  have marked := mem_marked.mpr ⟨place_lt hs.power hash t, deleted⟩
  rw [none_marked] at marked
  cases marked

theorem Sound.rehash_rebuilds (hs : Sound hashValue map) (hf : map.tombstones = 0) (old : Nat → Slot K V)
    (idxs : List Nat)
    (residents : ∀ i ∈ idxs, 0 < (old i).hash →
      ∃ e, (old i).contents = some e ∧ (old i).hash = makeHashVal hashValue e.1)
    (nd : Distinct (map.contents ++ idxs.filterMap fun i => live (old i)))
    (room : (map.contents ++ idxs.filterMap fun i => live (old i)).length < map.cap) :
    ∃ map', rehash old map idxs = .ok map' ∧
      Rebuilds hashValue map.cap (map.contents ++ idxs.filterMap fun i => live (old i)) map' := by
  induction idxs generalizing map with
  | nil => exact ⟨map, rfl, hs, rfl, by rw [filterMap_nil, append_nil], hf⟩
  | cons i idxs ih =>
    have hl := fun j mem => residents j (mem_cons_of_mem i mem)
    rw [rehash]
    by_cases pos : (old i).hash > 0
    · obtain ⟨⟨key, v⟩, ie, hashed⟩ := residents i (.head _) pos
      have isLive : live (old i) = some (key, v) := by rw [live, if_pos pos, ie]
      rw [filterMap_cons_some (f := fun i => live (old i)) isLive] at nd room ⊢
      have spare : map.len + map.tombstones < map.cap := by
        rw [length_append, ← hs.counted] at room
        omega
      obtain ⟨map', inserted, adds⟩ := hs.insertInternal_absent spare v (hashed ▸ pos)
        (Sound.absent_of_distinct nd) fun _ _ reuses => absurd reuses (hs.not_reuses hf)
      have moved : (map'.contents ++ idxs.filterMap fun i => live (old i)).Perm
          (map.contents ++ (key, v) :: idxs.filterMap fun i => live (old i)) :=
        (adds.added.append_right _).trans perm_middle.symm
      have fresh' : map'.tombstones = 0 := by
        have reused := adds.reused
        omega
      obtain ⟨map'', rehashed, rebuilds⟩ := ih adds.sound fresh' hl (nd.perm moved.symm)
        (by rw [moved.length_eq, adds.sameCap]; exact room)
      rw [if_pos pos, ie]
      dsimp only
      rw [hashed, inserted, okBind]
      exact ⟨map'', rehashed, rebuilds.sound, rebuilds.isCap.trans adds.sameCap, rebuilds.kept.trans moved,
        rebuilds.none_deleted⟩
    · have notLive : live (old i) = none := if_neg pos
      rw [filterMap_cons_none (f := fun i => live (old i)) notLive] at nd room ⊢
      rw [if_neg pos]
      exact ih hs hf hl nd room

/-- The map holds the given entries, which have distinct keys. -/
inductive Represents (hashValue : K → Int) (map : Map K V) (entries : List (K × V)) : Prop
  | unallocated (noTable : map.cap = 0) (noEntries : map.len = 0) (noTombstones : map.tombstones = 0)
    (isEmpty : entries = [])
  | table (sound : Sound hashValue map) (large : initialCapacity ≤ map.cap)
    (room : map.len + map.tombstones < map.cap) (holds : map.contents.Perm entries)

omit [EquivBEq K] in
theorem Represents.contents_perm (rep : Represents hashValue map entries) : map.contents.Perm entries := by
  cases rep with
  | unallocated noTable _ _ isEmpty =>
    rw [contents, noTable, isEmpty]
    exact .refl _
  | table _ _ _ hh => exact hh

omit [EquivBEq K] in
theorem Represents.len_eq (rep : Represents hashValue map entries) : map.len = entries.length := by
  cases rep with
  | unallocated _ noEntries _ isEmpty =>
    rw [noEntries, isEmpty]
    rfl
  | table hs _ _ hh => rw [hs.counted, hh.length_eq]

theorem Represents.distinct (rep : Represents hashValue map entries) : Distinct entries := by
  cases rep with
  | unallocated _ _ _ isEmpty =>
    rw [isEmpty]
    exact .nil
  | table hs _ _ hh => exact Distinct.perm hs.distinct hh

omit [EquivBEq K] in
theorem Represents.residents (rep : Represents hashValue map entries) {i : Nat} (hr : i < map.cap)
    (pos : 0 < (map.entries i).hash) :
    ∃ e, (map.entries i).contents = some e ∧ (map.entries i).hash = makeHashVal hashValue e.1 := by
  cases rep with
  | unallocated noTable => omega
  | table hs =>
    obtain ⟨e, hf⟩ := hs.fits i hr pos
    exact ⟨e, hf.isEntry, hf.hashed⟩

theorem Represents.resize_succeeds (rep : Represents hashValue map entries) (memory : Memory)
    (power : ∃ k, newCap = 2 ^ k) (he : map.len < newCap) :
    Succeeds (map.resize memory newCap) (Rebuilds hashValue newCap entries) := by
  rw [resize]
  refine (alloc_succeeds _ newCap).bind fun _ _ => ?_
  rw [rep.len_eq, ← rep.contents_perm.length_eq] at he
  have eq : (zeroed newCap : Map K V).contents ++ (List.range map.cap).filterMap (fun i => live (map.entries i)) =
      map.contents := by
    rw [contents_of_empty fun _ _ => rfl, nil_append]
    rfl
  have hs : Sound hashValue (zeroed newCap : Map K V) := sound_of_empty power (fun _ _ => rfl) rfl rfl
  obtain ⟨map', rehashed, rebuilds⟩ := hs.rehash_rebuilds rfl map.entries (List.range map.cap)
    (fun i mem => rep.residents (mem_range.mp mem))
    (by rw [eq]; exact rep.distinct.perm rep.contents_perm.symm) (by rw [eq]; exact he)
  rw [eq] at rebuilds
  rw [swapInTable]
  change Succeeds (rehash map.entries (zeroed newCap) (List.range map.cap)) _
  rw [rehashed]
  exact .ok ⟨rebuilds.sound, rebuilds.isCap, rebuilds.kept.trans rep.contents_perm, rebuilds.none_deleted⟩

omit [EquivBEq K] in
theorem Represents.of_rebuilds (rebuilds : Rebuilds hashValue newCap entries map)
    (large : initialCapacity ≤ newCap) (he : entries.length < newCap) : Represents hashValue map entries := by
  refine .table rebuilds.sound (rebuilds.isCap ▸ large) ?_ rebuilds.kept
  rw [rebuilds.sound.counted, rebuilds.kept.length_eq, rebuilds.none_deleted, rebuilds.isCap]
  exact he

theorem Represents.ensureCapacity_succeeds (rep : Represents hashValue map entries) (memory : Memory) :
    Succeeds (map.ensureCapacity memory) fun map' =>
      Represents hashValue map' entries ∧ map'.len + map'.tombstones + 1 < map'.cap ∧
        (map'.tombstones = 0 ∨
          map' = map ∧ map.len + map.tombstones < map.cap * loadFactorNum / loadFactorDen) := by
  have len := rep.len_eq
  have rebuilt {map' : Map K V} {newCap : Nat} (rebuilds : Rebuilds hashValue newCap entries map')
      (large : initialCapacity ≤ newCap) (he : entries.length + 1 < newCap) :
      Represents hashValue map' entries ∧ map'.len + map'.tombstones + 1 < map'.cap ∧
        (map'.tombstones = 0 ∨
          map' = map ∧ map.len + map.tombstones < map.cap * loadFactorNum / loadFactorDen) := by
    have represents' := Represents.of_rebuilds rebuilds large (by omega)
    refine ⟨represents', ?_, .inl rebuilds.none_deleted⟩
    rw [represents'.len_eq, rebuilds.none_deleted, rebuilds.isCap]
    exact he
  rw [ensureCapacity]
  cases rep with
  | unallocated noTable noEntries noTombstones isEmpty =>
    rw [if_pos noTable]
    refine (Represents.resize_succeeds (.unallocated noTable noEntries noTombstones isEmpty) memory ⟨4, rfl⟩
      (by rw [noEntries]; decide)).mono fun map' rebuilds => rebuilt rebuilds le_rfl ?_
    rw [isEmpty, length_nil]
    decide
  | table hs large room hh =>
    have rep := Represents.table hs large room hh
    rw [initialCapacity] at large
    rw [if_neg (by omega)]
    dsimp only
    split
    · refine (checked_succeeds _).bind ?_
      rintro _ ⟨rfl, -⟩
      obtain ⟨k, isPower⟩ := hs.power
      split
      · exact (rep.resize_succeeds memory ⟨k + 1, by rw [isPower, Nat.pow_succ]⟩ (by omega)).mono
          fun map' rebuilds => rebuilt rebuilds (by rw [initialCapacity]; omega) (by omega)
      · exact (rep.resize_succeeds memory ⟨k, isPower⟩ (by omega)).mono
          fun map' rebuilds => rebuilt rebuilds large (by omega)
    · rename_i hlt
      rw [loadFactorNum, loadFactorDen] at hlt ⊢
      exact .ok ⟨rep, by omega, .inr ⟨rfl, by omega⟩⟩

omit [BEq K] [EquivBEq K] in
theorem doubled_succeeds {minCap : Int} (steps : Nat) (power : ∃ k, newCap = 2 ^ k)
    (he : maxInt < newCap * 2 ^ steps) : Succeeds (doubled minCap (steps + 1) newCap) fun res =>
      (∃ k, res = 2 ^ k) ∧ newCap ≤ res ∧ minCap ≤ res := by
  induction steps generalizing newCap with
  | zero =>
    rw [doubled]
    split
    · refine (checked_succeeds _).bind ?_
      rintro _ ⟨rfl, hf⟩
      omega
    · exact .ok ⟨power, le_rfl, by omega⟩
  | succ steps ih =>
    rw [doubled]
    split
    · refine (checked_succeeds _).bind ?_
      rintro _ ⟨rfl, -⟩
      obtain ⟨k, rfl⟩ := power
      refine (ih ⟨k + 1, (Nat.pow_succ ..).symm⟩ (by rwa [Nat.mul_assoc, ← Nat.pow_succ'])).mono ?_
      rintro res ⟨power, further, reaches⟩
      exact ⟨power, by omega, reaches⟩
    · exact .ok ⟨power, le_rfl, by omega⟩

theorem maxInt_lt_double (large : initialCapacity ≤ newCap) : maxInt < newCap * 2 ^ 63 := by
  rw [initialCapacity] at large
  rw [maxInt]
  omega

theorem Represents.reserve_succeeds (rep : Represents hashValue map entries) (memory : Memory)
    (additional : Int) :
    Succeeds (map.reserve memory additional) fun map' => Represents hashValue map' entries := by
  rw [reserve]
  refine (checkedInt_succeeds _).bind fun needed _ => ?_
  refine (checkedInt_succeeds _).bind fun scaled _ => ?_
  dsimp only
  split
  · rename_i grows
    have start : (∃ k, (if map.cap = 0 then initialCapacity else map.cap) = 2 ^ k) ∧
        initialCapacity ≤ (if map.cap = 0 then initialCapacity else map.cap) := by
      cases rep with
      | unallocated noTable =>
        rw [if_pos noTable]
        exact ⟨⟨4, rfl⟩, le_rfl⟩
      | table hs large =>
        rw [if_neg hs.cap_pos.ne']
        exact ⟨hs.power, large⟩
    refine (doubled_succeeds 63 start.1 (maxInt_lt_double start.2)).bind ?_
    rintro newCap ⟨power, further, reaches⟩
    have len : map.len ≤ map.cap := by
      cases rep with
      | unallocated _ noEntries | table _ _ room => omega
    have he : map.len < newCap := by omega
    refine (rep.resize_succeeds memory power he).mono fun map' rebuilds => ?_
    exact .of_rebuilds rebuilds (start.2.trans further) (rep.len_eq ▸ he)
  · exact .ok rep

end Rebuilding

end Collections.Map
