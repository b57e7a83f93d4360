import Verum.Collections.MapEntry

open List

namespace Collections

open Nat

namespace Map

variable {K V : Type} {map : Map K V}

section Counting

def IsTaken (slot : Slot K V) : Prop := slot.hash ≠ 0 ∧ slot.hash ≠ tombstone

instance (slot : Slot K V) : Decidable (IsTaken slot) := inferInstanceAs (Decidable (_ ∧ _))

def taken (map : Map K V) : List Nat := (List.range map.cap).filter fun i => IsTaken (map.entries i)

/-- The counters count the deleted and the occupied slots. -/
structure Counts (map : Map K V) : Prop where
  buried : map.tombstones = (map.marked tombstone).length
  counted : map.len = map.taken.length

def Readable (map : Map K V) : Prop := ∀ i < map.cap, IsTaken (map.entries i) → (map.entries i).contents.isSome

theorem taken_length (map : Map K V) : map.taken.length + (map.marked 0).length + (map.marked tombstone).length = map.cap := by
  rw [taken, marked, marked]
  generalize map.cap = n
  induction n with
  | zero => rfl
  | succ n ih =>
    simp only [range_succ, filter_append, filterMap_append, length_append, filter_cons,
      filter_nil, filterMap_cons, filterMap_nil]
    have differ : (0 : Int) ≠ tombstone := by decide
    by_cases empty : (map.entries n).hash = 0
    · simp [IsTaken, empty, differ] at ih ⊢
      omega
    · by_cases deleted : (map.entries n).hash = tombstone
      · simp [IsTaken, deleted, differ.symm] at ih ⊢
        omega
      · simp [IsTaken, empty, deleted] at ih ⊢
        omega

theorem Counts.total (counts : Counts map) : map.len + (map.marked 0).length + map.tombstones = map.cap := by
  rw [counts.counted, counts.buried]
  exact taken_length map

theorem counts_of_total (buried : map.tombstones = (map.marked tombstone).length)
    (total : map.len + (map.marked 0).length + map.tombstones = map.cap) : Counts map := by
  refine ⟨buried, ?_⟩
  have sum := taken_length map
  omega

variable {i : Nat} {slot : Slot K V}

theorem Counts.put (counts : Counts map) (inRange : i < map.cap) (slot : Slot K V) {len tombstones : Nat}
    (buried : tombstones + (if (map.entries i).hash = tombstone then 1 else 0) =
      map.tombstones + if slot.hash = tombstone then 1 else 0)
    (counted : len + (if IsTaken (map.entries i) then 1 else 0) = map.len + if IsTaken slot then 1 else 0) :
    Counts { map.put i slot with len := len, tombstones := tombstones } := by
  have deleted := marked_put inRange slot tombstone
  have empty := marked_put inRange slot 0
  have total := counts.total
  have isBuried := counts.buried
  refine counts_of_total ?_ ?_
  · change tombstones = ((map.put i slot).marked tombstone).length
    omega
  · change len + ((map.put i slot).marked 0).length + tombstones = map.cap
    have sorts (other : Slot K V) : (if IsTaken other then 1 else 0) + (if other.hash = 0 then 1 else 0) +
        (if other.hash = tombstone then 1 else 0) = 1 := by
      have differ : (0 : Int) ≠ tombstone := by decide
      by_cases isEmpty : other.hash = 0
      · simp [IsTaken, isEmpty, differ]
      · by_cases isDeleted : other.hash = tombstone
        · simp [IsTaken, isDeleted, differ.symm]
        · simp [IsTaken, isEmpty, isDeleted]
    have pre := sorts (map.entries i)
    have after := sorts slot
    omega

theorem Counts.put_taken (counts : Counts map) (inRange : i < map.cap) (wasTaken : IsTaken (map.entries i))
    (isTaken : IsTaken slot) : Counts (map.put i slot) :=
  counts.put inRange slot (by rw [if_neg wasTaken.2, if_neg isTaken.2]) (by rw [if_pos wasTaken, if_pos isTaken])

theorem Readable.put (readable : Readable map) (reads : slot.contents.isSome) : Readable (map.put i slot) := by
  intro j inRange isTaken
  by_cases here : j = i
  · rw [here, put_self]
    exact reads
  · rw [put_of_ne here] at isTaken ⊢
    exact readable j inRange isTaken

def Positive (map : Map K V) : Prop := ∀ i < map.cap, IsTaken (map.entries i) → 0 < (map.entries i).hash

theorem Positive.put (pos : Positive map) (above : IsTaken slot → 0 < slot.hash) :
    Positive (map.put i slot) := by
  intro j inRange isTaken
  by_cases here : j = i
  · rw [here, put_self] at isTaken ⊢
    exact above isTaken
  · rw [put_of_ne here] at isTaken ⊢
    exact pos j inRange isTaken

end Counting

section Insertion

/-- What an insertion does to the counters. -/
structure Inserts (hash : Int) (map map' : Map K V) : Prop where
  sameCap : map'.cap = map.cap
  readable : Readable map'
  counts : Counts map → Counts map' ∧ map'.tombstones ≤ map.tombstones ∧ map'.len ≤ map.len + 1 ∧
    map'.len + map'.tombstones ≤ map.len + map.tombstones + 1
  positive : Positive map → 0 < hash → Positive map'

theorem insert_settles (readable : Readable map) {i : Nat} (inRange : i < map.cap) (vacant : ¬ IsTaken (map.entries i))
    (slot : Slot K V) (isTaken : IsTaken slot) (reads : slot.contents.isSome) :
    Inserts slot.hash map { map.put i slot with
      tombstones := if (map.entries i).hash = tombstone then map.tombstones - 1 else map.tombstones
      len := map.len + 1 } where
  sameCap := rfl
  readable := readable.put reads
  counts counts := by
    have positive : (map.entries i).hash = tombstone → 0 < map.tombstones := by
      intro deleted
      rw [counts.buried]
      exact length_pos_of_mem (mem_marked.mpr ⟨inRange, deleted⟩)
    refine ⟨counts.put inRange slot ?_ (by rw [if_neg vacant, if_pos isTaken]), ?_⟩
    · rw [if_neg isTaken.2]
      split
      · rename_i deleted
        have some := positive deleted
        omega
      · rfl
    · dsimp only
      split <;> omega
  positive positive above := positive.put fun _ => above

theorem makeHashVal_isHash (hashValue : K → Int) (key : K) :
    makeHashVal hashValue key ≠ 0 ∧ makeHashVal hashValue key ≠ tombstone := by
  rw [makeHashVal, wrappingAbs, tombstone]
  split <;> split <;> omega

variable {idx : Nat} {hash : Int}

theorem exists_steps {i : Nat} (inRange : idx < map.cap) (inRange' : i < map.cap) :
    ∃ r < map.cap, (idx + r) % map.cap = i := by
  by_cases after : idx ≤ i
  · exact ⟨i - idx, by omega, by rw [Nat.add_sub_cancel' after, Nat.mod_eq_of_lt inRange']⟩
  · exact ⟨i + map.cap - idx, by omega, by
      rw [show idx + (i + map.cap - idx) = i + map.cap by omega, add_mod_right, Nat.mod_eq_of_lt inRange']⟩

theorem step_along (power : ∃ k, map.cap = 2 ^ k) (idx r : Nat) :
    (map.nextIndex idx + r) % map.cap = (idx + (r + 1)) % map.cap := by
  obtain ⟨k, isPower⟩ := power
  rw [nextIndex, isPower, and_two_pow_sub_one_eq_mod, mod_add_mod]
  congr 1
  omega

theorem steps_ne {r : Nat} (inRange : idx < map.cap) (short : r + 1 < map.cap) :
    (idx + (r + 1)) % map.cap ≠ idx := by
  by_cases within : idx + (r + 1) < map.cap
  · rw [Nat.mod_eq_of_lt within]
    omega
  · rw [mod_eq_sub_mod (by omega), Nat.mod_eq_of_lt (by omega)]
    omega

theorem nextIndex_lt (power : ∃ k, map.cap = 2 ^ k) (idx : Nat) : map.nextIndex idx < map.cap := by
  have pos := cap_pos power
  obtain ⟨k, isPower⟩ := power
  rw [nextIndex, isPower, and_two_pow_sub_one_eq_mod, ← isPower]
  exact mod_lt _ pos

variable [BEq K]

theorem insertLoop_inserts (power : ∃ k, map.cap = 2 ^ k) (readable : Readable map) {r steps psl : Nat} {key : K}
    {v : V} (inRange : idx < map.cap) (short : r < map.cap)
    (vacant : ¬ IsTaken (map.entries ((idx + r) % map.cap))) (isHash : hash ≠ 0 ∧ hash ≠ tombstone)
    (enough : r < steps) :
    ∃ map' old, map.insertLoop steps idx psl key v hash = .ok (map', old) ∧ Inserts hash map map' := by
  induction r generalizing map idx psl key v hash steps with
  | zero =>
    obtain ⟨steps, rfl⟩ : ∃ n, steps = n + 1 := ⟨steps - 1, by omega⟩
    rw [add_zero, Nat.mod_eq_of_lt inRange] at vacant
    have free : (map.entries idx).hash = 0 ∨ (map.entries idx).hash = tombstone := by
      rw [IsTaken] at vacant
      omega
    rw [insertLoop, if_pos free]
    exact ⟨_, _, rfl, insert_settles readable inRange vacant ⟨some (key, v), hash, psl⟩ isHash rfl⟩
  | succ r ih =>
    obtain ⟨steps, rfl⟩ : ∃ n, steps = n + 1 := ⟨steps - 1, by omega⟩
    rw [insertLoop]
    by_cases isTaken : IsTaken (map.entries idx)
    · have notFree : ¬ ((map.entries idx).hash = 0 ∨ (map.entries idx).hash = tombstone) := not_or.mpr isTaken
      obtain ⟨resident, isResident⟩ := Option.isSome_iff_exists.mp (readable idx inRange isTaken)
      rw [if_neg notFree]
      dsimp only
      split
      · refine ⟨_, _, rfl, rfl, readable.put (by rw [isResident]; rfl), fun counts => ?_, fun pos _ => ?_⟩
        · exact ⟨counts.put_taken inRange isTaken isTaken, le_rfl, le_succ _, le_succ _⟩
        · exact pos.put fun _ => pos idx inRange isTaken
      · rw [isResident]
        dsimp only
        have nextInRange := nextIndex_lt power idx
        have along := step_along power idx r
        by_cases closer : psl > (map.entries idx).psl
        · rw [if_pos closer]
          have apart := steps_ne inRange short
          have vacant' : ¬ IsTaken ((map.put idx ⟨some (key, v), hash, psl⟩).entries
              ((map.nextIndex idx + r) % map.cap)) := by
            rwa [along, put_of_ne apart]
          have power' : ∃ k, (map.put idx ⟨some (key, v), hash, psl⟩).cap = 2 ^ k := power
          have readable' : Readable (map.put idx ⟨some (key, v), hash, psl⟩) := readable.put rfl
          have isTaken' : IsTaken (⟨some (key, v), hash, psl⟩ : Slot K V) := isHash
          have above' : 0 < hash → IsTaken (⟨some (key, v), hash, psl⟩ : Slot K V) →
              0 < (⟨some (key, v), hash, psl⟩ : Slot K V).hash := fun above _ => above
          obtain ⟨map', old, run, inserts⟩ := ih power' readable' nextInRange (by rw [put_cap]; omega) vacant' isTaken
            (lt_of_succ_lt_succ enough)
          refine ⟨map', old, run, inserts.sameCap, inserts.readable, fun counts => ?_, fun pos above => ?_⟩
          · exact inserts.counts (counts.put_taken inRange isTaken isTaken')
          · exact inserts.positive (pos.put (above' above)) (pos idx inRange isTaken)
        · rw [if_neg closer]
          exact ih power readable nextInRange (by omega) (by rwa [along]) isHash (lt_of_succ_lt_succ enough)
    · have free : (map.entries idx).hash = 0 ∨ (map.entries idx).hash = tombstone := by
        rw [IsTaken] at isTaken
        omega
      rw [if_pos free]
      exact ⟨_, _, rfl, insert_settles readable inRange isTaken ⟨some (key, v), hash, psl⟩ isHash rfl⟩

theorem insertInternal_inserts (power : ∃ k, map.cap = 2 ^ k) (readable : Readable map)
    (empty : ∃ i < map.cap, (map.entries i).hash = 0) (key : K) (v : V) (isHash : hash ≠ 0 ∧ hash ≠ tombstone) :
    ∃ map' old, map.insertInternal key v hash = .ok (map', old) ∧ Inserts hash map map' := by
  obtain ⟨i, inRange, isEmpty⟩ := empty
  obtain ⟨r, short, rfl⟩ := exists_steps (index_lt power hash) inRange
  exact insertLoop_inserts power readable (index_lt power hash) short (fun isTaken => isTaken.1 isEmpty) isHash (by omega)

end Insertion

section Accounts

/-- The counters are right, and some slot is empty. -/
structure Accounted (map : Map K V) : Prop where
  size : map.cap = 0 ∨ (∃ k, map.cap = 2 ^ k) ∧ initialCapacity ≤ map.cap ∧ map.len + map.tombstones < map.cap
  readable : Readable map
  counts : Counts map

theorem Counts.exists_empty (counts : Counts map) (room : map.len + map.tombstones < map.cap) :
    ∃ i < map.cap, (map.entries i).hash = 0 := by
  have total := counts.total
  exact exists_marked (by omega)

theorem accounted_of_empty (power : ∃ k, map.cap = 2 ^ k) (large : initialCapacity ≤ map.cap)
    (empty : ∀ i < map.cap, (map.entries i).hash = 0) (noEntries : map.len = 0) (noTombstones : map.tombstones = 0) :
    Accounted map := by
  have none_marked : map.marked tombstone = [] := by
    rw [eq_nil_iff_forall_not_mem]
    intro i mem
    obtain ⟨inRange, deleted⟩ := mem_marked.mp mem
    rw [empty i inRange] at deleted
    cases deleted
  have none_taken : map.taken = [] := by
    rw [eq_nil_iff_forall_not_mem]
    intro i mem
    obtain ⟨inRange, isTaken⟩ := mem_filter.mp mem
    exact (of_decide_eq_true isTaken).1 (empty i (mem_range.mp inRange))
  have pos : 0 < map.cap := cap_pos power
  refine ⟨.inr ⟨power, large, by omega⟩, fun i inRange isTaken => absurd (empty i inRange) isTaken.1, ?_, ?_⟩
  · rw [none_marked, noTombstones]
    rfl
  · rw [none_taken, noEntries]
    rfl

variable [BEq K]

theorem rehash_inserts (old : Nat → Slot K V) (idxs : List Nat)
    (reads : ∀ i ∈ idxs, 0 < (old i).hash → (old i).contents.isSome) (power : ∃ k, map.cap = 2 ^ k)
    (readable : Readable map) (counts : Counts map) (pos : Positive map)
    (room : map.len + map.tombstones + (idxs.filter fun i => 0 < (old i).hash).length < map.cap) :
    ∃ map', rehash old map idxs = .ok map' ∧ map'.cap = map.cap ∧ Readable map' ∧ Counts map' ∧ Positive map' ∧
      map'.len + map'.tombstones ≤ map.len + map.tombstones + (idxs.filter fun i => 0 < (old i).hash).length := by
  induction idxs generalizing map with
  | nil => exact ⟨map, rfl, rfl, readable, counts, pos, le_add_right _ _⟩
  | cons i idxs ih =>
    have later := fun j mem => reads j (mem_cons_of_mem i mem)
    rw [rehash]
    by_cases isLive : (old i).hash > 0
    · obtain ⟨⟨key, v⟩, isEntry⟩ := Option.isSome_iff_exists.mp (reads i (.head _) isLive)
      rw [filter_cons, if_pos (decide_eq_true isLive), length_cons] at room
      have isHash : (old i).hash ≠ 0 ∧ (old i).hash ≠ tombstone := by
        rw [tombstone]
        omega
      obtain ⟨map', replaced, inserted, inserts⟩ :=
        insertInternal_inserts power readable (counts.exists_empty (by omega)) key v isHash
      obtain ⟨counts', -, -, total⟩ := inserts.counts counts
      rw [if_pos isLive, isEntry]
      dsimp only
      rw [inserted, okBind]
      obtain ⟨map'', rehashed, sameCap, readable', counts'', positive', bound⟩ := ih later (by rwa [inserts.sameCap])
        inserts.readable counts' (inserts.positive pos isLive) (by rw [inserts.sameCap]; omega)
      refine ⟨map'', rehashed, sameCap.trans inserts.sameCap, readable', counts'', positive', ?_⟩
      rw [filter_cons, if_pos (decide_eq_true isLive), length_cons]
      omega
    · rw [filter_cons, if_neg (by simpa using isLive)] at room
      rw [if_neg isLive, filter_cons, if_neg (by simpa using isLive)]
      exact ih later power readable counts pos room

theorem Accounted.resize_succeeds (acc : Accounted map) (memory : Memory) {newCap : Nat}
    (power : ∃ k, newCap = 2 ^ k) (large : initialCapacity ≤ newCap) (enough : map.len < newCap) :
    Succeeds (map.resize memory newCap) fun map' => Accounted map' ∧ map'.cap = newCap ∧ Positive map' ∧
      map'.len + map'.tombstones ≤ map.len := by
  rw [resize]
  refine (alloc_succeeds _ newCap).bind fun _ _ => ?_
  have fresh : Accounted (zeroed newCap : Map K V) := accounted_of_empty power large (fun _ _ => rfl) rfl rfl
  have live : ((List.range map.cap).filter fun i => 0 < (map.entries i).hash).length ≤ map.len := by
    rw [acc.counts.counted]
    refine (monotone_filter_right _ fun i isLive => ?_).length_le
    rw [decide_eq_true_eq] at isLive ⊢
    refine ⟨isLive.ne', ?_⟩
    rw [tombstone]
    omega
  obtain ⟨map', rehashed, sameCap, readable, counts, pos, bound⟩ :=
    rehash_inserts map.entries (List.range map.cap)
      (fun i mem isLive => acc.readable i (mem_range.mp mem) ⟨isLive.ne', by rw [tombstone]; omega⟩)
      power fresh.readable fresh.counts (fun i _ isTaken => absurd rfl isTaken.1) (by
        change 0 + 0 + _ < newCap
        omega)
  change Succeeds (rehash map.entries (zeroed newCap) (List.range map.cap)) _
  rw [rehashed]
  change map'.cap = newCap at sameCap
  change map'.len + map'.tombstones ≤ 0 + 0 + _ at bound
  refine .ok ⟨⟨.inr ⟨?_, ?_, ?_⟩, readable, counts⟩, sameCap, pos, by omega⟩
  · rw [sameCap]
    exact power
  · rwa [sameCap]
  · omega

/-- What holds of a map after a call, if it held before. -/
structure Follows (map map' : Map K V) : Prop where
  accounted : Accounted map'
  positive : Positive map → Positive map'

omit [BEq K] in
theorem Follows.refl (acc : Accounted map) : Follows map map := ⟨acc, id⟩

omit [BEq K] in
theorem Follows.trans {map' map'' : Map K V} (fst : Follows map map') (snd : Follows map' map'') :
    Follows map map'' := ⟨snd.accounted, fun pos => snd.positive (fst.positive pos)⟩

omit [BEq K] in
theorem Accounted.unallocated (acc : Accounted map) (noTable : map.cap = 0) : map.len = 0 ∧ map.tombstones = 0 := by
  have total := acc.counts.total
  omega

theorem Accounted.ensureCapacity_succeeds (acc : Accounted map) (memory : Memory) :
    Succeeds (map.ensureCapacity memory) fun map' =>
      Follows map map' ∧ 0 < map'.cap ∧ map'.len + map'.tombstones + 1 < map'.cap := by
  rw [ensureCapacity]
  split
  · rename_i noTable
    obtain ⟨noEntries, -⟩ := acc.unallocated noTable
    refine (acc.resize_succeeds memory ⟨4, rfl⟩ le_rfl (by rw [noEntries]; decide)).mono ?_
    rintro map' ⟨accounted', isCap, pos, bound⟩
    exact ⟨⟨accounted', fun _ => pos⟩, by omega, by omega⟩
  · rename_i hasTable
    obtain ⟨⟨k, isPower⟩, large, room⟩ := acc.size.resolve_left hasTable
    rw [initialCapacity] at large
    dsimp only
    split
    · refine (checked_succeeds _).bind ?_
      rintro _ ⟨rfl, -⟩
      split
      · refine (acc.resize_succeeds memory ⟨k + 1, by rw [isPower, pow_succ]⟩
          (by rw [initialCapacity]; omega) (by omega)).mono ?_
        rintro map' ⟨accounted', isCap, pos, bound⟩
        exact ⟨⟨accounted', fun _ => pos⟩, by omega, by omega⟩
      · refine (acc.resize_succeeds memory ⟨k, isPower⟩ large (by omega)).mono ?_
        rintro map' ⟨accounted', isCap, pos, bound⟩
        exact ⟨⟨accounted', fun _ => pos⟩, by omega, by omega⟩
    · rename_i below
      rw [loadFactorNum, loadFactorDen] at below
      exact .ok ⟨.refl acc, by omega, by omega⟩

theorem Accounted.insertInternal_follows (acc : Accounted map) (allocated : 0 < map.cap)
    (room : map.len + map.tombstones + 1 < map.cap) (key : K) (v : V) {hash : Int}
    (isHash : hash ≠ 0 ∧ hash ≠ tombstone) :
    ∃ map' old, map.insertInternal key v hash = .ok (map', old) ∧ Accounted map' ∧
      (Positive map → 0 < hash → Positive map') := by
  obtain ⟨power, large, -⟩ := acc.size.resolve_left allocated.ne'
  obtain ⟨map', old, run, inserts⟩ := insertInternal_inserts power acc.readable
    (acc.counts.exists_empty (by omega)) key v isHash
  obtain ⟨counts, -, -, total⟩ := inserts.counts acc.counts
  have sameCap := inserts.sameCap
  exact ⟨map', old, run, ⟨.inr ⟨sameCap ▸ power, sameCap ▸ large, by omega⟩, inserts.readable, counts⟩,
    inserts.positive⟩

theorem Accounted.reserve_succeeds (acc : Accounted map) (memory : Memory) (additional : Int) :
    Succeeds (map.reserve memory additional) (Follows map) := by
  rw [reserve]
  refine (checkedInt_succeeds _).bind fun needed _ => ?_
  refine (checkedInt_succeeds _).bind fun scaled _ => ?_
  dsimp only
  split
  · rename_i grows
    have start : (∃ k, (if map.cap = 0 then initialCapacity else map.cap) = 2 ^ k) ∧
        initialCapacity ≤ (if map.cap = 0 then initialCapacity else map.cap) := by
      split
      · exact ⟨⟨4, rfl⟩, le_rfl⟩
      · rename_i hasTable
        obtain ⟨power, large, -⟩ := acc.size.resolve_left hasTable
        exact ⟨power, large⟩
    refine (doubled_succeeds 63 start.1 (maxInt_lt_double start.2)).bind ?_
    rintro newCap ⟨power, further, reaches⟩
    have total := acc.counts.total
    refine (acc.resize_succeeds memory power (start.2.trans further) (by omega)).mono ?_
    rintro map' ⟨accounted', -, pos, -⟩
    exact ⟨accounted', fun _ => pos⟩
  · exact .ok (.refl acc)

theorem Accounted.shrinkTable_succeeds (acc : Accounted map) (memory : Memory) {tgt : Int}
    (enough : map.len < tgt) : Succeeds (map.shrinkTable memory tgt) (Follows map) := by
  rw [shrinkTable]
  refine (doubled_succeeds 63 ⟨4, rfl⟩ (by decide)).bind ?_
  rintro newCap ⟨power, large, reaches⟩
  split
  · refine (acc.resize_succeeds memory power large (by omega)).mono ?_
    rintro map' ⟨accounted', -, pos, -⟩
    exact ⟨accounted', fun _ => pos⟩
  · exact .ok (.refl acc)

omit [BEq K] in
theorem minForLoad_succeeds (map : Map K V) : Succeeds map.minForLoad fun min => map.len < min := by
  rw [minForLoad]
  refine (checkedInt_succeeds _).bind ?_
  rintro scaled rfl
  rw [loadFactorDen, loadFactorNum]
  refine .ok ?_
  rw [Int.tdiv_eq_ediv_of_nonneg (by omega)]
  omega

theorem Accounted.shrinkToFit_succeeds (acc : Accounted map) (memory : Memory) :
    Succeeds (map.shrinkToFit memory) (Follows map) := by
  rw [shrinkToFit]
  split
  · rename_i noEntries
    split
    · refine .ok ⟨⟨.inl rfl, fun i inRange => absurd inRange (not_lt_zero i), ?_, ?_⟩,
        fun _ i inRange => absurd inRange (not_lt_zero i)⟩
      · rfl
      · exact noEntries
    · exact .ok (.refl acc)
  · exact (minForLoad_succeeds map).bind fun min enough => acc.shrinkTable_succeeds memory enough

theorem Accounted.shrinkTo_succeeds (acc : Accounted map) (memory : Memory) (minCapacity : Int) :
    Succeeds (map.shrinkTo memory minCapacity) (Follows map) := by
  rw [shrinkTo]
  refine (minForLoad_succeeds map).bind fun min enough => acc.shrinkTable_succeeds memory ?_
  split <;> omega

end Accounts

section Probes

variable [BEq K]
variable {idx steps psl : Nat}

theorem findLoop_ends (power : ∃ k, map.cap = 2 ^ k) (guarded : Bool) (key : K) (hash : Int) {r : Nat}
    (inRange : idx < map.cap) (empty : (map.entries ((idx + r) % map.cap)).hash = 0) (enough : r < steps) :
    ∃ hit, map.findLoop guarded key hash steps idx psl = .ok hit ∧
      ∀ i ∈ hit, i < map.cap ∧ 0 < (map.entries i).hash := by
  induction r generalizing idx steps psl with
  | zero =>
    obtain ⟨steps, rfl⟩ : ∃ n, steps = n + 1 := ⟨steps - 1, by omega⟩
    rw [add_zero, Nat.mod_eq_of_lt inRange] at empty
    rw [findLoop, if_pos empty]
    exact ⟨none, rfl, by simp⟩
  | succ r ih =>
    obtain ⟨steps, rfl⟩ : ∃ n, steps = n + 1 := ⟨steps - 1, by omega⟩
    rw [findLoop]
    split
    · exact ⟨none, rfl, by simp⟩
    · split
      · rename_i holds
        refine ⟨some idx, rfl, ?_⟩
        rintro _ ⟨⟩
        exact ⟨inRange, holds.1⟩
      · split
        · exact ⟨none, rfl, by simp⟩
        · split
          · exact ⟨none, rfl, by simp⟩
          · exact ih (nextIndex_lt power idx) (by rwa [step_along power]) (lt_of_succ_lt_succ enough)

theorem Accounted.find_ends (acc : Accounted map) (hashValue : K → Int) (guarded : Bool) (key : K) :
    ∃ hit, map.find hashValue guarded key = .ok hit ∧ ∀ i ∈ hit, i < map.cap ∧ 0 < (map.entries i).hash := by
  rw [find]
  split
  · exact ⟨none, rfl, by simp⟩
  · rename_i hasTable
    obtain ⟨power, -, room⟩ := acc.size.resolve_left hasTable
    obtain ⟨i, inRange, empty⟩ := acc.counts.exists_empty room
    obtain ⟨r, short, rfl⟩ := exists_steps (index_lt power (makeHashVal hashValue key)) inRange
    exact findLoop_ends power guarded key _ (index_lt power _) empty (by omega)

theorem findLoop_spins (power : ∃ k, map.cap = 2 ^ k) (deleted : ∀ i < map.cap, (map.entries i).hash = tombstone)
    (key : K) (hash : Int) (inRange : idx < map.cap) :
    map.findLoop false key hash steps idx psl = .error .diverges := by
  induction steps generalizing idx psl with
  | zero => rfl
  | succ steps ih =>
    have isDeleted := deleted idx inRange
    rw [findLoop, isDeleted, if_neg (by decide), if_neg fun hit => absurd hit.1 (by decide),
      if_neg fun further => absurd further.1 (by decide), if_neg fun stopped => absurd stopped.1 (by decide)]
    exact ih (nextIndex_lt power idx)

theorem entryLoop_ends (map : Map K V) (key : K) (hash : Int) (inRange : psl ≤ map.cap)
    (enough : map.cap < psl + steps) : ∃ hit, map.entryLoop key hash steps idx psl = .ok hit := by
  induction steps generalizing idx psl with
  | zero => omega
  | succ steps ih =>
    rw [entryLoop]
    split
    · exact ⟨_, rfl⟩
    · split
      · exact ⟨_, rfl⟩
      · split
        · exact ⟨_, rfl⟩
        · split
          · exact ⟨_, rfl⟩
          · exact ih (by omega) (by omega)

theorem entryLoop_found (power : ∃ k, map.cap = 2 ^ k) (key : K) (hash : Int) {i : Nat} (inRange : idx < map.cap)
    (hit : map.entryLoop key hash steps idx psl = .ok (some i)) :
    i < map.cap ∧ 0 < (map.entries i).hash ∧ (map.entries i).holds key hash = true := by
  induction steps generalizing idx psl with
  | zero => cases hit
  | succ steps ih =>
    rw [entryLoop] at hit
    split at hit
    · cases hit
    · split at hit
      · rename_i holds
        cases hit
        exact ⟨inRange, holds⟩
      · split at hit
        · cases hit
        · split at hit
          · cases hit
          · exact ih (nextIndex_lt power idx) hit

end Probes

section Removal

theorem Accounted.clear_follows (acc : Accounted map) : Follows map map.clear := by
  rw [clear]
  split
  · exact .refl acc
  · rename_i hasTable
    obtain ⟨power, large, -⟩ := acc.size.resolve_left hasTable
    have empty (i : Nat) (inRange : i < map.cap) :
        ((if i < map.cap then { map.entries i with hash := 0, psl := 0 } else map.entries i) : Slot K V).hash = 0 := by
      rw [if_pos inRange]
    exact ⟨accounted_of_empty power large empty rfl rfl, fun _ i inRange isTaken => absurd (empty i inRange) isTaken.1⟩

variable {i : Nat}

theorem Accounted.delete (acc : Accounted map) (inRange : i < map.cap) (isLive : 0 < (map.entries i).hash)
    (slot : Slot K V) (deleted : slot.hash = tombstone) (reads : slot.contents.isSome) :
    Follows map { map.put i slot with len := map.len - 1, tombstones := map.tombstones + 1 } := by
  have isTaken : IsTaken (map.entries i) := ⟨isLive.ne', by rw [tombstone]; omega⟩
  have notTaken : ¬ IsTaken slot := fun isTaken => isTaken.2 deleted
  have ne : 0 < map.len := by
    rw [acc.counts.counted]
    exact length_pos_of_mem (mem_filter.mpr ⟨mem_range.mpr inRange, decide_eq_true isTaken⟩)
  have size : map.cap = 0 ∨ (∃ k, map.cap = 2 ^ k) ∧ initialCapacity ≤ map.cap ∧
      map.len - 1 + (map.tombstones + 1) < map.cap :=
    acc.size.imp_right (by
      rintro ⟨power, large, room⟩
      exact ⟨power, large, by omega⟩)
  refine ⟨⟨size, acc.readable.put reads, ?_⟩, ?_⟩
  · refine acc.counts.put inRange slot ?_ ?_
    · rw [if_neg isTaken.2, if_pos deleted]
    · rw [if_pos isTaken, if_neg notTaken]
      omega
  · exact fun pos => pos.put fun isTaken => absurd isTaken notTaken

variable [BEq K]

theorem Accounted.compact_succeeds (acc : Accounted map) (memory : Memory) (allocated : 0 < map.cap) :
    Succeeds (map.compact memory) (Follows map) := by
  obtain ⟨power, large, room⟩ := acc.size.resolve_left allocated.ne'
  refine (acc.resize_succeeds memory power large (by omega)).mono ?_
  rintro map' ⟨accounted', -, pos, -⟩
  exact ⟨accounted', fun _ => pos⟩

theorem Accounted.removeAt_succeeds (acc : Accounted map) (memory : Memory) (inRange : i < map.cap)
    (isLive : 0 < (map.entries i).hash) : Succeeds (map.removeAt memory i) (Follows map) := by
  have reads := acc.readable i inRange ⟨isLive.ne', by rw [tombstone]; omega⟩
  have follows := acc.delete inRange isLive { map.entries i with hash := tombstone } rfl reads
  rw [removeAt]
  dsimp only
  split
  · exact (follows.accounted.compact_succeeds memory (by dsimp only [put_cap]; omega)).mono fun _ => follows.trans
  · exact .ok follows

theorem Accounted.remove_succeeds (acc : Accounted map) (memory : Memory) (hashValue : K → Int) (key : K) :
    Succeeds (map.remove memory hashValue key) fun res => Follows map res.1 := by
  obtain ⟨hit, run, live⟩ := acc.find_ends hashValue true key
  rw [remove, removeEntry, run]
  cases hit with
  | none => exact .ok (.refl acc)
  | some i =>
    obtain ⟨inRange, isLive⟩ := live i rfl
    have removed : Succeeds (do
        let self ← map.removeAt memory i
        Except.ok (self, map.entryAt i)) fun res => Follows map res.1 :=
      (acc.removeAt_succeeds memory inRange isLive).bind fun _ follows => .ok follows
    exact removed.bind fun _ follows => .ok follows

omit [BEq K] in
theorem Accounted.sweepAt_succeeds (acc : Accounted map) (f : K → V → V × Bool) (inRange : i < map.cap) :
    Succeeds (map.sweepAt f i) fun res => Follows map res.1 ∧ res.1.cap = map.cap := by
  rw [sweepAt]
  dsimp only
  split
  · rename_i isLive
    have isTaken : IsTaken (map.entries i) := ⟨isLive.ne', by rw [tombstone]; omega⟩
    obtain ⟨⟨key, v⟩, isEntry⟩ := Option.isSome_iff_exists.mp (acc.readable i inRange isTaken)
    rw [isEntry]
    dsimp only
    split
    · refine .ok ⟨⟨⟨acc.size, acc.readable.put rfl, ?_⟩, ?_⟩, rfl⟩
      · exact acc.counts.put_taken inRange isTaken isTaken
      · exact fun pos => pos.put fun _ => isLive
    · exact .ok ⟨acc.delete inRange isLive _ rfl rfl, rfl⟩
  · exact .ok ⟨.refl acc, rfl⟩

omit [BEq K] in
theorem Accounted.sweepLoop_succeeds (acc : Accounted map) (f : K → V → V × Bool) (idxs : List Nat)
    (inRange : ∀ i ∈ idxs, i < map.cap) :
    Succeeds (sweepLoop f map idxs) fun res => Follows map res.1 ∧ res.1.cap = map.cap := by
  induction idxs generalizing map with
  | nil => exact .ok ⟨.refl acc, rfl⟩
  | cons i idxs ih =>
    rw [sweepLoop]
    refine (acc.sweepAt_succeeds f (inRange i mem_cons_self)).bind ?_
    rintro ⟨map', removed⟩ ⟨follows, sameCap⟩
    refine (ih follows.accounted fun j mem => ?_).bind ?_
    · exact sameCap ▸ inRange j (mem_cons_of_mem i mem)
    · rintro ⟨map'', extracted⟩ ⟨follows', sameCap'⟩
      exact .ok ⟨follows.trans follows', sameCap'.trans sameCap⟩

theorem Accounted.sweep_succeeds (acc : Accounted map) (memory : Memory) (f : K → V → V × Bool) :
    Succeeds (map.sweep memory f) fun res => Follows map res.1 := by
  rw [sweep]
  split
  · exact .ok (.refl acc)
  · rename_i hasTable
    refine (acc.sweepLoop_succeeds f _ fun i mem => mem_range.mp mem).bind ?_
    rintro ⟨map', extracted⟩ ⟨follows, sameCap⟩
    dsimp only at follows sameCap ⊢
    split
    · refine (follows.accounted.compact_succeeds memory (by omega)).bind fun map'' follows' => ?_
      exact .ok (follows.trans follows')
    · exact .ok follows

end Removal

section Calls

variable [BEq K]

abbrev Leaves {α : Type} (outcome : Except Panic α) (post : α → Prop) : Prop := Meets (fun _ => True) outcome post

omit [BEq K] in
theorem leaves_of_succeeds {α : Type} {out : Except Panic α} {post : α → Prop} (succeeds : Succeeds out post) :
    Leaves out post := by
  cases out with
  | ok v => exact succeeds
  | error panic => trivial

/-- What holds of the map that `entry` has made ready, and of the slot that it names. -/
structure Ready (hashValue : K → Int) (map : Map K V) (key : K) (entry : MapEntry K V) : Prop where
  follows : Follows map entry.table
  allocated : 0 < entry.table.cap
  room : entry.table.len + entry.table.tombstones + 1 < entry.table.cap
  named : ∀ occupied, entry = .occupied occupied →
    occupied.idx < occupied.map.cap ∧ 0 < (occupied.map.entries occupied.idx).hash
  hashed : ∀ vacant, entry = .vacant vacant → vacant.hash = makeHashVal hashValue key

theorem Accounted.entry_succeeds (acc : Accounted map) (memory : Memory) (hashValue : K → Int) (key : K) :
    Succeeds (map.entry memory hashValue key) (Ready hashValue map key) := by
  rw [entry]
  refine (acc.ensureCapacity_succeeds memory).bind ?_
  rintro grown ⟨follows, allocated, room⟩
  obtain ⟨power, -, -⟩ := follows.accounted.size.resolve_left allocated.ne'
  obtain ⟨hit, run⟩ : ∃ hit, grown.entryLoop key (makeHashVal hashValue key) (grown.cap + 1)
      (grown.index (makeHashVal hashValue key)) 0 = .ok hit := entryLoop_ends grown key _ (zero_le _) (by omega)
  dsimp only
  rw [run]
  cases hit with
  | none =>
    refine .ok ⟨follows, allocated, room, ?_, ?_⟩
    · rintro _ ⟨⟩
    · rintro _ ⟨⟩
      rfl
  | some idx =>
    obtain ⟨inRange, isLive, -⟩ := entryLoop_found power key _ (index_lt power _) run
    refine .ok ⟨follows, allocated, room, ?_, ?_⟩
    · rintro _ ⟨⟩
      exact ⟨inRange, isLive⟩
    · rintro _ ⟨⟩

variable {key : K} {entry : MapEntry K V}

theorem Ready.insert_leaves {hashValue : K → Int} {vacant : VacantEntry K V}
    (ready : Ready hashValue map key (.vacant vacant)) (v : V) :
    Leaves (vacant.insert v) fun res => Accounted res.1 ∧
      (Positive map → 0 < makeHashVal hashValue key → Positive res.1) := by
  have hashed := ready.hashed vacant rfl
  obtain ⟨map', old, run, acc, pos⟩ := ready.follows.accounted.insertInternal_follows ready.allocated ready.room
    vacant.key v (makeHashVal_isHash hashValue key)
  change vacant.map.insertInternal _ _ _ = _ at run
  rw [VacantEntry.insert, hashed, run, okBind]
  dsimp only
  cases map'.slotOfHash (makeHashVal hashValue key) map'.cap (map'.index (makeHashVal hashValue key)) with
  | error panic => trivial
  | ok idx => exact ⟨acc, fun pre => pos (ready.follows.positive pre)⟩

omit [BEq K] in
theorem Accounted.setValue_follows (acc : Accounted map) {i : Nat} (inRange : i < map.cap)
    (isLive : 0 < (map.entries i).hash) (v : V) : Follows map (map.setValue i v) := by
  have isTaken : IsTaken (map.entries i) := ⟨isLive.ne', by rw [tombstone]; omega⟩
  have reads := acc.readable i inRange isTaken
  refine ⟨⟨acc.size, acc.readable.put ?_, ?_⟩, ?_⟩
  · rwa [Option.isSome_map]
  · exact acc.counts.put_taken inRange isTaken isTaken
  · exact fun pos => pos.put fun _ => isLive

/-- A `pop_entry` finds no entry. -/
def PopsNothing (map : Map K V) : TableCall K V → Prop
  | .popEntry => ∀ i < map.cap, ¬ 0 < (map.entries i).hash
  | _ => True

omit [BEq K] in
theorem popEntry_of_nothing (nothing : ∀ i < map.cap, ¬ 0 < (map.entries i).hash) : map.popEntry = (map, none) := by
  rw [popEntry]
  split
  · rfl
  · have notFound : (List.range map.cap).find? (fun i => decide ((map.entries i).hash > 0)) = none := by
      rw [List.find?_eq_none]
      intro i mem
      simpa using nothing i (mem_range.mp mem)
    rw [notFound]

/-- The counters are right after a call, and all hashes positive if those of the keys are. -/
structure Stays (hashValue : K → Int) (map map' : Map K V) : Prop where
  accounted : Accounted map'
  positive : (∀ key, hashValue key ≠ -2 ^ 63) → Positive map → Positive map'

variable {hashValue : K → Int}

omit [BEq K] in
theorem Follows.stays {map' : Map K V} (follows : Follows map map') : Stays hashValue map map' :=
  ⟨follows.accounted, fun _ => follows.positive⟩

omit [BEq K] in
theorem stays_of_follows {out : Except Panic (Map K V)} (succeeds : Succeeds out (Follows map)) :
    Leaves out (Stays hashValue map) := (leaves_of_succeeds succeeds).mono fun _ => Follows.stays

theorem Ready.orInsert_leaves (ready : Ready hashValue map key entry) (default : V) :
    Leaves (entry.orInsert default) fun res => Stays hashValue map res.1 := by
  cases entry with
  | occupied occupied => exact .ok ready.follows.stays
  | vacant vacant =>
    refine (ready.insert_leaves default).mono ?_
    rintro res ⟨acc, pos⟩
    exact ⟨acc, fun inRange pre => pos pre (makeHashVal_pos (inRange key))⟩

theorem Accounted.insert_leaves (acc : Accounted map) (memory : Memory) (key : K) (v : V) :
    Leaves (map.insert memory hashValue key v) fun res => Stays hashValue map res.1 := by
  rw [insert]
  refine (leaves_of_succeeds (acc.ensureCapacity_succeeds memory)).bind ?_
  rintro grown ⟨follows, allocated, room⟩
  obtain ⟨map', old, run, accounted', pos⟩ :=
    follows.accounted.insertInternal_follows allocated room key v (makeHashVal_isHash hashValue key)
  rw [run]
  exact .ok ⟨accounted', fun inRange pre => pos (follows.positive pre) (makeHashVal_pos (inRange key))⟩

omit [BEq K] in
theorem Ready.andModify_follows (ready : Ready hashValue map key entry) (f : V → V) :
    Follows map (entry.andModify f).table := by
  cases entry with
  | vacant vacant => exact ready.follows
  | occupied occupied =>
    obtain ⟨inRange, isLive⟩ := ready.named occupied rfl
    rw [MapEntry.andModify]
    split
    · exact ready.follows.trans (ready.follows.accounted.setValue_follows inRange isLive _)
    · exact ready.follows

theorem Accounted.perform_leaves (acc : Accounted map) (hashValue : K → Int) (memory : Memory) (call : TableCall K V)
    (nothing : PopsNothing map call) : Leaves (call.perform memory hashValue map) (Stays hashValue map) := by
  have entered (key : K) := leaves_of_succeeds (acc.entry_succeeds memory hashValue key)
  cases call with
  | insert key v => exact (acc.insert_leaves memory key v).bind fun _ stays => .ok stays
  | remove key =>
    exact stays_of_follows ((acc.remove_succeeds memory hashValue key).bind fun _ follows => .ok follows)
  | clear => exact .ok acc.clear_follows.stays
  | reserve additional => exact stays_of_follows (acc.reserve_succeeds memory additional)
  | shrinkToFit => exact stays_of_follows (acc.shrinkToFit_succeeds memory)
  | shrinkTo minCapacity => exact stays_of_follows (acc.shrinkTo_succeeds memory minCapacity)
  | retain f => exact stays_of_follows ((acc.sweep_succeeds memory f).bind fun _ follows => .ok follows)
  | extractIf f => exact stays_of_follows ((acc.sweep_succeeds memory _).bind fun _ follows => .ok follows)
  | popEntry =>
    change Leaves (.ok map.popEntry.1) _
    rw [popEntry_of_nothing nothing]
    exact .ok (Follows.refl acc).stays
  | entryOrInsert key default =>
    exact (entered key).bind fun _ ready => (ready.orInsert_leaves default).bind fun _ stays => .ok stays
  | entryOrInsertWith key default =>
    refine (entered key).bind fun entry ready => ?_
    rw [entry.orInsertWith_eq]
    exact (ready.orInsert_leaves _).bind fun _ stays => .ok stays
  | entryOrInsertWithKey key default =>
    refine (entered key).bind fun entry ready => ?_
    rw [entry.orInsertWithKey_eq]
    exact (ready.orInsert_leaves _).bind fun _ stays => .ok stays
  | entryInsert key v =>
    refine (entered key).bind fun entry ready => ?_
    cases entry with
    | occupied occupied =>
      obtain ⟨inRange, isLive⟩ := ready.named occupied rfl
      exact .ok (ready.follows.trans (ready.follows.accounted.setValue_follows inRange isLive v)).stays
    | vacant vacant => exact (ready.orInsert_leaves v).bind fun _ stays => .ok stays
  | entryAndModify key f => exact (entered key).bind fun _ ready => .ok (ready.andModify_follows f).stays
  | entryRemove key =>
    refine (entered key).bind fun entry ready => ?_
    cases entry with
    | occupied occupied =>
      obtain ⟨inRange, isLive⟩ := ready.named occupied rfl
      have removed := (ready.follows.accounted.removeAt_succeeds memory inRange isLive).mono fun _ => ready.follows.trans
      have taken : Succeeds (occupied.removeEntry memory) fun res => Follows map res.1 :=
        removed.bind fun _ follows => .ok follows
      exact (leaves_of_succeeds taken).bind fun _ follows => .ok follows.stays
    | vacant vacant => exact .ok ready.follows.stays

end Calls

section Termination

variable [BEq K] (memory : Memory) (hashValue : K → Int)

/-- The counters count the slots, and the probe loops without a bound end for every key. -/
structure Probes (map : Map K V) : Prop where
  counts : Counts map
  positive : (∀ key, hashValue key ≠ -2 ^ 63) → Positive map
  get_ends : ∀ key, ∃ found, map.get hashValue key = .ok found
  getMut_ends : ∀ key, ∃ found, map.getMut hashValue key = .ok found
  insertInternal_ends : 0 < map.cap → ∀ key value, ∃ result,
    map.insertInternal key value (makeHashVal hashValue key) = .ok result
  ensured : Succeeds (map.ensureCapacity memory) fun grown => (∃ i < grown.cap, (grown.entries i).hash = 0) ∧
    ∀ key value, ∃ result, grown.insertInternal key value (makeHashVal hashValue key) = .ok result

variable {memory hashValue}

theorem Accounted.insertInternal_ends (acc : Accounted map) (allocated : 0 < map.cap) (key : K) (v : V) :
    ∃ res, map.insertInternal key v (makeHashVal hashValue key) = .ok res := by
  obtain ⟨power, -, room⟩ := acc.size.resolve_left allocated.ne'
  obtain ⟨map', old, run, -⟩ := insertInternal_inserts power acc.readable (acc.counts.exists_empty room) key
    v (makeHashVal_isHash hashValue key)
  exact ⟨(map', old), run⟩

theorem Accounted.probes (accounted : Accounted map) (positive : (∀ key, hashValue key ≠ -2 ^ 63) → Positive map) :
    Probes memory hashValue map where
  counts := accounted.counts
  positive := positive
  get_ends key := by
    obtain ⟨found, run, -⟩ := accounted.find_ends hashValue false key
    rw [get, run]
    exact ⟨_, rfl⟩
  getMut_ends key := by
    obtain ⟨found, run, -⟩ := accounted.find_ends hashValue false key
    exact ⟨found, run⟩
  insertInternal_ends := accounted.insertInternal_ends
  ensured := by
    refine (accounted.ensureCapacity_succeeds memory).mono ?_
    rintro grown ⟨follows, allocated, room⟩
    exact ⟨follows.accounted.counts.exists_empty (by omega), follows.accounted.insertInternal_ends allocated⟩

omit [BEq K] in
theorem Counts.nothing_popped (counts : Counts map) (after : Counts map.popEntry.1) :
    ∀ i < map.cap, ¬ 0 < (map.entries i).hash := by
  intro i inRange isLive
  have isTaken : IsTaken (map.entries i) := ⟨isLive.ne', by rw [tombstone]; omega⟩
  have ne : 0 < map.len := by
    rw [counts.counted]
    exact length_pos_of_mem (mem_filter.mpr ⟨mem_range.mpr inRange, decide_eq_true isTaken⟩)
  rw [popEntry, if_neg ne.ne'] at after
  cases hit : (List.range map.cap).find? fun i => decide ((map.entries i).hash > 0) with
  | none =>
    have notLive := List.find?_eq_none.mp hit i (mem_range.mpr inRange)
    exact notLive (decide_eq_true isLive)
  | some j =>
    rw [hit] at after
    have inRange' : j < map.cap := mem_range.mp (mem_of_find?_eq_some hit)
    have isLive' : 0 < (map.entries j).hash := by simpa using List.find?_some hit
    have marks := marked_put inRange' { map.entries j with hash := tombstone } tombstone
    rw [if_pos rfl, if_neg (by rw [tombstone]; omega)] at marks
    have pre := counts.buried
    have buried : map.tombstones = ((map.put j { map.entries j with hash := tombstone }).marked tombstone).length :=
      after.buried
    omega

end Termination

end Map

namespace TableCall

variable {K V : Type} [BEq K] (memory : Memory) (hashValue : K → Int)

/-- No `pop_entry` of a run finds an entry. -/
def PopsNothing (map : Map K V) : List (TableCall K V) → Prop
  | [] => True
  | call :: calls => map.PopsNothing call ∧
    match perform memory hashValue map call with
    | .ok map => PopsNothing map calls
    | .error _ => True

variable {memory hashValue}
variable {property : Map K V → Prop} {map : Map K V} {calls : List (TableCall K V)}

theorem Throughout.now (throughout : Throughout memory hashValue property map calls) : property map := by
  cases calls with
  | nil => exact throughout
  | cons call calls => exact throughout.1

theorem Throughout.last {map' : Map K V} (throughout : Throughout memory hashValue property map calls)
    (runs : calls.foldlM (perform memory hashValue) map = .ok map') : property map' := by
  induction calls generalizing map with
  | nil =>
    cases runs
    exact throughout
  | cons call calls ih =>
    obtain ⟨-, after⟩ := throughout
    rw [foldlM_cons] at runs
    cases out : perform memory hashValue map call with
    | error panic =>
      rw [out] at runs
      cases runs
    | ok next =>
      rw [out] at runs after
      exact ih after runs

theorem throughout_probes (acc : map.Accounted) (pos : (∀ key, hashValue key ≠ -2 ^ 63) → map.Positive)
    (calls : List (TableCall K V)) :
    Throughout memory hashValue (Map.Probes memory hashValue) map calls ↔ PopsNothing memory hashValue map calls := by
  induction calls generalizing map with
  | nil => exact ⟨fun _ => trivial, fun _ => acc.probes pos⟩
  | cons call calls ih =>
    rw [Throughout, PopsNothing]
    have later (nothing : map.PopsNothing call) :
        (match perform memory hashValue map call with
          | .ok map => Throughout memory hashValue (Map.Probes memory hashValue) map calls
          | .error _ => True) ↔
        match perform memory hashValue map call with
          | .ok map => PopsNothing memory hashValue map calls
          | .error _ => True := by
      have left := acc.perform_leaves hashValue memory call nothing
      cases out : perform memory hashValue map call with
      | error panic => exact Iff.rfl
      | ok map' =>
        rw [out] at left
        exact ih left.accounted fun inRange => left.positive inRange (pos inRange)
    constructor
    · rintro ⟨probes, after⟩
      have nothing : map.PopsNothing call := by
        cases call with
        | popEntry => exact probes.counts.nothing_popped (Throughout.now after).counts
        | _ => trivial
      exact ⟨nothing, (later nothing).mp after⟩
    · rintro ⟨nothing, after⟩
      exact ⟨acc.probes pos, (later nothing).mpr after⟩

variable (memory hashValue)

theorem probing_terminates (calls : List (TableCall K V)) :
    Throughout memory hashValue (Map.Probes memory hashValue) Map.new calls ↔
      PopsNothing memory hashValue Map.new calls := by
  refine throughout_probes ⟨.inl rfl, fun i inRange => absurd inRange (not_lt_zero i), rfl, rfl⟩ ?_ calls
  exact fun _ i inRange => absurd inRange (not_lt_zero i)

/-- Sixteen keys with homes of their own, each popped as soon as it is inserted. -/
def insertAndPop : List (TableCall Nat Nat) :=
  (List.range 16).flatMap fun key => [.insert key key, .popEntry]

def shifted (key : Nat) : Int := key + 16

/-- All slots are deleted and none of them is counted, so that no lookup ends. -/
theorem probing_spins : ∃ map, insertAndPop.foldlM (perform ⟨32, fun _ => true⟩ shifted) Map.new = .ok map ∧
    map.cap = 16 ∧ map.len = 0 ∧ map.tombstones = 0 ∧ (∀ i < map.cap, (map.entries i).hash = tombstone) ∧
    (∀ key steps, map.findLoop false key (Map.makeHashVal shifted key) steps
      (map.index (Map.makeHashVal shifted key)) 0 = .error .diverges) ∧
    ¬ Throughout ⟨32, fun _ => true⟩ shifted (Map.Probes ⟨32, fun _ => true⟩ shifted) Map.new insertAndPop := by
  have filled : (insertAndPop.foldlM (perform ⟨32, fun _ => true⟩ shifted) Map.new).toOption.map (fun map =>
      decide (map.cap = 2 ^ 4 ∧ map.len = 0 ∧ map.tombstones = 0 ∧
        ∀ i < map.cap, (map.entries i).hash = tombstone)) = some true := by decide +kernel
  cases outcome : insertAndPop.foldlM (perform ⟨32, fun _ => true⟩ shifted) Map.new with
  | error panic =>
    rw [outcome] at filled
    cases filled
  | ok map =>
    rw [outcome] at filled
    obtain ⟨isCap, noEntries, notCounted, deleted⟩ := of_decide_eq_true (Option.some_inj.mp filled)
    have spins (key steps : Nat) : map.findLoop false key (Map.makeHashVal shifted key) steps
        (map.index (Map.makeHashVal shifted key)) 0 = .error .diverges :=
      Map.findLoop_spins ⟨4, isCap⟩ deleted key _ (Map.index_lt ⟨4, isCap⟩ _)
    refine ⟨map, rfl, isCap, noEntries, notCounted, deleted, spins, fun throughout => ?_⟩
    obtain ⟨found, ends⟩ := (throughout.last outcome).get_ends 0
    rw [Map.get, Map.find, if_neg (by rw [isCap]; decide)] at ends
    dsimp only at ends
    rw [spins] at ends
    cases ends

end TableCall

end Collections
