import Verum.Collections.MapLanding

namespace Collections

namespace Map

variable {K V : Type} {hashValue : K → Int} {map : Map K V}

section Entering

variable [BEq K]

/-- A call of `entry` rebuilds the table first. -/
def RebuildsFirst (map : Map K V) : Prop :=
  map.cap = 0 ∨ map.cap * loadFactorNum / loadFactorDen ≤ map.len + map.tombstones

/-- The slot of a key that `entry` gets to. -/
def Found (hashValue : K → Int) (map : Map K V) (key : K) (i : Nat) : Prop :=
  i < map.cap ∧ ¬ map.Blocked i ∧ ∃ entry, Fits hashValue map (map.entries i) entry i ∧ (entry.1 == key) = true

/-- What `entry` does to the map, and what it finds. -/
structure Enters (hashValue : K → Int) (map : Map K V) (key : K) (entry : MapEntry K V) : Prop where
  sound : Sound hashValue entry.table
  large : initialCapacity ≤ entry.table.cap
  room : entry.table.len + entry.table.tombstones + 1 < entry.table.cap
  kept : entry.table.contents.Perm map.contents
  rebuilt : map.RebuildsFirst ∧ entry.table.tombstones = 0 ∨ ¬ map.RebuildsFirst ∧ entry.table = map
  isKey : entry.key = key
  occupied : ∀ occupied, entry = .occupied occupied → Found hashValue occupied.map key occupied.idx
  vacant : ∀ vacant, entry = .vacant vacant →
    vacant.hash = makeHashVal hashValue key ∧ ∀ i, ¬ Found hashValue vacant.map key i

theorem ensureCapacity_of_room (memory : Memory) (room : ¬ map.RebuildsFirst) :
    map.ensureCapacity memory = .ok map := by
  obtain ⟨hasTable, hlt⟩ := not_or.mp room
  rw [ensureCapacity, if_neg hasTable]
  dsimp only
  rw [if_neg hlt]

theorem Sound.not_blocked (hs : Sound hashValue map) (fresh : map.tombstones = 0) (i : Nat) : ¬ map.Blocked i := by
  rintro ⟨d, -, deleted⟩
  have none_marked : map.marked tombstone = [] := List.length_eq_zero_iff.mp (hs.buried.symm.trans fresh)
  have marked := mem_marked.mpr ⟨place_lt hs.power (map.entries i).hash d, deleted⟩
  rw [none_marked] at marked
  cases marked

variable [EquivBEq K] (con : ∀ a b : K, a == b → hashValue a = hashValue b)

include con in
theorem Sound.entryLoop_some (hs : Sound hashValue map) {key : K} {i : Nat} (hit : Found hashValue map key i) :
    map.entryLoop key (makeHashVal hashValue key) (map.cap + 1) (map.index (makeHashVal hashValue key)) 0 =
      .ok (some i) := by
  obtain ⟨hr, clear, entry, hf, eq⟩ := hit
  have close := hf.close
  rw [← makeHashVal_congr (con _ _ eq), ← hf.hashed, ← place_zero hs.power]
  exact hs.entryLoop_present hr hf eq clear _ 0 (Nat.zero_le _) (by omega)

include con in
theorem Sound.entryLoop_none (hs : Sound hashValue map) {key : K} (notFound : ∀ i, ¬ Found hashValue map key i) :
    map.entryLoop key (makeHashVal hashValue key) (map.cap + 1) (map.index (makeHashVal hashValue key)) 0 =
      .ok none := by
  by_cases ha : map.Absent key
  · exact entryLoop_absent hs.power ha _
  · rw [Absent] at ha
    push Not at ha
    obtain ⟨i, hr, entry, pos, ie, eq⟩ := ha
    obtain ⟨entry', hf⟩ := hs.fits i hr pos
    obtain rfl : entry' = entry := Option.some_inj.mp (hf.isEntry.symm.trans ie)
    have blocked : map.Blocked i := by
      by_contra clear
      exact notFound i ⟨hr, clear, entry', hf, eq⟩
    obtain ⟨t, hw, deleted⟩ := blocked
    have close := hf.close
    rw [← makeHashVal_congr (con _ _ eq), ← hf.hashed, ← place_zero hs.power]
    exact hs.entryLoop_blocked hr hf eq hw deleted _ 0 (Nat.zero_le _) (by omega)

include con in
theorem Represents.entry_succeeds {es : List (K × V)} (rep : Represents hashValue map es)
    (memory : Memory) (key : K) :
    Succeeds (map.entry memory hashValue key) (Enters hashValue map key) := by
  have ensured := rep.ensureCapacity_succeeds memory
  rw [entry]
  cases out : map.ensureCapacity memory with
  | error panic =>
    rw [out] at ensured
    exact ensured
  | ok grown =>
    rw [out] at ensured
    obtain ⟨represents', room, hf⟩ := ensured
    have rebuilt : map.RebuildsFirst ∧ grown.tombstones = 0 ∨ ¬ map.RebuildsFirst ∧ grown = map := by
      by_cases fst : map.RebuildsFirst
      · refine .inl ⟨fst, hf.resolve_right ?_⟩
        rintro ⟨-, hlt⟩
        rcases fst with noTable | full
        · rw [noTable, Nat.zero_mul, Nat.zero_div] at hlt
          exact Nat.not_lt_zero _ hlt
        · exact Nat.not_lt_of_le full hlt
      · rw [ensureCapacity_of_room memory fst] at out
        exact .inr ⟨fst, (Except.ok.inj out).symm⟩
    have kept := represents'.contents_perm.trans rep.contents_perm.symm
    cases represents' with
    | unallocated noTable => omega
    | table hs large =>
      rw [okBind]
      dsimp only
      by_cases hit : ∃ i, Found hashValue grown key i
      · obtain ⟨i, isFound⟩ := hit
        rw [hs.entryLoop_some con isFound]
        refine .ok ⟨hs, large, room, kept, rebuilt, rfl, ?_, ?_⟩
        · rintro _ ⟨⟩
          exact isFound
        · rintro _ ⟨⟩
      · have notFound := not_exists.mp hit
        rw [hs.entryLoop_none con notFound]
        refine .ok ⟨hs, large, room, kept, rebuilt, rfl, ?_, ?_⟩
        · rintro _ ⟨⟩
        · rintro _ ⟨⟩
          exact ⟨rfl, notFound⟩

end Entering

section Reaching

variable [BEq K]

/-- The key has been added to a map, and a write through the reference to the slot changes its value and no other. -/
structure AddsOwn (map : Map K V) (key : K) (value : V) (result : Map K V × Nat) : Prop where
  inRange : result.2 < result.1.cap
  names : live (result.1.entries result.2) = some (key, value)
  added : result.1.contents.Perm ((key, value) :: map.contents)
  writes : ∀ value', (result.1.setValue result.2 value').contents.Perm ((key, value') :: map.contents)

/-- The entry that a call of `entry` returns is that of its own key. -/
structure ReachesOwn (map : Map K V) (key : K) (default : V) (entry : MapEntry K V) : Prop where
  occupied_iff : (∃ occupied, entry = .occupied occupied) ↔ ¬ map.Absent key
  names : ∀ occupied, entry = .occupied occupied → occupied.idx < occupied.map.cap ∧
    ∃ resident, live (occupied.map.entries occupied.idx) = some resident ∧ (resident.1 == key) = true
  orInsert : map.Absent key → ∃ result, entry.orInsert default = .ok result ∧ AddsOwn map key default result
  orInsertWith : map.Absent key → ∀ f, f () = default →
    ∃ result, entry.orInsertWith f = .ok result ∧ AddsOwn map key default result
  orInsertWithKey : map.Absent key → ∀ f, f key = default →
    ∃ result, entry.orInsertWithKey f = .ok result ∧ AddsOwn map key default result
  insert : map.Absent key → ∀ vacant, entry = .vacant vacant →
    ∃ result, vacant.insert default = .ok result ∧ AddsOwn map key default result

/-- No deleted slot stops `entry` before the slot of the key; and if the key is absent, its hash has an absolute
value, and a deleted slot comes before every slot with the same hash. -/
def EntryClear (hashValue : K → Int) (map : Map K V) (key : K) : Prop :=
  (∀ i < map.cap, ∀ entry, 0 < (map.entries i).hash → (map.entries i).contents = some entry → entry.1 == key →
    map.RebuildsFirst ∨ ¬ map.Blocked i) ∧
  (map.Absent key → hashValue key ≠ -2 ^ 63 ∧
    ∀ i < map.cap, (map.entries i).hash = makeHashVal hashValue key → ¬ map.RebuildsFirst ∧ map.Blocked i)

variable {key : K} {map' : Map K V} {value default : V} {hash : Int} {p : Nat} {vacant : VacantEntry K V}
  {es : List (K × V)} {entry : MapEntry K V}

theorem absent_iff : map.Absent key ↔ ∀ entry ∈ map.contents, ¬ (entry.1 == key) = true := by
  constructor
  · intro ha entry mem
    obtain ⟨i, hr, pos, ie⟩ := mem_contents.mp mem
    exact ha i hr entry pos ie
  · intro none_same i hr entry pos ie
    exact none_same entry (mem_contents.mpr ⟨i, hr, pos, ie⟩)

theorem absent_congr (kept : map'.contents.Perm map.contents) : map'.Absent key ↔ map.Absent key := by
  rw [absent_iff, absent_iff]
  exact forall_congr' fun entry => by rw [kept.mem_iff]

omit [BEq K] in
theorem contents_setValue {i : Nat} (hr : i < map.cap) (isLive : live (map.entries i) = some (key, value))
    {rest : List (K × V)} (isContents : map.contents.Perm ((key, value) :: rest)) (v' : V) :
    (map.setValue i v').contents.Perm ((key, v') :: rest) := by
  obtain ⟨pos, ie⟩ := live_some isLive
  obtain ⟨others, pre, after⟩ := contents_put hr
    { map.entries i with contents := (map.entries i).contents.map fun entry => (entry.1, v') }
  have isLive' :
      live { map.entries i with contents := (map.entries i).contents.map fun entry => (entry.1, v') } =
        some (key, v') := live_of_positive pos (by rw [ie]; rfl)
  rw [isLive] at pre
  rw [isLive'] at after
  exact after.trans ((List.perm_cons _).mp (pre.symm.trans isContents) |>.cons _)

variable [EquivBEq K]

theorem Sound.insertInternal_lands (hs : Sound hashValue map) (room : map.len + map.tombstones < map.cap)
    (value : V) (pos : 0 < makeHashVal hashValue key) (ha : map.Absent key) :
    ∃ map' p, map.insertInternal key value (makeHashVal hashValue key) = .ok (map', none) ∧ p < map.cap ∧
      Lands map (key, value) (makeHashVal hashValue key) 0 p map' := by
  obtain ⟨t, hr, vacant, -⟩ := hs.exists_vacant room (makeHashVal hashValue key)
  have nd : Distinct ((key, value) :: map.contents) := by
    refine List.pairwise_cons.mpr ⟨fun entry mem eq => ?_, hs.distinct⟩
    exact absent_iff.mp ha entry mem (BEq.symm eq)
  obtain ⟨map', p, run, -, hw, lands⟩ := insertLoop_lands (d := 0) (r := t) hs.power
    (fun i => hs.live_isSome) nd pos (by omega) (by rwa [Nat.zero_add]) (Nat.lt_succ_of_lt hr)
  rw [place_zero hs.power] at run
  exact ⟨map', p, run, by omega, lands⟩

omit [EquivBEq K] in
theorem Lands.first_iff (hs : Sound hashValue map) {entry : K × V} (pos : 0 < hash)
    (inRange : p < map.cap) (lands : Lands map entry hash 0 p map') :
    (∀ e < p, (map.entries (map.place hash e)).hash ≠ hash) ↔
      ∀ i < map.cap, (map.entries i).hash = hash → map.Blocked i := by
  constructor
  · intro fst i within isHash
    obtain ⟨resident, fits⟩ := hs.fits i within (isHash ▸ pos)
    have located := fits.located
    have passed := fits.passed
    rw [isHash] at located passed
    by_contra clear
    have occupied {d : Nat} (hlt : d < (map.entries i).psl) : 0 < (map.entries (map.place hash d)).hash := by
      rcases hs.kinds _ (place_lt hs.power hash d) with empty | deleted | isLive
      · exact absurd empty (passed d hlt).1
      · exact absurd ⟨d, hlt, by rwa [isHash]⟩ clear
      · exact isLive
    have beyond : (map.entries i).psl < p := by
      by_contra notBeyond
      rcases Nat.lt_or_eq_of_le (Nat.le_of_not_lt notBeyond) with hlt | here
      · rcases lands.stopped with vacant | closer
        · exact vacant (occupied hlt)
        · have behind := (passed p hlt).2 (occupied hlt)
          omega
      · have atSlot : map.place hash p = i := by rw [here, located]
        have stopped := lands.stopped
        rw [atSlot, isHash] at stopped
        omega
    exact fst _ beyond (by rw [located, isHash])
  · intro blocked e hlt isHash
    obtain ⟨d, pre, deleted⟩ := blocked _ (place_lt hs.power hash e) isHash
    obtain ⟨resident, fits⟩ := hs.fits _ (place_lt hs.power hash e) (by rwa [isHash])
    have located := fits.located
    rw [isHash] at located deleted
    have isPsl := place_inj fits.close (hlt.trans inRange) located
    have isLive := (lands.passed d (Nat.zero_le d) (by omega)).1
    rw [deleted, tombstone] at isLive
    omega

omit [BEq K] [EquivBEq K] in
theorem Lands.addsOwn (lands : Lands map (key, value) hash 0 p map') (power : ∃ k, map.cap = 2 ^ k)
    (pos : 0 < hash) : AddsOwn map key value (map', map.place hash p) := by
  have hr : map.place hash p < map'.cap := lands.sameCap ▸ place_lt power hash p
  have isLive : live (map'.entries (map.place hash p)) = some (key, value) := by
    rw [lands.landed]
    exact live_of_positive pos rfl
  exact ⟨hr, isLive, lands.added, fun v' => contents_setValue hr isLive lands.added v'⟩

theorem Lands.finds_own_iff (power : ∃ k, map.cap = 2 ^ k) (lands : Lands map (key, value) hash 0 p map')
    (pos : 0 < hash) (inRange : p < map.cap) (absent : map.Absent key) :
    (∃ idx, map'.slotOfHash hash map'.cap (map'.index hash) = .ok idx ∧ AddsOwn map key value (map', idx)) ↔
      ∀ e < p, (map.entries (map.place hash e)).hash ≠ hash := by
  have samePlace (d : Nat) : map'.place hash d = map.place hash d := by rw [place, place, index, index, lands.sameCap]
  have power' : ∃ k, map'.cap = 2 ^ k := lands.sameCap ▸ power
  have finds {e : Nat} (hlt : e ≤ p) (isHash : (map'.entries (map.place hash e)).hash = hash)
      (fst : ∀ d < e, (map.entries (map.place hash d)).hash ≠ hash) :
      map'.slotOfHash hash map'.cap (map'.index hash) = .ok (map.place hash e) := by
    rw [← place_zero power', ← samePlace e]
    refine slotOfHash_first power' pos (by rwa [samePlace]) (fun d pre => ?_) _ 0 (Nat.zero_le _) ?_
    · rw [samePlace, lands.kept d (by omega)]
      exact fst d pre
    · rw [lands.sameCap]
      omega
  constructor
  · rintro ⟨idx, searched, own⟩ e hlt isHash
    -- the first slot with the hash is that of another entry
    have some_before : ∃ e, (map.entries (map.place hash e)).hash = hash := ⟨e, isHash⟩
    have firstBelow : Nat.find some_before < p := (Nat.find_min' some_before isHash).trans_lt hlt
    have keptFirst := lands.kept _ firstBelow
    have isFirst := (congrArg Slot.hash keptFirst).trans (Nat.find_spec some_before)
    rw [finds firstBelow.le isFirst fun d => Nat.find_min some_before] at searched
    cases searched
    have isLive := own.names
    dsimp only at isLive
    rw [keptFirst] at isLive
    obtain ⟨isPositive, ie⟩ := live_some isLive
    exact absent _ (place_lt power _ _) _ isPositive ie BEq.rfl
  · intro fst
    exact ⟨_, finds le_rfl (by rw [lands.landed]) fst, lands.addsOwn power pos⟩

omit [EquivBEq K] in
theorem insert_diverges (notPositive : vacant.hash ≤ 0) (value : V) (res : Map K V × Nat) :
    vacant.insert value ≠ .ok res := by
  intro run
  rw [VacantEntry.insert] at run
  cases inserted : vacant.map.insertInternal vacant.key value vacant.hash with
  | error panic =>
    rw [inserted] at run
    cases run
  | ok pair =>
    rw [inserted, okBind] at run
    cases searched : pair.1.slotOfHash vacant.hash pair.1.cap (pair.1.index vacant.hash) with
    | error panic =>
      dsimp only at run
      rw [searched] at run
      cases run
    | ok idx =>
      obtain ⟨pos, isHash⟩ := slotOfHash_found searched
      omega

theorem Sound.insert_own_iff (hs : Sound hashValue vacant.map)
    (room : vacant.map.len + vacant.map.tombstones < vacant.map.cap)
    (hashed : vacant.hash = makeHashVal hashValue vacant.key) (ha : vacant.map.Absent vacant.key) (value : V) :
    (∃ res, vacant.insert value = .ok res ∧ AddsOwn vacant.map vacant.key value res) ↔
      hashValue vacant.key ≠ -2 ^ 63 ∧ ∀ i < vacant.map.cap,
        (vacant.map.entries i).hash = makeHashVal hashValue vacant.key → vacant.map.Blocked i := by
  by_cases hr : hashValue vacant.key = -2 ^ 63
  · have notPositive : vacant.hash ≤ 0 := by
      rw [hashed, makeHashVal, wrappingAbs, if_pos hr, hr]
      decide
    refine ⟨?_, fun clear => absurd hr clear.1⟩
    rintro ⟨res, run, -⟩
    exact absurd run (insert_diverges notPositive value res)
  · have pos := makeHashVal_pos hr
    obtain ⟨map', p, run, hw, lands⟩ := hs.insertInternal_lands room value pos ha
    rw [← lands.first_iff hs pos hw, ← lands.finds_own_iff hs.power pos hw ha,
      VacantEntry.insert, hashed, run, okBind]
    dsimp only
    constructor
    · rintro ⟨res, searched, own⟩
      cases hit : map'.slotOfHash (makeHashVal hashValue vacant.key) map'.cap
          (map'.index (makeHashVal hashValue vacant.key)) with
      | error panic =>
        rw [hit] at searched
        cases searched
      | ok idx =>
        rw [hit] at searched
        cases searched
        exact ⟨hr, idx, rfl, own⟩
    · rintro ⟨-, idx, searched, own⟩
      rw [searched]
      exact ⟨_, rfl, own⟩

omit [BEq K] [EquivBEq K] in
theorem AddsOwn.congr {res : Map K V × Nat} (kept : map'.contents.Perm map.contents)
    (own : AddsOwn map' key value res) : AddsOwn map key value res :=
  ⟨own.inRange, own.names, own.added.trans (kept.cons _), fun v' => (own.writes v').trans (kept.cons _)⟩

omit [EquivBEq K] in
theorem Represents.hash_iff (rep : Represents hashValue map es) (pos : 0 < hash) :
    (∃ i < map.cap, (map.entries i).hash = hash) ↔ ∃ entry ∈ map.contents, makeHashVal hashValue entry.1 = hash := by
  constructor
  · rintro ⟨i, hr, isHash⟩
    obtain ⟨entry, ie, hashed⟩ := rep.residents hr (by rwa [isHash])
    exact ⟨entry, mem_contents.mpr ⟨i, hr, by rwa [isHash], ie⟩, hashed.symm.trans isHash⟩
  · rintro ⟨entry, mem, isHash⟩
    obtain ⟨i, hr, isLive, ie⟩ := mem_contents.mp mem
    obtain ⟨entry', isEntry', hashed⟩ := rep.residents hr isLive
    obtain rfl : entry' = entry := Option.some_inj.mp (isEntry'.symm.trans ie)
    exact ⟨i, hr, hashed.trans isHash⟩

omit [EquivBEq K] in
theorem ReachesOwn.iff_insert (isKey : vacant.key = key) (ha : map.Absent key) :
    ReachesOwn map key default (.vacant vacant) ↔
      ∃ res, vacant.insert default = .ok res ∧ AddsOwn map key default res := by
  constructor
  · intro reaches
    exact reaches.insert ha vacant rfl
  · intro own
    refine ⟨?_, ?_, fun _ => own, ?_, ?_, ?_⟩
    · refine ⟨?_, fun has => absurd ha has⟩
      rintro ⟨_, ⟨⟩⟩
    · rintro _ ⟨⟩
    · rintro - f rfl
      rwa [MapEntry.orInsertWith_eq]
    · rintro - f rfl
      rw [MapEntry.orInsertWithKey_eq, MapEntry.key, isKey]
      exact own
    · rintro - _ ⟨⟩
      exact own

omit [EquivBEq K] in
theorem Enters.iff_occupied (enters : Enters hashValue map key entry) (has : ¬ map.Absent key) :
    ReachesOwn map key default entry ↔ ∃ i, Found hashValue entry.table key i := by
  constructor
  · intro reaches
    obtain ⟨occupied, rfl⟩ := reaches.occupied_iff.mpr has
    exact ⟨occupied.idx, enters.occupied occupied rfl⟩
  · rintro ⟨i, hit⟩
    cases entry with
    | vacant vacant => exact absurd hit ((enters.vacant vacant rfl).2 i)
    | occupied occupied =>
      refine ⟨⟨fun _ => has, fun _ => ⟨occupied, rfl⟩⟩, ?_, fun ha => absurd ha has,
        fun ha => absurd ha has, fun ha => absurd ha has, fun ha => absurd ha has⟩
      rintro _ ⟨⟩
      obtain ⟨hr, -, resident, hf, eq⟩ := enters.occupied occupied rfl
      exact ⟨hr, resident, live_fits hf, eq⟩

omit [EquivBEq K] in
theorem Enters.represents (enters : Enters hashValue map key entry) :
    Represents hashValue entry.table map.contents :=
  .table enters.sound enters.large (Nat.lt_of_succ_lt enters.room) enters.kept

theorem Enters.found_iff (enters : Enters hashValue map key entry) (has : ¬ map.Absent key) :
    (∃ i, Found hashValue entry.table key i) ↔ EntryClear hashValue map key := by
  have hs := enters.sound
  have presentTable : ¬ entry.table.Absent key := fun ha => has ((absent_congr enters.kept).mp ha)
  rw [Absent] at presentTable
  push Not at presentTable
  obtain ⟨i, hr, resident, pos, ie, eq⟩ := presentTable
  obtain ⟨resident', hf⟩ := hs.fits i hr pos
  obtain rfl : resident' = resident := Option.some_inj.mp (hf.isEntry.symm.trans ie)
  rcases enters.rebuilt with ⟨fst, fresh⟩ | ⟨notFirst, isMap⟩
  · refine ⟨fun _ => ⟨fun _ _ _ _ _ _ => .inl fst, fun ha => absurd ha has⟩, fun _ => ?_⟩
    exact ⟨i, hr, hs.not_blocked fresh i, resident', hf, eq⟩
  · rw [isMap] at hs hr hf pos ie ⊢
    constructor
    · rintro ⟨j, inRange', clear, resident, fits', same'⟩
      refine ⟨fun k inRange'' other isLive isOther sameOther => .inr ?_, fun ha => absurd ha has⟩
      have isSlot := hs.unique j inRange' resident fits'.positive fits'.isEntry k inRange'' other isLive isOther
        (BEq.trans sameOther (BEq.symm same'))
      rwa [isSlot]
    · intro clear
      exact ⟨i, hr, (clear.1 i hr resident' pos ie eq).resolve_left notFirst, resident', hf,
        eq⟩

omit [EquivBEq K] in
theorem Enters.blocked_iff (rep : Represents hashValue map es)
    (enters : Enters hashValue map key entry) (hr : hashValue key ≠ -2 ^ 63) :
    (∀ i < entry.table.cap, (entry.table.entries i).hash = makeHashVal hashValue key → entry.table.Blocked i) ↔
      ∀ i < map.cap, (map.entries i).hash = makeHashVal hashValue key → ¬ map.RebuildsFirst ∧ map.Blocked i := by
  have pos := makeHashVal_pos hr
  rcases enters.rebuilt with ⟨fst, hf⟩ | ⟨notFirst, isMap⟩
  · have eq : (∃ i < entry.table.cap, (entry.table.entries i).hash = makeHashVal hashValue key) ↔
        ∃ i < map.cap, (map.entries i).hash = makeHashVal hashValue key := by
      rw [enters.represents.hash_iff pos, rep.hash_iff pos]
      exact exists_congr fun entry => and_congr_left fun _ => enters.kept.mem_iff
    constructor
    · intro blocked i hw isHash
      obtain ⟨j, within', isHash'⟩ := eq.mpr ⟨i, hw, isHash⟩
      exact absurd (blocked j within' isHash') (enters.sound.not_blocked hf j)
    · intro blocked i hw isHash
      obtain ⟨j, within', isHash'⟩ := eq.mp ⟨i, hw, isHash⟩
      exact absurd fst (blocked j within' isHash').1
  · rw [isMap]
    exact forall_congr' fun i => forall_congr' fun _ => forall_congr' fun _ =>
      ⟨fun blocked => ⟨notFirst, blocked⟩, And.right⟩

theorem Enters.insert_iff (rep : Represents hashValue map es)
    (enters : Enters hashValue map key (.vacant vacant)) (ha : map.Absent key) (default : V) :
    (∃ res, vacant.insert default = .ok res ∧ AddsOwn map key default res) ↔
      EntryClear hashValue map key := by
  have isKey : vacant.key = key := enters.isKey
  have kept : vacant.map.contents.Perm map.contents := enters.kept
  have own := Sound.insert_own_iff enters.sound (Nat.lt_of_succ_lt enters.room)
    ((enters.vacant vacant rfl).1.trans (by rw [isKey])) (by rw [isKey]; exact (absent_congr kept).mpr ha) default
  rw [isKey] at own
  have cleared : EntryClear hashValue map key ↔ hashValue key ≠ -2 ^ 63 ∧
      ∀ i < map.cap, (map.entries i).hash = makeHashVal hashValue key → ¬ map.RebuildsFirst ∧ map.Blocked i := by
    refine ⟨fun clear => clear.2 ha, fun clear => ⟨fun i hr entry pos ie eq => ?_,
      fun _ => clear⟩⟩
    exact absurd eq (ha i hr entry pos ie)
  calc (∃ res, vacant.insert default = .ok res ∧ AddsOwn map key default res)
    _ ↔ ∃ res, vacant.insert default = .ok res ∧ AddsOwn vacant.map key default res :=
      exists_congr fun res => and_congr_right fun _ => ⟨AddsOwn.congr kept.symm, AddsOwn.congr kept⟩
    _ ↔ _ := own
    _ ↔ _ := and_congr_right fun hr => enters.blocked_iff rep hr
    _ ↔ _ := cleared.symm

theorem Enters.reachesOwn_iff (rep : Represents hashValue map es)
    (enters : Enters hashValue map key entry) (default : V) :
    ReachesOwn map key default entry ↔ EntryClear hashValue map key := by
  by_cases ha : map.Absent key
  · cases entry with
    | occupied occupied =>
      obtain ⟨hr, -, resident, hf, eq⟩ := enters.occupied occupied rfl
      exact absurd eq ((absent_congr enters.kept).mpr ha _ hr resident hf.positive hf.isEntry)
    | vacant vacant =>
      rw [ReachesOwn.iff_insert enters.isKey ha]
      exact enters.insert_iff rep ha default
  · rw [enters.iff_occupied ha]
    exact enters.found_iff ha

end Reaching

end Map

end Collections
