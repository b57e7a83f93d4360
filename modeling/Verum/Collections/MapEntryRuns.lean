import Verum.Collections.MapEntryReach

namespace Collections

namespace Map

variable {K V : Type} {hashValue : K → Int} {map : Map K V}

section Keeping

variable [BEq K] {entries : List (K × V)}

def Kept (hashValue : K → Int) (map : Map K V) : Prop := ∃ entries, Represents hashValue map entries

theorem Represents.kept (rep : Represents hashValue map entries) : Kept hashValue map := ⟨entries, rep⟩

variable {i : Nat} {entry : K × V}

theorem Represents.bury (rep : Represents hashValue map entries) (inRange : i < map.cap)
    (isLive : 0 < (map.entries i).hash) (slot : Slot K V) (deleted : slot.hash = tombstone) :
    Kept hashValue { map.put i slot with len := map.len - 1, tombstones := map.tombstones + 1 } := by
  cases rep with
  | unallocated noTable => omega
  | table hs large room =>
    obtain ⟨entry, fits⟩ := hs.fits i inRange isLive
    obtain ⟨ne, sound', rest, -, after⟩ := hs.delete inRange fits slot deleted
    exact ⟨rest, .table sound' large (by dsimp only [put_cap]; omega) after⟩

variable [EquivBEq K]

theorem Represents.revalue (rep : Represents hashValue map entries) (hr : i < map.cap)
    (isLive : live (map.entries i) = some entry) (v : V) :
    Kept hashValue (map.put i { map.entries i with contents := some (entry.1, v) }) := by
  obtain ⟨pos, ie⟩ := live_some isLive
  cases rep with
  | unallocated noTable => omega
  | table hs large room =>
    obtain ⟨entry', hf⟩ := hs.fits i hr pos
    obtain rfl : entry' = entry := Option.some_inj.mp (hf.isEntry.symm.trans ie)
    obtain ⟨sound', rest, -, after⟩ := hs.revalue hr hf v
    exact ⟨_, .table sound' large room after⟩

theorem Represents.setValue (rep : Represents hashValue map entries) (hr : i < map.cap)
    (isLive : live (map.entries i) = some entry) (v : V) : Kept hashValue (map.setValue i v) := by
  rw [Map.setValue, (live_some isLive).2]
  exact rep.revalue hr isLive v

theorem Represents.resize_kept (rep : Represents hashValue map entries) (memory : Memory) {newCap : Nat}
    (power : ∃ k, newCap = 2 ^ k) (large : initialCapacity ≤ newCap) (he : map.len < newCap) :
    Succeeds (map.resize memory newCap) (Kept hashValue) :=
  (rep.resize_succeeds memory power he).mono fun _ rebuilds =>
    (Represents.of_rebuilds rebuilds large (rep.len_eq ▸ he)).kept

theorem Represents.compact_kept (rep : Represents hashValue map entries) (memory : Memory)
    (allocated : 0 < map.cap) :
    Succeeds (map.compact memory) (Kept hashValue) := by
  cases rep with
  | unallocated noTable => omega
  | table hs large room hh =>
    have short : map.len < map.cap := by omega
    exact (Represents.table hs large room hh).resize_kept memory hs.power large short

theorem Represents.removeAt_kept (rep : Represents hashValue map entries) (memory : Memory)
    (inRange : i < map.cap) (isLive : 0 < (map.entries i).hash) :
    Succeeds (map.removeAt memory i) (Kept hashValue) := by
  obtain ⟨rest, represents'⟩ := rep.bury inRange isLive { map.entries i with hash := tombstone } rfl
  rw [removeAt]
  dsimp only
  split
  · exact represents'.compact_kept memory (by dsimp only [put_cap]; omega)
  · exact .ok represents'.kept

theorem Represents.sweepAt_kept (rep : Represents hashValue map entries) (f : K → V → V × Bool)
    (hr : i < map.cap) :
    Succeeds (map.sweepAt f i) fun res => Kept hashValue res.1 ∧ res.1.cap = map.cap := by
  rw [sweepAt]
  dsimp only
  split
  · rename_i pos
    obtain ⟨entry, ie, -⟩ := rep.residents hr pos
    rw [ie]
    dsimp only
    split
    · exact .ok ⟨rep.revalue hr (live_of_positive pos ie) _, rfl⟩
    · exact .ok ⟨rep.bury hr pos _ rfl, rfl⟩
  · exact .ok ⟨rep.kept, rfl⟩

theorem Represents.sweepLoop_kept (rep : Represents hashValue map entries) (f : K → V → V × Bool)
    (idxs : List Nat) (hr : ∀ i ∈ idxs, i < map.cap) :
    Succeeds (sweepLoop f map idxs) fun res => Kept hashValue res.1 ∧ res.1.cap = map.cap := by
  induction idxs generalizing map entries with
  | nil => exact .ok ⟨rep.kept, rfl⟩
  | cons i idxs ih =>
    rw [sweepLoop]
    refine (rep.sweepAt_kept f (hr i List.mem_cons_self)).bind ?_
    rintro ⟨map', removed⟩ ⟨⟨entries', represents'⟩, sameCap⟩
    refine (ih represents' fun j mem => ?_).bind ?_
    · exact sameCap ▸ hr j (List.mem_cons_of_mem i mem)
    · rintro ⟨map'', extracted⟩ ⟨kept, sameCap'⟩
      exact .ok ⟨kept, sameCap'.trans sameCap⟩

theorem Represents.sweep_kept (rep : Represents hashValue map entries) (memory : Memory)
    (f : K → V → V × Bool) :
    Succeeds (map.sweep memory f) fun res => Kept hashValue res.1 := by
  rw [sweep]
  split
  · exact .ok rep.kept
  · rename_i hasTable
    refine (rep.sweepLoop_kept f _ fun i mem => List.mem_range.mp mem).bind ?_
    rintro ⟨map', extracted⟩ ⟨⟨entries', represents'⟩, sameCap⟩
    dsimp only at represents' sameCap ⊢
    split
    · exact (represents'.compact_kept memory (by omega)).bind fun map'' kept => .ok kept
    · exact .ok represents'.kept

theorem Represents.shrinkTable_kept (rep : Represents hashValue map entries) (memory : Memory) {tgt : Int}
    (he : map.len < tgt) : Succeeds (map.shrinkTable memory tgt) (Kept hashValue) := by
  rw [shrinkTable]
  refine (doubled_succeeds 63 ⟨4, rfl⟩ (by decide)).bind ?_
  rintro newCap ⟨power, large, reaches⟩
  split
  · exact rep.resize_kept memory power large (by omega)
  · exact .ok rep.kept

theorem Represents.shrinkToFit_kept (rep : Represents hashValue map entries) (memory : Memory) :
    Succeeds (map.shrinkToFit memory) (Kept hashValue) := by
  rw [shrinkToFit]
  split
  · rename_i noEntries
    split
    · exact .ok ⟨[], .unallocated rfl noEntries rfl rfl⟩
    · exact .ok rep.kept
  · exact (minForLoad_succeeds map).bind fun min he => rep.shrinkTable_kept memory he

theorem Represents.shrinkTo_kept (rep : Represents hashValue map entries) (memory : Memory)
    (minCapacity : Int) :
    Succeeds (map.shrinkTo memory minCapacity) (Kept hashValue) := by
  rw [shrinkTo]
  refine (minForLoad_succeeds map).bind fun min he => rep.shrinkTable_kept memory ?_
  split <;> omega

end Keeping

section Calls

variable [BEq K]

/-- An insertion that `hashValue` and the order of the table allow. -/
def MayInsert (hashValue : K → Int) (map : Map K V) (key : K) : Prop :=
  hashValue key ≠ -2 ^ 63 ∧
    (map.len + map.tombstones < map.cap * loadFactorNum / loadFactorDen → KeepsOrder hashValue map key)

variable [EquivBEq K] (consistent : ∀ a b : K, a == b → hashValue a = hashValue b)
variable {key : K} {entry : MapEntry K V}

include consistent in
theorem Enters.insert_kept {vacant : VacantEntry K V} (enters : Enters hashValue map key (.vacant vacant))
    (may : MayInsert hashValue map key) (v : V) :
    Leaves (vacant.insert v) fun res => Kept hashValue res.1 := by
  have isKey : vacant.key = key := enters.isKey
  have hk : KeepsOrder hashValue vacant.map key := by
    rcases enters.rebuilt with ⟨-, hf⟩ | ⟨notFirst, isMap⟩
    · exact enters.sound.keepsOrder_of_fresh hf
    · change vacant.map = map at isMap
      rw [isMap]
      exact may.2 (Nat.lt_of_not_le (not_or.mp notFirst).2)
  obtain ⟨map', inserted, rep⟩ := enters.represents.insertInternal_succeeds consistent enters.room hk
    (makeHashVal_pos may.1) v
  change vacant.map.insertInternal _ _ _ = _ at inserted
  rw [VacantEntry.insert, (enters.vacant vacant rfl).1, isKey, inserted, okBind]
  dsimp only
  cases map'.slotOfHash (makeHashVal hashValue key) map'.cap (map'.index (makeHashVal hashValue key)) with
  | error panic => trivial
  | ok idx => exact rep.kept

include consistent in
theorem Enters.orInsert_kept (enters : Enters hashValue map key entry) (may : MayInsert hashValue map key)
    (default : V) : Leaves (entry.orInsert default) fun res => Kept hashValue res.1 := by
  cases entry with
  | occupied occupied => exact .ok enters.represents.kept
  | vacant vacant => exact enters.insert_kept consistent may default

include consistent in
theorem Represents.entryInsert_kept {entries : List (K × V)} (rep : Represents hashValue map entries)
    (memory : Memory) (may : MayInsert hashValue map key) (v : V) :
    Leaves (TableCall.perform memory hashValue map (.entryInsert key v)) (Kept hashValue) := by
  refine (leaves_of_succeeds (rep.entry_succeeds consistent memory key)).bind fun entry enters => ?_
  cases entry with
  | occupied occupied =>
    obtain ⟨hr, -, resident, hf, -⟩ := enters.occupied occupied rfl
    exact .ok (enters.represents.setValue hr (live_fits hf) v)
  | vacant vacant => exact (enters.insert_kept consistent may v).bind fun _ kept => .ok kept

theorem Enters.andModify_kept (enters : Enters hashValue map key entry) (f : V → V) :
    Kept hashValue (entry.andModify f).table := by
  cases entry with
  | vacant vacant => exact enters.represents.kept
  | occupied occupied =>
    obtain ⟨hr, -, resident, hf, -⟩ := enters.occupied occupied rfl
    rw [MapEntry.andModify]
    split
    · exact enters.represents.setValue hr (live_fits hf) _
    · exact enters.represents.kept

end Calls

end Map

namespace TableCall

section Runs

variable {K V : Type} [BEq K] (memory : Memory) (hashValue : K → Int)

/-- An insertion is allowed, and a `pop_entry` finds no entry. -/
def Safe (map : Map K V) : TableCall K V → Prop
  | .insert key _ | .entryInsert key _ | .entryOrInsert key _ | .entryOrInsertWith key _
  | .entryOrInsertWithKey key _ => map.MayInsert hashValue key
  | .popEntry => ∀ i < map.cap, ¬ 0 < (map.entries i).hash
  | _ => True

/-- Every call is safe in the state that the calls before it have led to. -/
def SafeFrom (map : Map K V) : List (TableCall K V) → Prop
  | [] => True
  | call :: calls => call.Safe hashValue map ∧
    match perform memory hashValue map call with
    | .ok map => SafeFrom map calls
    | .error _ => True

instance (map : Map K V) : (call : TableCall K V) → Decidable (call.Safe hashValue map)
  | .insert _ _ | .entryOrInsert _ _ | .entryOrInsertWith _ _ | .entryOrInsertWithKey _ _ | .entryInsert _ _ =>
    inferInstanceAs (Decidable (_ ∧ (_ → _)))
  | .popEntry => inferInstanceAs (Decidable (∀ i < map.cap, _))
  | .remove _ | .clear | .reserve _ | .shrinkToFit | .shrinkTo _ | .retain _ | .extractIf _ | .entryAndModify _ _
  | .entryRemove _ => .isTrue trivial

instance decidableSafeFrom : (map : Map K V) → (calls : List (TableCall K V)) →
    Decidable (SafeFrom memory hashValue map calls)
  | _, [] => .isTrue trivial
  | map, call :: calls =>
    let later : Decidable (match perform memory hashValue map call with
        | .ok map => SafeFrom memory hashValue map calls
        | .error _ => True) :=
      match perform memory hashValue map call with
      | .ok map => decidableSafeFrom map calls
      | .error _ => .isTrue trivial
    @instDecidableAnd _ _ inferInstance later

variable {hashValue} [EquivBEq K] (consistent : ∀ a b : K, a == b → hashValue a = hashValue b)
include consistent

variable {map : Map K V} {entries : List (K × V)}

theorem perform_kept (rep : map.Represents hashValue entries) (call : TableCall K V)
    (safe : call.Safe hashValue map) : Map.Leaves (perform memory hashValue map call) (Map.Kept hashValue) := by
  have entered (key : K) := Map.leaves_of_succeeds (rep.entry_succeeds consistent memory key)
  cases call with
  | insert key v =>
    have inserted := rep.insert_succeeds consistent memory v safe.1 safe.2
    exact (Map.leaves_of_succeeds inserted).bind fun _ rep => .ok rep.1.kept
  | remove key =>
    have removed := rep.remove_succeeds consistent memory key
    exact (Map.leaves_of_succeeds removed).bind fun _ rep => .ok rep.1.kept
  | clear => exact .ok rep.clear_represents.kept
  | reserve additional =>
    exact (Map.leaves_of_succeeds (rep.reserve_succeeds memory additional)).mono fun _ => Map.Represents.kept
  | shrinkToFit => exact Map.leaves_of_succeeds (rep.shrinkToFit_kept memory)
  | shrinkTo minCapacity => exact Map.leaves_of_succeeds (rep.shrinkTo_kept memory minCapacity)
  | retain f => exact (Map.leaves_of_succeeds (rep.sweep_kept memory f)).bind fun _ kept => .ok kept
  | extractIf f => exact (Map.leaves_of_succeeds (rep.sweep_kept memory _)).bind fun _ kept => .ok kept
  | popEntry =>
    change Map.Leaves (.ok map.popEntry.1) _
    rw [Map.popEntry_of_nothing safe]
    exact .ok rep.kept
  | entryOrInsert key default =>
    exact (entered key).bind fun _ enters =>
      (enters.orInsert_kept consistent safe default).bind fun _ kept => .ok kept
  | entryOrInsertWith key default =>
    refine (entered key).bind fun entry enters => ?_
    rw [entry.orInsertWith_eq]
    exact (enters.orInsert_kept consistent safe _).bind fun _ kept => .ok kept
  | entryOrInsertWithKey key default =>
    refine (entered key).bind fun entry enters => ?_
    rw [entry.orInsertWithKey_eq]
    exact (enters.orInsert_kept consistent safe _).bind fun _ kept => .ok kept
  | entryInsert key v => exact rep.entryInsert_kept consistent memory safe v
  | entryAndModify key f => exact (entered key).bind fun _ enters => .ok (enters.andModify_kept f)
  | entryRemove key =>
    refine (entered key).bind fun entry enters => ?_
    cases entry with
    | vacant vacant => exact .ok enters.represents.kept
    | occupied occupied =>
      obtain ⟨hr, -, resident, hf, -⟩ := enters.occupied occupied rfl
      have removed : Succeeds (occupied.removeEntry memory) fun res => Map.Kept hashValue res.1 :=
        (enters.represents.removeAt_kept memory hr hf.positive).bind fun _ kept => .ok kept
      exact (Map.leaves_of_succeeds removed).bind fun _ kept => .ok kept

theorem throughout_entries (rep : map.Represents hashValue entries) (calls : List (TableCall K V))
    (safe : SafeFrom memory hashValue map calls) :
    Throughout memory hashValue (fun map => ∀ key default, Succeeds (map.entry memory hashValue key) fun entry =>
      map.ReachesOwn key default entry ↔ map.EntryClear hashValue key) map calls := by
  have now (key : K) (default : V) : Succeeds (map.entry memory hashValue key) fun entry =>
      map.ReachesOwn key default entry ↔ map.EntryClear hashValue key :=
    (rep.entry_succeeds consistent memory key).mono fun _ enters => enters.reachesOwn_iff rep default
  induction calls generalizing map entries with
  | nil => exact now
  | cons call calls ih =>
    obtain ⟨fst, hl⟩ := safe
    have kept := perform_kept memory consistent rep call fst
    refine ⟨now, ?_⟩
    cases out : perform memory hashValue map call with
    | error panic => trivial
    | ok map' =>
      rw [out] at kept hl
      obtain ⟨entries', represents'⟩ := kept
      refine ih represents' hl fun key default => ?_
      exact (represents'.entry_succeeds consistent memory key).mono fun _ enters =>
        enters.reachesOwn_iff represents' default

theorem entries_reach_own (calls : List (TableCall K V)) (safe : SafeFrom memory hashValue Map.new calls) :
    Throughout memory hashValue (fun map => ∀ key default, Succeeds (map.entry memory hashValue key) fun entry =>
      map.ReachesOwn key default entry ↔ map.EntryClear hashValue key) Map.new calls :=
  throughout_entries memory consistent Map.represents_new calls safe

end Runs

/-- Entries with one hash, with and without a deleted slot between them. -/
def entryCalls : List (TableCall Nat Nat) :=
  [.insert 1 10, .entryOrInsert 2 20, .entryInsert 2 21, .entryRemove 1, .entryAndModify 2 fun value => value + 1,
    .retain fun _ value => (value, value < 50), .shrinkToFit, .entryOrInsertWithKey 3 fun key => key * 10,
    .reserve 30, .extractIf fun key _ => key = 3, .clear, .popEntry]

theorem entries_reach_own_sample : SafeFrom ⟨32, fun _ => true⟩ (fun _ => 7) Map.new entryCalls ∧
    Throughout ⟨32, fun _ => true⟩ (fun _ => 7) (fun map => ∀ key default,
      Succeeds (map.entry ⟨32, fun _ => true⟩ (fun _ => 7) key) fun entry =>
        map.ReachesOwn key default entry ↔ map.EntryClear (fun _ => 7) key) Map.new entryCalls := by
  have safe : SafeFrom ⟨32, fun _ => true⟩ (fun _ => 7) Map.new entryCalls := by decide +kernel
  exact ⟨safe, entries_reach_own ⟨32, fun _ => true⟩ (fun _ _ _ => rfl) entryCalls safe⟩

/-- The reference for the second key points to the value of the first, which has the same hash; and an entry behind a
deleted slot is not found. -/
theorem entry_misses_own :
    (∃ map entry result,
      [TableCall.insert 1 10].foldlM (perform ⟨32, fun _ => true⟩ fun _ : Nat => 7) Map.new = .ok map ∧
      map.Absent 2 ∧ map.entry ⟨32, fun _ => true⟩ (fun _ => 7) 2 = .ok entry ∧ entry.orInsert 20 = .ok result ∧
      Map.live (result.1.entries result.2) = some (1, 10) ∧ ¬ map.ReachesOwn 2 20 entry) ∧
    ∃ map entry,
      [TableCall.insert 1 10, .insert 2 20, .remove 1].foldlM (perform ⟨32, fun _ => true⟩ fun _ : Nat => 7) Map.new =
        .ok map ∧ ¬ map.Absent 2 ∧ map.entry ⟨32, fun _ => true⟩ (fun _ => 7) 2 = .ok (.vacant entry) ∧
      ¬ map.ReachesOwn 2 20 (.vacant entry) := by
  constructor
  · refine ⟨_, _, _, rfl, by decide, rfl, rfl, rfl, fun reaches => ?_⟩
    obtain ⟨result, run, own⟩ := reaches.orInsert (by decide)
    cases run
    exact absurd own.names (by decide)
  · refine ⟨_, _, rfl, by decide, rfl, fun reaches => ?_⟩
    obtain ⟨_, ⟨⟩⟩ := reaches.occupied_iff.mpr (by decide)

end TableCall

end Collections
