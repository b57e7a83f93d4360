import Verum.Collections.MapInvariant

namespace Collections.Map

open Nat

variable {K V : Type} {hashValue : K → Int} {map : Map K V}
variable {slot : Slot K V} {entry : K × V} {i : Nat}

theorem Fits.recount (hf : Fits hashValue map slot entry i) (len tombstones : Nat) :
    Fits hashValue { map with len := len, tombstones := tombstones } slot entry i :=
  ⟨hf.isEntry, hf.hashed, hf.positive, hf.close, hf.located, hf.passed⟩

theorem Ordered.recount [BEq K] (ord : Ordered hashValue map) (len tombstones : Nat) :
    Ordered hashValue { map with len := len, tombstones := tombstones } := by
  refine ⟨ord.power, ord.kinds, ?_, ord.unique⟩
  intro i hr pos
  obtain ⟨entry, hf⟩ := ord.fits i hr pos
  exact ⟨entry, hf.recount len tombstones⟩

theorem live_fits (hf : Fits hashValue map slot entry i) : live slot = some entry := by
  rw [live, if_pos hf.positive, hf.isEntry]

theorem Fits.not_tombstone (fits : Fits hashValue map slot entry i) : slot.hash ≠ tombstone := by
  have pos := fits.positive
  rw [tombstone]
  omega

/-- The entry has been added to those of the map. -/
structure Adds (hashValue : K → Int) [BEq K] (map : Map K V) (entry : K × V) (map' : Map K V) : Prop where
  sound : Sound hashValue map'
  sameCap : map'.cap = map.cap
  added : map'.contents.Perm (entry :: map.contents)
  reused : map'.tombstones ≤ map.tombstones

/-- An entry may be put at a place `r` slots further: the residents passed over before it, which it may
replace, are no closer to their homes there than the entries that were probed past the place. -/
def Harmless (map : Map K V) (hash : Int) (psl r : Nat) : Prop :=
  ∀ j < map.cap, 0 < (map.entries j).hash → ∀ d < (map.entries j).psl,
    map.place (map.entries j).hash d = map.place hash (psl + r) →
      d ≤ psl + r ∧ ∀ e < r, d ≤ (map.entries (map.place hash (psl + e))).psl + (r - e)

section Absence

variable [BEq K] [EquivBEq K]
variable {key : K} {v : V} {hash : Int} {psl idx : Nat} {resident : K × V}

omit [EquivBEq K] in
theorem Absent.onlyAt (ha : map.Absent key) (i : Nat) : map.OnlyAt key i :=
  fun j hr entry pos ie eq => absurd eq (ha j hr entry pos ie)

theorem Sound.settle (hs : Sound hashValue map) (inRange : idx < map.cap)
    (fits : Fits hashValue map ⟨some (key, v), hash, psl⟩ (key, v) idx) (absent : map.Absent key)
    (vacant : ¬ 0 < (map.entries idx).hash) (allows : map.Allows idx psl) :
    Adds hashValue map (key, v) { map.put idx ⟨some (key, v), hash, psl⟩ with
      tombstones := if (map.entries idx).hash = tombstone then map.tombstones - 1 else map.tombstones
      len := map.len + 1 } := by
  have noEntry : live (map.entries idx) = none := if_neg vacant
  obtain ⟨rest, pre, after⟩ := contents_put inRange ⟨some (key, v), hash, psl⟩
  rw [noEntry] at pre
  rw [live_fits fits] at after
  have added : (map.put idx ⟨some (key, v), hash, psl⟩).contents.Perm ((key, v) :: map.contents) :=
    after.trans (pre.symm.cons _)
  have marks := marked_put inRange ⟨some (key, v), hash, psl⟩ tombstone
  rw [if_neg fits.not_tombstone, ← hs.buried] at marks
  refine ⟨⟨(hs.toOrdered.put inRange fits (absent.onlyAt idx) allows).recount _ _, ?_, ?_⟩, rfl, added, ?_⟩
  · rw [hs.counted]
    exact added.length_eq.symm
  · change (if _ then _ else _) = ((map.put idx _).marked tombstone).length
    by_cases deleted : (map.entries idx).hash = tombstone
    · rw [if_pos deleted] at marks ⊢
      omega
    · rw [if_neg deleted] at marks ⊢
      omega
  · dsimp only
    split <;> omega

theorem Sound.displace (hs : Sound hashValue map) (inRange : idx < map.cap)
    (fits : Fits hashValue map ⟨some (key, v), hash, psl⟩ (key, v) idx) (absent : map.Absent key)
    (fits' : Fits hashValue map (map.entries idx) resident idx) (closer : (map.entries idx).psl ≤ psl) :
    Sound hashValue (map.put idx ⟨some (key, v), hash, psl⟩) ∧
      (resident :: (map.put idx ⟨some (key, v), hash, psl⟩).contents).Perm ((key, v) :: map.contents) := by
  obtain ⟨rest, pre, after⟩ := contents_put inRange ⟨some (key, v), hash, psl⟩
  rw [live_fits fits'] at pre
  rw [live_fits fits] at after
  have marks := marked_put inRange ⟨some (key, v), hash, psl⟩ tombstone
  rw [if_neg fits.not_tombstone, if_neg fits'.not_tombstone] at marks
  refine ⟨⟨hs.toOrdered.put inRange fits (absent.onlyAt idx) (hs.allows_self fits'.positive closer), ?_, ?_⟩, ?_⟩
  · change map.len = _
    rw [hs.counted, after.length_eq, pre.length_eq]
    rfl
  · change map.tombstones = _
    rw [hs.buried]
    omega
  · exact (after.cons resident).trans ((List.Perm.swap _ _ rest).trans (pre.symm.cons _))

omit [BEq K] [EquivBEq K] in
theorem Fits.advance {entry : K × V} (hf : Fits hashValue map ⟨some entry, hash, psl⟩ entry idx)
    (pos : 0 < (map.entries idx).hash) (close : psl + 1 < map.cap) (behind : psl ≤ (map.entries idx).psl) :
    Fits hashValue map ⟨some entry, hash, psl + 1⟩ entry (map.place hash (psl + 1)) := by
  refine ⟨rfl, hf.hashed, hf.positive, close, rfl, fun d hlt => ?_⟩
  by_cases last : d = psl
  · subst last
    have loc := hf.located
    dsimp only at loc
    rw [loc]
    exact ⟨pos.ne', fun _ => behind⟩
  · exact hf.passed d (by dsimp only at hlt ⊢; omega)

omit [BEq K] [EquivBEq K] in
theorem Fits.carried {slot : Slot K V} (hf : Fits hashValue map (map.entries idx) resident idx)
    (pos : 0 < slot.hash) (closer : (map.entries idx).psl ≤ slot.psl)
    (close : (map.entries idx).psl + 1 < map.cap) (power : ∃ k, map.cap = 2 ^ k) :
    Fits hashValue (map.put idx slot) ⟨some resident, (map.entries idx).hash, (map.entries idx).psl + 1⟩ resident
      (map.nextIndex idx) := by
  have next : map.nextIndex idx = map.place (map.entries idx).hash ((map.entries idx).psl + 1) := by
    rw [← nextIndex_place power, hf.located]
  have fits' : Fits hashValue (map.put idx slot) ⟨some resident, (map.entries idx).hash, (map.entries idx).psl⟩
      resident idx :=
    ⟨rfl, hf.hashed, hf.positive, hf.close, hf.located, hf.put.passed⟩
  rw [next]
  refine fits'.advance ?_ close ?_
  · rwa [put_self]
  · rwa [put_self]

theorem Sound.absent_displaced (hs : Sound hashValue map) (hr : idx < map.cap)
    (hf : Fits hashValue map (map.entries idx) resident idx) (ha : map.Absent key) :
    (map.put idx ⟨some (key, v), hash, psl⟩).Absent resident.1 := by
  intro j inRange' entry pos ie eq
  by_cases atIdx : j = idx
  · subst atIdx
    rw [put_self, Option.some_inj] at ie
    subst ie
    exact ha j hr resident hf.positive hf.isEntry (BEq.symm eq)
  · rw [put_of_ne atIdx] at pos ie
    exact atIdx (hs.unique idx hr resident hf.positive hf.isEntry j inRange' entry pos ie eq)

theorem Sound.insertLoop_absent (hs : Sound hashValue map) (r : Nat)
    (fits : Fits hashValue map ⟨some (key, v), hash, psl⟩ (key, v) idx) (absent : map.Absent key)
    (short : psl + r < map.cap) (occupied : ∀ e < r, 0 < (map.entries (map.place hash (psl + e))).hash)
    (vacant : ¬ 0 < (map.entries (map.place hash (psl + r))).hash) (harmless : map.Harmless hash psl r)
    {steps : Nat} (he : r < steps) :
    ∃ map', map.insertLoop steps idx psl key v hash = .ok (map', none) ∧ Adds hashValue map (key, v) map' := by
  induction r generalizing map key v hash psl idx steps with
  | zero =>
    obtain ⟨steps, rfl⟩ : ∃ n, steps = n + 1 := ⟨steps - 1, by omega⟩
    have located := fits.located
    dsimp only at located
    have inRange : idx < map.cap := located ▸ place_lt hs.power hash psl
    rw [add_zero, located] at vacant
    have isVacant : (map.entries idx).hash = 0 ∨ (map.entries idx).hash = tombstone := by
      rcases hs.kinds idx inRange with empty | deleted | pos
      · exact .inl empty
      · exact .inr deleted
      · exact absurd pos vacant
    rw [insertLoop, if_pos isVacant]
    refine ⟨_, rfl, hs.settle inRange fits absent vacant ?_⟩
    intro j inRange' pos _ d hlt atIdx
    exact (harmless j inRange' pos d hlt (by rw [atIdx, add_zero, located])).1
  | succ r ih =>
    obtain ⟨steps, rfl⟩ : ∃ n, steps = n + 1 := ⟨steps - 1, by omega⟩
    have located := fits.located
    dsimp only at located
    have inRange : idx < map.cap := located ▸ place_lt hs.power hash psl
    have pos : 0 < (map.entries idx).hash := by
      have fst := occupied 0 (succ_pos r)
      rwa [add_zero, located] at fst
    obtain ⟨⟨key', v'⟩, fits'⟩ := hs.fits idx inRange pos
    have notVacant : ¬ ((map.entries idx).hash = 0 ∨ (map.entries idx).hash = tombstone) := by
      rw [tombstone]
      omega
    rw [insertLoop, if_neg notVacant, if_neg (absent.not_holds inRange pos), fits'.isEntry]
    dsimp only
    by_cases closer : psl > (map.entries idx).psl
    · rw [if_pos closer]
      obtain ⟨sound', exchanged⟩ := hs.displace inRange fits absent fits' closer.le
      have along (e : Nat) : map.place (map.entries idx).hash ((map.entries idx).psl + 1 + e) =
          map.place hash (psl + (e + 1)) := by
        rw [add_right_comm, add_assoc]
        exact place_shift (fits'.located.trans located.symm) (e + 1)
      have apart (e : Nat) (within : e ≤ r) : map.place hash (psl + (e + 1)) ≠ idx := by
        intro atIdx
        have same := place_inj (by omega) (by omega) (atIdx.trans located.symm)
        omega
      have kept (e : Nat) (within : e ≤ r) : (map.put idx ⟨some (key, v), hash, psl⟩).entries
          ((map.put idx ⟨some (key, v), hash, psl⟩).place (map.entries idx).hash ((map.entries idx).psl + 1 + e)) =
            map.entries (map.place hash (psl + (e + 1))) := by
        rw [put_place, along, put_of_ne (apart e within)]
      have harmless' : (map.put idx ⟨some (key, v), hash, psl⟩).Harmless (map.entries idx).hash
          ((map.entries idx).psl + 1) r := by
        intro j inRange' positive' d hlt atLast
        rw [put_place, along] at atLast
        have notIdx : j ≠ idx := by
          rintro rfl
          rw [put_self] at hlt atLast
          have same := place_inj (by dsimp only at hlt; omega) short atLast
          dsimp only at hlt
          omega
        rw [put_of_ne notIdx] at positive' hlt atLast
        obtain ⟨-, others⟩ := harmless j inRange' positive' d hlt atLast
        have fst := others 0 (succ_pos r)
        rw [add_zero, located] at fst
        refine ⟨by omega, fun e hlt => ?_⟩
        have other := others (e + 1) (by omega)
        rw [kept e hlt.le]
        omega
      obtain ⟨map', inserted, adds⟩ := ih sound' (fits'.carried fits.positive closer.le (by omega) hs.power)
        (hs.absent_displaced inRange fits' absent) (by rw [put_cap]; omega)
        (fun e hlt => by rw [kept e hlt.le]; exact occupied (e + 1) (by omega))
        (by rwa [kept r le_rfl]) harmless' (lt_of_succ_lt_succ he)
      exact ⟨map', inserted, adds.sound, adds.sameCap, adds.added.trans exchanged, adds.reused⟩
    · rw [if_neg closer, ← located, nextIndex_place hs.power]
      refine ih hs (fits.advance pos (by omega) (by omega)) absent (by omega) ?_ ?_ ?_ (by omega)
      · intro e hlt
        rw [add_right_comm, add_assoc]
        exact occupied (e + 1) (by omega)
      · rwa [add_right_comm, add_assoc]
      · intro j inRange' positive' d hlt atLast
        rw [add_right_comm, add_assoc] at atLast
        obtain ⟨own, others⟩ := harmless j inRange' positive' d hlt atLast
        refine ⟨by omega, fun e hlt => ?_⟩
        have other := others (e + 1) (by omega)
        rw [add_right_comm, add_assoc]
        omega

omit [EquivBEq K] in
theorem Sound.exists_vacant (hs : Sound hashValue map) (room : map.len + map.tombstones < map.cap) (hash : Int) :
    ∃ t < map.cap, ¬ 0 < (map.entries (map.place hash t)).hash ∧
      ∀ e < t, 0 < (map.entries (map.place hash e)).hash := by
  obtain ⟨i, hr, empty⟩ := hs.exists_empty room
  obtain ⟨t, hw, rfl⟩ := exists_distance hs.power hash hr
  have vacant : ∃ t, ¬ 0 < (map.entries (map.place hash t)).hash := ⟨t, by omega⟩
  have fst : Nat.find vacant ≤ t := Nat.find_min' vacant (by omega)
  refine ⟨Nat.find vacant, fst.trans_lt hw, Nat.find_spec vacant, ?_⟩
  intro e hlt
  exact not_not.mp (Nat.find_min vacant hlt)

/-- An insertion that does not find its key gets to the deleted slot at the distance `t`. -/
def Reuses (map : Map K V) (hash : Int) (t : Nat) : Prop :=
  (map.entries (map.place hash t)).hash = tombstone ∧ ∀ e < t, 0 < (map.entries (map.place hash e)).hash

theorem Sound.insertInternal_absent (hs : Sound hashValue map) (room : map.len + map.tombstones < map.cap)
    (v : V) (pos : 0 < makeHashVal hashValue key) (ha : map.Absent key)
    (harmless : ∀ t < map.cap, map.Reuses (makeHashVal hashValue key) t →
      map.Harmless (makeHashVal hashValue key) 0 t) :
    ∃ map', map.insertInternal key v (makeHashVal hashValue key) = .ok (map', none) ∧
      Adds hashValue map (key, v) map' := by
  obtain ⟨t, hr, vacant, occupied⟩ := hs.exists_vacant room (makeHashVal hashValue key)
  have isHarmless : map.Harmless (makeHashVal hashValue key) 0 t := by
    rcases hs.kinds _ (place_lt hs.power (makeHashVal hashValue key) t) with empty | deleted | isLive
    · intro j inRange' positive' d hlt atLast
      obtain ⟨entry, hf⟩ := hs.fits j inRange' positive'
      have notEmpty := (hf.passed d hlt).1
      rw [atLast, zero_add] at notEmpty
      exact absurd empty notEmpty
    · exact harmless t hr ⟨deleted, occupied⟩
    · exact absurd isLive vacant
  have hf : Fits hashValue map ⟨some (key, v), makeHashVal hashValue key, 0⟩ (key, v)
      (map.index (makeHashVal hashValue key)) :=
    ⟨rfl, rfl, pos, hs.cap_pos, place_zero hs.power _, fun d hlt => absurd hlt (not_lt_zero d)⟩
  refine hs.insertLoop_absent t hf ha (by omega) ?_ ?_ isHarmless (by omega)
  · intro e hlt
    rw [zero_add]
    exact occupied e hlt
  · rwa [zero_add]

end Absence

section Presence

variable [BEq K] [EquivBEq K] {i : Nat} {entry : K × V} {key : K}

theorem Sound.revalue (hs : Sound hashValue map) (inRange : i < map.cap)
    (fits : Fits hashValue map (map.entries i) entry i) (v : V) :
    Sound hashValue (map.put i { map.entries i with contents := some (entry.1, v) }) ∧
      ∃ rest, map.contents.Perm (entry :: rest) ∧
        (map.put i { map.entries i with contents := some (entry.1, v) }).contents.Perm ((entry.1, v) :: rest) := by
  have fits' : Fits hashValue map { map.entries i with contents := some (entry.1, v) } (entry.1, v) i :=
    ⟨rfl, fits.hashed, fits.positive, fits.close, fits.located, fits.passed⟩
  obtain ⟨rest, pre, after⟩ := contents_put inRange { map.entries i with contents := some (entry.1, v) }
  rw [live_fits fits] at pre
  rw [live_fits fits'] at after
  have marks := marked_put inRange { map.entries i with contents := some (entry.1, v) } tombstone
  rw [if_neg fits.not_tombstone] at marks
  refine ⟨⟨hs.toOrdered.put inRange fits' (hs.unique i inRange entry fits.positive fits.isEntry)
    (hs.allows_self fits.positive le_rfl), ?_, ?_⟩, rest, pre, after⟩
  · change map.len = _
    rw [hs.counted, after.length_eq, pre.length_eq]
    rfl
  · change map.tombstones = _
    rw [hs.buried]
    omega

theorem Sound.insertLoop_present (hs : Sound hashValue map) (inRange : i < map.cap)
    (fits : Fits hashValue map (map.entries i) entry i) (same : entry.1 == key) (v : V)
    (clear : ∀ d < (map.entries i).psl, (map.entries (map.place (map.entries i).hash d)).hash ≠ tombstone)
    (steps d : Nat) (pre : d ≤ (map.entries i).psl) (he : (map.entries i).psl < steps + d) :
    map.insertLoop steps (map.place (map.entries i).hash d) d key v (map.entries i).hash =
      .ok (map.put i { map.entries i with contents := some (entry.1, v) }, some entry.2) := by
  induction steps generalizing d with
  | zero => omega
  | succ steps ih =>
    rw [insertLoop]
    by_cases arrived : d = (map.entries i).psl
    · subst arrived
      rw [fits.located]
      have holds : (map.entries i).holds key (map.entries i).hash = true :=
        holds_iff.mpr ⟨rfl, entry, fits.isEntry, same⟩
      have occupied : ¬ ((map.entries i).hash = 0 ∨ (map.entries i).hash = tombstone) :=
        not_or.mpr ⟨fits.positive.ne', fits.not_tombstone⟩
      rw [if_neg occupied, if_pos holds, fits.isEntry]
      rfl
    · have hlt : d < (map.entries i).psl := by omega
      obtain ⟨notEmpty, behind⟩ := fits.passed d hlt
      have onWay := place_lt hs.power (map.entries i).hash d
      have pos : 0 < (map.entries (map.place (map.entries i).hash d)).hash := by
        rcases hs.kinds _ onWay with empty | deleted | pos
        · exact absurd empty notEmpty
        · exact absurd deleted (clear d hlt)
        · exact pos
      obtain ⟨resident, fits'⟩ := hs.fits _ onWay pos
      have further := behind pos
      rw [if_neg (not_or.mpr ⟨notEmpty, clear d hlt⟩),
        if_neg (hs.not_holds_before inRange fits same hlt pos), fits'.isEntry]
      dsimp only
      rw [if_neg (by omega), nextIndex_place hs.power]
      exact ih (d + 1) hlt (by omega)

theorem Sound.insertInternal_present (hs : Sound hashValue map) (inRange : i < map.cap)
    (fits : Fits hashValue map (map.entries i) entry i) (same : entry.1 == key) (v : V)
    (con : hashValue entry.1 = hashValue key)
    (clear : ∀ d < (map.entries i).psl, (map.entries (map.place (map.entries i).hash d)).hash ≠ tombstone) :
    map.insertInternal key v (makeHashVal hashValue key) =
      .ok (map.put i { map.entries i with contents := some (entry.1, v) }, some entry.2) := by
  have close := fits.close
  rw [insertInternal, ← makeHashVal_congr con, ← fits.hashed, ← place_zero hs.power]
  exact hs.insertLoop_present inRange fits same v clear _ 0 (zero_le _) (by omega)

end Presence

end Collections.Map
