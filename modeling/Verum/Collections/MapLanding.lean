import Verum.Collections.MapProbing

namespace Collections

open Nat

namespace Map

variable {K V : Type} {hashValue : K → Int} {map : Map K V}

section Placing

def Classified (map : Map K V) : Prop :=
  ∀ i < map.cap, (map.entries i).hash = 0 ∨ (map.entries i).hash = tombstone ∨ (live (map.entries i)).isSome

theorem live_of_positive {slot : Slot K V} {entry : K × V} (pos : 0 < slot.hash)
    (ie : slot.contents = some entry) : live slot = some entry := by
  rw [live, if_pos pos, ie]

theorem live_some {slot : Slot K V} {entry : K × V} (isLive : live slot = some entry) :
    0 < slot.hash ∧ slot.contents = some entry := by
  rw [live] at isLive
  split at isLive
  · exact ⟨by assumption, isLive⟩
  · cases isLive

theorem Classified.put (classified : Classified map) {i : Nat} {slot : Slot K V} {entry : K × V}
    (isLive : live slot = some entry) :
    Classified (map.put i slot) := by
  intro j hr
  by_cases here : j = i
  · rw [here, put_self, isLive]
    exact .inr (.inr rfl)
  · rw [put_of_ne here]
    exact classified j hr

theorem contents_settle {idx psl : Nat} {key : K} {v : V} {hash : Int} (hr : idx < map.cap)
    (pos : 0 < hash) (vacant : ¬ 0 < (map.entries idx).hash) :
    (map.put idx ⟨some (key, v), hash, psl⟩).contents.Perm ((key, v) :: map.contents) := by
  obtain ⟨rest, pre, after⟩ := contents_put hr ⟨some (key, v), hash, psl⟩
  have noEntry : live (map.entries idx) = none := if_neg vacant
  have ie : live (⟨some (key, v), hash, psl⟩ : Slot K V) = some (key, v) := if_pos pos
  rw [noEntry] at pre
  rw [ie] at after
  exact after.trans (pre.symm.cons _)

theorem contents_displace {idx psl : Nat} {key : K} {v : V} {hash : Int} {resident : K × V}
    (hr : idx < map.cap)
    (pos : 0 < hash) (isLive : live (map.entries idx) = some resident) :
    (resident :: (map.put idx ⟨some (key, v), hash, psl⟩).contents).Perm ((key, v) :: map.contents) := by
  obtain ⟨rest, pre, after⟩ := contents_put hr ⟨some (key, v), hash, psl⟩
  have ie : live (⟨some (key, v), hash, psl⟩ : Slot K V) = some (key, v) := if_pos pos
  rw [isLive] at pre
  rw [ie] at after
  exact (after.cons resident).trans ((List.Perm.swap _ _ rest).trans (pre.symm.cons _))

theorem Classified.vacant_iff (classified : Classified map) {i : Nat} (inRange : i < map.cap) :
    (map.entries i).hash = 0 ∨ (map.entries i).hash = tombstone ↔ ¬ 0 < (map.entries i).hash := by
  constructor
  · rintro (empty | deleted)
    · rw [empty]
      decide
    · rw [deleted]
      decide
  · intro notLive
    rcases classified i inRange with empty | deleted | isLive
    · exact .inl empty
    · exact .inr deleted
    · rw [live, if_neg notLive] at isLive
      cases isLive

theorem Classified.resident (classified : Classified map) {i : Nat} (inRange : i < map.cap)
    (pos : 0 < (map.entries i).hash) :
    ∃ entry, (map.entries i).contents = some entry ∧ live (map.entries i) = some entry := by
  rcases classified i inRange with empty | deleted | isLive
  · omega
  · rw [tombstone] at deleted
    omega
  · obtain ⟨entry, ie⟩ := Option.isSome_iff_exists.mp isLive
    exact ⟨entry, (live_some ie).2, ie⟩

variable [BEq K] [EquivBEq K]

theorem insertLoop_places (power : ∃ k, map.cap = 2 ^ k) (classified : Classified map) {idx r steps : Nat} (psl : Nat)
    {key : K} {v : V} {hash : Int} (distinct : Distinct ((key, v) :: map.contents)) (inRange : idx < map.cap)
    (short : r < map.cap) (vacant : ¬ 0 < (map.entries ((idx + r) % map.cap)).hash) (pos : 0 < hash)
    (he : r < steps) :
    ∃ map', map.insertLoop steps idx psl key v hash = .ok (map', none) ∧ map'.cap = map.cap ∧
      map'.contents.Perm ((key, v) :: map.contents) ∧
      ∀ j, (∀ e ≤ r, (idx + e) % map.cap ≠ j) → map'.entries j = map.entries j := by
  induction r generalizing map idx psl key v hash steps with
  | zero =>
    obtain ⟨steps, rfl⟩ : ∃ n, steps = n + 1 := ⟨steps - 1, by omega⟩
    rw [add_zero, mod_eq_of_lt inRange] at vacant
    rw [insertLoop, if_pos ((classified.vacant_iff inRange).mpr vacant)]
    refine ⟨_, rfl, rfl, contents_settle inRange pos vacant, fun j notPassed => ?_⟩
    have apart := notPassed 0 le_rfl
    rw [add_zero, mod_eq_of_lt inRange] at apart
    exact put_of_ne apart.symm
  | succ r ih =>
    obtain ⟨steps, rfl⟩ : ∃ n, steps = n + 1 := ⟨steps - 1, by omega⟩
    have atIdx {j : Nat} (notPassed : ∀ e ≤ r + 1, (idx + e) % map.cap ≠ j) : j ≠ idx := by
      have apart := notPassed 0 (zero_le _)
      rw [add_zero, mod_eq_of_lt inRange] at apart
      exact apart.symm
    rw [insertLoop]
    by_cases isLive : 0 < (map.entries idx).hash
    · obtain ⟨resident, isResident, ie⟩ := classified.resident inRange isLive
      have notVacant : ¬ ((map.entries idx).hash = 0 ∨ (map.entries idx).hash = tombstone) := fun free =>
        (classified.vacant_iff inRange).mp free isLive
      have notHolds : ¬ (map.entries idx).holds key hash = true := by
        intro holds
        obtain ⟨-, entry, holdsEntry, same⟩ := holds_iff.mp holds
        have mem : entry ∈ map.contents := mem_contents.mpr ⟨idx, inRange, isLive, holdsEntry⟩
        exact (List.pairwise_cons.mp distinct).1 entry mem (BEq.symm same)
      rw [if_neg notVacant, if_neg notHolds, isResident]
      dsimp only
      have nextInRange := nextIndex_lt power idx
      have along := step_along power idx
      have hl {j : Nat} (notPassed : ∀ e ≤ r + 1, (idx + e) % map.cap ≠ j) :
          ∀ e ≤ r, (map.nextIndex idx + e) % map.cap ≠ j := by
        intro e hlt
        rw [along]
        exact notPassed (e + 1) (by omega)
      by_cases closer : psl > (map.entries idx).psl
      · rw [if_pos closer]
        have exchanged : (resident :: (map.put idx ⟨some (key, v), hash, psl⟩).contents).Perm
            ((key, v) :: map.contents) := contents_displace inRange pos ie
        have power' : ∃ k, (map.put idx ⟨some (key, v), hash, psl⟩).cap = 2 ^ k := power
        have classified' : Classified (map.put idx ⟨some (key, v), hash, psl⟩) :=
          classified.put (live_of_positive pos rfl)
        have vacant' : ¬ 0 < ((map.put idx ⟨some (key, v), hash, psl⟩).entries
            ((map.nextIndex idx + r) % map.cap)).hash := by
          rwa [along, put_of_ne (steps_ne inRange short)]
        obtain ⟨map', run, sameCap, added, frame⟩ :=
          ih power' classified' _ (distinct.perm exchanged.symm) nextInRange
          (by rw [put_cap]; omega) vacant' isLive (lt_of_succ_lt_succ he)
        refine ⟨map', run, sameCap, added.trans exchanged, fun j notPassed => ?_⟩
        rw [frame j (hl notPassed), put_of_ne (atIdx notPassed)]
      · rw [if_neg closer]
        obtain ⟨map', run, sameCap, added, frame⟩ := ih power classified _ distinct nextInRange (by omega)
          (by rwa [along]) pos (lt_of_succ_lt_succ he)
        exact ⟨map', run, sameCap, added, fun j notPassed => frame j (hl notPassed)⟩
    · rw [if_pos ((classified.vacant_iff inRange).mpr isLive)]
      exact ⟨_, rfl, rfl, contents_settle inRange pos isLive, fun j notPassed => put_of_ne (atIdx notPassed)⟩

omit [BEq K] [EquivBEq K] in
theorem place_add (map : Map K V) (hash : Int) (d e : Nat) :
    (map.place hash d + e) % map.cap = map.place hash (d + e) := by
  rw [place, place, mod_add_mod, add_assoc]

/-- The place `p` where an inserted entry lands: the first one that is vacant, or whose resident is closer to
its home. -/
structure Lands (map : Map K V) (entry : K × V) (hash : Int) (start p : Nat) (map' : Map K V) : Prop where
  sameCap : map'.cap = map.cap
  added : map'.contents.Perm (entry :: map.contents)
  landed : map'.entries (map.place hash p) = ⟨some entry, hash, p⟩
  kept : ∀ e < p, map'.entries (map.place hash e) = map.entries (map.place hash e)
  passed : ∀ e, start ≤ e → e < p →
    0 < (map.entries (map.place hash e)).hash ∧ e ≤ (map.entries (map.place hash e)).psl
  stopped : ¬ 0 < (map.entries (map.place hash p)).hash ∨ (map.entries (map.place hash p)).psl < p

omit [BEq K] [EquivBEq K] in
theorem lands_vacant (power : ∃ k, map.cap = 2 ^ k) {d : Nat} {key : K} {v : V} {hash : Int}
    (hr : d < map.cap)
    (pos : 0 < hash) (vacant : ¬ 0 < (map.entries (map.place hash d)).hash) (len tombstones : Nat) :
    Lands map (key, v) hash d d { map.put (map.place hash d) ⟨some (key, v), hash, d⟩ with
      len := len, tombstones := tombstones } where
  sameCap := rfl
  added := contents_settle (place_lt power hash d) pos vacant
  landed := put_self
  kept e hlt := put_of_ne fun eq => by
    have isD := place_inj (hlt.trans hr) hr eq
    omega
  passed e from_d hlt := by omega
  stopped := .inl vacant

theorem lands_displaced (power : ∃ k, map.cap = 2 ^ k) (classified : Classified map) {r d steps : Nat} {key : K}
    {v : V} {hash : Int} {resident : K × V} (nd : Distinct ((key, v) :: map.contents))
    (pos : 0 < hash)
    (short : d + (r + 1) < map.cap) (vacant : ¬ 0 < (map.entries (map.place hash (d + (r + 1)))).hash)
    (isLive : 0 < (map.entries (map.place hash d)).hash)
    (ie : live (map.entries (map.place hash d)) = some resident)
    (closer : (map.entries (map.place hash d)).psl < d) (he : r < steps) (psl : Nat) :
    ∃ map', (map.put (map.place hash d) ⟨some (key, v), hash, d⟩).insertLoop steps
        (map.nextIndex (map.place hash d)) psl resident.1 resident.2 (map.entries (map.place hash d)).hash =
          .ok (map', none) ∧
      Lands map (key, v) hash d d map' := by
  rw [nextIndex_place power]
  have hr := place_lt power hash d
  have along (e : Nat) : (map.place hash (d + 1) + e) % map.cap = map.place hash (d + (e + 1)) := by
    rw [place_add, add_right_comm, add_assoc]
  have ne {e e' : Nat} (hlt : e ≤ d) (hw : e' ≤ r) : map.place hash (d + (e' + 1)) ≠ map.place hash e := by
    intro eq
    have isSame := place_inj (show d + (e' + 1) < map.cap by omega) (show e < map.cap by omega) eq
    omega
  have exchanged : (resident :: (map.put (map.place hash d) ⟨some (key, v), hash, d⟩).contents).Perm
      ((key, v) :: map.contents) := contents_displace hr pos ie
  have power' : ∃ k, (map.put (map.place hash d) ⟨some (key, v), hash, d⟩).cap = 2 ^ k := power
  have classified' : Classified (map.put (map.place hash d) ⟨some (key, v), hash, d⟩) :=
    classified.put (live_of_positive pos rfl)
  have vacant' : ¬ 0 < ((map.put (map.place hash d) ⟨some (key, v), hash, d⟩).entries
      ((map.place hash (d + 1) + r) % map.cap)).hash := by
    rwa [along, put_of_ne (ne le_rfl le_rfl)]
  obtain ⟨map', run, sameCap, added, frame⟩ := insertLoop_places power' classified' psl
    (nd.perm exchanged.symm) (place_lt power hash (d + 1)) (by rw [put_cap]; omega) vacant' isLive he
  have kept {e : Nat} (hlt : e ≤ d) : map'.entries (map.place hash e) =
      (map.put (map.place hash d) ⟨some (key, v), hash, d⟩).entries (map.place hash e) := by
    refine frame _ fun e' hw => ?_
    rw [put_cap, along]
    exact ne hlt hw
  refine ⟨map', run, sameCap, added.trans exchanged, ?_, ?_, ?_, .inr closer⟩
  · rw [kept le_rfl, put_self]
  · intro e hlt
    rw [kept hlt.le, put_of_ne]
    intro eq
    have isSame := place_inj (show e < map.cap by omega) (show d < map.cap by omega) eq
    omega
  · intro e from_d hlt
    omega

theorem insertLoop_lands (power : ∃ k, map.cap = 2 ^ k) (classified : Classified map) {r d steps : Nat} {key : K}
    {v : V} {hash : Int} (nd : Distinct ((key, v) :: map.contents)) (pos : 0 < hash)
    (short : d + r < map.cap) (vacant : ¬ 0 < (map.entries (map.place hash (d + r))).hash) (he : r < steps) :
    ∃ map' p, map.insertLoop steps (map.place hash d) d key v hash = .ok (map', none) ∧ d ≤ p ∧ p ≤ d + r ∧
      Lands map (key, v) hash d p map' := by
  induction r generalizing d steps with
  | zero =>
    obtain ⟨steps, rfl⟩ : ∃ n, steps = n + 1 := ⟨steps - 1, by omega⟩
    rw [add_zero] at short vacant
    rw [insertLoop, if_pos ((classified.vacant_iff (place_lt power hash d)).mpr vacant)]
    exact ⟨_, d, rfl, le_rfl, le_rfl, lands_vacant power short pos vacant _ _⟩
  | succ r ih =>
    obtain ⟨steps, rfl⟩ : ∃ n, steps = n + 1 := ⟨steps - 1, by omega⟩
    have hr := place_lt power hash d
    rw [insertLoop]
    by_cases isLive : 0 < (map.entries (map.place hash d)).hash
    · obtain ⟨resident, isResident, ie⟩ := classified.resident hr isLive
      rw [if_neg fun free => (classified.vacant_iff hr).mp free isLive, if_neg, isResident]
      · dsimp only
        by_cases closer : d > (map.entries (map.place hash d)).psl
        · rw [if_pos closer]
          obtain ⟨map', run, lands⟩ :=
            lands_displaced power classified nd pos short vacant isLive ie closer
            (lt_of_succ_lt_succ he) ((map.entries (map.place hash d)).psl + 1)
          exact ⟨map', d, run, le_rfl, le_add_right _ _, lands⟩
        · rw [if_neg closer, nextIndex_place power]
          have short' : d + 1 + r < map.cap := by rwa [add_right_comm, add_assoc]
          have vacant' : ¬ 0 < (map.entries (map.place hash (d + 1 + r))).hash := by
            rwa [add_right_comm, add_assoc]
          obtain ⟨map', p, run, after, pre, lands⟩ := ih short' vacant' (lt_of_succ_lt_succ he)
          refine ⟨map', p, run, by omega, by omega, lands.sameCap, lands.added, lands.landed, lands.kept, ?_,
            lands.stopped⟩
          intro e from_d hlt
          by_cases fst : e = d
          · rw [fst]
            exact ⟨isLive, by omega⟩
          · exact lands.passed e (by omega) hlt
      · intro hh
        obtain ⟨-, entry, holdsEntry, eq⟩ := holds_iff.mp hh
        have mem : entry ∈ map.contents := mem_contents.mpr ⟨_, hr, isLive, holdsEntry⟩
        exact (List.pairwise_cons.mp nd).1 entry mem (BEq.symm eq)
    · rw [if_pos ((classified.vacant_iff hr).mpr isLive)]
      exact ⟨_, d, rfl, le_rfl, by omega, lands_vacant power (by omega) pos isLive _ _⟩

end Placing

section Searching

theorem slotOfHash_first (power : ∃ k, map.cap = 2 ^ k) {hash : Int} (pos : 0 < hash) {p : Nat}
    (hit : (map.entries (map.place hash p)).hash = hash)
    (fst : ∀ e < p, (map.entries (map.place hash e)).hash ≠ hash) (steps d : Nat) (pre : d ≤ p)
    (he : p < steps + d) : map.slotOfHash hash steps (map.place hash d) = .ok (map.place hash p) := by
  induction steps generalizing d with
  | zero => omega
  | succ steps ih =>
    rw [slotOfHash]
    by_cases arrived : d = p
    · rw [arrived, hit, if_pos ⟨pos, rfl⟩]
    · have hlt : d < p := by omega
      rw [if_neg fun isHash => fst d hlt isHash.2, nextIndex_place power]
      exact ih (d + 1) hlt (by omega)

theorem slotOfHash_found {hash : Int} {steps start idx : Nat} (hit : map.slotOfHash hash steps start = .ok idx) :
    0 < (map.entries idx).hash ∧ (map.entries idx).hash = hash := by
  induction steps generalizing start with
  | zero => cases hit
  | succ steps ih =>
    rw [slotOfHash] at hit
    split at hit
    · rename_i isHash
      cases hit
      exact isHash
    · exact ih hit

def Blocked (map : Map K V) (i : Nat) : Prop :=
  ∃ d < (map.entries i).psl, (map.entries (map.place (map.entries i).hash d)).hash = tombstone

variable [BEq K]

namespace Ordered

variable [EquivBEq K] {key : K} {i : Nat} {entry : K × V}

theorem entryLoop_present (ord : Ordered hashValue map) (inRange : i < map.cap)
    (fits : Fits hashValue map (map.entries i) entry i) (same : entry.1 == key) (clear : ¬ map.Blocked i)
    (steps d : Nat)
    (pre : d ≤ (map.entries i).psl) (he : (map.entries i).psl < steps + d) :
    map.entryLoop key (map.entries i).hash steps (map.place (map.entries i).hash d) d = .ok (some i) := by
  induction steps generalizing d with
  | zero => omega
  | succ steps ih =>
    rw [entryLoop]
    by_cases arrived : d = (map.entries i).psl
    · rw [arrived, fits.located]
      have holds : (map.entries i).holds key (map.entries i).hash = true :=
        holds_iff.mpr ⟨rfl, entry, fits.isEntry, same⟩
      rw [if_neg (not_or.mpr ⟨fits.positive.ne', fits.not_tombstone⟩), if_pos ⟨fits.positive, holds⟩]
    · have hlt : d < (map.entries i).psl := by omega
      obtain ⟨notEmpty, behind⟩ := fits.passed d hlt
      have close := fits.close
      have notDeleted : (map.entries (map.place (map.entries i).hash d)).hash ≠ tombstone := fun deleted =>
        clear ⟨d, hlt, deleted⟩
      rw [if_neg (not_or.mpr ⟨notEmpty, notDeleted⟩), if_neg, if_neg, if_neg, nextIndex_place ord.power]
      · exact ih (d + 1) hlt (by omega)
      · omega
      · rintro ⟨pos, further⟩
        exact Nat.not_lt_of_le (behind pos) further
      · rintro ⟨pos, holds⟩
        exact ord.not_holds_before inRange fits same hlt pos holds

theorem entryLoop_blocked (ord : Ordered hashValue map) (inRange : i < map.cap)
    (fits : Fits hashValue map (map.entries i) entry i) (same : entry.1 == key) {t : Nat}
    (within : t < (map.entries i).psl)
    (deleted : (map.entries (map.place (map.entries i).hash t)).hash = tombstone) (steps d : Nat) (pre : d ≤ t)
    (he : t < steps + d) :
    map.entryLoop key (map.entries i).hash steps (map.place (map.entries i).hash d) d = .ok none := by
  induction steps generalizing d with
  | zero => omega
  | succ steps ih =>
    rw [entryLoop]
    by_cases arrived : d = t
    · rw [arrived, if_pos (.inr deleted)]
    · have hlt : d < (map.entries i).psl := by omega
      have notFound : ¬ ((map.entries (map.place (map.entries i).hash d)).hash > 0 ∧
          (map.entries (map.place (map.entries i).hash d)).holds key (map.entries i).hash = true) := fun hit =>
        ord.not_holds_before inRange fits same hlt hit.1 hit.2
      rw [if_neg notFound, nextIndex_place ord.power, ih (d + 1) (by omega) (by omega)]
      split
      · rfl
      · split
        · rfl
        · split <;> rfl

end Ordered

theorem entryLoop_absent (power : ∃ k, map.cap = 2 ^ k) {key : K} (ha : map.Absent key) (hash : Int) :
    map.entryLoop key hash (map.cap + 1) (map.index hash) 0 = .ok none := by
  obtain ⟨hit, run⟩ : ∃ hit, map.entryLoop key hash (map.cap + 1) (map.index hash) 0 = .ok hit :=
    entryLoop_ends map key hash (zero_le _) (by omega)
  cases hit with
  | none => exact run
  | some i =>
    obtain ⟨hr, pos, hh⟩ := entryLoop_found power key hash (index_lt power hash) run
    exact absurd hh (ha.not_holds hr pos)

end Searching

end Map

end Collections
