import Verum.Collections.MapOrder

namespace Collections.Map

variable {K V : Type} {hashValue : K → Int} {map : Map K V}

/-- The slots before a distance from the home of a hash are not empty, and their residents have come
at least as far as it. -/
def Passed (map : Map K V) (hash : Int) (psl : Nat) : Prop :=
  ∀ d < psl, (map.entries (map.place hash d)).hash ≠ 0 ∧
    (0 < (map.entries (map.place hash d)).hash → d ≤ (map.entries (map.place hash d)).psl)

/-- An entry may stand in a slot at the place `i`. -/
structure Fits (hashValue : K → Int) (map : Map K V) (slot : Slot K V) (entry : K × V) (i : Nat) : Prop where
  isEntry : slot.contents = some entry
  hashed : slot.hash = makeHashVal hashValue entry.1
  positive : 0 < slot.hash
  close : slot.psl < map.cap
  located : map.place slot.hash slot.psl = i
  passed : map.Passed slot.hash slot.psl

/-- No slot but `i` holds the key. -/
def OnlyAt [BEq K] (map : Map K V) (key : K) (i : Nat) : Prop :=
  ∀ j < map.cap, ∀ entry, 0 < (map.entries j).hash → (map.entries j).contents = some entry → entry.1 == key → j = i

def Absent [BEq K] (map : Map K V) (key : K) : Prop :=
  ∀ j < map.cap, ∀ entry, 0 < (map.entries j).hash → (map.entries j).contents = some entry → ¬ entry.1 == key

/-- The slots that the entries were probed past allow an entry of this distance at the place `i`. -/
def Allows (map : Map K V) (i psl : Nat) : Prop :=
  ∀ j < map.cap, 0 < (map.entries j).hash → j ≠ i →
    ∀ d < (map.entries j).psl, map.place (map.entries j).hash d = i → d ≤ psl

structure Ordered (hashValue : K → Int) [BEq K] (map : Map K V) : Prop where
  power : ∃ k, map.cap = 2 ^ k
  kinds : ∀ i < map.cap, (map.entries i).hash = 0 ∨ (map.entries i).hash = tombstone ∨ 0 < (map.entries i).hash
  fits : ∀ i < map.cap, 0 < (map.entries i).hash → ∃ entry, Fits hashValue map (map.entries i) entry i
  unique : ∀ i < map.cap, ∀ entry, 0 < (map.entries i).hash → (map.entries i).contents = some entry →
    map.OnlyAt entry.1 i

/-- The table is ordered, and its counters count its slots. -/
structure Sound (hashValue : K → Int) [BEq K] (map : Map K V) : Prop extends Ordered hashValue map where
  counted : map.len = map.contents.length
  buried : map.tombstones = (map.marked tombstone).length

variable {hash : Int} {i : Nat} {slot slot' : Slot K V} {entry : K × V}

theorem Passed.put {psl : Nat} (passed : map.Passed hash psl)
    (skips : ∀ d < psl, map.place hash d = i → slot.hash ≠ 0 ∧ (0 < slot.hash → d ≤ slot.psl)) :
    (map.put i slot).Passed hash psl := by
  intro d hlt
  rw [put_place]
  by_cases atI : map.place hash d = i
  · rw [atI, put_self]
    exact skips d hlt atI
  · rw [put_of_ne atI]
    exact passed d hlt

theorem Fits.put (hf : Fits hashValue map slot entry i) : Fits hashValue (map.put i slot') slot entry i := by
  refine ⟨hf.isEntry, hf.hashed, hf.positive, hf.close, hf.located, hf.passed.put ?_⟩
  intro d hlt atI
  have eq := place_inj (Nat.lt_trans hlt hf.close) hf.close (atI.trans hf.located.symm)
  omega

theorem Fits.put_other {j : Nat} (hf : Fits hashValue map slot entry j)
    (skips : ∀ d < slot.psl, map.place slot.hash d = i → slot'.hash ≠ 0 ∧ (0 < slot'.hash → d ≤ slot'.psl)) :
    Fits hashValue (map.put i slot') slot entry j :=
  ⟨hf.isEntry, hf.hashed, hf.positive, hf.close, hf.located, hf.passed.put skips⟩

namespace Ordered

variable [BEq K]

theorem cap_pos (ord : Ordered hashValue map) : 0 < map.cap := Map.cap_pos ord.power

variable {i : Nat}

theorem live_isSome (ord : Ordered hashValue map) (inRange : i < map.cap) :
    (map.entries i).hash = 0 ∨ (map.entries i).hash = tombstone ∨ (live (map.entries i)).isSome := by
  rcases ord.kinds i inRange with empty | deleted | pos
  · exact .inl empty
  · exact .inr (.inl deleted)
  · obtain ⟨entry, fits⟩ := ord.fits i inRange pos
    refine .inr (.inr ?_)
    rw [live, if_pos pos, fits.isEntry]
    rfl

theorem distinct (ord : Ordered hashValue map) :
    map.contents.Pairwise fun a b => ¬ (a.1 == b.1) := by
  rw [contents, List.pairwise_filterMap]
  refine List.Pairwise.imp_of_mem ?_ List.nodup_range
  intro i j memI memJ ne a isA b isB eq
  rw [live] at isA isB
  split at isA
  · split at isB
    · rename_i positiveI positiveJ
      refine ne (ord.unique j (List.mem_range.mp memJ) b positiveJ isB i (List.mem_range.mp memI) a
        positiveI isA eq)
    · cases isB
  · cases isA

theorem put [EquivBEq K] (ord : Ordered hashValue map) (hr : i < map.cap) {slot : Slot K V}
    {entry : K × V} (hf : Fits hashValue map slot entry i) (only : map.OnlyAt entry.1 i)
    (allows : map.Allows i slot.psl) : Ordered hashValue (map.put i slot) := by
  refine ⟨ord.power, ?_, ?_, ?_⟩
  · intro j inRange'
    by_cases atI : j = i
    · subst atI
      rw [put_self]
      exact .inr (.inr hf.positive)
    · rw [put_of_ne atI]
      exact ord.kinds j inRange'
  · intro j inRange' pos
    by_cases atI : j = i
    · subst atI
      rw [put_self]
      exact ⟨entry, hf.put⟩
    · rw [put_of_ne atI] at pos ⊢
      obtain ⟨other, fits'⟩ := ord.fits j inRange' pos
      exact ⟨other, fits'.put_other fun d hlt atSlot =>
        ⟨hf.positive.ne', fun _ => allows j inRange' pos atI d hlt atSlot⟩⟩
  · intro j inRange' other pos isOther k inRange'' third positive' isThird eq
    by_cases atI : j = i
    · subst atI
      rw [put_self, hf.isEntry, Option.some_inj] at isOther
      subst isOther
      by_contra ne
      rw [put_of_ne ne] at positive' isThird
      exact ne (only k inRange'' third positive' isThird eq)
    · rw [put_of_ne atI] at pos isOther
      by_cases atI' : k = i
      · subst atI'
        rw [put_self, hf.isEntry, Option.some_inj] at isThird
        subst isThird
        exact absurd (only j inRange' other pos isOther (BEq.symm eq)) atI
      · rw [put_of_ne atI'] at positive' isThird
        exact ord.unique j inRange' other pos isOther k inRange'' third positive' isThird eq

theorem allows_self (ord : Ordered hashValue map) {psl : Nat} (pos : 0 < (map.entries i).hash)
    (further : (map.entries i).psl ≤ psl) : map.Allows i psl := by
  intro j hr positive' _ d hlt atI
  obtain ⟨entry, hf⟩ := ord.fits j hr positive'
  have behind := (hf.passed d hlt).2
  rw [atI] at behind
  exact (behind pos).trans further

theorem bury (ord : Ordered hashValue map) (i : Nat) (slot : Slot K V) (deleted : slot.hash = tombstone) :
    Ordered hashValue (map.put i slot) := by
  have notLive : ¬ 0 < slot.hash := by rw [deleted]; decide
  have other {j : Nat} (pos : 0 < ((map.put i slot).entries j).hash) : j ≠ i := by
    rintro rfl
    rw [put_self] at pos
    exact notLive pos
  refine ⟨ord.power, ?_, ?_, ?_⟩
  · intro j inRange
    by_cases atI : j = i
    · subst atI
      rw [put_self]
      exact .inr (.inl deleted)
    · rw [put_of_ne atI]
      exact ord.kinds j inRange
  · intro j inRange pos
    have apart := other pos
    rw [put_of_ne apart] at pos ⊢
    obtain ⟨entry, fits⟩ := ord.fits j inRange pos
    refine ⟨entry, fits.put_other fun d _ _ => ⟨?_, fun pos => absurd pos notLive⟩⟩
    rw [deleted]
    decide
  · intro j inRange entry pos ie k inRange' third positive' isThird same
    have apart := other pos
    have apart' := other positive'
    rw [put_of_ne apart] at pos ie
    rw [put_of_ne apart'] at positive' isThird
    exact ord.unique j inRange entry pos ie k inRange' third positive' isThird same

end Ordered

theorem Sound.exists_empty [BEq K] (hs : Sound hashValue map) (room : map.len + map.tombstones < map.cap) :
    ∃ i < map.cap, (map.entries i).hash = 0 := by
  refine exists_marked ?_
  have total := contents_length fun i hr => hs.live_isSome hr
  rw [← hs.counted, ← hs.buried] at total
  omega

theorem place_shift {hash' : Int} {d e : Nat} (eq : map.place hash d = map.place hash' e) (n : Nat) :
    map.place hash (d + n) = map.place hash' (e + n) := by
  have shifted : Nat.ModEq map.cap (map.index hash + d + n) (map.index hash' + e + n) := Nat.ModEq.add_right n eq
  rw [Nat.add_assoc, Nat.add_assoc] at shifted
  exact shifted

section Holding

variable [BEq K] {slot : Slot K V} {key : K} {hash : Int}

theorem holds_iff : slot.holds key hash = true ↔ slot.hash = hash ∧ ∃ entry, slot.contents = some entry ∧ entry.1 == key := by
  rw [Slot.holds, Bool.and_eq_true, beq_iff_eq]
  refine and_congr_right fun _ => ?_
  cases slot.contents with
  | none | some entry => simp

theorem Absent.not_holds (ha : map.Absent key) {i : Nat} (hr : i < map.cap)
    (pos : 0 < (map.entries i).hash) : ¬ (map.entries i).holds key hash = true := by
  intro hh
  obtain ⟨-, entry, ie, eq⟩ := holds_iff.mp hh
  exact ha i hr entry pos ie eq

end Holding

namespace Ordered

variable [BEq K] [EquivBEq K] {key : K} {i : Nat} {entry : K × V}

theorem not_holds_before (ord : Ordered hashValue map) (hr : i < map.cap)
    (hf : Fits hashValue map (map.entries i) entry i) (eq : entry.1 == key) {d : Nat}
    (hlt : d < (map.entries i).psl)
    (pos : 0 < (map.entries (map.place (map.entries i).hash d)).hash) :
    ¬ (map.entries (map.place (map.entries i).hash d)).holds key (map.entries i).hash = true := by
  intro hh
  obtain ⟨-, other, isOther, same'⟩ := holds_iff.mp hh
  have atI := ord.unique i hr entry hf.positive hf.isEntry _ (place_lt ord.power _ d) other pos
    isOther (BEq.trans same' (BEq.symm eq))
  have isPsl := place_inj (Nat.lt_trans hlt hf.close) hf.close (atI.trans hf.located.symm)
  omega

theorem findLoop_present (ord : Ordered hashValue map) (hr : i < map.cap)
    (hf : Fits hashValue map (map.entries i) entry i) (eq : entry.1 == key) (guarded : Bool) (steps d : Nat)
    (pre : d ≤ (map.entries i).psl) (he : (map.entries i).psl < steps + d) :
    map.findLoop guarded key (map.entries i).hash steps (map.place (map.entries i).hash d) d = .ok (some i) := by
  induction steps generalizing d with
  | zero => omega
  | succ steps ih =>
    rw [findLoop]
    by_cases arrived : d = (map.entries i).psl
    · subst arrived
      rw [hf.located]
      have hh : (map.entries i).holds key (map.entries i).hash = true :=
        holds_iff.mpr ⟨rfl, entry, hf.isEntry, eq⟩
      rw [if_neg hf.positive.ne', if_pos ⟨hf.positive, hh⟩]
    · have hlt : d < (map.entries i).psl := by omega
      obtain ⟨notEmpty, behind⟩ := hf.passed d hlt
      have close := hf.close
      rw [if_neg notEmpty, if_neg, if_neg, if_neg, nextIndex_place ord.power]
      · exact ih (d + 1) hlt (by omega)
      · rintro ⟨-, exhausted⟩
        omega
      · rintro ⟨pos, further⟩
        exact Nat.not_lt_of_le (behind pos) further
      · rintro ⟨pos, hh⟩
        exact ord.not_holds_before hr hf eq hlt pos hh

omit [EquivBEq K] in
theorem findLoop_absent (ord : Ordered hashValue map) (ha : map.Absent key) {hash : Int} {t : Nat}
    (empty : (map.entries (map.place hash t)).hash = 0) (guarded : Bool) (steps d : Nat) (pre : d ≤ t)
    (he : t < steps + d) : map.findLoop guarded key hash steps (map.place hash d) d = .ok none := by
  induction steps generalizing d with
  | zero => omega
  | succ steps ih =>
    rw [findLoop]
    by_cases arrived : d = t
    · subst arrived
      rw [if_pos empty]
    · have notFound : ¬ ((map.entries (map.place hash d)).hash > 0 ∧
          (map.entries (map.place hash d)).holds key hash = true) := fun hit =>
        ha.not_holds (place_lt ord.power hash d) hit.1 hit.2
      rw [if_neg notFound, nextIndex_place ord.power, ih (d + 1) (by omega) (by omega)]
      split
      · rfl
      · split
        · rfl
        · split <;> rfl

end Ordered

theorem makeHashVal_congr {key key' : K} (eq : hashValue key = hashValue key') :
    makeHashVal hashValue key = makeHashVal hashValue key' := by
  rw [makeHashVal, makeHashVal, eq]

theorem makeHashVal_pos {key : K} (hr : hashValue key ≠ -2 ^ 63) : 0 < makeHashVal hashValue key := by
  rw [makeHashVal, wrappingAbs, if_neg hr]
  split <;> omega

section Lookups

variable [BEq K] [EquivBEq K] (con : ∀ a b, a == b → hashValue a = hashValue b)

include con in
theorem Sound.find_present (hs : Sound hashValue map) {i : Nat} (hr : i < map.cap) {entry : K × V} {key : K}
    (pos : 0 < (map.entries i).hash) (ie : (map.entries i).contents = some entry) (eq : entry.1 == key)
    (guarded : Bool) : map.find hashValue guarded key = .ok (some i) := by
  obtain ⟨entry', hf⟩ := hs.fits i hr pos
  obtain rfl : entry' = entry := Option.some_inj.mp (hf.isEntry.symm.trans ie)
  have hashed : makeHashVal hashValue key = (map.entries i).hash := by
    rw [hf.hashed, makeHashVal_congr (con _ _ eq)]
  rw [find, if_neg hs.cap_pos.ne']
  dsimp only
  rw [hashed, ← place_zero hs.power]
  have close := hf.close
  exact hs.findLoop_present hr hf eq guarded _ 0 (Nat.zero_le _) (by omega)

omit [EquivBEq K] in
theorem Sound.find_absent (hs : Sound hashValue map) (room : map.len + map.tombstones < map.cap) {key : K}
    (ha : map.Absent key) (guarded : Bool) : map.find hashValue guarded key = .ok none := by
  obtain ⟨i, hr, empty⟩ := hs.exists_empty room
  obtain ⟨t, hr, rfl⟩ := exists_distance hs.power (makeHashVal hashValue key) hr
  rw [find, if_neg hs.cap_pos.ne']
  dsimp only
  rw [← place_zero hs.power]
  exact hs.findLoop_absent ha empty guarded _ 0 (Nat.zero_le _) (by omega)

end Lookups

end Collections.Map
