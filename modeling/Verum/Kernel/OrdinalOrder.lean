import Verum.Kernel.Ordinal

open List

namespace Kernel

namespace Ordinal

/-- The canonical forms that normalisation produces. -/
inductive Normal : Ordinal → Prop
  | finite (n : UInt32) : Normal (.finite n)
  | omega : Normal .omega
  | omegaPlus {n : UInt32} : 0 < n.toNat → Normal (.omegaPlus n)
  | omegaTimes {k : UInt32} : 1 < k.toNat → Normal (.omegaTimes k)
  | omegaTimesPlus {k n : UInt32} : 1 < k.toNat → 0 < n.toNat → Normal (.omegaTimesPlus k n)
  | omegaSquared : Normal .omegaSquared
  | omegaSquaredPlus {inner : Ordinal} : Normal inner → inner.isZero = false →
      Normal (.omegaSquaredPlus inner)
  | omegaPow {e : UInt32} : 2 < e.toNat → Normal (.omegaPow e)
  | kappa (n : UInt32) : Normal (.kappa n)
  | sup {parts : List Ordinal} : 1 < parts.length → (∀ part ∈ parts, Normal part) →
      Normal (.sup parts)

theorem toNat_pos_iff {n : UInt32} : 0 < n.toNat ↔ n ≠ 0 := by
  simp only [ne_eq, ← UInt32.toNat_inj, UInt32.toNat_zero]
  omega

theorem one_lt_toNat_iff {k : UInt32} : 1 < k.toNat ↔ k ≠ 0 ∧ k ≠ 1 := by
  simp only [ne_eq, ← UInt32.toNat_inj, UInt32.toNat_zero, UInt32.toNat_one]
  omega

theorem two_lt_toNat_iff {e : UInt32} : 2 < e.toNat ↔ e ≠ 0 ∧ e ≠ 1 ∧ e ≠ 2 := by
  simp only [ne_eq, ← UInt32.toNat_inj, UInt32.toNat_zero, UInt32.toNat_one, UInt32.reduceToNat]
  omega

theorem normalizeAll_eq (parts : List Ordinal) : normalizeAll parts = parts.map normalize := by
  induction parts with
  | nil => rfl
  | cons part rest ih => rw [normalizeAll, ih, map_cons]

variable {parts : List Ordinal} {a b x y : Ordinal}

theorem normalize_sup (several : 1 < parts.length) : normalize (.sup parts) = .sup (parts.map normalize) := by
  match parts with
  | fst :: snd :: rest =>
    rw [normalize, normalizeAll_eq]
    rfl

theorem normal_normalize (a : Ordinal) : a.normalize.Normal := by
  generalize hb : a.size = n
  induction n using Nat.strong_induction_on generalizing a with
  | _ n ih =>
    subst hb
    cases a with
    | finite n => exact .finite n
    | omega => exact .omega
    | omegaSquared => exact .omegaSquared
    | kappa n => exact .kappa n
    | omegaPlus n =>
      unfold normalize
      split_ifs with zero
      · exact .omega
      · exact .omegaPlus (toNat_pos_iff.mpr zero)
    | omegaTimes k =>
      unfold normalize
      split_ifs with zero one
      · exact .finite 0
      · exact .omega
      · exact .omegaTimes (one_lt_toNat_iff.mpr ⟨zero, one⟩)
    | omegaTimesPlus k n =>
      unfold normalize
      split_ifs with none zero one zero zero
      · exact .finite 0
      · exact .finite n
      · exact .omega
      · exact .omegaPlus (toNat_pos_iff.mpr zero)
      · exact .omegaTimes (one_lt_toNat_iff.mpr ⟨none, one⟩)
      · exact .omegaTimesPlus (one_lt_toNat_iff.mpr ⟨none, one⟩) (toNat_pos_iff.mpr zero)
    | omegaPow e =>
      unfold normalize
      split_ifs with zero one two
      · exact .finite 1
      · exact .omega
      · exact .omegaSquared
      · exact .omegaPow (two_lt_toNat_iff.mpr ⟨zero, one, two⟩)
    | omegaSquaredPlus inner =>
      have smaller : inner.size < (omegaSquaredPlus inner).size := by simp [size]
      unfold normalize
      split_ifs with zero
      · exact .omegaSquared
      · exact .omegaSquaredPlus (ih _ smaller inner rfl) (Bool.eq_false_of_not_eq_true zero)
    | sup parts =>
      match parts with
      | [] => exact .finite 0
      | [part] => exact ih _ (size_mem_sup (mem_singleton_self part)) part rfl
      | fst :: snd :: rest =>
        have several : 1 < (fst :: snd :: rest).length := by simp
        rw [normalize_sup several]
        apply Normal.sup
        · rw [length_map]
          exact several
        · intro part mem
          rcases mem_map.mp mem with ⟨src, hin, rfl⟩
          exact ih _ (size_mem_sup hin) src rfl

theorem Normal.normalize_eq (normal : a.Normal) : a.normalize = a := by
  induction normal with
  | finite n | omega | omegaSquared | kappa n => rfl
  | omegaPlus pos =>
    unfold normalize
    rw [if_neg (toNat_pos_iff.mp pos)]
  | omegaTimes above =>
    rcases one_lt_toNat_iff.mp above with ⟨zero, one⟩
    unfold normalize
    rw [if_neg zero, if_neg one]
  | omegaTimesPlus above pos =>
    rcases one_lt_toNat_iff.mp above with ⟨zero, one⟩
    unfold normalize
    rw [if_neg zero, if_neg one, if_neg (toNat_pos_iff.mp pos)]
  | omegaPow above =>
    rcases two_lt_toNat_iff.mp above with ⟨zero, one, two⟩
    unfold normalize
    rw [if_neg zero, if_neg one, if_neg two]
  | omegaSquaredPlus inner nz ih =>
    unfold normalize
    rw [ih, nz]
    rfl
  | @sup parts several normal ih =>
    rw [normalize_sup several, map_congr_left ih, map_id']

/-- No supremum, not even behind `ω² +`. -/
def clean : Ordinal → Bool
  | .sup _ => false
  | .omegaSquaredPlus inner => inner.clean
  | _ => true

mutual

/-- The coefficients from the leading exponent down, compared as words; a supremum counts as its
    greatest part. -/
def weight : Ordinal → List Nat
  | .finite n => [0, n.toNat]
  | .omega => [1, 1, 0]
  | .omegaPlus n => [1, 1, n.toNat]
  | .omegaTimes k => [1, k.toNat, 0]
  | .omegaTimesPlus k n => [1, k.toNat, n.toNat]
  | .omegaSquared => [2]
  | .omegaSquaredPlus inner => 2 :: weight inner
  | .omegaPow e => [3, e.toNat]
  | .kappa n => [4, n.toNat]
  | .sup parts => weightAll parts

def weightAll : List Ordinal → List Nat
  | [] => []
  | part :: rest => max (weight part) (weightAll rest)

end

theorem nil_le (word : List Nat) : [] ≤ word := not_lt.mp (not_lt_nil word)

theorem weight_le_weightAll {part : Ordinal} (mem : part ∈ parts) : part.weight ≤ weightAll parts := by
  induction parts with
  | nil => cases mem
  | cons head rest ih =>
    unfold weightAll
    rcases mem_cons.mp mem with rfl | hl
    · exact le_max_left _ _
    · exact le_trans (ih hl) (le_max_right _ _)

theorem weightAll_le {hb : List Nat} (each : ∀ part ∈ parts, part.weight ≤ hb) : weightAll parts ≤ hb := by
  induction parts with
  | nil => exact nil_le hb
  | cons head rest ih =>
    unfold weightAll
    exact max_le (each head mem_cons_self)
      (ih fun part hl => each part (mem_cons_of_mem head hl))

theorem exists_weightAll (ne : parts ≠ []) : ∃ part ∈ parts, weightAll parts = part.weight := by
  induction parts with
  | nil => exact absurd rfl ne
  | cons head rest ih =>
    unfold weightAll
    rcases le_total head.weight (weightAll rest) with ord | ord
    · rw [max_eq_right ord]
      by_cases none : rest = []
      · subst none
        have least : head.weight = [] := le_antisymm ord (nil_le _)
        exact ⟨head, .head _, least.symm⟩
      · rcases ih none with ⟨part, hl, attained⟩
        exact ⟨part, mem_cons_of_mem head hl, attained⟩
    · exact ⟨head, .head _, max_eq_left ord⟩

theorem weight_ne_nil (normal : a.Normal) : a.weight ≠ [] := by
  induction normal with
  | @sup parts several normal ih =>
    have ne : parts ≠ [] := by
      rintro rfl
      simp at several
    rcases exists_weightAll ne with ⟨part, mem, attained⟩
    unfold weight
    rw [attained]
    exact ih part mem
  | _ => simp [weight]

theorem ltRaw_sup_left (parts : List Ordinal) (right : Ordinal) :
    ltRaw (.sup parts) right = true ↔ ∀ part ∈ parts, ltRaw part right = true := by
  rw [ltRaw]
  simp

def atomic : Ordinal → Bool
  | .sup _ => false
  | _ => true

theorem ltRaw_sup_right {left : Ordinal} (isAtomic : left.atomic = true) (parts : List Ordinal) :
    ltRaw left (.sup parts) = true ↔ ∃ part ∈ parts, ltRaw left part = true ∨ left = part := by
  cases left with
  | sup parts => cases isAtomic
  | _ => rw [ltRaw] <;> simp

theorem exists_weight_cons (normal : a.Normal) : ∃ digit rest, a.weight = digit :: rest :=
  exists_cons_of_ne_nil (weight_ne_nil normal)

theorem ltRaw_eq_ltFlat (atomicA : a.atomic = true) (atomicB : b.atomic = true)
    (ne : ∀ x y, a = .omegaSquaredPlus x → b ≠ .omegaSquaredPlus y) : ltRaw a b = ltFlat a b := by
  unfold ltRaw
  cases a with
  | sup _ => cases atomicA
  | omegaSquaredPlus x =>
    cases b with
    | sup _ => cases atomicB
    | omegaSquaredPlus y => exact absurd rfl (ne x y rfl)
    | _ => rfl
  | _ =>
    cases b with
    | sup _ => cases atomicB
    | _ => rfl

theorem ltRaw_atomic (normalA : a.Normal) (normalB : b.Normal) (atomicA : a.atomic = true)
    (atomicB : b.atomic = true) (ne : ∀ x y, a = .omegaSquaredPlus x → b ≠ .omegaSquaredPlus y) :
    (ltRaw a b = true ↔ a.weight < b.weight) ∧ (a.weight = b.weight → a = b) := by
  rw [ltRaw_eq_ltFlat atomicA atomicB ne]
  cases normalA with
  | sup _ _ => cases atomicA
  | omegaSquaredPlus inner _ =>
    rcases exists_weight_cons inner with ⟨digit, rest, shape⟩
    cases normalB with
    | sup _ _ => cases atomicB
    | omegaSquaredPlus _ _ => exact absurd rfl (ne _ _ rfl)
    | _ =>
      unfold ltFlat
      simp [weight, shape, cons_lt_cons_iff, UInt32.le_iff_toNat_le]
      try omega
  | _ =>
    cases normalB with
    | sup _ _ => cases atomicB
    | omegaSquaredPlus inner _ =>
      rcases exists_weight_cons inner with ⟨digit, rest, shape⟩
      unfold ltFlat
      simp [weight, shape, cons_lt_cons_iff]
    | _ =>
      unfold ltFlat
      simp [weight, cons_lt_cons_iff, UInt32.lt_iff_toNat_lt, UInt32.le_iff_toNat_le, ← UInt32.toNat_inj]
      try omega

theorem ltRaw_squaredPlus (normalA : a.Normal) (normalB : b.Normal) :
    ltRaw (.omegaSquaredPlus a) (.omegaSquaredPlus b) = ltRaw a b := by
  rw [ltRaw, normalA.normalize_eq, normalB.normalize_eq]

theorem normal_pair_induction {P : Ordinal → Ordinal → Prop}
    (supLeft : ∀ parts right, 1 < parts.length → (∀ part ∈ parts, Normal part ∧ P part right) →
      P (.sup parts) right)
    (supRight : ∀ left parts, left.Normal → left.atomic = true → 1 < parts.length →
      (∀ part ∈ parts, Normal part ∧ P left part) → P left (.sup parts))
    (squared : ∀ a b, a.Normal → b.Normal → P a b → P (.omegaSquaredPlus a) (.omegaSquaredPlus b))
    (onSight : ∀ a b, a.Normal → b.Normal → a.atomic = true → b.atomic = true →
      (∀ x y, a = .omegaSquaredPlus x → b ≠ .omegaSquaredPlus y) → P a b) (normalA : a.Normal)
    (normalB : b.Normal) : P a b := by
  generalize hb : a.size + b.size = n
  induction n using Nat.strong_induction_on generalizing a b with
  | _ n ih =>
    subst hb
    by_cases atomicA : a.atomic = true
    · by_cases atomicB : b.atomic = true
      · by_cases both : ∃ x y, a = .omegaSquaredPlus x ∧ b = .omegaSquaredPlus y
        · rcases both with ⟨x, y, rfl, rfl⟩
          cases normalA with
          | omegaSquaredPlus normalX nonzeroX =>
            cases normalB with
            | omegaSquaredPlus normalY nonzeroY =>
              apply squared x y normalX normalY
              apply ih _ _ normalX normalY rfl
              simp only [size]
              omega
        · apply onSight a b normalA normalB atomicA atomicB
          intro x y left right
          exact both ⟨x, y, left, right⟩
      · cases normalB with
        | @sup parts several normal =>
          apply supRight a parts normalA atomicA several
          intro part mem
          have smaller := size_mem_sup mem
          exact ⟨normal part mem, ih _ (by omega) normalA (normal part mem) rfl⟩
        | _ => exact absurd rfl atomicB
    · cases normalA with
      | @sup parts several normal =>
        apply supLeft parts b several
        intro part mem
        have smaller := size_mem_sup mem
        exact ⟨normal part mem, ih _ (by omega) (normal part mem) normalB rfl⟩
      | _ => exact absurd rfl atomicA

theorem weight_le_of_ltRaw (normalA : a.Normal) (normalB : b.Normal) (lt : ltRaw a b = true) :
    a.weight ≤ b.weight := by
  revert lt
  apply normal_pair_induction _ _ _ _ normalA normalB
  · intro parts right several each lt
    apply weightAll_le
    intro part mem
    exact (each part mem).2 ((ltRaw_sup_left parts right).mp lt part mem)
  · intro left parts normal isAtomic several each lt
    rcases (ltRaw_sup_right isAtomic parts).mp lt with ⟨part, mem, hlt | rfl⟩
    · exact le_trans ((each part mem).2 hlt) (weight_le_weightAll mem)
    · exact weight_le_weightAll mem
  · intro a b normalA normalB ih lt
    rw [ltRaw_squaredPlus normalA normalB] at lt
    exact cons_le_cons 2 (ih lt)
  · intro a b normalA normalB atomicA atomicB ne lt
    exact le_of_lt ((ltRaw_atomic normalA normalB atomicA atomicB ne).1.mp lt)

theorem ltRaw_clean_right (normalA : a.Normal) (normalB : b.Normal) (cleanB : b.clean = true) :
    ltRaw a b = true ↔ a.weight < b.weight := by
  revert cleanB
  apply normal_pair_induction _ _ _ _ normalA normalB
  · intro parts right several each cleanRight
    rw [ltRaw_sup_left]
    have ne : parts ≠ [] := by
      rintro rfl
      simp at several
    constructor
    · intro lt
      rcases exists_weightAll ne with ⟨part, mem, attained⟩
      show weightAll parts < right.weight
      rw [attained]
      exact ((each part mem).2 cleanRight).mp (lt part mem)
    · intro lt part mem
      exact ((each part mem).2 cleanRight).mpr (lt_of_le_of_lt (weight_le_weightAll mem) lt)
  · intro left parts normal isAtomic several each cleanRight
    cases cleanRight
  · intro a b normalA normalB ih cleanRight
    rw [ltRaw_squaredPlus normalA normalB, ih cleanRight]
    exact cons_lt_cons_self.symm
  · intro a b normalA normalB atomicA atomicB apart cleanRight
    exact (ltRaw_atomic normalA normalB atomicA atomicB apart).1

theorem eq_of_weight_eq (normalA : a.Normal) (normalB : b.Normal) (cleanA : a.clean = true)
    (cleanB : b.clean = true) (eq : a.weight = b.weight) : a = b := by
  revert cleanA cleanB eq
  apply normal_pair_induction _ _ _ _ normalA normalB
  · intro parts right several each cleanLeft
    cases cleanLeft
  · intro left parts normal isAtomic several each cleanLeft cleanRight
    cases cleanRight
  · intro a b normalA normalB ih cleanLeft cleanRight eq
    rw [ih cleanLeft cleanRight (List.cons.inj eq).2]
  · intro a b normalA normalB atomicA atomicB ne cleanLeft cleanRight
    exact (ltRaw_atomic normalA normalB atomicA atomicB ne).2

theorem ltRaw_clean_left (normalA : a.Normal) (normalB : b.Normal) (cleanA : a.clean = true)
    (hides : b.clean = false) : ltRaw a b = true ↔ a.weight ≤ b.weight := by
  revert cleanA hides
  apply normal_pair_induction _ _ _ _ normalA normalB
  · intro parts right several each cleanLeft
    cases cleanLeft
  · intro left parts normal isAtomic several each cleanLeft hides
    constructor
    · intro lt
      rcases (ltRaw_sup_right isAtomic parts).mp lt with ⟨part, mem, hlt | rfl⟩
      · exact le_trans (weight_le_of_ltRaw normal (each part mem).1 hlt) (weight_le_weightAll mem)
      · exact weight_le_weightAll mem
    · intro hlt
      have ne : parts ≠ [] := by
        rintro rfl
        simp at several
      rcases exists_weightAll ne with ⟨part, mem, attained⟩
      have reached : left.weight ≤ part.weight := attained ▸ hlt
      apply (ltRaw_sup_right isAtomic parts).mpr
      refine ⟨part, mem, ?_⟩
      cases cleanPart : part.clean with
      | false => exact .inl (((each part mem).2 cleanLeft cleanPart).mpr reached)
      | true =>
        rcases lt_or_eq_of_le reached with smaller | eq
        · exact .inl ((ltRaw_clean_right normal (each part mem).1 cleanPart).mpr smaller)
        · exact .inr (eq_of_weight_eq normal (each part mem).1 cleanLeft cleanPart eq)
  · intro a b normalA normalB ih cleanLeft hides
    rw [ltRaw_squaredPlus normalA normalB, ih cleanLeft hides]
    exact ⟨cons_le_cons 2, fun hlt => not_lt.mp fun above => not_lt.mpr hlt (cons_lt_cons_self.mpr above)⟩
  · intro a b normalA normalB atomicA atomicB apart cleanLeft hides
    have decided := ltRaw_atomic normalA normalB atomicA atomicB apart
    rw [decided.1]
    refine ⟨le_of_lt, fun hlt => lt_of_le_of_ne hlt fun eq => ?_⟩
    rw [decided.2 eq, hides] at cleanLeft
    cases cleanLeft

/-- Nested in a supremum, at whatever depth. -/
inductive Part : Ordinal → Ordinal → Prop
  | direct {x : Ordinal} {parts : List Ordinal} : x ∈ parts → Part x (.sup parts)
  | deeper {x part : Ordinal} {parts : List Ordinal} : Part x part → part ∈ parts → Part x (.sup parts)

theorem Part.trans {z : Ordinal} (inner : Part x y) (outer : Part y z) : Part x z := by
  induction outer with
  | direct mem => exact .deeper inner mem
  | deeper _ mem ih => exact .deeper ih mem

theorem Part.ltRaw_of_atomic (part : Part x y) (isAtomic : x.atomic = true) : ltRaw x y = true := by
  induction part with
  | direct mem => exact (ltRaw_sup_right isAtomic _).mpr ⟨_, mem, .inr rfl⟩
  | deeper _ mem ih => exact (ltRaw_sup_right isAtomic _).mpr ⟨_, mem, .inl ih⟩

theorem Part.ltRaw (part : Part x y) : ltRaw x y = true := by
  generalize hb : x.size = n
  induction n using Nat.strong_induction_on generalizing x with
  | _ n ih =>
    subst hb
    cases x with
    | sup parts =>
      apply (ltRaw_sup_left parts y).mpr
      intro inner mem
      exact ih _ (size_mem_sup mem) (Part.trans (.direct mem) part) rfl
    | _ => exact part.ltRaw_of_atomic rfl

theorem ltRaw_self_of_sup (parts : List Ordinal) : ltRaw (.sup parts) (.sup parts) = true :=
  (ltRaw_sup_left parts _).mpr fun _ mem => (Part.direct mem).ltRaw

theorem ltRaw_self (normal : a.Normal) : ltRaw a a = true ↔ a.clean = false := by
  cases cleanA : a.clean with
  | true => simp [ltRaw_clean_right normal normal cleanA]
  | false =>
    simp only [iff_true]
    induction normal with
    | omegaSquaredPlus inner nz ih =>
      rw [ltRaw_squaredPlus inner inner]
      exact ih cleanA
    | sup several each ih => exact ltRaw_self_of_sup _
    | _ => cases cleanA

/-- A finite tail at the greatest `u32`, which the successor leaves as it is. -/
def saturated : Ordinal → Bool
  | .omegaPlus n => n == 0xFFFFFFFF
  | .omegaTimesPlus _ n => n == 0xFFFFFFFF
  | .omegaSquaredPlus inner => inner.saturated
  | _ => false

theorem succ_of_saturated (full : a.saturated = true) : a.succ = a := by
  fun_induction saturated a with
  | case1 _ | case2 _ _ => rw [succ, saturatingSucc, if_pos (beq_iff_eq.mp full)]
  | case3 inner ih => rw [succ, ih full]
  | case4 => cases full

theorem toNat_saturatingSucc {n : UInt32} (room : n ≠ 0xFFFFFFFF) :
    (saturatingSucc n).toNat = n.toNat + 1 := by
  rw [saturatingSucc, if_neg room]
  have hb := n.toNat_lt
  have hlt : n.toNat ≠ 0xFFFFFFFF := fun full => room (UInt32.toNat_inj.mp full)
  rw [UInt32.toNat_add]
  exact Nat.mod_eq_of_lt (by simp; omega)

theorem isZero_iff : a.isZero = true ↔ a = .finite 0 := by
  cases a <;> simp [isZero]

theorem zero_le_weight (normal : a.Normal) : [0, 0] ≤ a.weight := by
  induction normal with
  | @sup parts several each ih =>
    have ne : parts ≠ [] := by
      rintro rfl
      simp at several
    rcases exists_weightAll ne with ⟨part, mem, attained⟩
    show [0, 0] ≤ weightAll parts
    rw [attained]
    exact ih part mem
  | _ => exact not_lt.mp (by simp [weight, cons_lt_cons_iff])

theorem not_isZero_of_ltRaw (normal : a.Normal) (lt : ltRaw a b = true) : b.isZero = false := by
  apply Bool.eq_false_of_not_eq_true
  intro isZero
  rw [isZero_iff.mp isZero] at lt
  exact not_lt.mpr (zero_le_weight normal) ((ltRaw_clean_right normal (.finite 0) rfl).mp lt)

theorem lt_sup_of_mem (several : 1 < parts.length) (mem : a ∈ parts) : lt a (.sup parts) = true := by
  unfold lt
  rw [normalize_sup several]
  exact (Part.direct (mem_map_of_mem mem)).ltRaw

theorem lt_of_weight (cleanB : b.normalize.clean = true) (less : a.normalize.weight < b.normalize.weight) :
    lt a b = true :=
  (ltRaw_clean_right (normal_normalize a) (normal_normalize b) cleanB).mpr less

theorem weight_omegaPlus (n : UInt32) :
    (normalize (.omegaPlus n)).clean = true ∧ (normalize (.omegaPlus n)).weight = [1, 1, n.toNat] := by
  unfold normalize
  split_ifs with zero <;> simp_all [clean, weight]

theorem weight_omegaTimes (k : UInt32) :
    (normalize (.omegaTimes k)).weight = if k = 0 then [0, 0] else [1, k.toNat, 0] := by
  unfold normalize
  split_ifs with zero one <;> simp_all [weight]

theorem weight_omegaTimesPlus (k n : UInt32) :
    (normalize (.omegaTimesPlus k n)).clean = true ∧ (normalize (.omegaTimesPlus k n)).weight =
      if k = 0 then [0, n.toNat] else [1, k.toNat, n.toNat] := by
  unfold normalize
  split_ifs with none zero one zero zero <;> simp_all [clean, weight]

theorem lt_succ (room : a.saturated = false) (cleanA : a.normalize.clean = true) : lt a a.succ = true := by
  fun_induction succ a with
  | case1 | case3 => exact lt_of_weight rfl (by simp [normalize, weight, cons_lt_cons_iff])
  | case2 n hlt =>
    have next := toNat_saturatingSucc hlt
    rw [saturatingSucc, if_neg hlt] at next
    exact lt_of_weight rfl (by simp [normalize, weight, next, cons_lt_cons_iff])
  | case4 n =>
    have next := toNat_saturatingSucc (beq_eq_false_iff_ne.mp room)
    apply lt_of_weight (weight_omegaPlus _).1
    rw [(weight_omegaPlus _).2, (weight_omegaPlus _).2, next]
    simp [cons_lt_cons_iff]
  | case5 k =>
    apply lt_of_weight (weight_omegaTimesPlus k 1).1
    rw [weight_omegaTimes, (weight_omegaTimesPlus k 1).2]
    split_ifs <;> simp [cons_lt_cons_iff]
  | case6 k n =>
    have next := toNat_saturatingSucc (beq_eq_false_iff_ne.mp room)
    apply lt_of_weight (weight_omegaTimesPlus k _).1
    rw [(weight_omegaTimesPlus k n).2, (weight_omegaTimesPlus k _).2, next]
    split_ifs <;> simp [cons_lt_cons_iff]
  | case7 => exact lt_of_weight rfl (by simp [normalize, weight, isZero])
  | case8 inner ih =>
    by_cases zero : inner.normalize.isZero = true
    · have less := ih room (by rw [isZero_iff.mp zero]; rfl)
      have nz := not_isZero_of_ltRaw (normal_normalize inner) less
      unfold lt normalize
      rw [if_pos zero, if_neg (by simp [nz])]
      unfold ltRaw
      rfl
    · rw [normalize, if_neg zero] at cleanA
      have less := ih room cleanA
      have nz := not_isZero_of_ltRaw (normal_normalize inner) less
      unfold lt normalize
      rw [if_neg zero, if_neg (by simp [nz]),
        ltRaw_squaredPlus (normal_normalize inner) (normal_normalize _)]
      exact less
  | case9 _ | case10 _ => exact lt_sup_of_mem (by simp) (.head _)
  | case11 parts =>
    match parts with
    | [] => exact lt_of_weight rfl (by simp [normalize, weight, cons_lt_cons_iff])
    | [part] =>
      have less : lt part (.sup [part, .finite 1]) = true := lt_sup_of_mem (by simp) (.head _)
      exact less
    | fst :: snd :: rest =>
      rw [normalize_sup (by simp)] at cleanA
      cases cleanA

/-- The laws at three ordinals. -/
structure StrictOrder (a b c : Ordinal) : Prop where
  irrefl : ¬ lt a a = true
  asymm : ¬ (lt a b = true ∧ lt b a = true)
  trans : lt a b = true → lt b c = true → lt a c = true
  lt_succ : lt a a.succ = true
  le_of_incomparable : ¬ lt a b = true → ¬ lt b a = true → a.normalize = b.normalize → le a b = true

theorem strictOrder_iff (a b c : Ordinal) :
    StrictOrder a b c ↔
      a.normalize.clean = true ∧ a.saturated = false ∧ (a.normalize = b.normalize → a = b) := by
  have normalA := normal_normalize a
  have normalB := normal_normalize b
  have normalC := normal_normalize c
  constructor
  · intro laws
    have cleanA : a.normalize.clean = true := by
      cases cleanA : a.normalize.clean with
      | true => rfl
      | false => exact absurd ((ltRaw_self normalA).mpr cleanA) laws.irrefl
    refine ⟨cleanA, ?_, ?_⟩
    · cases room : a.saturated with
      | false => rfl
      | true =>
        have less := laws.lt_succ
        rw [succ_of_saturated room] at less
        exact absurd less laws.irrefl
    · intro same
      have apart : ¬ lt b a = true := by
        unfold lt
        rw [← same]
        exact laws.irrefl
      have apart' : ¬ lt a b = true := by
        unfold lt
        rw [← same]
        exact laws.irrefl
      have below := laws.le_of_incomparable apart' apart same
      unfold le at below
      rw [Bool.eq_false_of_not_eq_true apart', Bool.false_or] at below
      exact of_decide_eq_true below
  · rintro ⟨cleanA, room, determined⟩
    have irrefl : ¬ lt a a = true := by
      intro less
      rw [(ltRaw_self normalA).mp less] at cleanA
      cases cleanA
    refine ⟨irrefl, ?_, ?_, lt_succ room cleanA, ?_⟩
    · rintro ⟨less, greater⟩
      have below := weight_le_of_ltRaw normalA normalB less
      have above := (ltRaw_clean_right normalB normalA cleanA).mp greater
      exact absurd above (not_lt.mpr below)
    · intro first second
      have below := weight_le_of_ltRaw normalA normalB first
      cases cleanC : c.normalize.clean with
      | true =>
        have above := (ltRaw_clean_right normalB normalC cleanC).mp second
        exact (ltRaw_clean_right normalA normalC cleanC).mpr (lt_of_le_of_lt below above)
      | false =>
        have above := weight_le_of_ltRaw normalB normalC second
        exact (ltRaw_clean_left normalA normalC cleanA cleanC).mpr (le_trans below above)
    · intro _ _ same
      unfold le
      rw [decide_eq_true (determined same), Bool.or_true]

/-- The successor of `ω ^ 3` is a formal supremum, which counts as smaller than itself. -/
theorem succ_omegaPow_not_strictOrder : ¬ StrictOrder (succ (.omegaPow 3)) .omega .omega := by
  intro laws
  apply laws.irrefl
  exact (ltRaw_self (normal_normalize _)).mpr (by decide)

end Ordinal

end Kernel
