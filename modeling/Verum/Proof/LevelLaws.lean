import Verum.Proof.LevelSummands

namespace Proof

section Assembling

theorem assemble_concrete (n : UInt32) : levelAssembleMax (some n) [] = .concrete n := by simp [levelAssembleMax]

variable {s : List Level}

theorem assemble_cons (a : Level) (ne : s ≠ []) :
    levelAssembleMax none (a :: s) = .max a (levelAssembleMax none s) := by
  obtain ⟨front, last, rfl⟩ := List.eq_nil_or_concat s |>.resolve_left ne
  simp [levelAssembleMax]

theorem assemble_zero (ne : s ≠ []) : levelAssembleMax (some 0) s = levelAssembleMax none s := by
  simp [levelAssembleMax, ne]

theorem assemble_some {n : UInt32} (pos : n ≠ 0) (ne : s ≠ []) :
    levelAssembleMax (some n) s = .max (.concrete n) (levelAssembleMax none s) := by
  obtain ⟨front, last, rfl⟩ := List.eq_nil_or_concat s |>.resolve_left ne
  simp [levelAssembleMax, pos]

@[simp] theorem topConcrete_max (a b : Level) :
    (Level.max a b).topConcrete = joinConcrete a.topConcrete b.topConcrete := by
  unfold Level.topConcrete
  rw [flattenMax, mergeConcrete_append]

@[simp] theorem topSymbolic_max (a b : Level) : (Level.max a b).topSymbolic = a.topSymbolic ++ b.topSymbolic := by
  unfold Level.topSymbolic
  rw [flattenMax, mergeConcrete_append]

def Summand (a : Level) : Prop := a.topConcrete = none ∧ a.topSymbolic = [a]

theorem mem_topSymbolic {a x : Level} (mem : x ∈ a.topSymbolic) : Summand x := by
  induction a with
  | concrete n => cases mem
  | max a b ih ih' =>
    rw [topSymbolic_max, List.mem_append] at mem
    exact mem.elim ih ih'
  | var name | succ a | offset a n =>
    rw [List.mem_singleton.mp mem]
    exact ⟨rfl, rfl⟩

theorem tops_assemble_none (each : ∀ x ∈ s, Summand x) (ne : s ≠ []) :
    (levelAssembleMax none s).topConcrete = none ∧ (levelAssembleMax none s).topSymbolic = s := by
  induction s with
  | nil => exact absurd rfl ne
  | cons a s ih =>
    obtain ⟨isNone, isSelf⟩ := each a (by simp)
    by_cases more : s = []
    · subst more
      exact ⟨isNone, isSelf⟩
    · obtain ⟨restNone, restSelf⟩ := ih (fun x mem => each x (.tail _ mem)) more
      rw [assemble_cons a more, topConcrete_max, topSymbolic_max, isNone, isSelf, restNone, restSelf]
      exact ⟨rfl, rfl⟩

theorem tops_assemble {c : Option UInt32} (each : ∀ x ∈ s, Summand x) (zero : c = some 0 → s = [])
    (some : c = none → s ≠ []) :
    (levelAssembleMax c s).topConcrete = c ∧ (levelAssembleMax c s).topSymbolic = s := by
  cases c with
  | none => exact tops_assemble_none each (some rfl)
  | some n =>
    by_cases empty : s = []
    · subst empty
      rw [assemble_concrete]
      exact ⟨rfl, rfl⟩
    · obtain ⟨restNone, restSelf⟩ := tops_assemble_none each empty
      have pos : n ≠ 0 := by
        rintro rfl
        exact empty (zero rfl)
      rw [assemble_some pos empty, topConcrete_max, topSymbolic_max, restNone, restSelf]
      exact ⟨rfl, rfl⟩

end Assembling

section NormalForms

/-- The shape of the levels that `normalize` returns. -/
structure Normal (a : Level) : Prop where
  assembled : levelAssembleMax a.topConcrete a.topSymbolic = a
  ordered : a.topSymbolic.Pairwise Before
  plain : 2 ≤ a.topSymbolic.length + a.topConcrete.toList.length →
    levelCommonSuccDepth a.topConcrete a.topSymbolic = 0
  zero : a.topConcrete = some 0 → a.topSymbolic = []

def Atomic (a : Level) : Prop := ∀ b c, a ≠ .max b c

variable {a b : Level} {amount : UInt32}

theorem Atomic.normal (atomic : Atomic a) : Normal a := by
  cases a with
  | concrete n => exact ⟨assemble_concrete n, .nil, fun two => absurd two (Nat.not_succ_le_self 1), fun _ => rfl⟩
  | max a b => exact absurd rfl (atomic a b)
  | var name | succ a | offset a n =>
    exact ⟨rfl, List.pairwise_singleton _ _, fun two => absurd two (Nat.not_succ_le_self 1), nofun⟩

theorem atomic_offsetNode (base : Level) (pos : amount ≠ 0) : Atomic (levelOffsetNode base amount) := by
  unfold levelOffsetNode
  rw [if_neg pos]
  split <;> exact nofun

theorem ne_zero_of_toNat (pos : 0 < amount.toNat) : amount ≠ 0 := by
  rintro rfl
  exact absurd pos (by decide)

theorem toNat_of_ne_zero (nz : amount ≠ 0) : 0 < amount.toNat :=
  Nat.pos_of_ne_zero fun zero => nz (UInt32.toNat.inj zero)

theorem excess_ne_zero {n : UInt32} (wide : checkedAdd n amount = none) :
    amount - (UInt32.ofNat (2 ^ 32 - 1) - n) ≠ 0 := by
  have excess := toNat_excess wide
  have overflow := checkedAdd_none wide
  exact ne_zero_of_toNat (by omega)

theorem sum_ne_zero {a b sum : UInt32} (hf : checkedAdd a b = some sum) (nz : a ≠ 0 ∨ b ≠ 0) : sum ≠ 0 := by
  have value := checkedAdd_some hf
  refine ne_zero_of_toNat ?_
  rcases nz with fst | snd
  · have pos := toNat_of_ne_zero fst
    omega
  · have pos := toNat_of_ne_zero snd
    omega

theorem atomic_addOffset (base : Level) (nz : amount ≠ 0) : Atomic (levelAddOffset base amount) := by
  fun_induction levelAddOffset base amount with
  | case1 base => exact absurd rfl nz
  | case2 amount _ n next hf => rintro b c ⟨⟩
  | case3 amount _ n wide => exact atomic_offsetNode _ (excess_ne_zero wide)
  | case4 amount _ inner sum hf ih => exact ih (sum_ne_zero hf (.inl nz))
  | case5 _ _ _ _ | case7 _ _ _ _ _ | case8 _ _ _ => exact atomic_offsetNode _ nz
  | case6 amount _ inner prior sum hf ih => exact ih (sum_ne_zero hf (.inr nz))

theorem summands_each {x : Level} (mem : x ∈ (summands a b).2) : Summand x := by
  rw [summands, mem_arrange, List.mem_append] at mem
  exact mem.elim mem_topSymbolic mem_topSymbolic

theorem Normal.eq_zero (normal : Normal a) (zero : a.topConcrete = some 0) : a = .concrete 0 := by
  rw [← normal.assembled, zero, normal.zero zero, assemble_concrete]

theorem Normal.nonempty (normal : Normal a) (none : a.topConcrete = none) : a.topSymbolic ≠ [] := by
  intro empty
  have assembled := normal.assembled
  rw [none, empty] at assembled
  have isZero : a = .concrete 0 := assembled.symm
  rw [isZero] at none
  cases none

theorem joinConcrete_zero (c : Option UInt32) : joinConcrete (some 0) c = if c = none then some 0 else c := by
  cases c with
  | none => rfl
  | some n =>
    rw [joinConcrete, if_neg (by simp), Option.some.injEq, ← UInt32.toNat_inj, toNat_max]
    exact Nat.zero_max _

theorem commonSuccDepth_zero (s : List Level) : levelCommonSuccDepth (some 0) s = 0 := by
  have least := (levelCommonSuccDepth_le (some 0) s).2 0 rfl
  exact UInt32.toNat_inj.mp (Nat.le_zero.mp (UInt32.le_iff_toNat_le.mp least))

theorem canonical_zero (normalize : Level → Level) (normal : Normal a) :
    levelMaxCanonical normalize (.concrete 0) a = a := by
  have symbolic : (summands (.concrete 0) a).2 = a.topSymbolic :=
    arrange_of_before normal.ordered fun x => Iff.rfl
  have concrete : (summands (.concrete 0) a).1 = if a.topConcrete = none then some 0 else a.topConcrete :=
    joinConcrete_zero a.topConcrete
  rw [levelMaxCanonical_eq, if_neg, concrete, symbolic]
  · split
    · rename_i none
      have ne := normal.nonempty none
      rw [assemble_zero ne, ← none]
      exact normal.assembled
    · exact normal.assembled
  · rintro ⟨two, pos⟩
    rw [concrete, symbolic] at two pos
    split at pos
    · rw [commonSuccDepth_zero] at pos
      exact absurd pos (by decide)
    · rename_i some
      rw [if_neg some] at two
      rw [normal.plain two] at pos
      exact absurd pos (by decide)

theorem canonical_congr (normalize : Level → Level) {c d : Level} (same : summands a b = summands c d) :
    levelMaxCanonical normalize a b = levelMaxCanonical normalize c d := by
  have factors : Factors a b ↔ Factors c d := by
    unfold Factors
    rw [same]
  rw [levelMaxCanonical_eq, levelMaxCanonical_eq]
  by_cases factored : Factors c d
  · rw [if_pos factored, if_pos (factors.mpr factored)]
    unfold interior commonSuccessors
    rw [same]
  · rw [if_neg factored, if_neg (mt factors.mp factored), same]

theorem canonical_comm (normalize : Level → Level) (a b : Level) :
    levelMaxCanonical normalize a b = levelMaxCanonical normalize b a := by
  refine canonical_congr normalize ?_
  unfold summands
  rw [joinConcrete_comm]
  congr 1
  exact arrange_congr fun x => by rw [List.mem_append, List.mem_append, or_comm]

theorem canonical_self (normalize : Level → Level) (normal : Normal a) : levelMaxCanonical normalize a a = a := by
  have same : summands a a = (a.topConcrete, a.topSymbolic) := by
    unfold summands
    rw [joinConcrete_self, arrange_of_before normal.ordered fun x => by rw [List.mem_append, or_self]]
  rw [levelMaxCanonical_eq, if_neg, same]
  · exact normal.assembled
  · rintro ⟨two, pos⟩
    rw [same] at two pos
    rw [normal.plain two] at pos
    exact absurd pos (by decide)

theorem canonical_zero_right (normalize : Level → Level) (normal : Normal a) :
    levelMaxCanonical normalize a (.concrete 0) = a :=
  (canonical_comm normalize a (.concrete 0)).trans (canonical_zero normalize normal)

theorem canonical_tops (normalize : Level → Level) (normal : Normal a) (pos : a.topConcrete ≠ some 0)
    (positive' : b.topConcrete ≠ some 0) (assembled : ¬ Factors a b) :
    levelMaxCanonical normalize a b = levelAssembleMax (summands a b).1 (summands a b).2 ∧
      (levelMaxCanonical normalize a b).topConcrete = (summands a b).1 ∧
        (levelMaxCanonical normalize a b).topSymbolic = (summands a b).2 := by
  rw [levelMaxCanonical_eq, if_neg assembled]
  refine ⟨rfl, tops_assemble (fun x mem => summands_each mem) ?_ ?_⟩
  · intro zero
    rcases joinConcrete_eq_zero zero with fst | snd
    · exact absurd fst pos
    · exact absurd snd positive'
  · intro none empty
    have fst : a.topConcrete = .none := by
      unfold summands at none
      cases isConcrete : a.topConcrete with
      | none => rfl
      | some n => cases other : b.topConcrete <;> simp [joinConcrete, isConcrete, other] at none
    obtain ⟨x, mem⟩ := List.exists_mem_of_ne_nil _ (normal.nonempty fst)
    have mem' : x ∈ (summands a b).2 := by
      rw [summands, mem_arrange, List.mem_append]
      exact .inl mem
    rw [empty] at mem'
    cases mem'

theorem canonical_normal (normalize : Level → Level) (normal : Normal a) (normal' : Normal b) :
    Normal (levelMaxCanonical normalize a b) := by
  by_cases factored : Factors a b
  · rw [levelMaxCanonical_eq, if_pos factored]
    refine (atomic_addOffset _ ?_).normal
    exact ne_zero_of_toNat (UInt32.lt_iff_toNat_lt.mp factored.2)
  by_cases zero : a.topConcrete = some 0
  · rw [normal.eq_zero zero, canonical_zero normalize normal']
    exact normal'
  by_cases zero' : b.topConcrete = some 0
  · rw [normal'.eq_zero zero', canonical_zero_right normalize normal]
    exact normal
  obtain ⟨isAssembled, isConcrete, isSymbolic⟩ := canonical_tops normalize normal zero zero' factored
  refine ⟨?_, ?_, ?_, ?_⟩
  · rw [isConcrete, isSymbolic, isAssembled]
  · rw [isSymbolic]
    exact arrange_pairwise _
  · rw [isConcrete, isSymbolic]
    intro two
    by_contra nonzero
    exact factored ⟨two, UInt32.lt_iff_toNat_lt.mpr (toNat_of_ne_zero nonzero)⟩
  · rw [isConcrete]
    intro isZero
    rcases joinConcrete_eq_zero isZero with fst | snd
    · exact absurd fst zero
    · exact absurd snd zero'

theorem addOffset_normal {base : Level} (normal : Normal base) (amount : UInt32) :
    Normal (levelAddOffset base amount) := by
  by_cases zero : amount = 0
  · rw [zero, levelAddOffset.eq_def, if_pos rfl]
    exact normal
  · exact (atomic_addOffset base zero).normal

theorem normalize_normal (level : Level) : Normal level.normalize := by
  induction level with
  | concrete n | var name => exact Atomic.normal nofun
  | succ inner ih => exact addOffset_normal ih 1
  | offset base amount ih =>
    rw [normalize_offset]
    exact addOffset_normal ih amount
  | max a b ih ih' =>
    rw [normalize_max]
    exact canonical_normal _ ih ih'

end NormalForms

section Laws

theorem levelEq_iff {a b : Level} : levelEq a b = true ↔ a.normalize = b.normalize := decide_eq_true_iff

theorem levelEq_max_comm (a b : Level) : levelEq (.max a b) (.max b a) = true := by
  rw [levelEq_iff, normalize_max, normalize_max]
  exact canonical_comm _ _ _

theorem levelEq_max_self (a : Level) : levelEq (.max a a) a = true := by
  rw [levelEq_iff, normalize_max]
  exact canonical_self _ (normalize_normal a)

theorem canonical_assoc (normalize : Level → Level) {a b c : Level} (normal : Normal a) (normal' : Normal b)
    (normal'' : Normal c) (left : ¬ Factors a b) (right : ¬ Factors b c) :
    levelMaxCanonical normalize a (levelMaxCanonical normalize b c) =
      levelMaxCanonical normalize (levelMaxCanonical normalize a b) c := by
  by_cases zero : a.topConcrete = some 0
  · rw [normal.eq_zero zero, canonical_zero normalize normal',
      canonical_zero normalize (canonical_normal normalize normal' normal'')]
  by_cases zero' : b.topConcrete = some 0
  · rw [normal'.eq_zero zero', canonical_zero normalize normal'', canonical_zero_right normalize normal]
  by_cases zero'' : c.topConcrete = some 0
  · rw [normal''.eq_zero zero'', canonical_zero_right normalize normal',
      canonical_zero_right normalize (canonical_normal normalize normal normal')]
  obtain ⟨-, isConcrete, isSymbolic⟩ := canonical_tops normalize normal zero zero' left
  obtain ⟨-, isConcrete', isSymbolic'⟩ := canonical_tops normalize normal' zero' zero'' right
  refine canonical_congr normalize ?_
  rw [summands, summands, isConcrete, isSymbolic, isConcrete', isSymbolic', summands, summands, joinConcrete_assoc]
  congr 1
  refine arrange_congr fun x => ?_
  simp only [List.mem_append, mem_arrange, or_assoc]

end Laws

end Proof
