import Verum.Proof.LevelLaws

open List

namespace Proof

section Weights

theorem mass_summands (a b : Level) :
    2 * (summands a b).1.toList.length + mass (summands a b).2 ≤ a.weight + b.weight + 2 := by
  have merged := mass_mergeConcrete none (flattenMax a ++ flattenMax b)
  simp only [mergeConcrete_append, mass_append, mass_flattenMax, Option.toList_none, length_nil] at merged
  have arranged : mass (summands a b).2 ≤ mass (a.topSymbolic ++ b.topSymbolic) := by
    unfold summands arrange
    refine (mass_dedup _).trans_eq ?_
    exact mass_perm (perm_insertionSort _ _)
  rw [mass_append] at arranged
  unfold Level.topSymbolic at arranged
  unfold summands Level.topConcrete at *
  simp only at *
  omega

variable {a b : Level}

theorem Factors.nonempty (factored : Factors a b) : (summands a b).2 ≠ [] := by
  intro empty
  have two := factored.1
  rw [empty] at two
  cases concrete : (summands a b).1 <;> simp [concrete] at two

theorem Factors.positive (factored : Factors a b) : 0 < (commonSuccessors a b).toNat :=
  UInt32.lt_iff_toNat_lt.mp factored.2

theorem weight_interior (factored : Factors a b) :
    (interior a b).weight + (summands a b).2.length * (commonSuccessors a b).toNat ≤ a.weight + b.weight + 1 := by
  have stripped := mass_levelStripSucc (commonSuccessors a b) (summands a b).2
    (levelCommonSuccDepth_le (summands a b).1 (summands a b).2).1
  have ne : (summands a b).2.map (levelStripSucc · (commonSuccessors a b)) ≠ [] :=
    mt map_eq_nil_iff.mp factored.nonempty
  have assembled := weight_levelAssembleMax ((summands a b).1.map (saturatingSub · (commonSuccessors a b))) _ ne
  have same : ((summands a b).1.map (saturatingSub · (commonSuccessors a b))).toList.length =
      (summands a b).1.toList.length := by
    cases (summands a b).1 <;> rfl
  have total := mass_summands a b
  unfold interior
  omega

theorem weight_interior_le (factored : Factors a b) : (interior a b).weight ≤ a.weight + b.weight := by
  have weight := weight_interior factored
  have several : 1 * 1 ≤ (summands a b).2.length * (commonSuccessors a b).toNat :=
    Nat.mul_le_mul (length_pos_iff.mpr factored.nonempty) factored.positive
  omega

theorem weight_normalize (lvl : Level) : lvl.normalize.weight ≤ lvl.weight :=
  (normalizeWithin_stable lvl.weight lvl (Nat.le_refl _)).1

theorem weight_canonical (a b : Level) :
    (levelMaxCanonical Level.normalize a b).weight ≤ a.weight + b.weight + 1 := by
  rcases levelMaxCanonical_cases a b with ⟨lvl, weight, canonical⟩ | ⟨lvl, n, -, weight, canonical⟩
  · rw [canonical]
    exact weight
  · rw [canonical]
    have added := weight_levelAddOffset lvl.normalize n
    have lighter := weight_normalize lvl
    omega

theorem weight_factored (factored : Factors a b) (two : 2 ≤ (summands a b).2.length) :
    (levelMaxCanonical Level.normalize a b).weight < a.weight + b.weight + 1 := by
  rw [levelMaxCanonical_eq, if_pos factored]
  have added := weight_levelAddOffset (interior a b).normalize (commonSuccessors a b)
  have lighter := weight_normalize (interior a b)
  have weight := weight_interior factored
  have pos := factored.positive
  have twice : 2 * (commonSuccessors a b).toNat ≤ (summands a b).2.length * (commonSuccessors a b).toNat :=
    Nat.mul_le_mul_right _ two
  omega

end Weights

section Shapes

/-- What `normalize` returns, down to the bases of its offsets. -/
inductive Shaped : Level → Prop where
  | concrete (n : UInt32) : Shaped (.concrete n)
  | var (name : String) : Shaped (.var name)
  | succ {base : Level} (shaped : Shaped base) (fixed : levelAddOffset base 1 = .succ base) : Shaped (.succ base)
  | offset {base : Level} {amount : UInt32} (shaped : Shaped base)
      (fixed : levelAddOffset base amount = .offset base amount) : Shaped (.offset base amount)
  | max {a b : Level} (normal : Normal (.max a b)) (each : ∀ x ∈ (Level.max a b).topSymbolic, Shaped x) :
      Shaped (.max a b)

variable {a base : Level} {amount : UInt32}

theorem Shaped.normal (shaped : Shaped a) : Normal a := by
  cases shaped with
  | concrete n | var name | succ shaped fixed | offset shaped fixed => exact Atomic.normal nofun
  | max normal each => exact normal

theorem Shaped.tops {x : Level} (shaped : Shaped a) (mem : x ∈ a.topSymbolic) : Shaped x := by
  cases shaped with
  | concrete n => cases mem
  | var name =>
    rw [mem_singleton.mp mem]
    exact .var name
  | succ shaped fixed =>
    rw [mem_singleton.mp mem]
    exact .succ shaped fixed
  | offset shaped fixed =>
    rw [mem_singleton.mp mem]
    exact .offset shaped fixed
  | max normal each => exact each x mem

theorem Normal.shaped (normal : Normal a) (each : ∀ x ∈ a.topSymbolic, Shaped x) : Shaped a := by
  cases a with
  | concrete n => exact .concrete n
  | max a b => exact .max normal each
  | var name => exact .var name
  | succ base | offset base amount => exact each _ (mem_singleton_self _)

theorem shaped_offsetNode (shaped : Shaped base) (nz : amount ≠ 0)
    (fixed : levelAddOffset base amount = levelOffsetNode base amount) : Shaped (levelOffsetNode base amount) := by
  by_cases one : amount = 1
  · subst one
    exact .succ shaped fixed
  · have isOffset : levelOffsetNode base amount = .offset base amount := by
      unfold levelOffsetNode
      rw [if_neg nz, if_neg one]
    rw [isOffset] at fixed ⊢
    exact .offset shaped fixed

theorem addOffset_top (nz : amount ≠ 0) : levelAddOffset (.concrete (UInt32.ofNat (2 ^ 32 - 1))) amount =
      levelOffsetNode (.concrete (UInt32.ofNat (2 ^ 32 - 1))) amount := by
  have wide : checkedAdd (UInt32.ofNat (2 ^ 32 - 1)) amount = none := by
    have pos := toNat_of_ne_zero nz
    have top : (UInt32.ofNat (2 ^ 32 - 1)).toNat = 2 ^ 32 - 1 := rfl
    unfold checkedAdd
    rw [if_neg (by omega)]
  rw [levelAddOffset, if_neg nz, wide]
  simp

theorem shaped_addOffset (shaped : Shaped base) (amount : UInt32) : Shaped (levelAddOffset base amount) := by
  fun_induction levelAddOffset base amount with
  | case1 base => exact shaped
  | case2 amount _ n next fits => exact .concrete next
  | case3 amount _ n wide =>
    have nz := excess_ne_zero wide
    exact shaped_offsetNode (.concrete _) nz (addOffset_top nz)
  | case4 amount _ inner sum fits ih =>
    cases shaped with
    | succ shaped fixed => exact ih shaped
  | case5 _ nz _ wide | case7 _ nz _ _ wide =>
    refine shaped_offsetNode shaped nz ?_
    rw [levelAddOffset, if_neg nz, wide]
  | case6 amount _ inner prior sum fits ih =>
    cases shaped with
    | offset shaped fixed => exact ih shaped
  | case8 amount nz base notConcrete notSucc notOffset =>
    refine shaped_offsetNode shaped nz ?_
    cases base with
    | concrete n => exact absurd rfl (notConcrete n)
    | succ inner => exact absurd rfl (notSucc inner)
    | offset inner prior => exact absurd rfl (notOffset inner prior)
    | var name | max a b => rw [levelAddOffset, if_neg nz] <;> exact nofun

theorem canonical_symbolic (normalize : Level → Level) {b : Level} (normal : Normal a) (normal' : Normal b)
    (assembled : ¬ Factors a b) : (levelMaxCanonical normalize a b).topSymbolic = (summands a b).2 := by
  by_cases zero : a.topConcrete = some 0
  · rw [normal.eq_zero zero, canonical_zero normalize normal']
    exact (arrange_of_before normal'.ordered fun x => Iff.rfl).symm
  by_cases zero' : b.topConcrete = some 0
  · rw [normal'.eq_zero zero', canonical_zero_right normalize normal]
    refine (arrange_of_before normal.ordered fun x => ?_).symm
    rw [mem_append]
    exact or_iff_left not_mem_nil
  exact (canonical_tops normalize normal zero zero' assembled).2.2

theorem shaped_assembled (normalize : Level → Level) {b : Level} (shaped : Shaped a) (shaped' : Shaped b)
    (assembled : ¬ Factors a b) : Shaped (levelMaxCanonical normalize a b) := by
  refine (canonical_normal normalize shaped.normal shaped'.normal).shaped fun x mem => ?_
  rw [canonical_symbolic normalize shaped.normal shaped'.normal assembled, summands, mem_arrange,
    mem_append] at mem
  exact mem.elim shaped.tops shaped'.tops

theorem shaped_normalize (lvl : Level) : Shaped lvl.normalize := by
  induction weight : lvl.weight using Nat.strong_induction_on generalizing lvl with
  | _ n ih =>
    subst weight
    cases lvl with
    | concrete n => exact .concrete n
    | var name => exact .var name
    | succ inner => exact shaped_addOffset (ih _ (Nat.lt_succ_self _) inner rfl) 1
    | offset base amount =>
      rw [normalize_offset]
      exact shaped_addOffset (ih _ (by simp only [Level.weight]; omega) base rfl) amount
    | max a b =>
      have left := ih a.weight (by rw [Level.weight]; omega) a rfl
      have right := ih b.weight (by rw [Level.weight]; omega) b rfl
      rw [normalize_max]
      by_cases factored : Factors a.normalize b.normalize
      · rw [levelMaxCanonical_eq, if_pos factored]
        have lighter := weight_interior_le factored
        have lighterA := weight_normalize a
        have lighterB := weight_normalize b
        exact shaped_addOffset (ih _ (by rw [Level.weight]; omega) _ rfl) _
      · exact shaped_assembled _ left right factored

end Shapes

section Settling

def successorCount (s : List Level) : Nat := s.countP fun a => 0 < levelSuccDepth 0 a

def Level.Settled : Level → Prop
  | .concrete _ | .var _ => True
  | .succ inner => inner.Settled
  | .offset base _ => base.Settled
  | .max a b => successorCount (a.topSymbolic ++ b.topSymbolic) ≤ 1 ∧ a.Settled ∧ b.Settled

theorem successorCount_append (s t : List Level) :
    successorCount (s ++ t) = successorCount s + successorCount t := countP_append

theorem settled_iff_tops (a : Level) :
    a.Settled ↔ successorCount a.topSymbolic ≤ 1 ∧ ∀ x ∈ a.topSymbolic, x.Settled := by
  have atom : ∀ x : Level, x.topSymbolic = [x] →
      (x.Settled ↔ successorCount x.topSymbolic ≤ 1 ∧ ∀ y ∈ x.topSymbolic, y.Settled) := by
    intro x single
    rw [single]
    have one : successorCount [x] ≤ 1 := countP_le_length
    simp [one]
  induction a with
  | concrete n => simp [Level.Settled, Level.topSymbolic, flattenMax, mergeConcrete, successorCount]
  | var name | succ inner | offset base amount => exact atom _ rfl
  | max a b ih ih' =>
    rw [Level.Settled, topSymbolic_max]
    constructor
    · rintro ⟨few, settled, settled'⟩
      refine ⟨few, fun x mem => ?_⟩
      exact (mem_append.mp mem).elim ((ih.mp settled).2 x) ((ih'.mp settled').2 x)
    · rintro ⟨few, each⟩
      have split := successorCount_append a.topSymbolic b.topSymbolic
      refine ⟨few, ih.mpr ⟨by omega, fun x mem => ?_⟩, ih'.mpr ⟨by omega, fun x mem => ?_⟩⟩
      · exact each x (mem_append_left _ mem)
      · exact each x (mem_append_right _ mem)

theorem settled_offsetNode (base : Level) (amount : UInt32) :
    (levelOffsetNode base amount).Settled ↔ base.Settled := by
  unfold levelOffsetNode
  split
  · exact Iff.rfl
  · split <;> exact Iff.rfl

theorem settled_addOffset (base : Level) (amount : UInt32) :
    (levelAddOffset base amount).Settled ↔ base.Settled := by
  fun_induction levelAddOffset base amount with
  | case1 _ | case2 _ _ _ _ _ => exact Iff.rfl
  | case3 _ _ _ _ | case5 _ _ _ _ | case7 _ _ _ _ _ | case8 _ _ _ => exact settled_offsetNode _ _
  | case4 _ _ _ _ _ ih | case6 _ _ _ _ _ _ ih => exact ih

theorem depth_le_levelSuccDepth (d : UInt32) (lvl : Level) : d.toNat ≤ (levelSuccDepth d lvl).toNat := by
  have saturates : ∀ a b : UInt32, a.toNat ≤ (saturatingAdd a b).toNat := by
    intro a b
    unfold saturatingAdd
    cases sum : checkedAdd a b with
    | none => exact Nat.le_of_lt_succ (UInt32.toNat_lt a)
    | some next =>
      have v := checkedAdd_some sum
      rw [Option.getD_some]
      omega
  fun_induction levelSuccDepth d lvl with
  | case1 d inner ih => exact (saturates d 1).trans ih
  | case2 d inner amount ih => exact (saturates d amount).trans ih
  | case3 d lvl => exact Nat.le_refl _

variable {x tail : Level} {s : List Level}

theorem atomic_of_mem {a : Level} (mem : x ∈ a.topSymbolic) : Atomic x := by
  induction a with
  | concrete n => cases mem
  | max a b ih ih' =>
    rw [topSymbolic_max, mem_append] at mem
    exact mem.elim ih ih'
  | var name | succ inner | offset base amount =>
    rw [mem_singleton.mp mem]
    exact nofun

theorem Summand.atomic (single : Summand x) : Atomic x := by
  refine @atomic_of_mem x x ?_
  rw [single.2]
  exact mem_singleton_self x

theorem amount_ne_zero {base : Level} {amount : UInt32} (fixed : levelAddOffset base amount = .offset base amount) :
    amount ≠ 0 := by
  rintro rfl
  rw [levelAddOffset.eq_def, if_pos rfl] at fixed
  have size := congrArg sizeOf fixed
  simp only [Level.offset.sizeOf_spec] at size
  omega

theorem tall_of_rank (shaped : Shaped x) (single : Summand x) (high : 2 ≤ x.rank) : 0 < levelSuccDepth 0 x := by
  rw [UInt32.lt_iff_toNat_lt]
  cases shaped with
  | concrete n | var name => simp [Level.rank] at high
  | succ shaped fixed =>
    have one : (saturatingAdd 0 1).toNat = 1 := by decide
    have deep := depth_le_levelSuccDepth (saturatingAdd 0 1) (by assumption)
    rw [one] at deep
    exact deep
  | offset shaped fixed =>
    rename_i base amount
    have start : (saturatingAdd 0 amount).toNat = amount.toNat := by
      have bound := UInt32.toNat_lt amount
      unfold saturatingAdd checkedAdd
      rw [if_pos (by simpa using bound)]
      simp
    have deep := depth_le_levelSuccDepth (saturatingAdd 0 amount) base
    rw [start] at deep
    exact Nat.lt_of_lt_of_le (toNat_of_ne_zero (amount_ne_zero fixed)) deep
  | max normal each => exact absurd rfl (single.atomic _ _)

theorem rank_of_tall (single : Summand x) (tall : 0 < levelSuccDepth 0 x) : 2 ≤ x.rank := by
  cases x with
  | concrete n => cases single.1
  | var name => simp [levelSuccDepth] at tall
  | succ inner => exact Nat.le_refl _
  | max a b => exact absurd rfl (single.atomic _ _)
  | offset base amount => simp [Level.rank]

theorem commonSuccDepth_le {c : Option UInt32} (mem : x ∈ s) : levelCommonSuccDepth c s ≤ levelSuccDepth 0 x := by
  have listed : levelSuccDepth 0 x ∈ s.map (levelSuccDepth 0) ++ c.toList :=
    mem_append_left _ (mem_map_of_mem mem)
  unfold levelCommonSuccDepth
  cases smallest : (s.map (levelSuccDepth 0) ++ c.toList).min? with
  | none =>
    rw [List.min?_eq_none_iff.mp smallest] at listed
    cases listed
  | some least => exact (List.min?_eq_some_iff.mp smallest).2 _ listed

theorem commonSuccDepth_pos (ne : s ≠ []) (tall : ∀ x ∈ s, 0 < levelSuccDepth 0 x) :
    0 < levelCommonSuccDepth none s := by
  unfold levelCommonSuccDepth
  cases smallest : (s.map (levelSuccDepth 0) ++ (none : Option UInt32).toList).min? with
  | none => simp [ne] at smallest
  | some least =>
    have mem := (List.min?_eq_some_iff.mp smallest).1
    rw [Option.toList_none, append_nil] at mem
    obtain ⟨x, listed, rfl⟩ := mem_map.mp mem
    exact tall x listed

def Settles (a : Level) : Prop :=
  (a.Settled → a.normalize = a) ∧ (¬ a.Settled → a.normalize.weight < a.weight)

theorem summands_cons {t : List Level} (single : Summand x) (concrete : tail.topConcrete = none)
    (symbolic : tail.topSymbolic = t) (ord : (x :: t).Pairwise Before) : summands x tail = (none, x :: t) := by
  unfold summands
  rw [single.1, single.2, concrete, symbolic, joinConcrete_none]
  congr 1
  exact arrange_of_before ord fun y => Iff.rfl

theorem settles_cons {t : List Level} (shaped : ∀ y ∈ x :: t, Shaped y ∧ Summand y)
    (ord : (x :: t).Pairwise Before) (ne : t ≠ []) (assembled : levelAssembleMax none t = tail)
    (settles : Settles x) (settles' : Settles tail) : Settles (.max x tail) := by
  obtain ⟨concrete, symbolic⟩ := tops_assemble_none (fun y mem => (shaped y (.tail _ mem)).2) ne
  rw [assembled] at concrete symbolic
  have single := (shaped x (by simp)).2
  have listed := summands_cons single concrete symbolic ord
  have long : 0 < t.length := length_pos_iff.mpr ne
  unfold Settles Level.Settled
  rw [normalize_max, single.2, symbolic, singleton_append]
  constructor
  · rintro ⟨few, settled, settled'⟩
    rw [settles.1 settled, settles'.1 settled', levelMaxCanonical_eq, if_neg, listed]
    · exact (assemble_cons x ne).trans (congrArg _ assembled)
    · rintro ⟨-, common⟩
      rw [listed] at common
      have all : successorCount (x :: t) = (x :: t).length :=
        countP_eq_length.mpr fun y mem => decide_eq_true (UInt32.lt_of_lt_of_le common (commonSuccDepth_le mem))
      rw [all, length_cons] at few
      omega
  · intro unsettled
    have whole := weight_canonical x.normalize tail.normalize
    have lighter := weight_normalize x
    have lighter' := weight_normalize tail
    simp only [Level.weight]
    by_cases settled : x.Settled
    · by_cases settled' : tail.Settled
      · have few := ((settled_iff_tops tail).mp settled').1
        rw [symbolic] at few
        have tall : 0 < levelSuccDepth 0 x := by
          by_contra short
          refine unsettled ⟨?_, settled, settled'⟩
          unfold successorCount at *
          rw [countP_cons_of_neg (by simpa using short)]
          exact few
        have allTall : ∀ y ∈ x :: t, 0 < levelSuccDepth 0 y := by
          intro y mem
          rcases mem_cons.mp mem with rfl | hl
          · exact tall
          · obtain ⟨shapedY, singleY⟩ := shaped y mem
            have higher := (rel_of_pairwise_cons ord hl).rank_le
            exact tall_of_rank shapedY singleY ((rank_of_tall single tall).trans higher)
        have factored : Factors x tail := by
          unfold Factors
          rw [listed]
          refine ⟨?_, commonSuccDepth_pos (by simp) allTall⟩
          rw [length_cons, Option.toList_none, length_nil]
          omega
        rw [settles.1 settled, settles'.1 settled']
        refine weight_factored factored ?_
        rw [listed, length_cons]
        omega
      · have less := settles'.2 settled'
        omega
    · have less := settles.2 settled
      omega

theorem settles_chain (shaped : ∀ x ∈ s, Shaped x ∧ Summand x) (each : ∀ x ∈ s, Settles x)
    (ord : s.Pairwise Before) (ne : s ≠ []) : Settles (levelAssembleMax none s) := by
  induction s with
  | nil => exact absurd rfl ne
  | cons x t ih =>
    by_cases more : t = []
    · subst more
      exact each x (by simp)
    · rw [assemble_cons x more]
      have rest := ih (fun y mem => shaped y (.tail _ mem)) (fun y mem => each y (.tail _ mem)) ord.of_cons more
      exact settles_cons shaped ord more rfl (each x (by simp)) rest

theorem settles_concrete {n : UInt32} (shaped : ∀ x ∈ s, Shaped x ∧ Summand x) (ord : s.Pairwise Before)
    (ne : s ≠ []) (plain : levelCommonSuccDepth (some n) s = 0)
    (settles : Settles (levelAssembleMax none s)) (pos : n ≠ 0) :
    Settles (.max (.concrete n) (levelAssembleMax none s)) := by
  obtain ⟨concrete, symbolic⟩ := tops_assemble_none (fun y mem => (shaped y mem).2) ne
  have listed : summands (.concrete n) (levelAssembleMax none s) = (some n, s) := by
    unfold summands
    rw [concrete, symbolic, joinConcrete_none]
    congr 1
    exact arrange_of_before ord fun y => Iff.rfl
  unfold Settles
  rw [normalize_max]
  constructor
  · rintro ⟨-, -, settled⟩
    rw [settles.1 settled]
    show levelMaxCanonical Level.normalize (.concrete n) (levelAssembleMax none s) = _
    rw [levelMaxCanonical_eq, if_neg, listed]
    · exact assemble_some pos ne
    · rintro ⟨-, common⟩
      rw [listed, plain] at common
      exact absurd common (by decide)
  · intro unsettled
    have rest : ¬ (levelAssembleMax none s).Settled := by
      intro settled
      refine unsettled ⟨?_, trivial, settled⟩
      exact ((settled_iff_tops _).mp settled).1
    have less := settles.2 rest
    have whole := weight_canonical (.concrete n) (levelAssembleMax none s).normalize
    change (levelMaxCanonical Level.normalize (.concrete n) _).weight < _
    simp only [Level.weight] at *
    omega

theorem Shaped.settles {a : Level} (shaped : Shaped a) : Settles a := by
  induction shaped with
  | concrete n | var name => exact ⟨fun _ => rfl, fun unsettled => absurd trivial unsettled⟩
  | @succ base shaped fixed ih =>
    constructor
    · intro settled
      rw [normalize_succ, ih.1 settled, fixed]
    · intro unsettled
      have less := ih.2 unsettled
      have added := weight_levelAddOffset base.normalize 1
      have one : (1 : UInt32).toNat = 1 := rfl
      rw [normalize_succ]
      simp only [Level.weight]
      omega
  | @offset base amount shaped fixed ih =>
    constructor
    · intro settled
      rw [normalize_offset, ih.1 settled, fixed]
    · intro unsettled
      have less := ih.2 unsettled
      have added := weight_levelAddOffset base.normalize amount
      rw [normalize_offset]
      simp only [Level.weight]
      omega
  | @max a b normal each ih =>
    have single : ∀ x ∈ (Level.max a b).topSymbolic, Shaped x ∧ Summand x :=
      fun x mem => ⟨each x mem, mem_topSymbolic mem⟩
    have assembled := normal.assembled
    have nonempty : (Level.max a b).topSymbolic ≠ [] := by
      intro empty
      rw [empty] at assembled
      cases concrete : (Level.max a b).topConcrete with
      | none => exact normal.nonempty concrete empty
      | some n =>
        rw [concrete, assemble_concrete] at assembled
        cases assembled
    have chain := settles_chain single ih normal.ordered nonempty
    cases concrete : (Level.max a b).topConcrete with
    | none =>
      rw [concrete] at assembled
      rw [assembled] at chain
      exact chain
    | some n =>
      have pos : n ≠ 0 := by
        rintro rfl
        exact nonempty (normal.zero concrete)
      rw [concrete, assemble_some pos nonempty] at assembled
      rw [← assembled]
      have long := length_pos_iff.mpr nonempty
      refine settles_concrete single normal.ordered nonempty ?_ chain pos
      rw [← concrete]
      refine normal.plain ?_
      rw [concrete, Option.toList_some, length_singleton]
      omega

theorem normalize_fixed (lvl : Level) : lvl.normalize.normalize = lvl.normalize ↔ lvl.normalize.Settled := by
  obtain ⟨fixed, lighter⟩ := (shaped_normalize lvl).settles
  refine ⟨fun eq => ?_, fixed⟩
  by_contra unsettled
  have lt := lighter unsettled
  rw [eq] at lt
  exact Nat.lt_irrefl _ lt

end Settling

section Regularity

/-- Along the recursion of `normalize`, every maximum assembled whole shows one summand that begins
    with a successor at most. -/
inductive Level.Regular : Level → Prop where
  | concrete (n : UInt32) : Regular (.concrete n)
  | var (name : String) : Regular (.var name)
  | succ {inner : Level} (regular : Regular inner) : Regular (.succ inner)
  | offset {base : Level} {amount : UInt32} (regular : Regular base) : Regular (.offset base amount)
  | factored {a b : Level} (factors : Factors a.normalize b.normalize)
      (regular : Regular (interior a.normalize b.normalize)) : Regular (.max a b)
  | assembled {a b : Level} (assembled : ¬ Factors a.normalize b.normalize)
      (few : successorCount (summands a.normalize b.normalize).2 ≤ 1) (regular : Regular a)
      (regular' : Regular b) : Regular (.max a b)

theorem successorCount_le {s t : List Level} (ord : s.Pairwise Before) (hw : ∀ x ∈ s, x ∈ t) :
    successorCount s ≤ successorCount t :=
  (subperm_of_subset (nodup_of_before ord) hw).countP_le _

theorem settled_assembled {a b : Level} (normal : Normal a) (normal' : Normal b) (assembled : ¬ Factors a b) :
    (levelMaxCanonical Level.normalize a b).Settled ↔
      successorCount (summands a b).2 ≤ 1 ∧ a.Settled ∧ b.Settled := by
  have listed : ∀ x, x ∈ (summands a b).2 ↔ x ∈ a.topSymbolic ∨ x ∈ b.topSymbolic := by
    intro x
    rw [summands, mem_arrange, mem_append]
  rw [settled_iff_tops, canonical_symbolic Level.normalize normal normal' assembled, settled_iff_tops a,
    settled_iff_tops b]
  constructor
  · rintro ⟨few, each⟩
    have fewer := successorCount_le normal.ordered fun x mem => (listed x).mpr (.inl mem)
    have fewer' := successorCount_le normal'.ordered fun x mem => (listed x).mpr (.inr mem)
    refine ⟨few, ⟨fewer.trans few, fun x mem => ?_⟩, fewer'.trans few, fun x mem => ?_⟩
    · exact each x ((listed x).mpr (.inl mem))
    · exact each x ((listed x).mpr (.inr mem))
  · rintro ⟨few, ⟨-, each⟩, -, each'⟩
    refine ⟨few, fun x mem => ?_⟩
    exact ((listed x).mp mem).elim (each x) (each' x)

theorem regular_iff (lvl : Level) : lvl.Regular ↔ lvl.normalize.Settled := by
  induction weight : lvl.weight using Nat.strong_induction_on generalizing lvl with
  | _ n ih =>
    subst weight
    cases lvl with
    | concrete n => exact ⟨fun _ => trivial, fun _ => .concrete n⟩
    | var name => exact ⟨fun _ => trivial, fun _ => .var name⟩
    | succ inner =>
      have hlt := ih _ (Nat.lt_succ_self _) inner rfl
      rw [normalize_succ, settled_addOffset, ← hlt]
      constructor
      · rintro (_ | _ | regular)
        exact regular
      · exact .succ
    | offset base amount =>
      have hlt := ih _ (by simp only [Level.weight]; omega) base rfl
      rw [normalize_offset, settled_addOffset, ← hlt]
      constructor
      · rintro (_ | _ | _ | regular)
        exact regular
      · exact .offset
    | max a b =>
      rw [normalize_max]
      by_cases factors : Factors a.normalize b.normalize
      · have lighter := weight_interior_le factors
        have lighterA := weight_normalize a
        have lighterB := weight_normalize b
        have hlt := ih _ (by rw [Level.weight]; omega) (interior a.normalize b.normalize) rfl
        rw [levelMaxCanonical_eq, if_pos factors, settled_addOffset, ← hlt]
        constructor
        · intro regular
          cases regular with
          | factored _ regular => exact regular
          | assembled whole => exact absurd factors whole
        · exact .factored factors
      · have hlt := ih _ (by rw [Level.weight]; omega) a rfl
        have below' := ih _ (by rw [Level.weight]; omega) b rfl
        rw [settled_assembled (normalize_normal a) (normalize_normal b) factors, ← hlt, ← below']
        constructor
        · intro regular
          cases regular with
          | factored factored _ => exact absurd factored factors
          | assembled _ few regular regular' => exact ⟨few, regular, regular'⟩
        · rintro ⟨few, regular, regular'⟩
          exact .assembled factors few regular regular'

theorem levelEq_max_assoc {a b c : Level} (left : ¬ Factors a.normalize b.normalize)
    (right : ¬ Factors b.normalize c.normalize) : levelEq (.max a (.max b c)) (.max (.max a b) c) = true := by
  rw [levelEq_iff]
  simp only [normalize_max]
  exact canonical_assoc _ (normalize_normal a) (normalize_normal b) (normalize_normal c) left right

/-- Normalisation is canonical up to the laws of maxima where no maximum is assembled around two
    successors and no partial maximum is factored. -/
theorem normalize_canonical (a b c : Level) :
    levelEq (.max a b) (.max b a) = true ∧ levelEq (.max a a) a = true ∧
      ((a.normalize.normalize = a.normalize ∧ levelEq a a.normalize = true) ↔ a.Regular) ∧
      (¬ Factors a.normalize b.normalize → ¬ Factors b.normalize c.normalize →
        levelEq (.max a (.max b c)) (.max (.max a b) c) = true) := by
  refine ⟨levelEq_max_comm a b, levelEq_max_self a, ?_, levelEq_max_assoc⟩
  rw [regular_iff, ← normalize_fixed, levelEq_iff]
  exact ⟨fun both => both.1, fun same => ⟨same, same.symm⟩⟩

theorem normalize_canonical_vars :
    let level := Level.max (.var "w") (.succ (.var "u"))
    level.normalize.normalize = level.normalize ∧
      levelEq (.max (.var "w") (.max (.var "u") (.var "v"))) (.max (.max (.var "w") (.var "u")) (.var "v")) = true := by
  obtain ⟨-, -, regular, -⟩ := normalize_canonical (.max (.var "w") (.succ (.var "u"))) (.var "u") (.var "v")
  obtain ⟨-, -, -, assoc⟩ := normalize_canonical (.var "w") (.var "u") (.var "v")
  have single : Level.Regular (.max (.var "w") (.succ (.var "u"))) :=
    .assembled (by decide) (by decide) (.var _) (.succ (.var _))
  exact ⟨(regular.mpr single).1, assoc (by decide) (by decide)⟩

theorem normalize_twice :
    let level := Level.max (.max (.var "w") (.succ (.var "u"))) (.succ (.var "v"))
    level.normalize.normalize ≠ level.normalize ∧ levelEq level level.normalize = false ∧
      levelEq (.max (.var "w") (.max (.succ (.var "u")) (.succ (.var "v")))) level = false := by
  decide

end Regularity

end Proof
