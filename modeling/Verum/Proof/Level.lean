import Mathlib.Tactic.Ring
import Mathlib.Data.List.Sort

namespace Proof

inductive Level where
  | concrete (n : UInt32)
  | var (name : String)
  | succ (inner : Level)
  | max (a b : Level)
  | offset (base : Level) (amount : UInt32)
  deriving DecidableEq

def Level.denote (valuation : String → Nat) : Level → Nat
  | .concrete n => n.toNat
  | .var name => valuation name
  | .succ inner => inner.denote valuation + 1
  | .max a b => Max.max (a.denote valuation) (b.denote valuation)
  | .offset base amount => base.denote valuation + amount.toNat

def Level.Equiv (a b : Level) : Prop := ∀ valuation, a.denote valuation = b.denote valuation

def checkedAdd (a b : UInt32) : Option UInt32 :=
  if a.toNat + b.toNat < 2 ^ 32 then some (a + b) else none

def saturatingAdd (a b : UInt32) : UInt32 := (checkedAdd a b).getD (UInt32.ofNat (2 ^ 32 - 1))

def saturatingSub (a b : UInt32) : UInt32 := if b ≤ a then a - b else 0

def Level.successor : Level → Level
  | .concrete n =>
    match checkedAdd n 1 with
    | some next => .concrete next
    | none => .succ (.concrete n)
  | other => .succ other

def levelOffsetNode (base : Level) (amount : UInt32) : Level :=
  if amount = 0 then base else if amount = 1 then .succ base else .offset base amount

def levelAddOffset (base : Level) (amount : UInt32) : Level :=
  if amount = 0 then base else
    match base with
    | .concrete n =>
      match checkedAdd n amount with
      | some next => .concrete next
      | none =>
        levelOffsetNode (.concrete (UInt32.ofNat (2 ^ 32 - 1))) (amount - (UInt32.ofNat (2 ^ 32 - 1) - n))
    | .succ inner =>
      match checkedAdd amount 1 with
      | some sum => levelAddOffset inner sum
      | none => levelOffsetNode (.succ inner) amount
    | .offset inner prior =>
      match checkedAdd prior amount with
      | some sum => levelAddOffset inner sum
      | none => levelOffsetNode (.offset inner prior) amount
    | other => levelOffsetNode other amount

def flattenMax : Level → List Level
  | .max a b => flattenMax a ++ flattenMax b
  | other => [other]

def Level.rank : Level → Nat
  | .concrete _ => 0
  | .var _ => 1
  | .succ _ => 2
  | .max _ _ => 3
  | .offset _ _ => 4

def levelStructCmp : Level → Level → Ordering
  | .concrete x, .concrete y => compare x y
  | .var x, .var y => compare x y
  | .succ x, .succ y => levelStructCmp x y
  | .offset x n, .offset y m => (levelStructCmp x y).then (compare n m)
  | .max xa xb, .max ya yb => (levelStructCmp xa ya).then (levelStructCmp xb yb)
  | a, b => compare a.rank b.rank

attribute [grind =] levelStructCmp

/-- One concrete summand for all of them, and the symbolic ones in their order. -/
def mergeConcrete (concrete : Option UInt32) : List Level → Option UInt32 × List Level
  | [] => (concrete, [])
  | .concrete n :: rest => mergeConcrete (some (concrete.elim n (Max.max · n))) rest
  | other :: rest => ((mergeConcrete concrete rest).1, other :: (mergeConcrete concrete rest).2)

def dedup : List Level → List Level
  | a :: b :: rest => if a = b then dedup (b :: rest) else a :: dedup (b :: rest)
  | short => short

def levelSuccDepth (depth : UInt32) : Level → UInt32
  | .succ inner => levelSuccDepth (saturatingAdd depth 1) inner
  | .offset inner amount => levelSuccDepth (saturatingAdd depth amount) inner
  | _ => depth

def levelCommonSuccDepth (concrete : Option UInt32) (symbolic : List Level) : UInt32 :=
  ((symbolic.map (levelSuccDepth 0) ++ concrete.toList).min?).getD 0

def levelStripSucc (level : Level) (remaining : UInt32) : Level :=
  if remaining = 0 then level else
    match level with
    | .succ inner => levelStripSucc inner (remaining - 1)
    | .offset inner amount =>
      if amount ≤ remaining then levelStripSucc inner (remaining - amount)
      else levelAddOffset inner (amount - remaining)
    | other => other

def levelAssembleMax (concrete : Option UInt32) (symbolic : List Level) : Level :=
  let dropZero := concrete == some 0 && !symbolic.isEmpty
  let all := ((if dropZero then none else concrete).map Level.concrete).toList ++ symbolic
  match all.reverse with
  | [] => .concrete 0
  | last :: earlier => earlier.foldl (fun acc x => .max x acc) last

/-- `normalize` is the recursive call on the interior left when a common successor prefix is
    factored out. -/
def levelMaxCanonical (normalize : Level → Level) (a b : Level) : Level :=
  let (concrete, summands) := mergeConcrete none (flattenMax a ++ flattenMax b)
  let symbolic := dedup (summands.insertionSort fun x y => levelStructCmp x y ≠ .gt)
  let succCount := levelCommonSuccDepth concrete symbolic
  if 2 ≤ symbolic.length + concrete.toList.length ∧ 0 < succCount then
    levelAddOffset
      (normalize (levelAssembleMax (concrete.map (saturatingSub · succCount))
        (symbolic.map (levelStripSucc · succCount))))
      succCount
  else levelAssembleMax concrete symbolic

/-- Bounds the recursion of `normalize`, whose interior call is not on a subterm. -/
def Level.weight : Level → Nat
  | .concrete _ | .var _ => 1
  | .succ inner => inner.weight + 1
  | .max a b => a.weight + b.weight + 1
  | .offset base amount => base.weight + Max.max amount.toNat 1

def Level.normalizeWithin : Nat → Level → Level
  | 0, level => level
  | _ + 1, .concrete n => .concrete n
  | _ + 1, .var name => .var name
  | bound + 1, .succ inner => levelAddOffset (inner.normalizeWithin bound) 1
  | bound + 1, .offset base amount => levelAddOffset (base.normalizeWithin bound) amount
  | bound + 1, .max a b =>
    levelMaxCanonical (normalizeWithin bound) (a.normalizeWithin bound) (b.normalizeWithin bound)

def Level.normalize (level : Level) : Level := level.normalizeWithin level.weight

def Level.maxWith (self other : Level) : Level :=
  match self.normalize, other.normalize with
  | .concrete n, .concrete m => .concrete (Max.max n m)
  | a, b =>
    if a = .concrete 0 then b
    else if b = .concrete 0 then a
    else if a = b then a
    else (Level.max a b).normalize

def Level.shiftedBy (self : Level) (amount : UInt32) : Level :=
  if amount = 0 then self else levelAddOffset self.normalize amount

def levelEq (a b : Level) : Bool := a.normalize = b.normalize

theorem checkedAdd_some {a b sum : UInt32} (hf : checkedAdd a b = some sum) :
    sum.toNat = a.toNat + b.toNat := by
  simp only [checkedAdd] at hf
  split at hf
  · cases hf
    simp only [UInt32.toNat_add]
    omega
  · cases hf

theorem checkedAdd_none {a b : UInt32} (wide : checkedAdd a b = none) :
    2 ^ 32 ≤ a.toNat + b.toNat := by
  simp only [checkedAdd] at wide
  split at wide
  · cases wide
  · omega

theorem saturatingAdd_le (a b : UInt32) : (saturatingAdd a b).toNat ≤ a.toNat + b.toNat := by
  simp only [saturatingAdd]
  cases sum : checkedAdd a b with
  | some next => exact (checkedAdd_some sum).le
  | none =>
    have wide := checkedAdd_none sum
    simp only [Option.getD_none]
    exact Nat.le_trans (Nat.le_of_lt_succ (UInt32.toNat_lt _)) (by omega)

theorem saturatingSub_toNat {a b : UInt32} (le : b ≤ a) : (saturatingSub a b).toNat = a.toNat - b.toNat := by
  rw [saturatingSub, if_pos le, UInt32.toNat_sub_of_le _ _ le]

theorem toNat_pred {n : UInt32} (nz : n ≠ 0) : (n - 1).toNat + 1 = n.toNat := by
  have pos : n.toNat ≠ 0 := fun zero => nz (UInt32.toNat.inj zero)
  have one : (1 : UInt32).toNat = 1 := rfl
  rw [UInt32.toNat_sub_of_le _ _ (by rw [UInt32.le_iff_toNat_le, one]; omega), one]
  omega

theorem toNat_excess {n amount : UInt32} (wide : checkedAdd n amount = none) :
    2 ^ 32 - 1 + (amount - (UInt32.ofNat (2 ^ 32 - 1) - n)).toNat = n.toNat + amount.toNat := by
  have overflow := checkedAdd_none wide
  have hb := UInt32.toNat_lt n
  have top : (UInt32.ofNat (2 ^ 32 - 1)).toNat = 2 ^ 32 - 1 := rfl
  have room : (UInt32.ofNat (2 ^ 32 - 1) - n).toNat = 2 ^ 32 - 1 - n.toNat := by
    rw [UInt32.toNat_sub_of_le _ _ (by rw [UInt32.le_iff_toNat_le, top]; omega), top]
  rw [UInt32.toNat_sub_of_le _ _ (by rw [UInt32.le_iff_toNat_le, room]; omega), room]
  omega

section Denotation

variable (valuation : String → Nat)

theorem denote_levelOffsetNode (base : Level) (n : UInt32) :
    (levelOffsetNode base n).denote valuation = base.denote valuation + n.toNat := by
  simp only [levelOffsetNode]
  split
  · next zero => simp [zero]
  · split
    · next one => simp [one, Level.denote]
    · rfl

theorem denote_levelAddOffset (base : Level) (amount : UInt32) :
    (levelAddOffset base amount).denote valuation = base.denote valuation + amount.toNat := by
  fun_induction levelAddOffset base amount with
  | case1 base => simp
  | case2 amount nz n next hf => simp [Level.denote, checkedAdd_some hf]
  | case3 amount nz n wide =>
    rw [denote_levelOffsetNode]
    exact toNat_excess wide
  | case4 _ _ _ _ hf ih | case6 _ _ _ _ _ hf ih =>
    rw [ih, checkedAdd_some hf]
    simp [Level.denote]
    omega
  | case5 _ _ _ _ | case7 _ _ _ _ _ | case8 _ _ _ => exact denote_levelOffsetNode valuation _ _

def supremum (summands : List Level) : Nat := (summands.map (Level.denote valuation)).foldr Max.max 0

@[simp] theorem supremum_nil : supremum valuation [] = 0 := rfl

@[simp] theorem supremum_cons (lvl : Level) (rest : List Level) :
    supremum valuation (lvl :: rest) = Max.max (lvl.denote valuation) (supremum valuation rest) := rfl

@[simp] theorem supremum_append (front back : List Level) :
    supremum valuation (front ++ back) = Max.max (supremum valuation front) (supremum valuation back) := by
  induction front with
  | nil => simp
  | cons lvl rest ih => simp [ih, max_assoc]

theorem supremum_perm {front back : List Level} (perm : front.Perm back) :
    supremum valuation front = supremum valuation back := by
  induction perm with
  | nil => rfl
  | cons lvl _ ih => simp [ih]
  | swap a b rest => simp [max_left_comm]
  | trans _ _ fst snd => exact fst.trans snd

theorem supremum_flattenMax (lvl : Level) :
    supremum valuation (flattenMax lvl) = lvl.denote valuation := by
  induction lvl with
  | max a b iha ihb => simp [flattenMax, iha, ihb, Level.denote]
  | _ => simp [flattenMax]

theorem supremum_dedup (ss : List Level) :
    supremum valuation (dedup ss) = supremum valuation ss := by
  fun_induction dedup ss with
  | case1 _ _ ih | case2 _ _ _ _ ih => simp [ih]
  | case3 short => rfl

def concreteValue (concrete : Option UInt32) : Nat := (concrete.map UInt32.toNat).getD 0

theorem toNat_max (a b : UInt32) : (Max.max a b).toNat = Max.max a.toNat b.toNat := by
  change (if a ≤ b then b else a).toNat = Max.max a.toNat b.toNat
  split
  · next le => exact (max_eq_right (UInt32.le_iff_toNat_le.mp le)).symm
  · next more => exact (max_eq_left (UInt32.le_iff_toNat_le.mp (UInt32.le_of_lt (UInt32.not_le.mp more)))).symm

theorem supremum_mergeConcrete (conc : Option UInt32) (ss : List Level) :
    Max.max (concreteValue (mergeConcrete conc ss).1)
        (supremum valuation (mergeConcrete conc ss).2) =
      Max.max (concreteValue conc) (supremum valuation ss) := by
  fun_induction mergeConcrete conc ss with
  | case1 conc => rfl
  | case2 conc n rest ih =>
    rw [ih]
    cases conc with
    | none => simp [concreteValue, Level.denote]
    | some m => simp [concreteValue, Level.denote, toNat_max, max_assoc]
  | case3 conc other rest symbolic ih =>
    simp only [supremum_cons]
    rw [max_left_comm, ih, max_left_comm]

theorem denote_foldl_max (earlier : List Level) (last : Level) :
    (earlier.foldl (fun acc x => Level.max x acc) last).denote valuation =
      Max.max (supremum valuation earlier) (last.denote valuation) := by
  induction earlier generalizing last with
  | nil => simp
  | cons lvl rest ih =>
    rw [List.foldl_cons, ih]
    simp only [Level.denote, supremum_cons]
    rw [max_left_comm, max_assoc]

theorem denote_levelAssembleMax (conc : Option UInt32) (symbolic : List Level) :
    (levelAssembleMax conc symbolic).denote valuation =
      Max.max (concreteValue conc) (supremum valuation symbolic) := by
  simp only [levelAssembleMax]
  generalize drop : (conc == some 0 && !symbolic.isEmpty) = dropZero
  have kept : concreteValue (if dropZero then none else conc) = concreteValue conc := by
    cases dropZero with
    | false => rfl
    | true =>
      simp only [Bool.and_eq_true, beq_iff_eq] at drop
      simp [drop.1, concreteValue]
  rw [← kept]
  generalize (if dropZero = true then none else conc) = keep
  have total : supremum valuation ((keep.map Level.concrete).toList ++ symbolic) =
      Max.max (concreteValue keep) (supremum valuation symbolic) := by
    cases keep <;> simp [concreteValue, Level.denote]
  rw [← total, ← supremum_perm valuation (List.reverse_perm _)]
  split
  · next empty => rw [empty]; rfl
  · next last earlier reversed => rw [reversed, denote_foldl_max, supremum_cons, max_comm]

end Denotation

def Level.headSuccessors : Level → Nat
  | .succ inner => inner.headSuccessors + 1
  | .offset inner amount => inner.headSuccessors + amount.toNat
  | _ => 0

theorem levelSuccDepth_le (d : UInt32) (lvl : Level) :
    (levelSuccDepth d lvl).toNat ≤ d.toNat + lvl.headSuccessors := by
  fun_induction levelSuccDepth d lvl with
  | case1 d inner ih =>
    have step := saturatingAdd_le d 1
    simp only [Level.headSuccessors]
    have one : (1 : UInt32).toNat = 1 := rfl
    omega
  | case2 d inner n ih =>
    have step := saturatingAdd_le d n
    simp only [Level.headSuccessors]
    omega
  | case3 d lvl => omega

theorem denote_levelStripSucc (valuation : String → Nat) (lvl : Level) (n : UInt32)
    (available : n.toNat ≤ lvl.headSuccessors) :
    (levelStripSucc lvl n).denote valuation + n.toNat = lvl.denote valuation := by
  fun_induction levelStripSucc lvl n with
  | case1 lvl => simp
  | case2 n nz inner ih =>
    have pred := toNat_pred nz
    simp only [Level.headSuccessors] at available
    have step := ih (by omega)
    simp only [Level.denote]
    omega
  | case3 n nz inner amount le ih =>
    have within := UInt32.le_iff_toNat_le.mp le
    have less := UInt32.toNat_sub_of_le _ _ le
    simp only [Level.headSuccessors] at available
    have step := ih (by omega)
    simp only [Level.denote]
    omega
  | case4 n nz inner amount more =>
    have within : n ≤ amount := UInt32.le_of_lt (UInt32.not_le.mp more)
    have less := UInt32.toNat_sub_of_le _ _ within
    have bound := UInt32.le_iff_toNat_le.mp within
    rw [denote_levelAddOffset, less]
    simp only [Level.denote]
    omega
  | case5 lvl n nz notSucc notOffset =>
    cases lvl with
    | succ inner => exact absurd rfl (notSucc inner)
    | offset inner amount => exact absurd rfl (notOffset inner amount)
    | _ =>
      simp only [Level.headSuccessors] at available
      omega

theorem levelCommonSuccDepth_le (conc : Option UInt32) (symbolic : List Level) :
    (∀ lvl ∈ symbolic, (levelCommonSuccDepth conc symbolic).toNat ≤ lvl.headSuccessors) ∧
      ∀ n ∈ conc, levelCommonSuccDepth conc symbolic ≤ n := by
  have least : ∀ d ∈ symbolic.map (levelSuccDepth 0) ++ conc.toList,
      levelCommonSuccDepth conc symbolic ≤ d := by
    intro d mem
    simp only [levelCommonSuccDepth]
    cases smallest : (symbolic.map (levelSuccDepth 0) ++ conc.toList).min? with
    | none =>
      rw [List.min?_eq_none_iff] at smallest
      rw [smallest] at mem
      cases mem
    | some least => exact (List.min?_eq_some_iff.mp smallest).2 d mem
  constructor
  · intro lvl mem
    have le := UInt32.le_iff_toNat_le.mp
      (least (levelSuccDepth 0 lvl) (List.mem_append_left _ (List.mem_map_of_mem mem)))
    have counted := levelSuccDepth_le 0 lvl
    have zero : (0 : UInt32).toNat = 0 := rfl
    omega
  · intro n mem
    exact least n (List.mem_append_right _ (by simpa using mem))

theorem supremum_levelStripSucc (valuation : String → Nat) (n : UInt32) (symbolic : List Level)
    (available : ∀ lvl ∈ symbolic, n.toNat ≤ lvl.headSuccessors) (ne : symbolic ≠ []) :
    supremum valuation (symbolic.map (levelStripSucc · n)) + n.toNat =
      supremum valuation symbolic := by
  induction symbolic with
  | nil => exact absurd rfl ne
  | cons lvl rest ih =>
    have head := denote_levelStripSucc valuation lvl n (available lvl (by simp))
    rcases rest with _ | ⟨next, rest⟩
    · simpa using head
    · have tail := ih (fun lvl mem => available lvl (by simp [mem])) (by simp)
      simp only [List.map_cons, supremum_cons] at tail ⊢
      omega

theorem denote_levelMaxCanonical (valuation : String → Nat) (normalize : Level → Level)
    (hs : ∀ lvl, (normalize lvl).denote valuation = lvl.denote valuation) (a b : Level) :
    (levelMaxCanonical normalize a b).denote valuation =
      Max.max (a.denote valuation) (b.denote valuation) := by
  simp only [levelMaxCanonical]
  have merged := supremum_mergeConcrete valuation none (flattenMax a ++ flattenMax b)
  generalize mergeConcrete none (flattenMax a ++ flattenMax b) = split at merged ⊢
  obtain ⟨conc, ss⟩ := split
  have sorted : supremum valuation
      (dedup (ss.insertionSort fun x y => levelStructCmp x y ≠ .gt)) = supremum valuation ss := by
    rw [supremum_dedup]
    exact supremum_perm valuation (List.perm_insertionSort _ _)
  simp only at merged ⊢
  generalize dedup (ss.insertionSort fun x y => levelStructCmp x y ≠ .gt) = symbolic at sorted ⊢
  have total : Max.max (concreteValue conc) (supremum valuation symbolic) =
      Max.max (a.denote valuation) (b.denote valuation) := by
    rw [sorted, merged]
    simp [concreteValue, supremum_flattenMax]
  split
  · next factored =>
    obtain ⟨two, _⟩ := factored
    have least := levelCommonSuccDepth_le conc symbolic
    generalize levelCommonSuccDepth conc symbolic = count at least ⊢
    have ne : symbolic ≠ [] := by
      intro empty
      subst empty
      cases conc <;> simp at two
    have stripped := supremum_levelStripSucc valuation count symbolic least.1 ne
    rw [denote_levelAddOffset, hs, denote_levelAssembleMax, ← total]
    cases conc with
    | none => simpa [concreteValue] using stripped
    | some n =>
      have le := least.2 n rfl
      have hb := UInt32.le_iff_toNat_le.mp le
      simp only [concreteValue, Option.map_some, Option.getD_some, saturatingSub_toNat le]
      omega
  · rw [denote_levelAssembleMax, total]

theorem denote_normalizeWithin (valuation : String → Nat) (bound : Nat) (lvl : Level) :
    (lvl.normalizeWithin bound).denote valuation = lvl.denote valuation := by
  induction bound generalizing lvl with
  | zero => rfl
  | succ bound ih =>
    cases lvl with
    | concrete n | var name => rfl
    | succ inner | offset base amount => simp [Level.normalizeWithin, denote_levelAddOffset, ih, Level.denote]
    | max a b =>
      simp only [Level.normalizeWithin]
      rw [denote_levelMaxCanonical valuation _ ih, ih, ih]
      rfl

theorem denote_normalize (valuation : String → Nat) (lvl : Level) :
    lvl.normalize.denote valuation = lvl.denote valuation :=
  denote_normalizeWithin valuation lvl.weight lvl

theorem normalize_equiv (lvl : Level) : lvl.normalize.Equiv lvl :=
  fun valuation => denote_normalize valuation lvl

theorem levelEq_sound {a b : Level} (eq : levelEq a b = true) : a.Equiv b := by
  intro valuation
  simp only [levelEq, decide_eq_true_eq] at eq
  rw [← denote_normalize valuation a, eq, denote_normalize]

theorem denote_successor (valuation : String → Nat) (lvl : Level) :
    lvl.successor.denote valuation = lvl.denote valuation + 1 := by
  fun_cases Level.successor lvl with
  | case1 n next hf => exact checkedAdd_some hf
  | case2 _ _ | case3 _ _ => rfl

theorem denote_maxWith (valuation : String → Nat) (self other : Level) :
    (self.maxWith other).denote valuation = Max.max (self.denote valuation) (other.denote valuation) := by
  rw [← denote_normalize valuation self, ← denote_normalize valuation other]
  simp only [Level.maxWith]
  generalize self.normalize = a
  generalize other.normalize = b
  split
  · exact toNat_max _ _
  · split
    · next zero => simp [zero, Level.denote]
    · split
      · next zero => simp [zero, Level.denote]
      · split
        · next eq => simp [eq]
        · exact denote_normalize valuation (.max a b)

end Proof
