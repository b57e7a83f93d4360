import Verum.Proof.LevelTermination

namespace Proof

def Level.Closed : Level → Prop
  | .concrete _ => True
  | .var _ => False
  | .succ inner => inner.Closed
  | .max a b => a.Closed ∧ b.Closed
  | .offset base _ => base.Closed

/-- The value of a closed level, which no valuation changes. -/
def Level.value (level : Level) : Nat := level.denote fun _ => 0

theorem normalize_succ (inner : Level) : (Level.succ inner).normalize = levelAddOffset inner.normalize 1 := rfl

theorem normalize_offset (base : Level) (amount : UInt32) :
    (Level.offset base amount).normalize = levelAddOffset base.normalize amount := by
  have weight : (Level.offset base amount).weight = base.weight + (Max.max amount.toNat 1 - 1) + 1 := by
    simp only [Level.weight]
    omega
  have inner := normalizeWithin_eq (base.weight + (Max.max amount.toNat 1 - 1)) base (by omega)
  rw [Level.normalize, weight, Level.normalizeWithin, inner]

variable {n : Nat} {amount : UInt32} {level : Level}

theorem toNat_ofNat (small : n < 2 ^ 32) : (UInt32.ofNat n).toNat = n := UInt32.toNat_ofNat_of_lt' small

theorem checkedAdd_of_lt {a b : UInt32} (hf : a.toNat + b.toNat < 2 ^ 32) : checkedAdd a b = some (a + b) :=
  if_pos hf

theorem ofNat_add (hf : n + amount.toNat < 2 ^ 32) :
    UInt32.ofNat n + amount = UInt32.ofNat (n + amount.toNat) := by
  apply UInt32.toNat.inj
  rw [UInt32.toNat_add, toNat_ofNat (by omega), toNat_ofNat hf]
  omega

theorem levelAddOffset_concrete (hf : n + amount.toNat < 2 ^ 32) :
    levelAddOffset (.concrete (UInt32.ofNat n)) amount = .concrete (UInt32.ofNat (n + amount.toNat)) := by
  unfold levelAddOffset
  split
  · next zero => simp [zero]
  · have small : (UInt32.ofNat n).toNat = n := toNat_ofNat (by omega)
    have sum : checkedAdd (UInt32.ofNat n) amount = some (UInt32.ofNat n + amount) := checkedAdd_of_lt (by omega)
    dsimp only
    rw [sum, ← ofNat_add hf]

theorem levelMaxCanonical_concrete (normalize : Level → Level) (n m : UInt32) :
    levelMaxCanonical normalize (.concrete n) (.concrete m) = .concrete (Max.max n m) := by
  simp [levelMaxCanonical, flattenMax, mergeConcrete, dedup, levelAssembleMax]

theorem max_ofNat {m : Nat} (small : n < 2 ^ 32) (small' : m < 2 ^ 32) :
    Max.max (UInt32.ofNat n) (UInt32.ofNat m) = UInt32.ofNat (Max.max n m) := by
  apply UInt32.toNat.inj
  rw [toNat_max, toNat_ofNat small, toNat_ofNat small',
    toNat_ofNat (by omega)]

theorem normalize_closed (closed : level.Closed) (small : level.value < 2 ^ 32) :
    level.normalize = .concrete (UInt32.ofNat level.value) := by
  induction level with
  | concrete n => simp [Level.normalize, Level.weight, Level.normalizeWithin, Level.value, Level.denote]
  | var name => exact closed.elim
  | succ inner ih =>
    have fits : inner.value + (1 : UInt32).toNat < 2 ^ 32 := small
    rw [normalize_succ, ih closed (by omega), levelAddOffset_concrete fits]
    rfl
  | max a b iha ihb =>
    have v : (Level.max a b).value = Max.max a.value b.value := rfl
    rw [normalize_max, iha closed.1 (by omega), ihb closed.2 (by omega), levelMaxCanonical_concrete,
      max_ofNat (by omega) (by omega), v]
  | offset base amount ih =>
    have v : (Level.offset base amount).value = base.value + amount.toNat := rfl
    rw [normalize_offset, ih closed (by omega), levelAddOffset_concrete (by omega), v]

theorem levelEq_concrete {a b : Level} (normal : a.normalize = .concrete (UInt32.ofNat n)) (small : n < 2 ^ 32)
    (hc : b.Closed) (small' : b.value < 2 ^ 32) : levelEq a b = true ↔ n = b.value := by
  rw [levelEq, decide_eq_true_eq, normal, normalize_closed hc small', Level.concrete.injEq]
  constructor
  · intro eq
    have vs := congrArg UInt32.toNat eq
    rwa [toNat_ofNat small, toNat_ofNat small'] at vs
  · intro eq
    rw [eq]

theorem denote_shiftedBy (val : String → Nat) (self : Level) (amount : UInt32) :
    (self.shiftedBy amount).denote val = self.denote val + amount.toNat := by
  unfold Level.shiftedBy
  split
  · next zero => simp [zero]
  · rw [denote_levelAddOffset, denote_normalize]

theorem closed_successor (hc : level.Closed) : level.successor.Closed := by
  fun_cases Level.successor level with
  | case1 _ _ _ | case2 _ _ => trivial
  | case3 level symbolic => exact hc

theorem normalize_successor (hc : level.Closed) (small : level.value + 1 < 2 ^ 32) :
    level.successor.normalize = .concrete (UInt32.ofNat (level.value + 1)) := by
  have v : level.successor.value = level.value + 1 := denote_successor _ level
  rw [normalize_closed (closed_successor hc) (by omega), v]

theorem maxWith_closed {a b : Level} (hc : a.Closed) (closed' : b.Closed) (small : a.value < 2 ^ 32)
    (small' : b.value < 2 ^ 32) : a.maxWith b = .concrete (UInt32.ofNat (Max.max a.value b.value)) := by
  rw [Level.maxWith, normalize_closed hc small, normalize_closed closed' small', ← max_ofNat small small']

theorem normalize_shiftedBy (hc : level.Closed) (small : level.value + amount.toNat < 2 ^ 32) :
    (level.shiftedBy amount).normalize = .concrete (UInt32.ofNat (level.value + amount.toNat)) := by
  unfold Level.shiftedBy
  split
  · next zero =>
    rw [normalize_closed hc (by omega), zero]
    rfl
  · rw [normalize_closed hc (by omega), levelAddOffset_concrete small]
    rfl

/-- What the operations on universe levels compute, under every valuation and on closed levels. -/
structure LevelsExact : Prop where
  terminates : ∀ (level : Level) bound, level.weight ≤ bound → level.normalizeWithin bound = level.normalize
  normalizes : ∀ (level : Level) valuation, level.normalize.denote valuation = level.denote valuation
  equal_sound : ∀ a b, levelEq a b = true → ∀ valuation, a.denote valuation = b.denote valuation
  equal_closed : ∀ a b, a.Closed → b.Closed → a.value ≤ 2 ^ 32 - 1 → b.value ≤ 2 ^ 32 - 1 →
    (levelEq a b = true ↔ a.value = b.value)
  successor : ∀ (level : Level) valuation, level.successor.denote valuation = level.denote valuation + 1
  maxWith : ∀ (a b : Level) valuation,
    (a.maxWith b).denote valuation = Max.max (a.denote valuation) (b.denote valuation)
  shiftedBy : ∀ (level : Level) amount valuation,
    (level.shiftedBy amount).denote valuation = level.denote valuation + amount.toNat
  successor_closed : ∀ a c : Level, a.Closed → c.Closed → a.value + 1 ≤ 2 ^ 32 - 1 → c.value ≤ 2 ^ 32 - 1 →
    (levelEq a.successor c = true ↔ a.value + 1 = c.value)
  maxWith_closed : ∀ a b c : Level, a.Closed → b.Closed → c.Closed → a.value ≤ 2 ^ 32 - 1 → b.value ≤ 2 ^ 32 - 1 →
    c.value ≤ 2 ^ 32 - 1 → (levelEq (a.maxWith b) c = true ↔ Max.max a.value b.value = c.value)
  shiftedBy_closed : ∀ (a c : Level) amount, a.Closed → c.Closed → a.value + amount.toNat ≤ 2 ^ 32 - 1 →
    c.value ≤ 2 ^ 32 - 1 → (levelEq (a.shiftedBy amount) c = true ↔ a.value + amount.toNat = c.value)

theorem levels_exact : LevelsExact where
  terminates level bound enough := normalizeWithin_eq bound level enough
  normalizes level valuation := denote_normalize valuation level
  equal_sound _ _ equal := levelEq_sound equal
  equal_closed _ _ closed closed' small small' :=
    levelEq_concrete (normalize_closed closed (by omega)) (by omega) closed' (by omega)
  successor level valuation := denote_successor valuation level
  maxWith a b valuation := denote_maxWith valuation a b
  shiftedBy level amount valuation := denote_shiftedBy valuation level amount
  successor_closed _ _ closed closed' small small' :=
    levelEq_concrete (normalize_successor closed (by omega)) (by omega) closed' (by omega)
  maxWith_closed a b _ closedA closedB closed smallA smallB small := by
    have exact' := maxWith_closed closedA closedB (by omega) (by omega)
    have normal : (a.maxWith b).normalize = .concrete (UInt32.ofNat (Max.max a.value b.value)) := by
      rw [exact']
      rfl
    exact levelEq_concrete normal (by omega) closed (by omega)
  shiftedBy_closed _ _ _ closed closed' small small' :=
    levelEq_concrete (normalize_shiftedBy closed (by omega)) (by omega) closed' (by omega)

end Proof
