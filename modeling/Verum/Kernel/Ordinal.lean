import Mathlib.Data.List.Lex
import Mathlib.Order.Lattice

namespace Kernel

/-- Cantor normal forms below `ω ^ ω`, the inaccessibles, and formal suprema. -/
inductive Ordinal where
  | finite (n : UInt32)
  | omega
  | omegaPlus (n : UInt32)
  | omegaTimes (k : UInt32)
  | omegaTimesPlus (k n : UInt32)
  | omegaSquared
  | omegaSquaredPlus (inner : Ordinal)
  | omegaPow (e : UInt32)
  | kappa (n : UInt32)
  | sup (parts : List Ordinal)

namespace Ordinal

mutual

def same : Ordinal → Ordinal → Bool
  | .finite a, .finite b => a == b
  | .omega, .omega => true
  | .omegaPlus a, .omegaPlus b => a == b
  | .omegaTimes a, .omegaTimes b => a == b
  | .omegaTimesPlus a m, .omegaTimesPlus b n => a == b && m == n
  | .omegaSquared, .omegaSquared => true
  | .omegaSquaredPlus a, .omegaSquaredPlus b => same a b
  | .omegaPow a, .omegaPow b => a == b
  | .kappa a, .kappa b => a == b
  | .sup as, .sup bs => sameAll as bs
  | _, _ => false

def sameAll : List Ordinal → List Ordinal → Bool
  | [], [] => true
  | a :: as, b :: bs => same a b && sameAll as bs
  | _, _ => false

end

mutual

theorem same_iff : ∀ a b : Ordinal, same a b = true ↔ a = b
  | .sup as, b => by
    cases b with
    | sup bs => simp only [same, sameAll_iff as bs, sup.injEq]
    | _ => simp [same]
  | .omegaSquaredPlus a, b => by
    cases b with
    | omegaSquaredPlus b => simp only [same, same_iff a b, omegaSquaredPlus.injEq]
    | _ => simp [same]
  | .finite _, b | .omega, b | .omegaPlus _, b | .omegaTimes _, b | .omegaTimesPlus .., b
  | .omegaSquared, b | .omegaPow _, b | .kappa _, b => by
    cases b <;> simp [same]

theorem sameAll_iff : ∀ as bs : List Ordinal, sameAll as bs = true ↔ as = bs
  | [], bs => by cases bs <;> simp [sameAll]
  | a :: as, bs => by
    cases bs with
    | nil => simp [sameAll]
    | cons b bs => simp only [sameAll, Bool.and_eq_true, same_iff a b, sameAll_iff as bs, List.cons.injEq]

end

instance : DecidableEq Ordinal := fun a b => decidable_of_iff (same a b = true) (same_iff a b)

/-- `u32::saturating_add(1)`. -/
def saturatingSucc (n : UInt32) : UInt32 := if n = 0xFFFFFFFF then n else n + 1

def succ : Ordinal → Ordinal
  | .finite n => if n = 0xFFFFFFFF then .omega else .finite (n + 1)
  | .omega => .omegaPlus 1
  | .omegaPlus n => .omegaPlus (saturatingSucc n)
  | .omegaTimes k => .omegaTimesPlus k 1
  | .omegaTimesPlus k n => .omegaTimesPlus k (saturatingSucc n)
  | .omegaSquared => .omegaSquaredPlus (.finite 1)
  | .omegaSquaredPlus inner => .omegaSquaredPlus inner.succ
  | .omegaPow e => .sup [.omegaPow e, .finite 1]
  | .kappa n => .sup [.kappa n, .finite 1]
  | .sup parts => .sup (parts ++ [.finite 1])

def isZero : Ordinal → Bool
  | .finite n => n == 0
  | _ => false

mutual

def normalize : Ordinal → Ordinal
  | .omegaPow e =>
    if e = 0 then .finite 1 else if e = 1 then .omega else if e = 2 then .omegaSquared else .omegaPow e
  | .omegaTimes k => if k = 0 then .finite 0 else if k = 1 then .omega else .omegaTimes k
  | .omegaPlus n => if n = 0 then .omega else .omegaPlus n
  | .omegaTimesPlus k n =>
    if k = 0 then (if n = 0 then .finite 0 else .finite n)
    else if k = 1 then (if n = 0 then .omega else .omegaPlus n)
    else if n = 0 then .omegaTimes k else .omegaTimesPlus k n
  | .omegaSquaredPlus inner =>
    if inner.normalize.isZero then .omegaSquared else .omegaSquaredPlus inner.normalize
  | .sup [] => .finite 0
  | .sup [part] => part.normalize
  | .sup (first :: second :: rest) => .sup (first.normalize :: second.normalize :: normalizeAll rest)
  | .finite n => .finite n
  | .omega => .omega
  | .omegaSquared => .omegaSquared
  | .kappa n => .kappa n

def normalizeAll : List Ordinal → List Ordinal
  | [] => []
  | part :: rest => part.normalize :: normalizeAll rest

end

mutual

def size : Ordinal → Nat
  | .omegaSquaredPlus inner => inner.size + 1
  | .sup parts => sizeAll parts + 1
  | _ => 1

def sizeAll : List Ordinal → Nat
  | [] => 0
  | part :: rest => part.size + sizeAll rest

end

mutual

theorem size_normalize : ∀ a : Ordinal, a.normalize.size ≤ a.size
  | .sup [] => by simp [normalize, size]
  | .sup [part] => by
    have inner := size_normalize part
    simp only [normalize, size, sizeAll]
    omega
  | .sup (fst :: snd :: rest) => by
    have one := size_normalize fst
    have two := size_normalize snd
    have others := sizeAll_normalizeAll rest
    simp only [normalize, size, sizeAll]
    omega
  | .omegaSquaredPlus inner => by
    have smaller := size_normalize inner
    unfold normalize
    split
    · simp [size]
    · simp only [size]; omega
  | .omegaPow _ | .omegaTimes _ | .omegaPlus _ | .omegaTimesPlus _ _ =>
    by unfold normalize; split_ifs <;> simp [size]
  | .finite _ | .omega | .omegaSquared | .kappa _ => Nat.le_refl _

theorem sizeAll_normalizeAll : ∀ parts : List Ordinal, sizeAll (normalizeAll parts) ≤ sizeAll parts
  | [] => Nat.le_refl _
  | part :: rest => by
    have fst := size_normalize part
    have others := sizeAll_normalizeAll rest
    simp only [normalizeAll, sizeAll]
    omega

end

theorem size_mem_sup {part : Ordinal} {parts : List Ordinal} (mem : part ∈ parts) :
    part.size < (sup parts).size := by
  induction parts with
  | nil => cases mem
  | cons head rest ih =>
    simp only [size, sizeAll] at ih ⊢
    rcases List.mem_cons.mp mem with rfl | later
    · omega
    · have inner := ih later
      omega

/-- The comparison of two forms without parts of their own, by the left one. -/
def ltFlat (left right : Ordinal) : Bool :=
  match left with
  | .finite a =>
    match right with
    | .finite b => a < b
    | _ => true
  | .omega =>
    match right with
    | .finite _ => false
    | .omega => false
    | .omegaTimes k => k ≥ 2
    | _ => true
  | .omegaPlus a =>
    match right with
    | .finite _ => false
    | .omega => false
    | .omegaPlus b => a < b
    | .omegaTimes k => k ≥ 2
    | .omegaTimesPlus k _ => k ≥ 2
    | _ => true
  | .omegaTimes a =>
    match right with
    | .finite _ => false
    | .omega => false
    | .omegaPlus _ => a < 2
    | .omegaTimes b => a < b
    | .omegaTimesPlus k _ => a ≤ k
    | _ => true
  | .omegaTimesPlus ka na =>
    match right with
    | .finite _ => false
    | .omega => false
    | .omegaPlus _ => ka < 2
    | .omegaTimes b => ka < b
    | .omegaTimesPlus kb nb => ka < kb || (ka == kb && na < nb)
    | _ => true
  | .omegaSquared =>
    match right with
    | .omegaSquaredPlus _ => true
    | .omegaPow _ => true
    | .kappa _ => true
    | _ => false
  | .omegaSquaredPlus _ =>
    match right with
    | .omegaPow e => e ≥ 3
    | .kappa _ => true
    | _ => false
  | .omegaPow a =>
    match right with
    | .omegaPow b => a < b
    | .kappa _ => true
    | _ => false
  | .kappa a =>
    match right with
    | .kappa b => a < b
    | _ => false
  | .sup _ => false

/-- `lt` on operands in normal form; a supremum is compared part by part. -/
def ltRaw (left right : Ordinal) : Bool :=
  match left, right with
  | .sup parts, other => parts.attach.all fun part => ltRaw part.1 other
  | s, .sup parts => parts.attach.any fun part => ltRaw s part.1 || decide (s = part.1)
  | .omegaSquaredPlus a, .omegaSquaredPlus b => ltRaw a.normalize b.normalize
  | s, other => ltFlat s other
termination_by left.size + right.size
decreasing_by
  · have smaller := size_mem_sup part.2
    omega
  · have smaller := size_mem_sup part.2
    omega
  · have left := size_normalize a
    have right := size_normalize b
    simp only [size]
    omega

def lt (left right : Ordinal) : Bool := ltRaw left.normalize right.normalize

def le (left right : Ordinal) : Bool := lt left right || decide (left = right)

end Ordinal

end Kernel
