import Mathlib.Tactic.Linarith

namespace Kernel.GodelCoding

def u64Max : Nat := 2 ^ 64 - 1

def saturatingAdd (a b : Nat) : Nat := min (a + b) u64Max

def saturatingMul (a b : Nat) : Nat := min (a * b) u64Max

def cantorPair (a b : Nat) : Nat :=
  let sum := saturatingAdd a b
  let half := saturatingMul sum (saturatingAdd sum 1) / 2
  saturatingAdd half b

/-- The loop of Newton's method; the addition wraps. -/
def newton (n x y : Nat) : Nat :=
  if y < x then newton n y ((y + n / y) % 2 ^ 64 / 2) else x
termination_by x

def isqrtFloor (n : Nat) : Nat :=
  if n = 0 then 0 else newton n n ((n + 1) / 2)

def cantorUnpair (z : Nat) : Nat × Nat :=
  let w := (isqrtFloor (saturatingAdd (saturatingMul z 8) 1) - 1) / 2
  let t := saturatingMul w (saturatingAdd w 1) / 2
  let b := z - t
  (w - b, b)

/-- A guess that is not below the root is followed by one that is not, and its sum does not wrap. -/
theorem newton_step {n x : Nat} (hr : n < 2 ^ 64) (pos : 0 < x) (half : x ≤ 2 ^ 63) (above : n < (x + 1) * (x + 1)) :
    x + n / x < 2 ^ 64 ∧ n < ((x + n / x) / 2 + 1) * ((x + n / x) / 2 + 1) := by
  have low : n / x * x ≤ n := Nat.div_mul_le_self n x
  have high : n < x * (n / x + 1) := Nat.lt_mul_div_succ n pos
  generalize n / x = q at *
  constructor
  · by_cases wide : 2 ^ 33 ≤ x
    · have : q < 2 ^ 31 := by nlinarith
      omega
    · have : q < x + 3 := by nlinarith
      omega
  · have mean : x + q + 1 ≤ 2 * ((x + q) / 2 + 1) := by omega
    generalize (x + q) / 2 + 1 = m at *
    have squares := Nat.mul_self_le_mul_self mean
    nlinarith [sq_nonneg ((x : Int) - (q + 1))]

theorem newton_spec {n : Nat} (hr : n < 2 ^ 64) (some : 0 < n) (x : Nat) (half : x ≤ 2 ^ 63) (pos : 0 < x)
    (above : n < (x + 1) * (x + 1)) :
    newton n x ((x + n / x) / 2) * newton n x ((x + n / x) / 2) ≤ n ∧
      n < (newton n x ((x + n / x) / 2) + 1) * (newton n x ((x + n / x) / 2) + 1) := by
  induction x using Nat.strong_induction_on with
  | _ x ih =>
    obtain ⟨-, next⟩ := newton_step hr pos half above
    rw [newton]
    split_ifs with smaller
    · generalize (x + n / x) / 2 = y at smaller next ⊢
      have nz : 0 < y := by
        refine Nat.pos_of_ne_zero fun zero => ?_
        subst zero
        omega
      rw [Nat.mod_eq_of_lt (newton_step hr nz (by omega) next).1]
      exact ih y smaller (by omega) nz next
    · refine ⟨?_, above⟩
      have quotient : x ≤ n / x := by omega
      exact (Nat.le_div_iff_mul_le pos).mp quotient

theorem isqrtFloor_spec {n : Nat} (hr : n < 2 ^ 64) :
    isqrtFloor n * isqrtFloor n ≤ n ∧ n < (isqrtFloor n + 1) * (isqrtFloor n + 1) := by
  unfold isqrtFloor
  split_ifs with zero
  · omega
  · rw [newton]
    split_ifs with smaller
    · have above : n < ((n + 1) / 2 + 1) * ((n + 1) / 2 + 1) := by
        have double : n ≤ 2 * ((n + 1) / 2) := by omega
        nlinarith
      have pos : 0 < (n + 1) / 2 := by omega
      have half : (n + 1) / 2 ≤ 2 ^ 63 := by omega
      rw [Nat.mod_eq_of_lt (newton_step hr pos half above).1]
      exact newton_spec hr (Nat.pos_of_ne_zero zero) _ half pos above
    · have one : n = 1 := by omega
      subst one
      decide

theorem cantorPair_exact {a b : Nat} (product : (a + b) * (a + b + 1) ≤ u64Max)
    (hf : (a + b) * (a + b + 1) / 2 + b ≤ u64Max) : cantorPair a b = (a + b) * (a + b + 1) / 2 + b := by
  have whole : a + b + 1 ≤ u64Max := by
    rcases Nat.eq_zero_or_pos (a + b) with none | some
    · rw [none]
      decide
    · exact (Nat.le_mul_of_pos_left _ some).trans product
  have sum : min (a + b) u64Max = a + b := Nat.min_eq_left (Nat.le_of_succ_le whole)
  simp only [cantorPair, saturatingAdd, saturatingMul, sum, Nat.min_eq_left whole, Nat.min_eq_left product,
    Nat.min_eq_left hf]

theorem cantorUnpair_root {z s : Nat} (small : s < 2 ^ 31) (low : (2 * s + 1) * (2 * s + 1) ≤ min (8 * z + 1) u64Max)
    (high : min (8 * z + 1) u64Max < (2 * s + 3) * (2 * s + 3)) :
    cantorUnpair z = (s - (z - s * (s + 1) / 2), z - s * (s + 1) / 2) := by
  have number : saturatingAdd (saturatingMul z 8) 1 = min (8 * z + 1) u64Max := by
    unfold saturatingAdd saturatingMul
    omega
  have hr : min (8 * z + 1) u64Max < 2 ^ 64 := (Nat.min_le_right _ _).trans_lt (by decide)
  obtain ⟨hlt, above⟩ := isqrtFloor_spec hr
  have upper := Nat.mul_self_lt_mul_self_iff.mp (hlt.trans_lt high)
  have lower := Nat.mul_self_lt_mul_self_iff.mp (low.trans_lt above)
  have root : (isqrtFloor (min (8 * z + 1) u64Max) - 1) / 2 = s := by omega
  have one : s + 1 ≤ u64Max := by unfold u64Max; omega
  have product : s * (s + 1) ≤ u64Max := (Nat.mul_le_mul small.le small).trans (by decide)
  simp only [cantorUnpair, number, root]
  simp only [saturatingAdd, saturatingMul, Nat.min_eq_left one, Nat.min_eq_left product]

theorem cantorUnpair_saturated :
    2 ^ 31 * (2 ^ 31 + 1) ≤ u64Max ∧ cantorUnpair (cantorPair (2 ^ 31) 0) ≠ (2 ^ 31, 0) := by
  refine ⟨by decide, ?_⟩
  have low : (2 * (2 ^ 31 - 1) + 1) * (2 * (2 ^ 31 - 1) + 1) ≤ min (8 * (2 ^ 30 * (2 ^ 31 + 1)) + 1) u64Max := by decide
  rw [cantorPair_exact (by decide) (by decide)]
  refine fun found => ?_
  have unpaired := (cantorUnpair_root (by decide) low (by decide)).symm.trans found
  revert unpaired
  decide

/-- A pair is found again if and only if its sum is below `2 ^ 31`: the number under the root saturates above. -/
theorem cantorUnpair_cantorPair_iff {a b : Nat} (product : (a + b) * (a + b + 1) ≤ u64Max)
    (fits : (a + b) * (a + b + 1) / 2 + b ≤ u64Max) :
    cantorUnpair (cantorPair a b) = (a, b) ↔ a + b < 2 ^ 31 := by
  rw [cantorPair_exact product fits]
  have even : 2 * ((a + b) * (a + b + 1) / 2) = (a + b) * (a + b + 1) :=
    Nat.mul_div_cancel' (Nat.even_mul_succ_self (a + b)).two_dvd
  constructor
  · intro found
    by_contra large
    have least : 2 ^ 31 * (2 ^ 31 + 1) ≤ (a + b) * (a + b + 1) := Nat.mul_le_mul (by omega) (by omega)
    have saturated : min (8 * ((a + b) * (a + b + 1) / 2 + b) + 1) u64Max = u64Max := by unfold u64Max; omega
    have root : (2 * (2 ^ 31 - 1) + 1) * (2 * (2 ^ 31 - 1) + 1) ≤ u64Max ∧
        u64Max < (2 * (2 ^ 31 - 1) + 3) * (2 * (2 ^ 31 - 1) + 3) := by decide
    rw [← saturated] at root
    rw [cantorUnpair_root (by decide) root.1 root.2, Prod.mk.injEq] at found
    omega
  · intro small
    rw [cantorUnpair_root small]
    · simp only [Nat.add_sub_cancel_left, Nat.add_sub_cancel]
    · refine Nat.le_min.mpr ⟨by nlinarith, ?_⟩
      have odd : 2 * (a + b) + 1 ≤ 2 ^ 32 := by omega
      refine (Nat.mul_le_mul_left _ odd).trans ?_
      unfold u64Max
      omega
    · refine (Nat.min_le_left _ _).trans_lt ?_
      nlinarith

theorem cantorUnpair_cantorPair_small : cantorUnpair (cantorPair 5 7) = (5, 7) :=
  (cantorUnpair_cantorPair_iff (by decide) (by decide)).mpr (by decide)

end Kernel.GodelCoding
