import Verum.Json.NumberTexts
import Verum.Json.Jcs

open Utf8

namespace Json

open Grammar

namespace Text

theorem magnitude_append (radix mag : Nat) (text rest : Text) :
    magnitude radix mag (text ++ rest) = (magnitude radix mag text).bind fun m => magnitude radix m rest := by
  induction text generalizing mag with
  | nil => rfl
  | cons b text ih =>
    rw [List.cons_append, magnitude, magnitude]
    split
    · rfl
    · split
      · rfl
      · split
        · rfl
        · simp only
          split
          · rfl
          · exact ih _

theorem encode_digitChar {d : Nat} (small : d < 10) : encode [Nat.digitChar d] = [0x30 + d.toUInt8] := by
  revert d
  decide

theorem digitValue_digit {d : Nat} (small : d < 10) : digitValue (0x30 + d.toUInt8) = some d := by
  revert d
  decide

theorem magnitude_digit {mag digit n : Nat} (small : digit < 10) (isNext : n = mag * 10 + digit) (hf : n < 2 ^ 64) :
    magnitude 10 mag [0x30 + digit.toUInt8] = some n := by
  have next : (mag * 10 + digit) % 2 ^ 64 = n := by rw [← isNext, Nat.mod_eq_of_lt hf]
  rw [magnitude, digitValue_digit small]
  simp only [next]
  rw [if_neg (by omega), if_neg (by omega), if_neg (by omega)]
  rfl

theorem magnitude_toDigits {n : Nat} (hf : n < 2 ^ 64) :
    magnitude 10 0 (encode (Nat.toDigits 10 n)) = some n := by
  induction n using Nat.strong_induction_on with
  | _ n ih =>
    rcases Nat.lt_or_ge n 10 with small | large
    · rw [Nat.toDigits_of_lt_base small, encode_digitChar small]
      exact magnitude_digit small (by omega) hf
    · rw [Nat.toDigits_of_base_le (by decide) large, encode_append, magnitude_append,
        ih (n / 10) (by omega) (by omega), encode_digitChar (Nat.mod_lt n (by decide))]
      exact magnitude_digit (Nat.mod_lt n (by decide)) (by omega) hf

theorem toDigits_digits (n : Nat) : ∀ c ∈ Nat.toDigits 10 n, Grammar.isDigit c = true := by
  intro c mem
  have isDigit := Nat.isDigit_of_mem_toDigits (by decide) (by decide) mem
  rw [Char.isDigit, Bool.and_eq_true, decide_eq_true_eq, decide_eq_true_eq] at isDigit
  rw [Grammar.isDigit, Bool.and_eq_true, decide_eq_true_eq, decide_eq_true_eq]
  exact isDigit

theorem toDigits_head (n : Nat) : ∃ c others, Nat.toDigits 10 n = c :: others ∧ (c = '0' → n = 0) := by
  induction n using Nat.strong_induction_on with
  | _ n ih =>
    rcases Nat.lt_or_ge n 10 with small | large
    · refine ⟨Nat.digitChar n, [], Nat.toDigits_of_lt_base small, ?_⟩
      clear ih
      revert n
      decide
    · obtain ⟨c, others, isDigits, isZero⟩ := ih (n / 10) (by omega)
      refine ⟨c, others ++ [Nat.digitChar (n % 10)], ?_, ?_⟩
      · rw [Nat.toDigits_of_base_le (by decide) large, isDigits, List.cons_append]
      · intro zero
        have := isZero zero
        omega

theorem intText_toDigits (n : Nat) : IntText (Nat.toDigits 10 n) := by
  obtain ⟨c, others, isDigits, isZero⟩ := toDigits_head n
  have all := toDigits_digits n
  by_cases zero : c = '0'
  · rw [isZero zero]
    exact .zero
  · rw [isDigits] at all ⊢
    exact .digits (all c (by simp)) zero fun d mem => all d (List.mem_cons_of_mem c mem)

theorem u64Digits_reverse (x : UInt64) (pos : 0 < x) :
    (Jcs.u64Digits x).reverse = encode (Nat.toDigits 10 x.toNat) := by
  induction x using Jcs.u64Digits.induct with
  | case1 x _ ih =>
    have isDigit : (x % 10).toUInt8 = (x.toNat % 10).toUInt8 := by
      apply UInt8.toNat_inj.mp
      simp
    rw [Jcs.u64Digits, if_pos pos, List.reverse_cons, isDigit]
    have quotient : (x / 10).toNat = x.toNat / 10 := UInt64.toNat_div x 10
    rcases Nat.lt_or_ge x.toNat 10 with small | large
    · have noMore : ¬ x / 10 > 0 := by
        rw [gt_iff_lt, UInt64.lt_iff_toNat_lt, quotient]
        simp only [UInt64.toNat_zero]
        omega
      rw [Jcs.u64Digits, if_neg noMore, Nat.toDigits_of_lt_base small, encode_digitChar small, Nat.mod_eq_of_lt small]
      rfl
    · have more : 0 < x / 10 := by
        rw [UInt64.lt_iff_toNat_lt, quotient]
        simp only [UInt64.toNat_zero]
        omega
      rw [ih more, quotient, Nat.toDigits_of_base_le (by decide) large, encode_append,
        encode_digitChar (Nat.mod_lt _ (by decide))]
  | case2 x notPositive => exact absurd pos notPositive

theorem emitU64_eq (x : UInt64) : Jcs.emitU64 x = encode (Nat.toDigits 10 x.toNat) := by
  unfold Jcs.emitU64
  split
  · rename_i isZero
    rw [isZero]
    rfl
  · rename_i notZero
    refine u64Digits_reverse x ?_
    rw [UInt64.lt_iff_toNat_lt]
    have different : x.toNat ≠ 0 := fun zero => notZero (UInt64.toNat_inj.mp zero)
    exact Nat.pos_of_ne_zero different

theorem toInt_cases (n : Int64) :
    n.toUInt64.toNat < 2 ^ 63 ∧ n.toInt = n.toUInt64.toNat ∨
      2 ^ 63 ≤ n.toUInt64.toNat ∧ n.toUInt64.toNat < 2 ^ 64 ∧ n.toInt = n.toUInt64.toNat - 2 ^ 64 := by
  have hb := n.toUInt64.toNat_lt
  have isInt : n.toInt = n.toBitVec.toInt := rfl
  have isNat : n.toBitVec.toNat = n.toUInt64.toNat := rfl
  rw [BitVec.toInt_eq_toNat_cond, isNat] at isInt
  rw [isInt]
  split <;> omega

theorem negated_toNat (n : Int64) (negative : n.toInt < 0) : ((~~~n).toUInt64 + 1).toNat = (-n.toInt).toNat := by
  have hb := n.toUInt64.toNat_lt
  have complement : (~~~n).toUInt64.toNat = 2 ^ 64 - 1 - n.toUInt64.toNat := by
    rw [← Int64.toNat_toBitVec, Int64.toBitVec_not, BitVec.toNat_not, Int64.toNat_toBitVec]
  rw [UInt64.toNat_add, complement]
  have one : (1 : UInt64).toNat = 1 := rfl
  rw [one]
  rcases toInt_cases n with ⟨small, isInt⟩ | ⟨large, -, isInt⟩
  · omega
  · omega

theorem signed_negative (n : Int64) (negative : n.toInt < 0) :
    signed true (-n.toInt).toNat = some n := by
  have least : -2 ^ 63 ≤ n.toInt := n.le_toInt
  unfold signed
  rw [if_pos rfl, if_neg (by omega)]
  split
  · rename_i isMin
    have isLeast : n.toInt = Int64.minValue.toInt := by
      have v : Int64.minValue.toInt = -2 ^ 63 := by decide
      rw [v]
      omega
    rw [Int64.toInt_inj.mp isLeast]
  · rename_i notMin
    have eq : (0 - Int64.ofNat (-n.toInt).toNat).toInt = n.toInt := by
      rw [Int64.zero_sub, Int64.toInt_neg_ofNat_of_le (by omega)]
      omega
    rw [Int64.toInt_inj.mp eq]

theorem signed_nonneg (n : Int64) (nonneg : ¬ n.toInt < 0) : signed false n.toInt.toNat = some n := by
  have most : n.toInt < 2 ^ 63 := n.toInt_lt
  unfold signed
  rw [if_neg (by simp), if_neg (by omega)]
  have eq : (Int64.ofNat n.toInt.toNat).toInt = n.toInt := by
    rw [Int64.toInt_ofNat_of_lt (by omega)]
    omega
  rw [Int64.toInt_inj.mp eq]

def decimalText (i : Int) : List Char :=
  if i < 0 then '-' :: Nat.toDigits 10 (-i).toNat else Nat.toDigits 10 i.toNat

theorem emitInt_eq (n : Int64) : Jcs.emitInt n = encode (decimalText n.toInt) := by
  have isNegative : n < 0 ↔ n.toInt < 0 := Int64.lt_iff_toInt_lt
  unfold Jcs.emitInt decimalText
  split
  · rename_i negative
    rw [if_pos (isNegative.mp negative), emitU64_eq, negated_toNat n (isNegative.mp negative), encode_cons,
      encodeChar_ascii (by decide)]
    rfl
  · rename_i notNegative
    have nonneg := mt isNegative.mpr notNegative
    rw [if_neg nonneg, emitU64_eq]
    have eq : n.toUInt64.toNat = n.toInt.toNat := by
      rcases toInt_cases n with ⟨small, isInt⟩ | ⟨large, hb, isInt⟩
      · omega
      · omega
    rw [eq]

theorem decimalText_number (i : Int) : NumberText (decimalText i) false := by
  unfold decimalText
  split
  · exact ⟨['-'], Nat.toDigits 10 (-i).toNat, [], [], .inr rfl, intText_toDigits _, .none, .none, by simp, rfl⟩
  · exact ⟨[], Nat.toDigits 10 i.toNat, [], [], .inl rfl, intText_toDigits _, .none, .none, by simp, rfl⟩

theorem parseInt_minus {digits : Text} {mag : Nat} (ne : digits ≠ [])
    (isMagnitude : magnitude 10 0 digits = some mag) : parseInt (0x2D :: digits) = signed true mag := by
  unfold parseInt parseIntRadix
  rw [if_neg (by decide)]
  simp only [true_or, if_true, if_neg ne, decide_true, isMagnitude, Option.bind_some]

theorem parseInt_plain {fst : UInt8} {rest : Text} {mag : Nat} (notMinus : ¬ fst = 45) (notPlus : ¬ fst = 43)
    (isMagnitude : magnitude 10 0 (fst :: rest) = some mag) : parseInt (fst :: rest) = signed false mag := by
  unfold parseInt parseIntRadix
  rw [if_neg (by decide)]
  simp only [notMinus, notPlus, or_self, if_false, decide_false, reduceCtorEq, isMagnitude, Option.bind_some]

theorem parseInt_emitInt (n : Int64) : parseInt (Jcs.emitInt n) = some n := by
  have least : -2 ^ 63 ≤ n.toInt := n.le_toInt
  have most : n.toInt < 2 ^ 63 := n.toInt_lt
  rw [emitInt_eq]
  by_cases negative : n.toInt < 0
  · have digits : encode (Nat.toDigits 10 (-n.toInt).toNat) ≠ [] := by
      obtain ⟨c, others, isDigits, -⟩ := toDigits_head (-n.toInt).toNat
      rw [Ne, encode_eq_nil, isDigits]
      simp
    rw [decimalText, if_pos negative, encode_cons, encodeChar_ascii (by decide), List.singleton_append]
    exact (parseInt_minus digits (magnitude_toDigits (by omega))).trans (signed_negative n negative)
  · have all := toDigits_digits n.toInt.toNat
    have isMagnitude := magnitude_toDigits (n := n.toInt.toNat) (by omega)
    obtain ⟨c, others, isDigits, -⟩ := toDigits_head n.toInt.toNat
    rw [decimalText, if_neg negative]
    rw [isDigits] at isMagnitude all ⊢
    have isDigit := Parser.isDigit_iff.mp (all c (by simp))
    have low : c.toNat < 0x80 := by omega
    rw [encode_cons, encodeChar_ascii low, List.singleton_append] at isMagnitude ⊢
    have v : c.toNat.toUInt8.toNat = c.toNat := by
      rw [UInt8.toNat_ofNat']
      omega
    have other {b : UInt8} (hlt : b.toNat < 0x30) : ¬ c.toNat.toUInt8 = b := by
      intro eq
      rw [eq] at v
      omega
    exact (parseInt_plain (other (by decide)) (other (by decide)) isMagnitude).trans (signed_nonneg n negative)

end Text

end Json
