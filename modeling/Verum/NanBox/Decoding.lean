import Verum.NanBox.Layout

open List

namespace NanBox

open BitVec

open Vbc

namespace Value

theorem toNat_payload (bits : BitVec 64) : (bits &&& payloadMask).toNat = bits.toNat % 2 ^ 48 := by
  rcases exists_word bits with ⟨top, mk, idx, rfl⟩
  have low := mk.isLt
  have rest := idx.isLt
  rw [payload_word, toNat_word, toNat_word]
  show 0 * 2 ^ 48 + _ + _ = _
  omega

theorem sign_extended {i : Int64} (lower : -2 ^ 47 ≤ i.toInt) (upper : i.toInt < 2 ^ 47) :
    (Int64.ofBitVec (i.toBitVec &&& payloadMask) <<< 16) >>> 16 = i := by
  apply Int64.toInt_inj.mp
  have hr := i.toBitVec.isLt
  have shifted : ((i.toBitVec &&& payloadMask) <<< 16).toNat = i.toBitVec.toNat % 2 ^ 48 * 2 ^ 16 := by
    rw [toNat_shiftLeft, toNat_payload, Nat.shiftLeft_eq]
    omega
  have v : ((Int64.ofBitVec (i.toBitVec &&& payloadMask) <<< 16) >>> 16).toInt =
      ((i.toBitVec &&& payloadMask) <<< 16).toInt / 2 ^ 16 := by
    show (((i.toBitVec &&& payloadMask) <<< 16).sshiftRight 16).toInt = _
    rw [toInt_sshiftRight, Int.shiftRight_eq_div_pow]
    rfl
  have whole : i.toInt = if 2 * i.toBitVec.toNat < 2 ^ 64 then (i.toBitVec.toNat : Int)
      else (i.toBitVec.toNat : Int) - (2 ^ 64 : Nat) := toInt_eq_toNat_cond _
  rw [v, toInt_eq_toNat_cond, shifted]
  omega

variable (mk : BitVec 4) (idx : BitVec 44)

theorem inlineInt_boxed {i : Int64} (lower : -2 ^ 47 ≤ i.toInt) (upper : i.toInt < 2 ^ 47) (top : BitVec 16)
    (eq : i.toBitVec &&& payloadMask = word 0#16 mk idx) :
    (⟨word top mk idx⟩ : Value).inlineInt = i := by
  unfold inlineInt
  dsimp only
  rw [payload_word, ← eq]
  exact sign_extended lower upper

end Value

def packed : List (BitVec 8) → BitVec 64
  | [] => 0
  | byte :: bytes => byte.setWidth 64 ||| (packed bytes <<< 8)

theorem packed_cons (byte : BitVec 8) (bytes : List (BitVec 8)) :
    packed (byte :: bytes) = byte.setWidth 64 ||| (packed bytes <<< 8) := rfl

theorem foldl_packed (bytes : List (BitVec 8)) (start : Nat) (pl : BitVec 64) :
    (bytes.zipIdx start).foldl (fun pl (e : BitVec 8 × Nat) =>
      pl ||| (e.1.setWidth 64 <<< (e.2 * 8))) pl =
        pl ||| (packed bytes <<< (start * 8)) := by
  induction bytes generalizing start pl with
  | nil =>
    show pl = pl ||| (0#64 <<< _)
    rw [zero_shiftLeft, or_zero]
  | cons byte bytes ih =>
    have n : (start + 1) * 8 = 8 + start * 8 := by omega
    rw [zipIdx_cons, foldl_cons, ih, n, shiftLeft_add, packed_cons,
      BitVec.shiftLeft_or_distrib, BitVec.or_assoc]

theorem getLsbD_packed (bytes : List (BitVec 8)) (i : Nat) (hin : i < 64) :
    (packed bytes).getLsbD i = (bytes.getD (i / 8) 0).getLsbD (i % 8) := by
  induction bytes generalizing i with
  | nil => simp [packed]
  | cons byte bytes ih =>
    rw [packed_cons, getLsbD_or, getLsbD_setWidth, getLsbD_shiftLeft]
    by_cases fst : i < 8
    · rw [Nat.div_eq_of_lt fst, Nat.mod_eq_of_lt fst]
      simp [fst, hin]
    · have above : byte.getLsbD i = false := getLsbD_of_ge byte i (by omega)
      have place : i / 8 = (i - 8) / 8 + 1 := by omega
      have off : i % 8 = (i - 8) % 8 := by omega
      rw [above, ih _ (by omega), place, off]
      simp [fst, hin]

theorem byte_packed (bytes : List (BitVec 8)) (i : Nat) (hin : i < 6) :
    ((packed bytes >>> (i * 8)) &&& 0xFF#64).setWidth 8 = bytes.getD i 0 := by
  ext j hlt
  have bits : ∀ j : Fin 8, (0xFF#64).getLsbD j = true := by decide
  have place : (i * 8 + j) / 8 = i := by omega
  have off : (i * 8 + j) % 8 = j := by omega
  rw [getElem_setWidth, getLsbD_and, bits ⟨j, hlt⟩, Bool.and_true, getLsbD_ushiftRight,
    getLsbD_packed _ _ (by omega), place, off, getLsbD_eq_getElem]

theorem packed_small (bytes : List (BitVec 8)) (short : bytes.length ≤ 6) : (packed bytes).toNat < 2 ^ 48 := by
  apply Nat.lt_pow_two_of_testBit
  intro i above
  rw [← BitVec.getLsbD]
  by_cases hin : i < 64
  · rw [getLsbD_packed _ _ hin, getD_eq_default _ _ (by omega)]
    exact getLsbD_zero
  · exact getLsbD_of_ge _ _ (by omega)

theorem foldl_text (byte : Nat → BitVec 8) (size n : Nat) (nz : ∀ i, byte i ≠ 0 ↔ i < size) :
    (List.range n).foldl (fun (text : SmallString) i =>
      { bytes := text.bytes ++ [byte i], len := if byte i != 0 then i + 1 else text.len }) ⟨[], 0⟩ =
      ⟨(List.range n).map byte, min n size⟩ := by
  induction n with
  | zero =>
    rw [Nat.zero_min]
    rfl
  | succ n ih =>
    rw [range_succ, foldl_append, ih, map_append]
    have decides : (byte n != 0) = decide (n < size) := by
      rw [Bool.eq_iff_iff, bne_iff_ne, decide_eq_true_eq]
      exact nz n
    show (⟨_, if byte n != 0 then n + 1 else min n size⟩ : SmallString) = _
    rw [decides]
    congr 1
    by_cases hlt : n < size
    · rw [if_pos (decide_eq_true hlt)]
      omega
    · rw [if_neg (by rw [decide_eq_true_eq]; exact hlt)]
      omega

namespace Value

theorem asSmallString_packed {v : Value} {bytes : List (BitVec 8)} (short : bytes.length ≤ 6)
    (nz : 0 ∉ bytes) (pl : v.bits &&& payloadMask = packed bytes) :
    v.asSmallString.asBytes = bytes := by
  have ends : ∀ i, bytes.getD i 0 ≠ 0 ↔ i < bytes.length := by
    intro i
    by_cases hin : i < bytes.length
    · apply iff_of_true _ hin
      rw [getD_eq_getElem _ _ hin]
      exact fun zero => nz (zero ▸ getElem_mem hin)
    · apply iff_of_false _ hin
      rw [getD_eq_default _ _ (by omega)]
      exact fun differs => differs rfl
  have read : v.asSmallString = ⟨(List.range 6).map fun i => bytes.getD i 0, bytes.length⟩ := by
    have loop := foldl_text (fun i => bytes.getD i 0) bytes.length 6 ends
    rw [Nat.min_eq_right short] at loop
    rw [← loop]
    unfold asSmallString
    rw [pl]
    apply foldl_ext
    intro text i mem
    rw [byte_packed bytes i (mem_range.mp mem)]
  unfold SmallString.asBytes
  rw [read]
  dsimp only
  apply ext_getElem
  · rw [length_take, length_map, length_range]
    omega
  · intro i _ hin
    rw [getElem_take, getElem_map, getElem_range, getD_eq_getElem _ _ hin]

theorem cbgrRegref_word (absIndex generation : BitVec 32) (isMutable : Bool) :
    ∃ fs : BitVec 4, ∃ idx : BitVec 44,
      cbgrRegref absIndex generation isMutable =
        ⟨word (header 3) (0x8#4 ||| (if isMutable then 0x4#4 else 0#4) ||| fs) idx⟩ ∧
      fs.toNat < 4 ∧ fs.toNat * 2 ^ 44 + idx.toNat =
        generation.toNat % 2 ^ 22 * 2 ^ 24 + absIndex.toNat % 2 ^ 24 := by
  have small := generation.isLt
  have short := absIndex.isLt
  have abs : (absIndex.setWidth 64 &&& cbgrRegrefAbsMask).toNat = absIndex.toNat % 2 ^ 24 := by
    rw [toNat_and, toNat_setWidth, Nat.mod_eq_of_lt (by omega)]
    exact Nat.and_two_pow_sub_one_eq_mod _ 24
  have gen : (generation.setWidth 64 &&& cbgrRegrefGenMask).toNat = generation.toNat % 2 ^ 22 := by
    rw [toNat_and, toNat_setWidth, Nat.mod_eq_of_lt (by omega)]
    exact Nat.and_two_pow_sub_one_eq_mod _ 22
  have both : (((generation.setWidth 64 &&& cbgrRegrefGenMask) <<< cbgrRegrefGenShift) |||
      (absIndex.setWidth 64 &&& cbgrRegrefAbsMask)).toNat =
        generation.toNat % 2 ^ 22 * 2 ^ 24 + absIndex.toNat % 2 ^ 24 := by
    have wide : ((generation.setWidth 64 &&& cbgrRegrefGenMask) <<< cbgrRegrefGenShift).toNat =
        (generation.toNat % 2 ^ 22) <<< 24 := by
      show ((generation.setWidth 64 &&& cbgrRegrefGenMask) <<< 24).toNat = _
      rw [toNat_shiftLeft, gen, Nat.shiftLeft_eq]
      omega
    rw [toNat_or, wide, abs, ← Nat.shiftLeft_add_eq_or_of_lt (by omega), Nat.shiftLeft_eq]
  rcases exists_payload (((generation.setWidth 64 &&& cbgrRegrefGenMask) <<< cbgrRegrefGenShift) |||
    (absIndex.setWidth 64 &&& cbgrRegrefAbsMask)) (by omega) with ⟨fs, idx, split⟩
  rw [split, toNat_word, show (0#16).toNat = 0 from rfl, Nat.zero_mul, Nat.zero_add] at both
  have mutBit : (if isMutable then cbgrRegrefMutBit else 0) =
      word 0#16 (if isMutable then 0x4#4 else 0#4) 0#44 := by
    cases isMutable with
    | false | true => decide
  refine ⟨fs, idx, ?_, by omega, both⟩
  unfold cbgrRegref
  dsimp only
  rw [BitVec.or_assoc, split, mutBit, BitVec.or_assoc, BitVec.or_assoc, or_word, cbgrRegrefMarker_eq, or_word,
    tagUnit_eq, or_zero, or_zero, boxed_word, zero_or, zero_or, BitVec.or_assoc]

theorem cbgrRegrefAbs_cbgrRegref {absIndex : BitVec 32} (gen : BitVec 32) (isMutable : Bool)
    (small : absIndex.toNat < 2 ^ 24) : (cbgrRegref absIndex gen isMutable).cbgrRegrefAbs = absIndex := by
  rcases cbgrRegref_word absIndex gen isMutable with ⟨fs, idx, eq, hb, sum⟩
  apply eq_of_toNat_eq
  unfold cbgrRegrefAbs
  rw [eq, toNat_setWidth, toNat_and, toNat_word,
    show cbgrRegrefAbsMask.toNat = 2 ^ 24 - 1 from rfl, Nat.and_two_pow_sub_one_eq_mod]
  omega

theorem cbgrRegrefGeneration_cbgrRegref (absIndex gen : BitVec 32) (isMutable : Bool) :
    (cbgrRegref absIndex gen isMutable).cbgrRegrefGeneration = gen % 0x400000#32 := by
  rcases cbgrRegref_word absIndex gen isMutable with ⟨fs, idx, eq, hb, sum⟩
  have marks : (0x8#4 ||| (if isMutable then 0x4#4 else 0#4) ||| fs).toNat =
      8 + (if isMutable then 4 else 0) + fs.toNat := by
    revert hb
    clear eq sum
    revert fs isMutable
    decide
  apply eq_of_toNat_eq
  unfold cbgrRegrefGeneration
  rw [eq, toNat_setWidth, toNat_and, toNat_ushiftRight, toNat_word,
    show cbgrRegrefGenMask.toNat = 2 ^ 22 - 1 from rfl, Nat.and_two_pow_sub_one_eq_mod, marks,
    show cbgrRegrefGenShift = 24 from rfl, Nat.shiftRight_eq_div_pow, toNat_umod]
  show _ = gen.toNat % 4194304
  split
  · omega
  · omega

theorem cbgrRegrefIsMut_cbgrRegref (absIndex gen : BitVec 32) (isMutable : Bool) :
    (cbgrRegref absIndex gen isMutable).cbgrRegrefIsMut = isMutable := by
  rcases cbgrRegref_word absIndex gen isMutable with ⟨fs, idx, eq, hb, -⟩
  have mark : cbgrRegrefMutBit = word 0#16 0x4#4 0#44 := by decide
  unfold cbgrRegrefIsMut bne
  rw [eq, mark, mask_eq_zero]
  clear eq
  revert fs isMutable
  decide

end Value

end NanBox
