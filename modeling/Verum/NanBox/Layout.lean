import Verum.NanBox.Values

namespace NanBox

open BitVec

/-- A word given by its upper half-word, its four marker bits and the rest. -/
def word (header : BitVec 16) (marker : BitVec 4) (index : BitVec 44) : BitVec 64 := header ++ marker ++ index

theorem word_inj {header other : BitVec 16} {marker mark : BitVec 4} {index place : BitVec 44} :
    word header marker index = word other mark place ↔ header = other ∧ marker = mark ∧ index = place := by
  constructor
  · intro eq
    have rest : (word header marker index).setWidth 44 = (word other mark place).setWidth 44 := by rw [eq]
    have upper : (word header marker index).extractLsb' 44 20 = (word other mark place).extractLsb' 44 20 := by
      rw [eq]
    unfold word at rest upper
    rw [setWidth_append_eq_right, setWidth_append_eq_right] at rest
    rw [BitVec.extractLsb'_append_eq_left, BitVec.extractLsb'_append_eq_left] at upper
    have mid : (header ++ marker).setWidth 4 = (other ++ mark).setWidth 4 := by rw [upper]
    have top : (header ++ marker).extractLsb' 4 16 = (other ++ mark).extractLsb' 4 16 := by rw [upper]
    rw [setWidth_append_eq_right, setWidth_append_eq_right] at mid
    rw [BitVec.extractLsb'_append_eq_left, BitVec.extractLsb'_append_eq_left] at top
    exact ⟨top, mid, rest⟩
  · rintro ⟨rfl, rfl, rfl⟩
    rfl

theorem exists_word (bits : BitVec 64) : ∃ header marker index, bits = word header marker index := by
  refine ⟨bits.extractLsb' 48 16, bits.extractLsb' 44 4, bits.extractLsb' 0 44, ?_⟩
  unfold word
  have upper : bits.extractLsb' 48 16 ++ bits.extractLsb' 44 4 = bits.extractLsb' 44 20 :=
    BitVec.extractLsb'_append_extractLsb'_eq_extractLsb' rfl
  have whole : bits.extractLsb' 44 20 ++ bits.extractLsb' 0 44 = bits.extractLsb' 0 64 :=
    BitVec.extractLsb'_append_extractLsb'_eq_extractLsb' rfl
  rw [upper, whole]
  exact BitVec.extractLsb'_eq_self.symm

theorem and_word (header other : BitVec 16) (marker mark : BitVec 4) (index place : BitVec 44) :
    word header marker index &&& word other mark place =
      word (header &&& other) (marker &&& mark) (index &&& place) := by
  unfold word
  rw [and_append, and_append]

theorem or_word (header other : BitVec 16) (marker mark : BitVec 4) (index place : BitVec 44) :
    word header marker index ||| word other mark place =
      word (header ||| other) (marker ||| mark) (index ||| place) := by
  unfold word
  rw [or_append, or_append]

theorem header_shift (header : BitVec 16) : (word header 0#4 0#44 >>> 48).setWidth 8 = header.setWidth 8 := by
  unfold word
  ext i hin
  simp only [getElem_setWidth, getLsbD_ushiftRight, getLsbD_append]
  have above : ¬ 48 + i < 44 := by omega
  have past : ¬ 48 + i - 44 < 4 := by omega
  rw [if_neg above, if_neg past]
  congr 1
  omega

theorem toNat_word (top : BitVec 16) (marker : BitVec 4) (index : BitVec 44) :
    (word top marker index).toNat = top.toNat * 2 ^ 48 + marker.toNat * 2 ^ 44 + index.toNat := by
  have low := marker.isLt
  have rest := index.isLt
  unfold word
  rw [toNat_append, toNat_append, ← Nat.shiftLeft_add_eq_or_of_lt low,
    ← Nat.shiftLeft_add_eq_or_of_lt rest, Nat.shiftLeft_eq, Nat.shiftLeft_eq]
  omega

theorem exists_payload (pl : BitVec 64) (small : pl.toNat < 2 ^ 48) :
    ∃ marker index, pl = word 0#16 marker index := by
  rcases exists_word pl with ⟨top, marker, index, rfl⟩
  rw [toNat_word] at small
  have zero : top = 0#16 := by
    apply eq_of_toNat_eq
    show top.toNat = 0
    omega
  exact ⟨marker, index, by rw [zero]⟩

theorem exists_index (pl : BitVec 64) (small : pl.toNat < 2 ^ 44) :
    ∃ index, pl = word 0#16 0#4 index := by
  rcases exists_payload pl (by omega) with ⟨marker, index, rfl⟩
  rw [toNat_word] at small
  have zero : marker = 0#4 := by
    apply eq_of_toNat_eq
    show marker.toNat = 0
    omega
  exact ⟨index, by rw [zero]⟩

def header (tag : BitVec 3) : BitVec 16 := 0x7FF8#16 ||| tag.setWidth 16

theorem exists_header {top : BitVec 16} (tagged : top &&& 0xFFF8#16 = 0x7FF8#16) : ∃ tag, top = header tag := by
  refine ⟨top.setWidth 3, ?_⟩
  have low : (top.setWidth 3).setWidth 16 = top &&& 0x7#16 := by
    ext i hin
    simp only [getElem_setWidth, getLsbD_setWidth, getElem_and]
    have bits : ∀ j : Fin 16, (7#16).getLsbD j = decide (j.val < 3) := by decide
    have bit : (7#16)[i] = decide (i < 3) := bits ⟨i, hin⟩
    rw [bit, getLsbD_eq_getElem hin, Bool.and_comm]
  unfold header
  rw [← tagged, low, ← and_or_distrib_left]
  show top = top &&& BitVec.allOnes 16
  rw [and_allOnes]

theorem mask_eq (top : BitVec 16) (marker mark : BitVec 4) (index : BitVec 44) :
    (word top marker index &&& word 0#16 mark 0#44 == word 0#16 mark 0#44) = (marker &&& mark == mark) := by
  rw [and_word, and_zero, and_zero, Bool.eq_iff_iff, beq_iff_eq, beq_iff_eq, word_inj]
  exact ⟨fun eq => eq.2.1, fun eq => ⟨rfl, eq, rfl⟩⟩

theorem mask_eq_zero (top : BitVec 16) (marker mark : BitVec 4) (index : BitVec 44) :
    (word top marker index &&& word 0#16 mark 0#44 == 0) = (marker &&& mark == 0) := by
  have zero : (0 : BitVec 64) = word 0#16 0#4 0#44 := by decide
  rw [and_word, and_zero, and_zero, zero, Bool.eq_iff_iff, beq_iff_eq, beq_iff_eq, word_inj]
  exact ⟨fun eq => eq.2.1, fun eq => ⟨rfl, eq, rfl⟩⟩

theorem payload_eq_zero (top : BitVec 16) (marker : BitVec 4) (index : BitVec 44) :
    (word top marker index &&& payloadMask == 0) = (marker == 0 && index == 0) := by
  have zero : (0 : BitVec 64) = word 0#16 0#4 0#44 := by decide
  have mask : payloadMask = word 0#16 (BitVec.allOnes 4) (BitVec.allOnes 44) := by decide
  rw [mask, and_word, and_zero, and_allOnes, and_allOnes, zero, Bool.eq_iff_iff, beq_iff_eq,
    Bool.and_eq_true, beq_iff_eq, beq_iff_eq, word_inj]
  exact ⟨fun eq => eq.2, fun eq => ⟨rfl, eq⟩⟩

theorem boxed_word (tag : BitVec 3) (marker : BitVec 4) (index : BitVec 44) :
    nanBits ||| (tag.setWidth 64 <<< tagShift) ||| word 0#16 marker index = word (header tag) marker index := by
  have top : nanBits ||| (tag.setWidth 64 <<< tagShift) = word (header tag) 0#4 0#44 := by
    revert tag
    decide
  rw [top, or_word, or_zero, zero_or, zero_or]

theorem payload_word (top : BitVec 16) (marker : BitVec 4) (index : BitVec 44) :
    word top marker index &&& payloadMask = word 0#16 marker index := by
  have mask : payloadMask = word 0#16 (BitVec.allOnes 4) (BitVec.allOnes 44) := by decide
  rw [mask, and_word, and_zero, and_allOnes, and_allOnes]

theorem index_word (top : BitVec 16) (marker : BitVec 4) (index : BitVec 44) :
    word top marker index &&& boxedIntIndexMask = word 0#16 0#4 index := by
  have mask : boxedIntIndexMask = word 0#16 0#4 (BitVec.allOnes 44) := by decide
  rw [mask, and_word, and_zero, and_zero, and_allOnes]

theorem long_index_word (top : BitVec 16) (marker : BitVec 4) (index : BitVec 44) :
    word top marker index &&& refIndexMask = word 0#16 (marker &&& 0x1#4) index := by
  have mask : refIndexMask = word 0#16 0x1#4 (BitVec.allOnes 44) := by decide
  rw [mask, and_word, and_zero, and_allOnes]

namespace Value

theorem isFloat_word (top : BitVec 16) (marker : BitVec 4) (index : BitVec 44) :
    (⟨word top marker index⟩ : Value).isFloat = (top &&& 0xFFF8#16 != 0x7FF8#16) := by
  have mask : 0xFFF8_0000_0000_0000#64 = word 0xFFF8#16 0#4 0#44 := by decide
  have pat : 0x7FF8_0000_0000_0000#64 = word 0x7FF8#16 0#4 0#44 := by decide
  unfold isFloat bne
  rw [mask, pat, and_word, and_zero, and_zero]
  congr 1
  rw [Bool.eq_iff_iff, beq_iff_eq, beq_iff_eq, word_inj]
  exact ⟨fun eq => eq.1, fun eq => ⟨eq, rfl, rfl⟩⟩

theorem tag_word (tag : BitVec 3) (marker : BitVec 4) (index : BitVec 44) :
    (⟨word (header tag) marker index⟩ : Value).tag = some (tag.setWidth 8) := by
  have mask : tagMask = word 7#16 0#4 0#44 := by decide
  have boxed : (header tag &&& 0xFFF8#16 != 0x7FF8#16) = false := by
    revert tag
    decide
  have low : (header tag &&& 7#16).setWidth 8 = tag.setWidth 8 := by
    revert tag
    decide
  unfold Value.tag
  rw [isFloat_word, boxed]
  show some (((word (header tag) marker index &&& tagMask) >>> 48).setWidth 8) = _
  rw [mask, and_word, and_zero, and_zero, header_shift, low]

theorem tagged_word (tag other : BitVec 3) (marker : BitVec 4) (index : BitVec 44) :
    (⟨word (header tag) marker index⟩ : Value).tagged (other.setWidth 64) = (tag == other) := by
  unfold tagged
  rw [tag_word, setWidth_setWidth_of_le _ (by decide)]
  revert tag other
  decide

theorem tagPointer_eq : tagPointer = (0 : BitVec 3).setWidth 64 := by decide
theorem tagInteger_eq : tagInteger = (1 : BitVec 3).setWidth 64 := by decide
theorem tagBoolean_eq : tagBoolean = (2 : BitVec 3).setWidth 64 := by decide
theorem tagUnit_eq : tagUnit = (3 : BitVec 3).setWidth 64 := by decide
theorem tagSmallString_eq : tagSmallString = (4 : BitVec 3).setWidth 64 := by decide
theorem tagTypeRef_eq : tagTypeRef = (5 : BitVec 3).setWidth 64 := by decide
theorem tagFuncRef_eq : tagFuncRef = (6 : BitVec 3).setWidth 64 := by decide
theorem tagNan_eq : tagNan = (7 : BitVec 3).setWidth 64 := by decide

theorem specialValueMarker_eq : specialValueMarker = word 0#16 0x8#4 0#44 := by decide
theorem cbgrRegrefMarker_eq : cbgrRegrefMarker = word 0#16 0x8#4 0#44 := by decide
theorem boxedIntMarker_eq : boxedIntMarker = word 0#16 0xC#4 0#44 := by decide
theorem boxedIntSubMarker_eq : boxedIntSubMarker = word 0#16 0x4#4 0#44 := by decide
theorem fatRefSubMarker_eq : fatRefSubMarker = word 0#16 0x2#4 0#44 := by decide
theorem thinRefSubMarker_eq : thinRefSubMarker = word 0#16 0x2#4 0#44 := by decide
theorem thinRefMarker_eq : thinRefMarker = word 0#16 0xA#4 0#44 := by decide
theorem fatRefMarker_eq : fatRefMarker = word 0#16 0xE#4 0#44 := by decide
theorem boxedI128WidthBit_eq : boxedI128WidthBit = word 0#16 0x1#4 0#44 := by decide
theorem slotRefBit_eq : slotRefBit = word 0#16 0x1#4 0#44 := by decide

variable (tag : BitVec 3) (marker : BitVec 4) (index : BitVec 44)

theorem isInlineInt_word : (⟨word (header tag) marker index⟩ : Value).isInlineInt = (tag == 1) := by
  unfold isInlineInt
  rw [tagInteger_eq, tagged_word]

theorem isBoxedInt_word : (⟨word (header tag) marker index⟩ : Value).isBoxedInt =
    (tag == 0 && marker &&& 0xC#4 == 0xC#4 && marker &&& 0x2#4 == 0 && marker &&& 0x1#4 == 0) := by
  unfold isBoxedInt
  rw [tagPointer_eq, tagged_word, boxedIntMarker_eq, mask_eq, fatRefSubMarker_eq, mask_eq_zero,
    boxedI128WidthBit_eq, mask_eq_zero]

theorem isBoxedI128_word : (⟨word (header tag) marker index⟩ : Value).isBoxedI128 =
    (tag == 0 && marker &&& 0xC#4 == 0xC#4 && marker &&& 0x2#4 == 0 && marker &&& 0x1#4 != 0) := by
  unfold isBoxedI128 bne
  rw [tagPointer_eq, tagged_word, boxedIntMarker_eq, mask_eq, fatRefSubMarker_eq, mask_eq_zero,
    boxedI128WidthBit_eq, mask_eq_zero]

theorem isThinRef_word : (⟨word (header tag) marker index⟩ : Value).isThinRef =
    (tag == 0 && marker &&& 0xA#4 == 0xA#4 && marker &&& 0x4#4 == 0) := by
  unfold isThinRef
  rw [tagPointer_eq, tagged_word, thinRefMarker_eq, mask_eq, boxedIntSubMarker_eq, mask_eq_zero]

theorem isProjectedSlot_word : (⟨word (header tag) marker index⟩ : Value).isProjectedSlot =
    (tag == 0 && marker &&& 0xA#4 == 0xA#4 && marker &&& 0x4#4 == 0 && marker &&& 0x1#4 != 0) := by
  unfold isProjectedSlot bne
  rw [isThinRef_word, slotRefBit_eq, mask_eq_zero]

theorem isFatRef_word : (⟨word (header tag) marker index⟩ : Value).isFatRef =
    (tag == 0 && marker &&& 0xE#4 == 0xE#4) := by
  unfold isFatRef
  rw [tagPointer_eq, tagged_word, fatRefMarker_eq, mask_eq]

theorem isPtr_word : (⟨word (header tag) marker index⟩ : Value).isPtr = (tag == 0 &&
    !(tag == 0 && marker &&& 0xC#4 == 0xC#4 && marker &&& 0x2#4 == 0 && marker &&& 0x1#4 == 0) &&
    !(tag == 0 && marker &&& 0xC#4 == 0xC#4 && marker &&& 0x2#4 == 0 && marker &&& 0x1#4 != 0) &&
    !(tag == 0 && marker &&& 0xA#4 == 0xA#4 && marker &&& 0x4#4 == 0 && marker &&& 0x1#4 != 0)) := by
  unfold isPtr
  rw [isBoxedInt_word, isBoxedI128_word, isProjectedSlot_word, tagPointer_eq, tagged_word]

theorem isGenerator_word : (⟨word (header tag) marker index⟩ : Value).isGenerator =
    (tag == 0 && marker &&& 0x8#4 != 0 && marker &&& 0x4#4 == 0 && marker &&& 0x2#4 == 0) := by
  unfold isGenerator bne
  rw [tagPointer_eq, tagged_word, specialValueMarker_eq, mask_eq_zero, boxedIntSubMarker_eq, mask_eq_zero,
    thinRefSubMarker_eq, mask_eq_zero]

/-- The answers for a tag, the marker bits and whether the payload is zero. -/
def kindsOf (tag : BitVec 3) (marker : BitVec 4) (zero : Bool) : List Bool :=
  let pointer := tag == 0
  let narrow := pointer && marker &&& 0xC#4 == 0xC#4 && marker &&& 0x2#4 == 0 && marker &&& 0x1#4 == 0
  let wide := pointer && marker &&& 0xC#4 == 0xC#4 && marker &&& 0x2#4 == 0 && marker &&& 0x1#4 != 0
  let thin := pointer && marker &&& 0xA#4 == 0xA#4 && marker &&& 0x4#4 == 0
  let slot := thin && marker &&& 0x1#4 != 0
  let nil := pointer && !narrow && !wide && !slot && zero
  [false, tag == 7, tag == 1, narrow, wide, tag == 2, tag == 3 && zero, tag == 3 && marker &&& 0x8#4 != 0,
    tag == 4, tag == 5, tag == 6,
    pointer && marker &&& 0x8#4 != 0 && marker &&& 0x4#4 == 0 && marker &&& 0x2#4 == 0, thin && !slot, slot,
    pointer && marker &&& 0xE#4 == 0xE#4, nil, pointer && marker &&& 0x8#4 == 0 && !nil]

theorem kinds_word :
    (⟨word (header tag) marker index⟩ : Value).kinds = kindsOf tag marker (marker == 0 && index == 0) := by
  have boxed : (header tag &&& 0xFFF8#16 == 0x7FF8#16) = true := by
    revert tag
    decide
  simp only [kinds, kindsOf, isNanFloat, isBool, isUnit, isCbgrRegref, isPtr, isNil, isSmallString, isTypeRef,
    isFuncRef, isGenerator, isRegularPtr, isFloat_word, isInlineInt_word, isBoxedInt_word, isBoxedI128_word,
    isThinRef_word, isProjectedSlot_word, isFatRef_word, tagPointer_eq, tagBoolean_eq, tagUnit_eq,
    tagSmallString_eq, tagTypeRef_eq, tagFuncRef_eq, tagNan_eq, specialValueMarker_eq, cbgrRegrefMarker_eq,
    boxedIntSubMarker_eq, thinRefSubMarker_eq, tagged_word, bne, boxed, mask_eq_zero, payload_eq_zero,
    Bool.not_true]

theorem kindsOf_once : ∀ tag marker rest, (kindsOf tag marker (marker == 0 && rest)).count true = 1 ↔
    ¬ (tag = 3 ∧ marker &&& 0x8#4 = 0 ∧ (marker == 0 && rest) = false) := by
  decide

theorem untagged_of_float {v : Value} (float : v.isFloat = true) (tag : BitVec 64) :
    v.tagged tag = false := by
  unfold tagged Value.tag
  rw [if_pos float]
  rfl

theorem kinds_float {v : Value} (float : v.isFloat = true) : v.kinds.count true = 1 := by
  simp [kinds, isNanFloat, isInlineInt, isBoxedInt, isBoxedI128, isBool, isUnit, isCbgrRegref, isThinRef,
    isProjectedSlot, isPtr, isNil, isSmallString, isTypeRef, isFuncRef, isGenerator, isFatRef, isRegularPtr,
    untagged_of_float float, float]

theorem exists_tagged {v : Value} (tagged : v.isFloat = false) :
    ∃ tag marker index, v = ⟨word (header tag) marker index⟩ := by
  rcases exists_word v.bits with ⟨top, marker, index, split⟩
  have eq : v = ⟨word top marker index⟩ := by
    rw [← split]
  rw [eq, isFloat_word, bne_eq_false_iff_eq] at tagged
  rcases exists_header tagged with ⟨tag, rfl⟩
  exact ⟨tag, marker, index, eq⟩

end Value

end NanBox
