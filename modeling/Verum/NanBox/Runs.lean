import Verum.NanBox.Decoding

open List

namespace NanBox

open Vbc

/-- The constructors of values. -/
inductive Call where
  | fromF64 (bits : BitVec 64)
  | fromI64 (i : Int64)
  | fromI128 (i : BitVec 128)
  | fromU128 (u : BitVec 128)
  | fromBool (b : Bool)
  | unit
  | fromPtr (addr : BitVec 64)
  | fromSmallString (bytes : List (BitVec 8))
  | fromType (typeId : TypeId)
  | fromFunction (funcId : FunctionId)
  | fromGenerator (generatorId : BitVec 64)
  | fromThinRef (thinRef : ThinRef)
  | projectedSlot (id : BitVec 64)
  | fromFatRef (fatRef : FatRef)
  | cbgrRegref (absIndex generation : BitVec 32) (isMutable : Bool)

/-- Each table holds fewer entries than an index can tell apart. -/
structure Tables.Within (tables : Tables) : Prop where
  boxedInts : tables.boxedInts.length < 2 ^ 44
  boxedI128s : tables.boxedI128s.length < 2 ^ 44
  thinRefs : tables.thinRefs.length < 2 ^ 44
  fatRefs : tables.fatRefs.length < 2 ^ 44

namespace Call

def perform (tables : Tables) : Call → Option Value × Tables
  | fromF64 bits => (some (.fromF64 bits), tables)
  | fromI64 i => let (value, tables) := Value.fromI64 i tables; (some value, tables)
  | fromI128 i => let (value, tables) := Value.fromI128 i tables; (some value, tables)
  | fromU128 u => let (value, tables) := Value.fromU128 u tables; (some value, tables)
  | fromBool b => (some (.fromBool b), tables)
  | unit => (some .unit, tables)
  | fromPtr addr => (some (.fromPtr addr), tables)
  | fromSmallString bytes => (Value.fromSmallString bytes, tables)
  | fromType typeId => (some (.fromType typeId), tables)
  | fromFunction funcId => (some (.fromFunction funcId), tables)
  | fromGenerator generatorId => (some (.fromGenerator generatorId), tables)
  | fromThinRef thinRef => let (value, tables) := Value.fromThinRef thinRef tables; (some value, tables)
  | projectedSlot id => (Value.projectedSlot id, tables)
  | fromFatRef fatRef => let (value, tables) := Value.fromFatRef fatRef tables; (some value, tables)
  | cbgrRegref absIndex generation isMutable => (some (.cbgrRegref absIndex generation isMutable), tables)

def Allowed : Call → Prop
  | fromF64 bits => ¬ (bits &&& 0x7FF0_0000_0000_0000#64 = 0x7FF0_0000_0000_0000#64 ∧
      bits &&& 0x000F_FFFF_FFFF_FFFF#64 ≠ 0)
  | fromPtr addr => addr.toNat < 2 ^ 47
  | fromGenerator generatorId => generatorId.toNat < 2 ^ 45
  | cbgrRegref absIndex _ _ => absIndex.toNat < 2 ^ 24
  | _ => True

/-- The value is read back as what it was made from; a generation is kept modulo 2^22. -/
def Decodes (tables : Tables) (value : Value) : Call → Prop
  | fromF64 bits => value.isFloat = true ∧ ∀ widen, value.asF64 widen tables = bits
  | fromI64 i => value.isInt = true ∧ value.asI64 tables = i
  | fromI128 i => value.isInt = true ∧ value.asI128Raw tables = i ∧ value.boxedI128IsSigned tables = true
  | fromU128 u => value.isInt = true ∧ value.asI128Raw tables = u ∧ value.boxedI128IsSigned tables = false
  | fromBool b => value.isBool = true ∧ value.asBool = b
  | unit => value.isUnit = true
  | fromPtr addr => value.isPtr = true ∧ value.asPtr = addr
  | fromSmallString bytes => value.isSmallString = true ∧ value.asSmallString.asBytes = bytes
  | fromType typeId => value.isTypeRef = true ∧ value.asTypeId = typeId
  | fromFunction funcId => value.isFuncRef = true ∧ value.asFuncId = funcId
  | fromGenerator generatorId => value.isGenerator = true ∧ value.asGeneratorId = generatorId
  | fromThinRef thinRef => value.tryAsThinRef tables = some thinRef
  | projectedSlot id => value.projectionId = some id
  | fromFatRef fatRef => value.isFatRef = true ∧ value.asFatRef tables = some fatRef
  | cbgrRegref absIndex generation isMutable => value.isCbgrRegref = true ∧ value.cbgrRegrefAbs = absIndex ∧
      value.cbgrRegrefGeneration = generation % 0x400000#32 ∧ value.cbgrRegrefIsMut = isMutable

end Call

def run (tables : Tables) : List Call → List (Call × Value) × Tables
  | [] => ([], tables)
  | call :: calls =>
    let (value, later) := call.perform tables
    let (values, last) := run later calls
    (value.toList.map (call, ·) ++ values, last)

/-- The tables only grow. -/
structure Tables.Extends (later tables : Tables) : Prop where
  boxedInts : tables.boxedInts <+: later.boxedInts
  boxedI128s : tables.boxedI128s <+: later.boxedI128s
  thinRefs : tables.thinRefs <+: later.thinRefs
  fatRefs : tables.fatRefs <+: later.fatRefs

namespace Tables.Extends

variable {tables later last : Tables}

theorem refl (tables : Tables) : tables.Extends tables :=
  ⟨prefix_rfl, prefix_rfl, prefix_rfl, prefix_rfl⟩

theorem trans (fst : later.Extends tables) (snd : last.Extends later) : last.Extends tables :=
  ⟨fst.boxedInts.trans snd.boxedInts, fst.boxedI128s.trans snd.boxedI128s,
    fst.thinRefs.trans snd.thinRefs, fst.fatRefs.trans snd.fatRefs⟩

theorem within (grows : later.Extends tables) (within : later.Within) : tables.Within :=
  ⟨grows.boxedInts.length_le.trans_lt within.boxedInts, grows.boxedI128s.length_le.trans_lt within.boxedI128s,
    grows.thinRefs.length_le.trans_lt within.thinRefs, grows.fatRefs.length_le.trans_lt within.fatRefs⟩

end Tables.Extends

theorem Call.perform_extends (tables : Tables) (call : Call) : (call.perform tables).2.Extends tables := by
  have same := Tables.Extends.refl tables
  cases call with
  | fromI64 i =>
    show (Value.fromI64 i tables).2.Extends tables
    unfold Value.fromI64 Value.fromI64Boxed
    dsimp only
    split
    · exact same
    split
    · exact same
    · exact { same with boxedInts := prefix_append .. }
  | fromI128 i =>
    show (Value.fromI128RawSigned i true tables).2.Extends tables
    unfold Value.fromI128RawSigned
    dsimp only
    split
    · exact same
    · exact { same with boxedI128s := prefix_append .. }
  | fromU128 u =>
    show (Value.fromI128RawSigned u false tables).2.Extends tables
    unfold Value.fromI128RawSigned
    dsimp only
    split
    · exact same
    · exact { same with boxedI128s := prefix_append .. }
  | fromThinRef thinRef =>
    show (Value.fromThinRef thinRef tables).2.Extends tables
    unfold Value.fromThinRef
    dsimp only
    split
    · exact same
    · exact { same with thinRefs := prefix_append .. }
  | fromFatRef fatRef =>
    show (Value.fromFatRef fatRef tables).2.Extends tables
    unfold Value.fromFatRef
    dsimp only
    split
    · exact same
    · exact { same with fatRefs := prefix_append .. }
  | _ => exact same

theorem run_extends (calls : List Call) (tables : Tables) : (run tables calls).2.Extends tables := by
  induction calls generalizing tables with
  | nil => exact .refl tables
  | cons call calls ih => exact (call.perform_extends tables).trans (ih _)

variable {n : Nat}

theorem exists_place (small : n < 2 ^ 44) :
    ∃ idx : BitVec 44, BitVec.ofNat 64 n = word 0#16 0#4 idx ∧ (word 0#16 0#4 idx).toNat = n := by
  have value : (BitVec.ofNat 64 n).toNat = n := by
    rw [BitVec.toNat_ofNat]
    omega
  rcases exists_index (BitVec.ofNat 64 n) (by omega) with ⟨idx, same⟩
  exact ⟨idx, same, same ▸ value⟩

theorem place_le (small : n < 2 ^ 44) : ¬ BitVec.ofNat 64 n > boxedIntIndexMask := by
  intro above
  have compare := BitVec.lt_def.mp above
  rw [show boxedIntIndexMask.toNat = 2 ^ 44 - 1 from rfl, BitVec.toNat_ofNat] at compare
  omega

namespace Value

variable {tables later : Tables}
variable {bits : BitVec 64} {value : Value}

theorem fromF64_eq (num : (Call.fromF64 bits).Allowed) : fromF64 bits = ⟨bits⟩ := by
  unfold fromF64
  have plain : ((bits &&& 0x7FF0_0000_0000_0000#64) == 0x7FF0_0000_0000_0000#64
      && (bits &&& 0x000F_FFFF_FFFF_FFFF#64) != 0) = false := by
    rw [Bool.eq_false_iff, Ne, Bool.and_eq_true, beq_iff_eq, bne_iff_ne]
    exact num
  dsimp only
  rw [plain, if_neg Bool.false_ne_true]

theorem isFloat_fromF64 (num : (Call.fromF64 bits).Allowed) : (fromF64 bits).isFloat = true := by
  rw [fromF64_eq num]
  by_contra boxed
  rcases exists_tagged (Bool.eq_false_iff.mpr boxed) with ⟨tag, mk, idx, same⟩
  have split : bits = word (header tag) mk idx := congrArg Value.bits same
  have exponent : 0x7FF0_0000_0000_0000#64 = word 0x7FF0#16 0#4 0#44 := by decide
  have mantissa : 0x000F_FFFF_FFFF_FFFF#64 = word 0x000F#16 (BitVec.allOnes 4) (BitVec.allOnes 44) := by decide
  apply num
  rw [split, exponent, mantissa, and_word, and_word, BitVec.and_zero, BitVec.and_zero]
  constructor
  · have full : header tag &&& 0x7FF0#16 = 0x7FF0#16 := by
      clear split same
      revert tag
      decide
    rw [full]
  · have quiet : header tag &&& 0x000F#16 ≠ 0#16 := by
      clear split same
      revert tag
      decide
    intro zero
    have parts : word (header tag &&& 0x000F#16) (mk &&& BitVec.allOnes 4) (idx &&& BitVec.allOnes 44) =
        word 0#16 0#4 0#44 := zero.trans (by decide)
    exact quiet (word_inj.mp parts).1

theorem isInt_of_float (float : value.isFloat = true) : value.isInt = false := by
  unfold isInt isInlineInt isBoxedInt isBoxedI128
  simp only [untagged_of_float float, Bool.false_and, Bool.or_self]

theorem fromF64_decodes (num : (Call.fromF64 bits).Allowed) (tables : Tables) :
    (Call.fromF64 bits).Decodes tables (fromF64 bits) ∧ (fromF64 bits).kinds.count true = 1 := by
  have float := isFloat_fromF64 num
  refine ⟨⟨float, fun widen => ?_⟩, kinds_float float⟩
  unfold asF64
  rw [untagged_of_float float, isInt_of_float float, fromF64_eq num]
  rfl

theorem kinds_tagged {tag : BitVec 3} (other : tag ≠ 3) (mk : BitVec 4) (idx : BitVec 44) :
    (⟨word (header tag) mk idx⟩ : Value).kinds.count true = 1 := by
  rw [kinds_word, kindsOf_once]
  exact fun unit => other unit.1

theorem getElem?_of_prefix {α : Type} {es later : List α} {e : α} (grows : es ++ [e] <+: later) :
    later[es.length]? = some e := by
  rcases grows with ⟨rest, rfl⟩
  rw [append_assoc, List.getElem?_append_right (Nat.le_refl _), Nat.sub_self]
  rfl

theorem marked_word (mark : BitVec 4) (idx : BitVec 44) :
    nanBits ||| (tagPointer <<< tagShift) ||| word 0#16 mark 0#44 ||| word 0#16 0#4 idx =
      word (header 0) mark idx := by
  rw [BitVec.or_assoc, or_word, tagPointer_eq, BitVec.or_zero, BitVec.or_zero, BitVec.zero_or, boxed_word]

theorem fromI64_decodes (i : Int64) (room : tables.Within) (grows : later.Extends (fromI64 i tables).2) :
    (Call.fromI64 i).Decodes later (fromI64 i tables).1 ∧ (fromI64 i tables).1.kinds.count true = 1 := by
  revert grows
  unfold fromI64
  split
  · rename_i inline
    intro _
    rcases exists_payload (i.toBitVec &&& payloadMask)
      (by rw [toNat_payload]; exact Nat.mod_lt _ (by decide)) with ⟨mk, idx, same⟩
    have lower : -2 ^ 47 ≤ i.toInt := Int64.le_iff_toInt_le.mp inline.1
    have upper : i.toInt ≤ 2 ^ 47 - 1 := Int64.le_iff_toInt_le.mp inline.2
    dsimp only
    rw [same, tagInteger_eq, boxed_word]
    refine ⟨⟨?_, ?_⟩, kinds_tagged (by decide) ..⟩
    · unfold isInt
      rw [isInlineInt_word]
      rfl
    · unfold asI64
      rw [isBoxedI128_word, isBoxedInt_word]
      exact inlineInt_boxed mk idx lower (by omega) _ same
  · intro grows
    rcases exists_place room.boxedInts with ⟨idx, same, place⟩
    unfold fromI64Boxed at grows ⊢
    dsimp only at grows ⊢
    rw [if_neg (place_le room.boxedInts)] at grows ⊢
    dsimp only
    rw [same, boxedIntMarker_eq, marked_word]
    refine ⟨⟨?_, ?_⟩, kinds_tagged (by decide) ..⟩
    · unfold isInt
      rw [isInlineInt_word, isBoxedInt_word]
      rfl
    · unfold asI64
      rw [isBoxedI128_word, isBoxedInt_word]
      show (later.boxedInts[(word _ _ idx &&& boxedIntIndexMask).toNat]?).getD 0 = i
      rw [index_word, place, getElem?_of_prefix grows.boxedInts]
      rfl

theorem fromI128RawSigned_decodes (raw : BitVec 128) (signed : Bool) (room : tables.Within)
    (grows : later.Extends (fromI128RawSigned raw signed tables).2) :
    ((fromI128RawSigned raw signed tables).1.isInt = true ∧
      (fromI128RawSigned raw signed tables).1.asI128Raw later = raw ∧
      (fromI128RawSigned raw signed tables).1.boxedI128IsSigned later = signed) ∧
    (fromI128RawSigned raw signed tables).1.kinds.count true = 1 := by
  rcases exists_place room.boxedI128s with ⟨idx, same, place⟩
  have marks : boxedIntMarker ||| boxedI128WidthBit = word 0#16 0xD#4 0#44 := by decide
  unfold fromI128RawSigned at grows ⊢
  dsimp only at grows ⊢
  rw [if_neg (place_le room.boxedI128s)] at grows ⊢
  dsimp only
  rw [same, BitVec.or_assoc (nanBits ||| _) boxedIntMarker, marks, marked_word]
  have wide : (⟨word (header 0) 0xD#4 idx⟩ : Value).isBoxedI128 = true := isBoxedI128_word ..
  have e : later.boxedI128s[(word (header 0) 0xD#4 idx &&& boxedIntIndexMask).toNat]? =
      some (raw, signed) := by
    rw [index_word, place]
    exact getElem?_of_prefix grows.boxedI128s
  refine ⟨⟨?_, ?_, ?_⟩, kinds_tagged (by decide) ..⟩
  · unfold isInt
    rw [wide, Bool.or_true]
  · unfold asI128Raw i128Bits
    rw [wide, if_pos rfl, e]
  · unfold boxedI128IsSigned
    rw [wide, if_pos rfl, e]

theorem fromBool_decodes (b : Bool) (tables : Tables) :
    (Call.fromBool b).Decodes tables (fromBool b) ∧ (fromBool b).kinds.count true = 1 := by
  have read : ∀ b, ((fromBool b).isBool = true ∧ (fromBool b).asBool = b) ∧ (fromBool b).kinds.count true = 1 := by
    decide
  exact read b

theorem fromPtr_decodes {addr : BitVec 64} (allowed : (Call.fromPtr addr).Allowed) (tables : Tables) :
    (Call.fromPtr addr).Decodes tables (fromPtr addr) ∧ (fromPtr addr).kinds.count true = 1 := by
  have small : addr.toNat < 2 ^ 47 := allowed
  rcases exists_payload addr (by omega) with ⟨mk, idx, rfl⟩
  rw [toNat_word] at small
  have low : mk.toNat < 8 := by omega
  have boxed : fromPtr (word 0#16 mk idx) = ⟨word (header 0) mk idx⟩ := by
    unfold fromPtr
    rw [tagPointer_eq, boxed_word]
  rw [boxed]
  refine ⟨⟨?_, payload_word ..⟩, kinds_tagged (by decide) ..⟩
  rw [isPtr_word]
  clear small boxed allowed
  revert mk
  decide

theorem fromSmallString_decodes {bytes : List (BitVec 8)} (made : fromSmallString bytes = some value)
    (tables : Tables) : (Call.fromSmallString bytes).Decodes tables value ∧ value.kinds.count true = 1 := by
  unfold fromSmallString at made
  split at made
  · cases made
  · rename_i fits
    rw [Bool.or_eq_true, not_or, decide_eq_true_eq, contains_iff_mem] at fits
    rcases exists_payload (packed bytes) (packed_small bytes (by omega)) with ⟨mk, idx, split⟩
    have loop := foldl_packed bytes 0 0#64
    rw [BitVec.zero_or, Nat.zero_mul, BitVec.shiftLeft_zero] at loop
    have same : value = ⟨word (header 4) mk idx⟩ := by
      have bits : value = ⟨nanBits ||| (tagSmallString <<< tagShift) ||| packed bytes⟩ := by
        rw [← Option.some.inj made, ← loop]
        rfl
      rw [bits, split, tagSmallString_eq, boxed_word]
    have pl : value.bits &&& payloadMask = packed bytes := by
      rw [same, split]
      exact payload_word ..
    refine ⟨⟨?_, asSmallString_packed (by omega) fits.2 pl⟩, ?_⟩
    · rw [same]
      unfold isSmallString
      rw [tagSmallString_eq, tagged_word]
      rfl
    · rw [same]
      exact kinds_tagged (by decide) ..

theorem exists_id (tag : BitVec 3) (id : BitVec 32) : ∃ mk idx,
    nanBits ||| (tag.setWidth 64 <<< tagShift) ||| id.setWidth 64 = word (header tag) mk idx ∧
      (word (header tag) mk idx &&& payloadMask).setWidth 32 = id := by
  have small := id.isLt
  rcases exists_payload (id.setWidth 64) (by rw [BitVec.toNat_setWidth]; omega)
    with ⟨mk, idx, same⟩
  refine ⟨mk, idx, ?_, ?_⟩
  · rw [same, boxed_word]
  · rw [payload_word, ← same, BitVec.setWidth_setWidth_of_le _ (by decide), BitVec.setWidth_eq]

theorem fromType_decodes (typeId : TypeId) (tables : Tables) :
    (Call.fromType typeId).Decodes tables (fromType typeId) ∧ (fromType typeId).kinds.count true = 1 := by
  rcases exists_id 5 typeId.id.toBitVec with ⟨mk, idx, boxed, id⟩
  have same : fromType typeId = ⟨word (header 5) mk idx⟩ := by
    unfold fromType
    rw [tagTypeRef_eq, boxed]
  rw [same]
  refine ⟨⟨?_, ?_⟩, kinds_tagged (by decide) ..⟩
  · unfold isTypeRef
    rw [tagTypeRef_eq, tagged_word]
    rfl
  · unfold asTypeId
    rw [id]

theorem fromFunction_decodes (funcId : FunctionId) (tables : Tables) :
    (Call.fromFunction funcId).Decodes tables (fromFunction funcId) ∧
      (fromFunction funcId).kinds.count true = 1 := by
  rcases exists_id 6 funcId.id.toBitVec with ⟨mk, idx, boxed, id⟩
  have same : fromFunction funcId = ⟨word (header 6) mk idx⟩ := by
    unfold fromFunction
    rw [tagFuncRef_eq, boxed]
  rw [same]
  refine ⟨⟨?_, ?_⟩, kinds_tagged (by decide) ..⟩
  · unfold isFuncRef
    rw [tagFuncRef_eq, tagged_word]
    rfl
  · unfold asFuncId
    rw [id]

theorem fromGenerator_decodes {generatorId : BitVec 64} (allowed : (Call.fromGenerator generatorId).Allowed)
    (tables : Tables) : (Call.fromGenerator generatorId).Decodes tables (fromGenerator generatorId) ∧
      (fromGenerator generatorId).kinds.count true = 1 := by
  have small : generatorId.toNat < 2 ^ 45 := allowed
  rcases exists_payload generatorId (by omega) with ⟨mk, idx, rfl⟩
  rw [toNat_word] at small
  have low : mk.toNat < 2 := by omega
  have kept : mk &&& 0x1#4 = mk := by
    clear small allowed
    revert mk
    decide
  have boxed : fromGenerator (word 0#16 mk idx) = ⟨word (header 0) (0x8#4 ||| mk) idx⟩ := by
    have mask : generatorIdMask = refIndexMask := rfl
    unfold fromGenerator generatorMarker
    rw [mask, long_index_word, kept, specialValueMarker_eq, BitVec.or_assoc, or_word, BitVec.or_zero,
      BitVec.zero_or, tagPointer_eq, boxed_word]
  rw [boxed]
  refine ⟨⟨?_, ?_⟩, kinds_tagged (by decide) ..⟩
  · rw [isGenerator_word]
    clear small kept boxed allowed
    revert mk
    decide
  · have lowest : (0x8#4 ||| mk) &&& 0x1#4 = mk := by
      clear small kept boxed allowed
      revert mk
      decide
    show word (header 0) (0x8#4 ||| mk) idx &&& refIndexMask = _
    rw [long_index_word, lowest]

theorem fromThinRef_decodes (thinRef : ThinRef) (room : tables.Within)
    (grows : later.Extends (fromThinRef thinRef tables).2) :
    (Call.fromThinRef thinRef).Decodes later (fromThinRef thinRef tables).1 ∧
      (fromThinRef thinRef tables).1.kinds.count true = 1 := by
  rcases exists_place room.thinRefs with ⟨idx, same, place⟩
  unfold fromThinRef at grows ⊢
  dsimp only at grows ⊢
  rw [show thinIndexMask = boxedIntIndexMask from rfl, if_neg (place_le room.thinRefs)] at grows ⊢
  dsimp only
  rw [same, thinRefMarker_eq, marked_word]
  refine ⟨?_, kinds_tagged (by decide) ..⟩
  have thin : (⟨word (header 0) 0xA#4 idx⟩ : Value).isThinRef = true := isThinRef_word ..
  have slot : (⟨word (header 0) 0xA#4 idx⟩ : Value).isProjectedSlot = false := isProjectedSlot_word ..
  show tryAsThinRef ⟨word (header 0) 0xA#4 idx⟩ later = some thinRef
  unfold tryAsThinRef
  rw [thin, slot, show thinIndexMask = boxedIntIndexMask from rfl, index_word, place]
  exact getElem?_of_prefix grows.thinRefs

theorem projectedSlot_decodes {id : BitVec 64} (made : projectedSlot id = some value) (tables : Tables) :
    (Call.projectedSlot id).Decodes tables value ∧ value.kinds.count true = 1 := by
  unfold projectedSlot at made
  split at made
  · rename_i fits
    have small := BitVec.le_def.mp fits
    rw [show thinIndexMask.toNat = 2 ^ 44 - 1 from rfl] at small
    rcases exists_index id (by omega) with ⟨idx, rfl⟩
    have marks : thinRefMarker ||| slotRefBit = word 0#16 0xB#4 0#44 := by decide
    rw [BitVec.or_assoc (nanBits ||| _) thinRefMarker, marks, marked_word] at made
    cases made
    refine ⟨?_, kinds_tagged (by decide) ..⟩
    have slot : (⟨word (header 0) 0xB#4 idx⟩ : Value).isProjectedSlot = true := isProjectedSlot_word ..
    show projectionId ⟨word (header 0) 0xB#4 idx⟩ = _
    unfold projectionId
    rw [slot, if_pos rfl, show thinIndexMask = boxedIntIndexMask from rfl, index_word]
  · cases made

theorem fromFatRef_decodes (fatRef : FatRef) (room : tables.Within)
    (grows : later.Extends (fromFatRef fatRef tables).2) :
    (Call.fromFatRef fatRef).Decodes later (fromFatRef fatRef tables).1 ∧
      (fromFatRef fatRef tables).1.kinds.count true = 1 := by
  rcases exists_place room.fatRefs with ⟨idx, same, place⟩
  have fits : ¬ BitVec.ofNat 64 tables.fatRefs.length > refIndexMask := by
    intro above
    have compare := BitVec.lt_def.mp above
    have bound := room.fatRefs
    rw [show refIndexMask.toNat = 2 ^ 45 - 1 from rfl, BitVec.toNat_ofNat] at compare
    omega
  unfold fromFatRef at grows ⊢
  dsimp only at grows ⊢
  rw [if_neg fits] at grows ⊢
  dsimp only
  rw [same, fatRefMarker_eq, marked_word]
  refine ⟨⟨isFatRef_word .., ?_⟩, kinds_tagged (by decide) ..⟩
  show later.fatRefs[(word (header 0) 0xE#4 idx &&& refIndexMask).toNat]? = some fatRef
  rw [long_index_word]
  show later.fatRefs[(word 0#16 0#4 idx).toNat]? = some fatRef
  rw [place]
  exact getElem?_of_prefix grows.fatRefs

theorem cbgrRegref_decodes {absIndex gen : BitVec 32} {isMutable : Bool}
    (allowed : (Call.cbgrRegref absIndex gen isMutable).Allowed) (tables : Tables) :
    (Call.cbgrRegref absIndex gen isMutable).Decodes tables (cbgrRegref absIndex gen isMutable) ∧
      (cbgrRegref absIndex gen isMutable).kinds.count true = 1 := by
  rcases cbgrRegref_word absIndex gen isMutable with ⟨fs, idx, same, -⟩
  have marked : (0x8#4 ||| (if isMutable then 0x4#4 else 0#4) ||| fs) &&& 0x8#4 ≠ 0 := by
    clear same allowed
    revert fs isMutable
    decide
  refine ⟨⟨?_, cbgrRegrefAbs_cbgrRegref gen isMutable allowed,
    cbgrRegrefGeneration_cbgrRegref absIndex gen isMutable,
    cbgrRegrefIsMut_cbgrRegref absIndex gen isMutable⟩, ?_⟩
  · rw [same]
    unfold isCbgrRegref bne
    rw [tagUnit_eq, tagged_word, cbgrRegrefMarker_eq, mask_eq_zero, beq_eq_false_iff_ne.mpr marked]
    rfl
  · rw [same, kinds_word, kindsOf_once]
    exact fun unit => marked unit.2.1

end Value

theorem Call.decodes {tables later : Tables} {call : Call} {value : Value} (allowed : call.Allowed)
    (room : tables.Within) (made : (call.perform tables).1 = some value)
    (grows : later.Extends (call.perform tables).2) :
    call.Decodes later value ∧ value.kinds.count true = 1 := by
  cases call with
  | fromF64 bits =>
    cases made
    exact Value.fromF64_decodes allowed later
  | fromI64 i =>
    cases made
    exact Value.fromI64_decodes i room grows
  | fromI128 i =>
    cases made
    exact Value.fromI128RawSigned_decodes i true room grows
  | fromU128 u =>
    cases made
    exact Value.fromI128RawSigned_decodes u false room grows
  | fromBool b =>
    cases made
    exact Value.fromBool_decodes b later
  | unit =>
    cases made
    exact ⟨(by decide : Value.unit.isUnit = true), by decide⟩
  | fromPtr addr =>
    cases made
    exact Value.fromPtr_decodes allowed later
  | fromSmallString bytes => exact Value.fromSmallString_decodes made later
  | fromType typeId =>
    cases made
    exact Value.fromType_decodes typeId later
  | fromFunction funcId =>
    cases made
    exact Value.fromFunction_decodes funcId later
  | fromGenerator generatorId =>
    cases made
    exact Value.fromGenerator_decodes allowed later
  | fromThinRef thinRef =>
    cases made
    exact Value.fromThinRef_decodes thinRef room grows
  | projectedSlot id => exact Value.projectedSlot_decodes made later
  | fromFatRef fatRef =>
    cases made
    exact Value.fromFatRef_decodes fatRef room grows
  | cbgrRegref absIndex gen isMutable =>
    cases made
    exact Value.cbgrRegref_decodes allowed later

/-- Every value a run returns is read back after the whole run, and has one kind. -/
theorem run_decodes (tables : Tables) (calls : List Call) (allowed : ∀ call ∈ calls, call.Allowed)
    (within : (run tables calls).2.Within) :
    ∀ entry ∈ (run tables calls).1,
      entry.1.Decodes (run tables calls).2 entry.2 ∧ entry.2.kinds.count true = 1 := by
  induction calls generalizing tables with
  | nil => exact nofun
  | cons call calls ih =>
    intro entry member
    have grows : (run tables (call :: calls)).2.Extends (call.perform tables).2 := run_extends calls _
    rcases mem_append.mp member with first | later
    · rcases mem_map.mp first with ⟨value, made, rfl⟩
      have room := ((call.perform_extends tables).trans grows).within within
      exact Call.decodes (allowed call mem_cons_self) room (Option.mem_toList.mp made) grows
    · exact ih _ (fun other inside => allowed other (.tail _ inside)) within entry later

theorem run_decodes_mixed :
    let calls : List Call := [.fromI64 (2 ^ 50), .cbgrRegref 3 0x400005 true, .fromI64 (-7), .unit,
      .fromSmallString [0x68, 0x69], .fromFatRef ⟨⟨8, 1, 2⟩, 4, 0, 0⟩, .fromI64 (2 ^ 60)]
    let (values, last) := run ⟨[], [], [], []⟩ calls
    values.length = 7 ∧ ∀ entry ∈ values, entry.1.Decodes last entry.2 ∧ entry.2.kinds.count true = 1 := by
  intro calls
  refine ⟨by decide, run_decodes ⟨[], [], [], []⟩ calls ?_ ⟨by decide, by decide, by decide, by decide⟩⟩
  intro call member
  simp only [calls, mem_cons, not_mem_nil, or_false] at member
  rcases member with rfl | rfl | rfl | rfl | rfl | rfl | rfl
  all_goals first | exact True.intro | exact (by decide : (3#32).toNat < 2 ^ 24)

/-- A generation of more than 22 bits comes back cut. -/
theorem regref_generation_cut : (Call.cbgrRegref 0 0x400000 false).perform ⟨[], [], [], []⟩ =
      (some (.cbgrRegref 0 0x400000 false), ⟨[], [], [], []⟩) ∧
    (Value.cbgrRegref 0 0x400000 false).cbgrRegrefGeneration = 0 ∧ (0x400000 : BitVec 32) ≠ 0 := by
  exact ⟨rfl, by decide, by decide⟩

end NanBox
