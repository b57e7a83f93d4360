import Verum.Vbc.TypeRef
import Mathlib.Data.BitVec

namespace NanBox

open Vbc

def nanBits : BitVec 64 := 0x7FF8_0000_0000_0000#64

def tagMask : BitVec 64 := 0x0007_0000_0000_0000#64

def tagShift : Nat := 48

def payloadMask : BitVec 64 := 0x0000_FFFF_FFFF_FFFF#64

def tagPointer : BitVec 64 := 0x0#64
def tagInteger : BitVec 64 := 0x1#64
def tagBoolean : BitVec 64 := 0x2#64
def tagUnit : BitVec 64 := 0x3#64
def tagSmallString : BitVec 64 := 0x4#64
def tagTypeRef : BitVec 64 := 0x5#64
def tagFuncRef : BitVec 64 := 0x6#64
def tagNan : BitVec 64 := 0x7#64

def maxSmallInt : Int64 := ((1 : Int64) <<< 47) - 1

def minSmallInt : Int64 := -((1 : Int64) <<< 47)

def specialValueMarker : BitVec 64 := 1#64 <<< 47

def generatorMarker : BitVec 64 := specialValueMarker

def boxedIntSubMarker : BitVec 64 := 1#64 <<< 46

def boxedIntMarker : BitVec 64 := specialValueMarker ||| boxedIntSubMarker

def generatorIdMask : BitVec 64 := (1#64 <<< 45) - 1

def boxedIntIndexMask : BitVec 64 := (1#64 <<< 44) - 1

def boxedI128WidthBit : BitVec 64 := 1#64 <<< 44

def thinRefSubMarker : BitVec 64 := 1#64 <<< 45

def thinRefMarker : BitVec 64 := specialValueMarker ||| thinRefSubMarker

def fatRefSubMarker : BitVec 64 := 1#64 <<< 45

def fatRefMarker : BitVec 64 := specialValueMarker ||| boxedIntSubMarker ||| fatRefSubMarker

def refIndexMask : BitVec 64 := (1#64 <<< 45) - 1

def slotRefBit : BitVec 64 := 1#64 <<< 44

def thinIndexMask : BitVec 64 := slotRefBit - 1

def cbgrRegrefMarker : BitVec 64 := 1#64 <<< 47

def cbgrRegrefMutBit : BitVec 64 := 1#64 <<< 46

def cbgrRegrefAbsBits : Nat := 24

def cbgrRegrefGenBits : Nat := 22

def cbgrRegrefAbsMask : BitVec 64 := (1#64 <<< cbgrRegrefAbsBits) - 1

def cbgrRegrefGenMask : BitVec 64 := (1#64 <<< cbgrRegrefGenBits) - 1

def cbgrRegrefGenShift : Nat := cbgrRegrefAbsBits

structure ThinRef where
  ptr : BitVec 64
  generation : UInt32
  epochCaps : UInt32
  deriving DecidableEq

structure FatRef where
  thin : ThinRef
  metadata : BitVec 64
  offset : UInt32
  reserved : UInt32
  deriving DecidableEq

/-- The tables shared by all values; a 128-bit entry is paired with its signedness. -/
structure Tables where
  boxedInts : List Int64
  boxedI128s : List (BitVec 128 × Bool)
  thinRefs : List ThinRef
  fatRefs : List FatRef

structure SmallString where
  bytes : List (BitVec 8)
  len : Nat
  deriving DecidableEq

def SmallString.asBytes (text : SmallString) : List (BitVec 8) := text.bytes.take text.len

structure Value where
  bits : BitVec 64
  deriving DecidableEq

namespace Value

def fromF64 (bits : BitVec 64) : Value :=
  let isNan := (bits &&& 0x7FF0_0000_0000_0000#64) == 0x7FF0_0000_0000_0000#64
    && (bits &&& 0x000F_FFFF_FFFF_FFFF#64) != 0
  if isNan then ⟨nanBits ||| (tagNan <<< tagShift) ||| (bits &&& payloadMask)⟩ else ⟨bits⟩

def fromI64Boxed (i : Int64) (tables : Tables) : Value × Tables :=
  let index := BitVec.ofNat 64 tables.boxedInts.length
  if index > boxedIntIndexMask then
    (⟨nanBits ||| (tagInteger <<< tagShift) ||| (index &&& boxedIntIndexMask)⟩, tables)
  else
    (⟨nanBits ||| (tagPointer <<< tagShift) ||| boxedIntMarker ||| index⟩,
      { tables with boxedInts := tables.boxedInts ++ [i] })

def fromI64 (i : Int64) (tables : Tables) : Value × Tables :=
  if minSmallInt ≤ i ∧ i ≤ maxSmallInt then
    (⟨nanBits ||| (tagInteger <<< tagShift) ||| (i.toBitVec &&& payloadMask)⟩, tables)
  else fromI64Boxed i tables

def fromI128RawSigned (raw : BitVec 128) (signed : Bool) (tables : Tables) : Value × Tables :=
  let index := BitVec.ofNat 64 tables.boxedI128s.length
  if index > boxedIntIndexMask then
    (⟨nanBits ||| (tagPointer <<< tagShift) ||| boxedIntMarker ||| boxedI128WidthBit |||
      (index &&& boxedIntIndexMask)⟩, tables)
  else
    (⟨nanBits ||| (tagPointer <<< tagShift) ||| boxedIntMarker ||| boxedI128WidthBit ||| index⟩,
      { tables with boxedI128s := tables.boxedI128s ++ [(raw, signed)] })

def fromI128 (i : BitVec 128) : Tables → Value × Tables := fromI128RawSigned i true

def fromU128 (u : BitVec 128) : Tables → Value × Tables := fromI128RawSigned u false

def fromBool (b : Bool) : Value := ⟨nanBits ||| (tagBoolean <<< tagShift) ||| (BitVec.ofBool b).setWidth 64⟩

def unit : Value := ⟨nanBits ||| (tagUnit <<< tagShift)⟩

def fromPtr (addr : BitVec 64) : Value := ⟨nanBits ||| (tagPointer <<< tagShift) ||| addr⟩

def nil : Value := fromPtr 0

/-- Text with a NUL or with more than six bytes has no inline form. -/
def fromSmallString (bytes : List (BitVec 8)) : Option Value :=
  if bytes.length > 6 || bytes.contains 0 then none
  else
    let payload := bytes.zipIdx.foldl (fun payload (entry : BitVec 8 × Nat) =>
      payload ||| (entry.1.setWidth 64 <<< (entry.2 * 8))) 0
    some ⟨nanBits ||| (tagSmallString <<< tagShift) ||| payload⟩

def fromType (typeId : TypeId) : Value :=
  ⟨nanBits ||| (tagTypeRef <<< tagShift) ||| typeId.id.toBitVec.setWidth 64⟩

def fromFunction (funcId : FunctionId) : Value :=
  ⟨nanBits ||| (tagFuncRef <<< tagShift) ||| funcId.id.toBitVec.setWidth 64⟩

def fromGenerator (generatorId : BitVec 64) : Value :=
  ⟨nanBits ||| (tagPointer <<< tagShift) ||| generatorMarker ||| (generatorId &&& generatorIdMask)⟩

def fromThinRef (thinRef : ThinRef) (tables : Tables) : Value × Tables :=
  let index := BitVec.ofNat 64 tables.thinRefs.length
  if index > thinIndexMask then (nil, tables)
  else
    (⟨nanBits ||| (tagPointer <<< tagShift) ||| thinRefMarker ||| index⟩,
      { tables with thinRefs := tables.thinRefs ++ [thinRef] })

def projectedSlot (id : BitVec 64) : Option Value :=
  if id ≤ thinIndexMask then
    some ⟨nanBits ||| (tagPointer <<< tagShift) ||| thinRefMarker ||| slotRefBit ||| id⟩
  else none

def fromFatRef (fatRef : FatRef) (tables : Tables) : Value × Tables :=
  let index := BitVec.ofNat 64 tables.fatRefs.length
  if index > refIndexMask then (nil, tables)
  else
    (⟨nanBits ||| (tagPointer <<< tagShift) ||| fatRefMarker ||| index⟩,
      { tables with fatRefs := tables.fatRefs ++ [fatRef] })

def cbgrRegref (absIndex generation : BitVec 32) (isMutable : Bool) : Value :=
  let abs := absIndex.setWidth 64 &&& cbgrRegrefAbsMask
  let genField := (generation.setWidth 64 &&& cbgrRegrefGenMask) <<< cbgrRegrefGenShift
  let mutBit := if isMutable then cbgrRegrefMutBit else 0
  ⟨nanBits ||| (tagUnit <<< tagShift) ||| cbgrRegrefMarker ||| mutBit ||| genField ||| abs⟩

variable (value : Value)

def isFloat : Bool := (value.bits &&& 0xFFF8_0000_0000_0000#64) != 0x7FF8_0000_0000_0000#64

def tag : Option (BitVec 8) :=
  if value.isFloat then none else some (((value.bits &&& tagMask) >>> tagShift).setWidth 8)

def tagged (tag : BitVec 64) : Bool := value.tag == some (tag.setWidth 8)

def isNanFloat : Bool := value.tagged tagNan

def isInlineInt : Bool := value.tagged tagInteger

def isBoxedInt : Bool :=
  value.tagged tagPointer
    && (value.bits &&& boxedIntMarker) == boxedIntMarker
    && (value.bits &&& fatRefSubMarker) == 0
    && (value.bits &&& boxedI128WidthBit) == 0

def isBoxedI128 : Bool :=
  value.tagged tagPointer
    && (value.bits &&& boxedIntMarker) == boxedIntMarker
    && (value.bits &&& fatRefSubMarker) == 0
    && (value.bits &&& boxedI128WidthBit) != 0

def isInt : Bool := value.isInlineInt || value.isBoxedInt || value.isBoxedI128

def isBool : Bool := value.tagged tagBoolean

def isUnit : Bool := value.tagged tagUnit && (value.bits &&& payloadMask) == 0

def isCbgrRegref : Bool := value.tagged tagUnit && (value.bits &&& cbgrRegrefMarker) != 0

def isThinRef : Bool :=
  value.tagged tagPointer
    && (value.bits &&& thinRefMarker) == thinRefMarker
    && (value.bits &&& boxedIntSubMarker) == 0

def isProjectedSlot : Bool := value.isThinRef && (value.bits &&& slotRefBit) != 0

def isPtr : Bool := value.tagged tagPointer && !value.isBoxedInt && !value.isBoxedI128 && !value.isProjectedSlot

def isNil : Bool := value.isPtr && (value.bits &&& payloadMask) == 0

def isSmallString : Bool := value.tagged tagSmallString

def isTypeRef : Bool := value.tagged tagTypeRef

def isFuncRef : Bool := value.tagged tagFuncRef

def isGenerator : Bool :=
  value.tagged tagPointer
    && (value.bits &&& specialValueMarker) != 0
    && (value.bits &&& boxedIntSubMarker) == 0
    && (value.bits &&& thinRefSubMarker) == 0

def isFatRef : Bool := value.tagged tagPointer && (value.bits &&& fatRefMarker) == fatRefMarker

def isRegularPtr : Bool := value.tagged tagPointer && (value.bits &&& specialValueMarker) == 0 && !value.isNil

def inlineInt : Int64 := (Int64.ofBitVec (value.bits &&& payloadMask) <<< 16) >>> 16

def i128Bits (tables : Tables) : BitVec 128 :=
  match tables.boxedI128s[(value.bits &&& boxedIntIndexMask).toNat]? with
  | some entry => entry.1
  | none => 0

def asI64 (tables : Tables) : Int64 :=
  if value.isBoxedI128 then .ofBitVec ((value.i128Bits tables).setWidth 64)
  else if value.isBoxedInt then
    (tables.boxedInts[(value.bits &&& boxedIntIndexMask).toNat]?).getD 0
  else value.inlineInt

def asI128Raw (tables : Tables) : BitVec 128 :=
  if value.isBoxedI128 then value.i128Bits tables
  else if value.isInt then (value.asI64 tables).toBitVec.signExtend 128
  else 0

def boxedI128IsSigned (tables : Tables) : Bool :=
  if value.isBoxedI128 then
    match tables.boxedI128s[(value.bits &&& boxedIntIndexMask).toNat]? with
    | some entry => entry.2
    | none => true
  else true

/-- `widen` is the conversion of an integer to a float. -/
def asF64 (widen : Int64 → BitVec 64) (tables : Tables) : BitVec 64 :=
  if value.tagged tagNan then value.bits &&& payloadMask ||| 0x7FF8_0000_0000_0000#64
  else if value.isInt then widen (value.asI64 tables)
  else value.bits

def asBool : Bool := (value.bits &&& 1) != 0

def asPtr : BitVec 64 := value.bits &&& payloadMask

/-- The last byte that is not NUL is the last of the text. -/
def asSmallString : SmallString :=
  let payload := value.bits &&& payloadMask
  (List.range 6).foldl (fun text i =>
    let byte := ((payload >>> (i * 8)) &&& 0xFF#64).setWidth 8
    { bytes := text.bytes ++ [byte], len := if byte != 0 then i + 1 else text.len }) ⟨[], 0⟩

def asTypeId : TypeId := ⟨.ofBitVec ((value.bits &&& payloadMask).setWidth 32)⟩

def asFuncId : FunctionId := ⟨.ofBitVec ((value.bits &&& payloadMask).setWidth 32)⟩

def asGeneratorId : BitVec 64 := value.bits &&& generatorIdMask

def tryAsThinRef (tables : Tables) : Option ThinRef :=
  if !value.isThinRef || value.isProjectedSlot then none
  else tables.thinRefs[(value.bits &&& thinIndexMask).toNat]?

def projectionId : Option (BitVec 64) :=
  if value.isProjectedSlot then some (value.bits &&& thinIndexMask) else none

def asFatRef (tables : Tables) : Option FatRef := tables.fatRefs[(value.bits &&& refIndexMask).toNat]?

def cbgrRegrefAbs : BitVec 32 := (value.bits &&& cbgrRegrefAbsMask).setWidth 32

def cbgrRegrefGeneration : BitVec 32 := ((value.bits >>> cbgrRegrefGenShift) &&& cbgrRegrefGenMask).setWidth 32

def cbgrRegrefIsMut : Bool := (value.bits &&& cbgrRegrefMutBit) != 0

def kinds : List Bool :=
  [value.isFloat, value.isNanFloat, value.isInlineInt, value.isBoxedInt, value.isBoxedI128, value.isBool,
    value.isUnit, value.isCbgrRegref, value.isSmallString, value.isTypeRef, value.isFuncRef, value.isGenerator,
    value.isThinRef && !value.isProjectedSlot, value.isProjectedSlot, value.isFatRef, value.isNil,
    value.isRegularPtr]

end Value

end NanBox
