import Verum.Vbc.Encoding
import Mathlib.Data.List.Basic

open List

namespace Vbc

open Wire

structure TypeId where
  id : UInt32
  deriving DecidableEq

structure TypeParamId where
  id : UInt16
  deriving DecidableEq

structure ProtocolId where
  id : UInt32
  deriving DecidableEq

structure ContextRef where
  id : UInt32
  deriving DecidableEq

structure FunctionId where
  id : UInt32
  deriving DecidableEq

inductive Mutability where
  | immutable
  | mutable
  deriving DecidableEq

inductive CbgrTier where
  | tier0
  | tier1
  | tier2
  deriving DecidableEq

structure ProtocolApplication (T : Type) where
  protocol : ProtocolId
  args : List T
  deriving DecidableEq

inductive TypeRef where
  | concrete (id : TypeId)
  | generic (param : TypeParamId)
  | instantiated (base : TypeId) (args : List TypeRef)
  | function (isAsync : Bool) (params : List TypeRef) (returnType : TypeRef) (contexts : List ContextRef)
  | rank2Function (isAsync : Bool) (typeParamCount : UInt16) (params : List TypeRef) (returnType : TypeRef)
      (contexts : List ContextRef)
  | reference (inner : TypeRef) (mutability : Mutability) (tier : CbgrTier)
  | tuple (elems : List TypeRef)
  | array (element : TypeRef) (length : UInt64)
  | slice (inner : TypeRef)
  | associatedProjection (base : TypeRef) (qualifier : Option (ProtocolApplication TypeRef)) (assoc : String)
      (args : List TypeRef)
  | constValue (value : Int64)
  | recordFieldProjection (owner : TypeId) (ordinal : UInt32)

def maxTypeApplicationArguments : Nat := 64

def Mutability.toByte : Mutability → UInt8
  | .immutable => 0
  | .mutable => 1

def CbgrTier.toByte : CbgrTier → UInt8
  | .tier0 => 0
  | .tier1 => 1
  | .tier2 => 2

def asBytes (text : String) : List UInt8 := text.toByteArray.data.toList

/-- `str::from_utf8`. -/
def fromUtf8 (bytes : List UInt8) : Option String := String.fromUTF8? ⟨bytes.toArray⟩

def isContinuation (byte : UInt8) : Bool := 0x80 ≤ byte && byte ≤ 0xBF

/-- The second bytes that Unicode allows after the lead byte of a three-byte sequence. -/
def second3 (lead second : UInt8) : Bool :=
  (lead = 0xE0 && 0xA0 ≤ second && second ≤ 0xBF) ||
  (0xE1 ≤ lead && lead ≤ 0xEC && isContinuation second) ||
  (lead = 0xED && 0x80 ≤ second && second ≤ 0x9F) ||
  (0xEE ≤ lead && lead ≤ 0xEF && isContinuation second)

def second4 (lead second : UInt8) : Bool :=
  (lead = 0xF0 && 0x90 ≤ second && second ≤ 0xBF) ||
  (0xF1 ≤ lead && lead ≤ 0xF3 && isContinuation second) ||
  (lead = 0xF4 && 0x80 ≤ second && second ≤ 0x8F)

def replacement : Char := Char.ofNat 0xFFFD

def joinBits (lead : Nat) (rest : List UInt8) : Char :=
  Char.ofNat (rest.foldl (fun code byte => code * 64 + byte.toNat % 64) lead)

/-- One scalar, or the replacement character for a maximal ill-formed subpart. -/
def lossyStep (lead : UInt8) (rest : List UInt8) : Char × List UInt8 :=
  if lead < 0x80 then (Char.ofNat lead.toNat, rest)
  else if 0xC2 ≤ lead && lead ≤ 0xDF then
    match rest with
    | b :: rest1 => if isContinuation b then (joinBits (lead.toNat % 32) [b], rest1) else (replacement, rest)
    | [] => (replacement, rest)
  else
    match rest with
    | b :: rest1 =>
      if second3 lead b then
        match rest1 with
        | c :: rest2 =>
          if isContinuation c then (joinBits (lead.toNat % 16) [b, c], rest2) else (replacement, rest1)
        | [] => (replacement, rest1)
      else if second4 lead b then
        match rest1 with
        | c :: rest2 =>
          if isContinuation c then
            match rest2 with
            | d :: rest3 =>
              if isContinuation d then (joinBits (lead.toNat % 8) [b, c, d], rest3) else (replacement, rest2)
            | [] => (replacement, rest2)
          else (replacement, rest1)
        | [] => (replacement, rest1)
      else (replacement, rest)
    | [] => (replacement, rest)

def lossyChars : Nat → List UInt8 → List Char
  | 0, _ => []
  | _, [] => []
  | fuel + 1, lead :: rest =>
    let step := lossyStep lead rest
    step.1 :: lossyChars fuel step.2

/-- `String::from_utf8_lossy`. -/
def fromUtf8Lossy (bytes : List UInt8) : String := String.ofList (lossyChars bytes.length bytes)

mutual

def encodeTypeRef : TypeRef → List UInt8
  | .concrete id => 0x00 :: encodeVarint id.id.toNat
  | .generic param => 0x01 :: encodeVarint param.id.toNat
  | .instantiated base args =>
    0x02 :: (encodeVarint base.id.toNat ++ (encodeVarint args.length ++ encodeTypeRefs args))
  | .function isAsync params returnType contexts =>
    ((0x03 : UInt8) ||| isAsync.toUInt8 <<< 4) :: (encodeVarint params.length ++ (encodeTypeRefs params ++
      (encodeTypeRef returnType ++ (encodeVarint contexts.length ++
        contexts.flatMap fun context => encodeVarint context.id.toNat))))
  | .reference inner mutability tier =>
    0x04 :: (encodeTypeRef inner ++ [mutability.toByte, tier.toByte])
  | .tuple elems => 0x05 :: (encodeVarint elems.length ++ encodeTypeRefs elems)
  | .array element length => 0x06 :: (encodeTypeRef element ++ encodeVarint length.toNat)
  | .slice inner => 0x07 :: encodeTypeRef inner
  | .rank2Function isAsync typeParamCount params returnType contexts =>
    ((0x0C : UInt8) ||| isAsync.toUInt8 <<< 4) :: (encodeVarint typeParamCount.toNat ++ (encodeVarint params.length ++
      (encodeTypeRefs params ++ (encodeTypeRef returnType ++ (encodeVarint contexts.length ++
        contexts.flatMap fun context => encodeVarint context.id.toNat)))))
  | .associatedProjection base qualifier assoc args =>
    0x0E :: (encodeTypeRef base ++ (encodeQualifier qualifier ++ (encodeBytes (asBytes assoc) ++
      (encodeVarint args.length ++ encodeTypeRefs args))))
  | .constValue value => 0x0A :: encodeVarint value.toUInt64.toNat
  | .recordFieldProjection owner ordinal =>
    0x0D :: (encodeVarint owner.id.toNat ++ encodeVarint ordinal.toNat)

def encodeTypeRefs : List TypeRef → List UInt8
  | [] => []
  | head :: tail => encodeTypeRef head ++ encodeTypeRefs tail

def encodeQualifier : Option (ProtocolApplication TypeRef) → List UInt8
  | none => [0]
  | some application => 1 :: encodeApplication application

def encodeApplication : ProtocolApplication TypeRef → List UInt8
  | ⟨protocol, args⟩ => encodeVarint protocol.id.toNat ++ (encodeVarint args.length ++ encodeTypeRefs args)

end

def invalidTypeRef {α : Type} (discriminant : UInt8) : Decode α := do
  let offset ← position
  fail (.invalidTypeRef (UInt32.ofNat offset) discriminant)

/-- `u16::try_from(..)`, reporting the byte before the read position. -/
def toU16 (discriminant : UInt8) (value : Nat) : Decode UInt16 :=
  if value < 2 ^ 16 then return UInt16.ofNat value
  else do
    let offset ← position
    let last ← subUsize offset 1
    fail (.invalidTypeRef (UInt32.ofNat last) discriminant)

def toU32 (discriminant : UInt8) (value : Nat) : Decode UInt32 :=
  if value < 2 ^ 32 then return UInt32.ofNat value else invalidTypeRef discriminant

/-- `SmallVec::with_capacity(count)` for four-byte entries: a layout above `isize::MAX` panics. -/
def reserveContexts (count : Nat) : Decode Unit :=
  if count * 4 ≤ 2 ^ 63 - 4 then return () else crash .capacityOverflow

def decodeContext : Decode ContextRef := do
  let id ← decodeVarint
  return ⟨UInt32.ofNat id⟩

def decodeMutability : Decode Mutability := do
  let byte ← decodeU8
  return if byte = 0 then .immutable else .mutable

def tierOfByte (byte : UInt8) : CbgrTier :=
  if byte = 0 then .tier0 else if byte = 1 then .tier1 else .tier2

/-- The name of a legacy projection (tag `0x09`): the end is `*offset + len`, unchecked. -/
def decodeLegacyName (discriminant : UInt8) : Decode String := do
  let len ← decodeVarint
  let start ← position
  let stop ← addUsize start len
  let size ← dataLen
  if size < stop then invalidTypeRef discriminant else do
    let bytes ← subslice start stop
    advance len
    return fromUtf8Lossy bytes.bytes

/-- The name of a projection (tag `0x0E`): `checked_add` refuses what `addUsize` would fault on, and
    no slice is that long. -/
def decodeName (discriminant : UInt8) : Decode String := do
  let length ← decodeVarint
  let start ← position
  let size ← dataLen
  if size < start + length then invalidTypeRef discriminant else do
    let bytes ← subslice start (start + length)
    match fromUtf8 bytes.bytes with
    | none => invalidTypeRef discriminant
    | some assoc => do
      setPosition (start + length)
      return assoc

def decodeApplicationArguments (item : Decode TypeRef) : Decode (List TypeRef) := do
  let count ← decodeVarint
  if maxTypeApplicationArguments < count then
    fail (.tableTooLarge "type_application_args" (UInt32.ofNat (min count (2 ^ 32 - 1)))
      (UInt32.ofNat maxTypeApplicationArguments))
  else repeatN item count

def decodeQualifier (discriminant : UInt8) (item : Decode TypeRef) :
    Decode (Option (ProtocolApplication TypeRef)) := do
  let flag ← decodeU8
  if flag = 0 then return none
  else if flag = 1 then do
    let value ← decodeVarint
    let protocol ← toU32 discriminant value
    let args ← decodeApplicationArguments item
    return some ⟨⟨protocol⟩, args⟩
  else invalidTypeRef discriminant

/-- The arms of the source's match, with `item` for the recursive call. -/
def decodeTypeRefBody (item : Decode TypeRef) (discriminant : UInt8) : Decode TypeRef :=
  match discriminant with
  | 0x00 => do
    let id ← decodeVarint
    return .concrete ⟨UInt32.ofNat id⟩
  | 0x01 => do
    let value ← decodeVarint
    let id ← toU16 discriminant value
    return .generic ⟨id⟩
  | 0x02 => do
    let base ← decodeVarint
    let count ← decodeVarint
    let args ← repeatN item count
    return .instantiated ⟨UInt32.ofNat base⟩ args
  | 0x04 => do
    let inner ← item
    let mutability ← decodeMutability
    let tier ← decodeU8
    return .reference inner mutability (tierOfByte tier)
  | 0x05 => do
    let count ← decodeVarint
    let elems ← repeatN item count
    return .tuple elems
  | 0x06 => do
    let element ← item
    let length ← decodeVarint
    return .array element (UInt64.ofNat length)
  | 0x07 => do
    let inner ← item
    return .slice inner
  | 0x09 => do
    let base ← item
    let assoc ← decodeLegacyName discriminant
    return .associatedProjection base none assoc []
  | 0x0E => do
    let base ← item
    let qualifier ← decodeQualifier discriminant item
    let assoc ← decodeName discriminant
    let args ← decodeApplicationArguments item
    if assoc = "" then invalidTypeRef discriminant
    else return .associatedProjection base qualifier assoc args
  | 0x0A => do
    let value ← decodeVarint
    return .constValue (UInt64.ofNat value).toInt64
  | 0x0D => do
    let ownerValue ← decodeVarint
    let owner ← toU32 discriminant ownerValue
    let ordinalValue ← decodeVarint
    let ordinal ← toU32 discriminant ordinalValue
    return .recordFieldProjection ⟨owner⟩ ordinal
  | _ =>
    if discriminant = 0x03 ∨ discriminant = 0x13 then do
      let paramCount ← decodeVarint
      let params ← repeatN item paramCount
      let returnType ← item
      let contextCount ← decodeVarint
      reserveContexts contextCount
      let contexts ← repeatN decodeContext contextCount
      return .function (discriminant &&& 0x10 ≠ 0) params returnType contexts
    else if discriminant = 0x0C ∨ discriminant = 0x1C then do
      let value ← decodeVarint
      let typeParamCount ← toU16 discriminant value
      let paramCount ← decodeVarint
      let params ← repeatN item paramCount
      let returnType ← item
      let contextCount ← decodeVarint
      let contexts ← repeatN decodeContext contextCount
      return .rank2Function (discriminant &&& 0x10 ≠ 0) typeParamCount params returnType contexts
    else do
      let offset ← position
      fail (.invalidTypeRef (UInt32.ofNat offset - 1) discriminant)

/-- Every recursive call consumes a byte, so the slice's length bounds the depth. -/
def decodeTypeRefFuel : Nat → Decode TypeRef
  | 0 => crash .outOfFuel
  | fuel + 1 => do
    let discriminant ← decodeU8
    decodeTypeRefBody (decodeTypeRefFuel fuel) discriminant

def decodeTypeRef : Decode TypeRef := fun data offset => decodeTypeRefFuel (data.length + 1) data offset

namespace TypeRef

def isGeneric : TypeRef → Bool
  | .generic _ => true
  | _ => false

def qualifierArgs : Option (ProtocolApplication TypeRef) → List TypeRef
  | none => []
  | some application => application.args

/-- The types directly inside a type, in the order in which they are visited. -/
def parts : TypeRef → List TypeRef
  | .instantiated _ args => args
  | .function _ params returnType _ => params ++ [returnType]
  | .rank2Function _ _ params returnType _ => params ++ [returnType]
  | .reference inner _ _ => [inner]
  | .tuple elems => elems
  | .array element _ => [element]
  | .slice inner => [inner]
  | .associatedProjection base qualifier _ args => base :: (qualifierArgs qualifier ++ args)
  | _ => []

def rebuild : TypeRef → List TypeRef → TypeRef
  | .instantiated base _, parts => .instantiated base parts
  | .function isAsync _ returnType contexts, parts =>
    .function isAsync parts.dropLast (parts.getLastD returnType) contexts
  | .rank2Function isAsync count _ returnType contexts, parts =>
    .rank2Function isAsync count parts.dropLast (parts.getLastD returnType) contexts
  | .reference inner mutability tier, parts => .reference (parts.headD inner) mutability tier
  | .tuple _, parts => .tuple parts
  | .array element length, parts => .array (parts.headD element) length
  | .slice inner, parts => .slice (parts.headD inner)
  | .associatedProjection base none assoc _, parts =>
    .associatedProjection (parts.headD base) none assoc parts.tail
  | .associatedProjection base (some application) assoc _, parts =>
    .associatedProjection (parts.headD base)
      (some ⟨application.protocol, parts.tail.take application.args.length⟩) assoc
      (parts.tail.drop application.args.length)
  | ty, _ => ty

def binders : TypeRef → Nat
  | .rank2Function _ count _ _ _ => count.toNat
  | _ => 0

theorem sizeOf_part {t part : TypeRef} (mem : part ∈ t.parts) : sizeOf part < sizeOf t := by
  cases t with
  | instantiated base args =>
    have smaller := sizeOf_lt_of_mem (show part ∈ args from mem)
    simp only [instantiated.sizeOf_spec]
    omega
  | function isAsync ps returnType contexts =>
    rcases mem_append.mp mem with inside | last
    · have smaller := sizeOf_lt_of_mem inside
      simp only [function.sizeOf_spec]
      omega
    · rw [mem_singleton.mp last]
      simp only [function.sizeOf_spec]
      omega
  | rank2Function isAsync n ps returnType contexts =>
    rcases mem_append.mp mem with inside | last
    · have smaller := sizeOf_lt_of_mem inside
      simp only [rank2Function.sizeOf_spec]
      omega
    · rw [mem_singleton.mp last]
      simp only [rank2Function.sizeOf_spec]
      omega
  | reference inner mutability tier =>
    rw [mem_singleton.mp mem]
    simp only [reference.sizeOf_spec]
    omega
  | tuple elems =>
    have smaller := sizeOf_lt_of_mem (show part ∈ elems from mem)
    simp only [tuple.sizeOf_spec]
    omega
  | array element length =>
    rw [mem_singleton.mp mem]
    simp only [array.sizeOf_spec]
    omega
  | slice inner =>
    rw [mem_singleton.mp mem]
    simp only [slice.sizeOf_spec]
    omega
  | associatedProjection base qualifier assoc args =>
    simp only [associatedProjection.sizeOf_spec]
    rcases mem_cons.mp mem with rfl | mem
    · omega
    · rcases mem_append.mp mem with inside | inside
      · cases qualifier with
        | none => cases inside
        | some application =>
          cases application with
          | mk protocol qualified =>
            have smaller := sizeOf_lt_of_mem (show part ∈ qualified from inside)
            simp only [Option.some.sizeOf_spec, ProtocolApplication.mk.sizeOf_spec]
            omega
      · have smaller := sizeOf_lt_of_mem inside
        omega
  | concrete _ | generic _ | constValue _ | recordFieldProjection _ _ => cases mem

theorem parts_induction {P : TypeRef → Prop} (node : ∀ t, (∀ part ∈ t.parts, P part) → P t)
    (t : TypeRef) : P t := by
  generalize bound : sizeOf t = n
  induction n using Nat.strong_induction_on generalizing t with
  | _ n ih =>
    subst bound
    apply node
    intro part mem
    exact ih _ (sizeOf_part mem) part rfl

theorem dropLast_append_getLastD {α : Type} {xs : List α} {n : Nat} (length : xs.length = n + 1)
    (fallback : α) : xs.dropLast ++ [xs.getLastD fallback] = xs := by
  rcases eq_nil_or_concat xs with rfl | ⟨init, last, rfl⟩
  · cases length
  · simp

theorem parts_rebuild {t : TypeRef} {parts : List TypeRef} (length : parts.length = t.parts.length) :
    (t.rebuild parts).parts = parts := by
  cases t with
  | instantiated base args | tuple elems => rfl
  | function isAsync ps returnType contexts | rank2Function isAsync n ps returnType contexts =>
    exact dropLast_append_getLastD (length.trans length_append) returnType
  | associatedProjection base qualifier assoc args =>
    cases parts with
    | nil => cases length
    | cons first rest =>
      cases qualifier with
      | none => rfl
      | some application => exact congrArg (first :: ·) (take_append_drop _ rest)
  | reference inner mutability tier | array element size | slice inner =>
    rcases length_eq_one_iff.mp length with ⟨part, rfl⟩
    rfl
  | concrete _ | generic _ | constValue _ | recordFieldProjection _ _ =>
    exact (length_eq_zero_iff.mp length).symm

theorem rebuild_parts (t : TypeRef) : t.rebuild t.parts = t := by
  cases t with
  | associatedProjection base qualifier assoc args =>
    cases qualifier with
    | none => rfl
    | some application => simp [rebuild, parts, qualifierArgs]
  | function | rank2Function => simp [rebuild, parts]
  | _ => rfl

theorem rebuild_rebuild {t : TypeRef} {parts : List TypeRef} (length : parts.length = t.parts.length)
    (again : List TypeRef) (length' : again.length = t.parts.length) :
    (t.rebuild parts).rebuild again = t.rebuild again := by
  cases t with
  | associatedProjection base qualifier assoc args =>
    cases again with
    | nil => cases length'
    | cons first' rest' =>
      cases qualifier with
      | none => rfl
      | some application =>
        cases parts with
        | nil => cases length
        | cons first rest =>
          simp [TypeRef.parts, qualifierArgs] at length
          simp [rebuild, length]
  | function isAsync ps returnType contexts | rank2Function isAsync n ps returnType contexts =>
    rcases eq_nil_or_concat again with rfl | ⟨init, last, rfl⟩
    · simp [TypeRef.parts] at length'
    · simp [rebuild]
  | reference inner mutability tier | array element size | slice inner =>
    rcases length_eq_one_iff.mp length' with ⟨part, rfl⟩
    rfl
  | _ => rfl

@[simp] theorem binders_rebuild (t : TypeRef) (parts : List TypeRef) : (t.rebuild parts).binders = t.binders := by
  cases t with
  | associatedProjection base qualifier assoc args => cases qualifier <;> rfl
  | _ => rfl

@[simp] theorem isGeneric_rebuild (t : TypeRef) (parts : List TypeRef) :
    (t.rebuild parts).isGeneric = t.isGeneric := by
  cases t with
  | associatedProjection base qualifier assoc args => cases qualifier <;> rfl
  | _ => rfl

end TypeRef

end Vbc
