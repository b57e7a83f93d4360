import Verum.Vbc.Encode

namespace Vbc

open Wire

/-- `decode_varint(..)? as u32`. -/
def decodeU32 : Decode UInt32 := do return UInt32.ofNat (← decodeVarint)

/-- `decode_varint(..)? as u16`. -/
def decodeU16 : Decode UInt16 := do return UInt16.ofNat (← decodeVarint)

/-- `decode_varint(..)? as u8`. -/
def decodeVarintU8 : Decode UInt8 := do return UInt8.ofNat (← decodeVarint)

/-- `decode_signed_varint(..)? as i32`. -/
def decodeI32 : Decode Int32 := do return (← decodeSignedVarint).toInt32

/-- `decode_u8(..)? as i8`. -/
def decodeI8 : Decode Int8 := do return (← decodeU8).toInt8

/-- `decode_u8(..)? != 0`. -/
def decodeFlag : Decode Bool := do return (← decodeU8) != 0

def decodeTensorDType : Decode TensorDType := do return TensorDType.fromByte (← decodeU8)

def decodeCompareOp : Decode CompareOp := do return CompareOp.fromByte (← decodeU8)

def decodeTensorPoolOp : Decode TensorPoolOp := do return TensorPoolOp.fromByte (← decodeU8)

def decodeTensorCumulativeOp : Decode TensorCumulativeOp := do return TensorCumulativeOp.fromByte (← decodeU8)

/-- A count followed by that many items. The capacity is reserved by `decode_vec_with_capacity`, which
    never asks for more entries than bytes remain. -/
def decodeVec {α : Type} (item : Decode α) : Decode (List α) := do
  let count ← decodeVarint
  repeatN item count

def decodeRegVec : Decode (List Reg) := decodeVec decodeReg

def decodeTypeRefVec : Decode (List TypeRef) := decodeVec decodeTypeRef

def decodeOptionalReg : Decode (Option Reg) := do
  let flag ← decodeU8
  if flag = 0 then return none else return some (← decodeReg)

def decodeCase : Decode (UInt32 × Int32) := do return (← decodeU32, ← decodeI32)

def decodeTypeHint : Decode UInt8 := do
  let offset ← position
  let len ← dataLen
  if offset < len then do
    let byte ← index offset
    advance 1
    return byte
  else return 0

def decodeExtendedRegOperand : Decode (List UInt8) := do
  let first ← decodeU8
  if first &&& 0x80 ≠ 0 then return [first, ← decodeU8] else return [first]

def decodeExtendedRegOperands (n : Nat) : Decode (List UInt8) := do
  return (← repeatN decodeExtendedRegOperand n).flatten

def decodeBinaryI (op : BinaryIntOp) : Decode Instruction := do
  return .binaryI op (← decodeReg) (← decodeReg) (← decodeReg)

def decodeBinaryF (op : BinaryFloatOp) : Decode Instruction := do
  return .binaryF op (← decodeReg) (← decodeReg) (← decodeReg)

def decodeBinaryG (op : BinaryGenericOp) : Decode Instruction := do
  return .binaryG op (← decodeReg) (← decodeReg) (← decodeReg) (← decodeU32)

def decodeUnaryI (op : UnaryIntOp) : Decode Instruction := do
  return .unaryI op (← decodeReg) (← decodeReg)

def decodeBitwise (op : BitwiseOp) : Decode Instruction := do
  return .bitwise op (← decodeReg) (← decodeReg) (← decodeReg)

def decodeCmpI (op : CompareOp) : Decode Instruction := do
  return .cmpI op (← decodeReg) (← decodeReg) (← decodeReg)

def decodeCmpF (op : CompareOp) : Decode Instruction := do
  return .cmpF op (← decodeReg) (← decodeReg) (← decodeReg)

def decodeJmpCmp (op : CompareOp) : Decode Instruction := do
  return .jmpCmp op (← decodeReg) (← decodeReg) (← decodeI32)

/-- The sub-opcodes of the registry's tensor intrinsics, in registry order. -/
def tensorCarrierSubOps : List TensorSubOpcode :=
  [.newFromArgs, .fillFromArgs, .fromSliceArgs, .arange, .linspace, .rand, .clone, .identity, .reshapeFromArgs,
   .transposeFromArgs, .permute, .sliceFromArgs, .index, .gather, .concat, .stack, .broadcastToShape, .squeeze,
   .binopFromArgs, .unopFromArgs, .cmp, .where, .clamp, .cast, .maskedFill, .lerp, .matmulFromArgs,
   .batchMatmul, .dot, .outer, .einsum, .conv, .svd, .qr, .lu, .cholesky, .eig, .eigSymmetric, .solve,
   .triSolve, .inverse, .det, .trace, .reduceFromArgs, .argmax, .argmin, .topk, .cumulative, .softmax,
   .layerNorm, .batchNorm, .repeat, .getElementFromArgs, .setElementFromArgs, .ssmScan, .expm, .complexPow,
   .complexMul, .rfft, .irfft, .uniform, .isTraining, .bincount, .gatherNd, .arangeUsize, .tanh, .sumAll,
   .fromArray, .randomFloat01, .tokenizerLoadBpe, .tokenizerLoadPretrained, .tokenizerEncode, .tokenizerDecode,
   .tokenizerLoadSpm, .tokenizerSpmEncode, .tokenizerSpmDecode, .sampleTopP, .sampleTemperature,
   .pagedAttention, .parseToolCall, .formatValue, .tensorFromSliceUsize, .quantizedMatmul, .norm,
   .generateRequestId, .jsonSchemaToJson, .functionSchemaToJson, .parseFunctionCalls, .allReduce, .allGather,
   .broadcast, .reduceScatter, .barrier, .pmapPsum, .pmapPmean, .pmapPmax, .pmapAllGather, .vmapTransform,
   .pmapTransform, .moduleBackward, .distWorldGroup, .distNewGroup, .distGetRank, .p2PSend, .p2PRecv,
   .collectiveGather, .collectiveScatter, .bucketGradients, .getGrad, .setGrad, .meshSelect, .actorNewId,
   .rdmaCreateRef, .rdmaFetch, .rdmaWrite, .rdmaCheckValid]

def registryDrivenTensorArity : TensorSubOpcode → Option Nat
  | .newFromArgs => some 3 | .fillFromArgs => some 4 | .fromSliceArgs => some 4 | .arange => some 5
  | .arangeUsize => some 4 | .linspace => some 5 | .rand => some 4 | .randomFloat01 => some 1
  | .identity => some 3 | .clone => some 2 | .uniform => some 4 | .fromArray => some 2
  | .tensorFromSliceUsize => some 2 | .reshapeFromArgs => some 3 | .transposeFromArgs => some 2
  | .permute => some 3 | .sliceFromArgs => some 3 | .index => some 3 | .squeeze => some 3
  | .broadcast => some 3 | .repeat => some 3 | .stack => some 3 | .concat => some 3 | .toDevice => some 3
  | .contiguous => some 2 | .getElementFromArgs => some 3 | .setElementFromArgs => some 4
  | .getScalar => some 3 | .setScalar => some 4 | .gather => some 4 | .gatherNd => some 3
  | .maskedSelect => some 3 | .maskedFill => some 4 | .nonzero => some 2 | .where => some 4 | .cast => some 3
  | .lerp => some 4 | .clamp => some 4 | .cmp => some 4 | .bincount => some 3 | .oneHot => some 4
  | .split => some 4 | .splitAt => some 4 | .diag => some 2 | .unopFromArgs => some 2
  | .binopFromArgs => some 4 | .tanh => some 2 | .leakyRelu => some 3 | .expm => some 2 | .inverse => some 2
  | .tril => some 2 | .triu => some 2 | .isTraining => some 1 | .sumAll => some 2 | .unsqueeze => some 3
  | .formatValue => some 2 | .functionSchemaToJson => some 2 | .jsonSchemaToJson => some 2
  | .parseFunctionCalls => some 2 | .parseToolCall => some 2 | .cumulative => some 4
  | .reduceFromArgs => some 3 | .argmax => some 3 | .topk => some 3 | .trace => some 2 | .tensorNorm => some 2
  | .matmulFromArgs => some 3 | .batchMatmul => some 3 | .dot => some 3 | .outer => some 3 | .einsum => some 3
  | .conv => some 3 | .solve => some 3 | .triSolve => some 3 | .qr => some 2 | .svd => some 2 | .lu => some 2
  | .eig => some 2 | .eigSymmetric => some 2 | .cholesky => some 2 | .det => some 2
  | .quantizedMatmul => some 5 | .softmax => some 3 | .layerNorm => some 5 | .batchNorm => some 6
  | .pagedAttention => some 5 | .rfft => some 3 | .irfft => some 3 | .complexMul => some 3
  | .complexPow => some 3 | .ssmScan => some 5 | .allReduce => some 4 | .allGather => some 3
  | .reduceScatter => some 4 | .barrier => some 2 | .distGetRank => some 2 | .distNewGroup => some 2
  | .distWorldGroup => some 1 | .collectiveGather => some 4 | .collectiveScatter => some 3 | .p2PSend => some 3
  | .p2PRecv => some 2 | .meshSelect => some 3 | .pmapTransform => some 5 | .pmapAllGather => some 3
  | .pmapPmax => some 3 | .pmapPmean => some 3 | .pmapPsum => some 3 | .vmapTransform => some 4
  | .sampleTemperature => some 3 | .sampleTopP => some 3 | .generateRequestId => some 1
  | .tokenizerEncode => some 3 | .tokenizerDecode => some 3 | .tokenizerLoadBpe => some 3
  | .tokenizerLoadPretrained => some 2 | .tokenizerLoadSpm => some 2 | .tokenizerSpmEncode => some 3
  | .tokenizerSpmDecode => some 3 | .rdmaCreateRef => some 3 | .rdmaCheckValid => some 2 | .rdmaFetch => some 2
  | .rdmaWrite => some 3 | .getGrad => some 2 | .setGrad => some 3 | .moduleBackward => some 3
  | .bucketGradients => some 3 | .actorNewId => some 1 | .regexFindAll => some 3 | .regexIsMatch => some 3
  | .regexReplaceAll => some 4 | .regexSplit => some 3 | _ => none

/-- The operand counts of the register-encoded arms that are not length-prefixed. -/
def registerOperandCount : TensorSubOpcode → Option Nat
  | .newFromArgs => some 3 | .fillFromArgs => some 4 | .fromSliceArgs => some 4 | .binopFromArgs => some 4
  | .unopFromArgs => some 3 | .matmulFromArgs => some 3 | .reduceFromArgs => some 4
  | .reshapeFromArgs => some 3 | .transposeFromArgs => some 2 | .sliceFromArgs => some 3
  | .getElementFromArgs => some 3 | .setElementFromArgs => some 4 | .oneHot => some 4 | .split => some 4
  | .splitAt => some 4 | .bincount => some 3 | .tanh => some 2 | .repeat => some 3 | .toDevice => some 3
  | .diag => some 2 | .expm => some 2 | .inverse => some 2 | .tril => some 2 | .triu => some 2
  | .uniform => some 4 | .contiguous => some 2 | .sumAll => some 2 | .unsqueeze => some 3
  | .isTraining => some 1 | .leakyRelu => some 3 | .gatherNd => some 3 | .getScalar => some 3
  | .setScalar => some 4 | .maskedSelect => some 3 | .nonzero => some 2 | .arangeUsize => some 4
  | .complexMul => some 3 | .complexPow => some 3 | .rfft => some 3 | .irfft => some 3 | .fromArray => some 2
  | .regexFindAll => some 3 | .regexIsMatch => some 3 | .regexReplaceAll => some 4 | .regexSplit => some 3
  | .ssmScan => some 5 | .batchNorm => some 6 | _ => none

/-- Whether a sub-opcode byte is followed by a length-prefixed operand vector. -/
def isTensorCarrier (byte : UInt8) : Bool :=
  match TensorSubOpcode.fromByte byte with
  | some subOp => tensorCarrierSubOps.contains subOp || (registryDrivenTensorArity subOp).isSome
  | none => false

def decodePermissionInstruction (subOp : UInt8) : Option (Decode Instruction) :=
  match TensorExtSubOpcode.fromByte subOp with
  | some .permissionCheckWire => some do return .permissionCheckWire (← decodeReg) (← decodeReg) (← decodeReg)
  | some .permissionAssert => some do return .permissionAssert (← decodeU8) (← decodeReg)
  | some .permissionStatsRead => some do return .permissionStatsRead (← decodeReg) (← decodeReg)
  | some .permissionStatsClear => some do return .permissionStatsClear (← decodeReg)
  | _ => none

def decodeTensorExt (subOpcodeByte : UInt8) : TensorExtSubOpcode → Decode Instruction
  | .rmsNorm => do return .tensor (.rmsNorm (← decodeReg) (← decodeReg) (← decodeOptionalReg) (← decodeF32))
  | .fft => do return .tensor (.fft (← decodeReg) (← decodeReg) (← decodeI8) (← decodeFlag))
  | .scatter => do
    return .tensor (.scatter (← decodeReg) (← decodeReg) (← decodeReg) (← decodeReg) (← decodeI8) (← decodeU8))
  | .flashAttention => do
    return .tensor (.flashAttention (← decodeReg) (← decodeReg) (← decodeReg) (← decodeReg)
      (← decodeOptionalReg) (← decodeReg) (← decodeFlag))
  | .contiguousView => do return .tensor (.contiguousView (← decodeReg) (← decodeReg))
  | .randomU64 => do return .randomU64 (← decodeReg)
  | .randomFloat => do return .randomFloat (← decodeReg) (← decodeReg) (← decodeReg)
  | .globalAllocator => do return .globalAllocator (← decodeReg)
  | .memNewId => do return .memNewId (← decodeReg)
  | .memAllocTensor => do return .memAllocTensor (← decodeReg) (← decodeReg) (← decodeU8)
  | .regexFind | .regexReplace | .regexCaptures => fail (.invalidOpcode subOpcodeByte)
  | .permissionCheckWire | .permissionAssert | .permissionStatsRead | .permissionStatsClear =>
    (decodePermissionInstruction subOpcodeByte).getD (fail (.invalidOpcode subOpcodeByte))

def decodeTensor (subOpcodeByte : UInt8) : TensorSubOpcode → Decode Instruction
  | .pool => do
    return .tensor (.pool (← decodeTensorPoolOp) (← decodeReg) (← decodeReg) (← decodeVec decodeU8)
      (← decodeVec decodeU8) (← decodeVec decodeU8))
  | .argmin => do return .tensor (.argmin (← decodeReg) (← decodeReg) (← decodeI8) (← decodeFlag))
  | .solve => do return .tensor (.solve (← decodeReg) (← decodeReg) (← decodeReg))
  | .gather => do return .tensor (.gather (← decodeReg) (← decodeReg) (← decodeReg) (← decodeI8))
  | .permute => do return .tensor (.permute (← decodeReg) (← decodeReg) (← decodeVec decodeU8))
  | .qr => do return .tensor (.qr (← decodeReg) (← decodeReg) (← decodeReg) (← decodeU8))
  | .svd => do
    return .tensor (.svd (← decodeReg) (← decodeReg) (← decodeReg) (← decodeReg) (← decodeFlag) (← decodeFlag))
  | .lu => do return .tensor (.lu (← decodeReg) (← decodeReg) (← decodeReg) (← decodeReg))
  | .eig => do return .tensor (.eig (← decodeReg) (← decodeReg) (← decodeReg) (← decodeFlag))
  | .eigSymmetric => do
    return .tensor (.eigSymmetric (← decodeReg) (← decodeReg) (← decodeReg) (← decodeFlag))
  | .lstsq => do
    return .tensor (.lstsq (← decodeReg) (← decodeReg) (← decodeReg) (← decodeReg) (← decodeReg) (← decodeReg)
      (← decodeF64))
  | .det => do return .tensor (.det (← decodeReg) (← decodeReg))
  | .trace => do return .tensor (.trace (← decodeReg) (← decodeReg))
  | .norm => do return .tensor (.norm (← decodeReg) (← decodeReg) (← decodeI8))
  | .arange => do
    return .tensor (.arange (← decodeReg) (← decodeReg) (← decodeReg) (← decodeReg) (← decodeTensorDType))
  | .linspace => do
    return .tensor (.linspace (← decodeReg) (← decodeReg) (← decodeReg) (← decodeReg) (← decodeTensorDType))
  | .rand => do return .tensor (.rand (← decodeReg) (← decodeRegVec) (← decodeTensorDType))
  | .clone => do return .tensor (.clone (← decodeReg) (← decodeReg))
  | .identity => do return .tensor (.identity (← decodeReg) (← decodeReg) (← decodeTensorDType))
  | .index => do return .tensor (.index (← decodeReg) (← decodeReg) (← decodeReg) (← decodeU8))
  | .concat => do return .tensor (.concat (← decodeReg) (← decodeRegVec) (← decodeU8))
  | .stack => do return .tensor (.stack (← decodeReg) (← decodeRegVec) (← decodeU8))
  | .broadcastToShape => do return .tensor (.broadcast (← decodeReg) (← decodeReg) (← decodeRegVec))
  | .squeeze => do return .tensor (.squeeze (← decodeReg) (← decodeReg) (← decodeVec decodeU8))
  | .cmp => do return .tensor (.cmp (← decodeCompareOp) (← decodeReg) (← decodeReg) (← decodeReg))
  | .where => do return .tensor (.where (← decodeReg) (← decodeReg) (← decodeReg) (← decodeReg))
  | .clamp => do return .tensor (.clamp (← decodeReg) (← decodeReg) (← decodeReg) (← decodeReg))
  | .cast => do return .tensor (.cast (← decodeReg) (← decodeReg) (← decodeTensorDType))
  | .maskedFill => do return .tensor (.maskedFill (← decodeReg) (← decodeReg) (← decodeReg) (← decodeReg))
  | .lerp => do return .tensor (.lerp (← decodeReg) (← decodeReg) (← decodeReg) (← decodeReg))
  | .dot => do
    return .tensor (.dot (← decodeReg) (← decodeReg) (← decodeReg) (← decodeVec decodeU8)
      (← decodeVec decodeU8))
  | .conv => do
    return .tensor (.conv (← decodeReg) (← decodeReg) (← decodeReg) (← decodeOptionalReg)
      (← decodeVec decodeU8) (← decodeVec decodeU8) (← decodeVec decodeU8) (← decodeVarintU8))
  | .batchMatmul => do return .tensor (.batchMatmul (← decodeReg) (← decodeReg) (← decodeReg))
  | .einsum => do return .tensor (.einsum (← decodeReg) (← decodeRegVec) (← decodeU32))
  | .outer => do return .tensor (.outer (← decodeReg) (← decodeReg) (← decodeReg))
  | .triSolve => do return .tensor (.triSolve (← decodeReg) (← decodeReg) (← decodeReg) (← decodeFlag))
  | .cholesky => do return .tensor (.cholesky (← decodeReg) (← decodeReg) (← decodeFlag))
  | .argmax => do return .tensor (.argmax (← decodeReg) (← decodeReg) (← decodeI8) (← decodeFlag))
  | .topk => do
    return .tensor (.topk (← decodeReg) (← decodeReg) (← decodeReg) (← decodeReg) (← decodeI8) (← decodeFlag))
  | .cumulative => do
    return .tensor (.cumulative (← decodeTensorCumulativeOp) (← decodeReg) (← decodeReg) (← decodeI8))
  | .softmax => do return .tensor (.softmax (← decodeReg) (← decodeReg) (← decodeI8))
  | .layerNorm => do
    return .tensor (.layerNorm (← decodeReg) (← decodeReg) (← decodeOptionalReg) (← decodeOptionalReg)
      (← decodeU32) (← decodeF32))
  | subOp =>
    match registerOperandCount subOp with
    | some paramCount => do return .tensorExtended subOpcodeByte (← decodeExtendedRegOperands paramCount)
    | none => fail (.invalidOpcode subOpcodeByte)

/-- The arms below the carrier test. A byte that is no `TensorSubOpcode` is tried as a
    `TensorExtSubOpcode`. -/
def decodeTensorStructured (subOpcodeByte : UInt8) : Decode Instruction :=
  match TensorSubOpcode.fromByte subOpcodeByte with
  | some subOp => decodeTensor subOpcodeByte subOp
  | none =>
    match TensorExtSubOpcode.fromByte subOpcodeByte with
    | some extSubOp => decodeTensorExt subOpcodeByte extSubOp
    | none => fail (.invalidOpcode subOpcodeByte)

/-- The operands of the escaped carrier: a permission instruction when they begin with its sub-opcode. -/
def decodeEscapedOperands (operands : Slice) : Decode Instruction :=
  match operands.bytes with
  | [] => return .tensorExtended 0xFF operands.bytes
  | extended :: _ =>
    match decodePermissionInstruction extended with
    | none => return .tensorExtended 0xFF operands.bytes
    | some permission => do
      let decoded ← within operands 1 permission
      if decoded.2 ≠ operands.length then do
        let offset ← position
        fail (.invalidInstructionEncoding offset "permission instruction has trailing operands")
      else return decoded.1

def decodeTensorExtended : Decode Instruction := do
  let subOpcodeByte ← decodeU8
  if isTensorCarrier subOpcodeByte then do
    let operands ← decodeBytes
    if subOpcodeByte = 0xFF then decodeEscapedOperands operands
    else return .tensorExtended subOpcodeByte operands.bytes
  else decodeTensorStructured subOpcodeByte

/-- Codegen emits this carrier as `Raw`, so the consumed bytes are put back together. -/
def decodeMlExtended : Decode Instruction := do
  let subOp ← decodeU8
  let operands ← decodeBytes
  return .raw .mlExtended (subOp :: (encodeVarint operands.length ++ operands.bytes))

def decodeCaptureType : Decode (Option TypeRef) := do
  match ← decodeU8 with
  | 0 => return none
  | 1 => return some (← decodeTypeRef)
  | _ => fail (.deserialization "invalid closure capture type presence")

def decodeCaptureTypes : Decode (List (Option TypeRef)) := do
  let count ← decodeVarint
  if 65535 < count then fail (.deserialization "excessive closure capture type count")
  else repeatN decodeCaptureType count

def decodeLexicalTypes : Decode (List TypeRef) := do
  let count ← decodeVarint
  if 65535 < count then fail (.deserialization "excessive closure lexical type count")
  else repeatN decodeTypeRef count

def decodeNewClosureTyped : Decode Instruction := do
  let dst ← decodeReg
  let funcId ← decodeU32
  let captures ← decodeRegVec
  let types ← decodeCaptureTypes
  return .newClosure dst funcId captures (some types) []

def decodeNewClosureWitnessed : Decode Instruction := do
  let dst ← decodeReg
  let funcId ← decodeU32
  let captures ← decodeRegVec
  match ← decodeU8 with
  | 0 => do return .newClosure dst funcId captures none (← decodeLexicalTypes)
  | 1 => do return .newClosure dst funcId captures (some (← decodeCaptureTypes)) (← decodeLexicalTypes)
  | _ => fail (.deserialization "invalid closure capture declaration presence")

def decodeTypeLayout : Decode Instruction := do
  let dst ← decodeReg
  let rawProperty ← decodeU8
  match LayoutProperty.fromByte rawProperty with
  | none => fail (.deserialization ("invalid layout property " ++ toString rawProperty))
  | some property => do return .typeLayout dst (← decodeTypeRef) property

/-- The number of register operands of the process and scripting sub-opcodes. -/
def scriptOperandCount : ExtendedSubOpcode → Option Nat
  | .processExit => some 1 | .scriptEngineNew => some 1 | .scriptEngineFree => some 1
  | .scriptOutcomeFree => some 1 | .scriptWorldNew => some 1 | .scriptWorldFree => some 1
  | .scriptSessionFree => some 1 | .scriptOutcomeIsOk => some 2 | .scriptOutcomeKind => some 2
  | .scriptOutcomeAsInt => some 2 | .scriptOutcomeAsFloat => some 2 | .scriptOutcomeAsBool => some 2
  | .scriptOutcomeAsText => some 2 | .scriptOutcomeError => some 2 | .scriptOutcomeStdout => some 2
  | .scriptGlobalKind => some 2 | .scriptGlobalInt => some 2 | .scriptGlobalText => some 2
  | .scriptGlobalBool => some 2 | .scriptGlobalFloat => some 2 | .scriptSetInt => some 2
  | .scriptSetText => some 2 | .scriptSetBool => some 2 | .scriptSetFloat => some 2
  | .scriptOutcomeListLen => some 2 | .scriptOutcomeMapLen => some 2 | .scriptGlobalList => some 2
  | .scriptGlobalMap => some 2 | .scriptSetList => some 2 | .scriptSetMap => some 2
  | .scriptEngineStdout => some 2 | .scriptEngineLastError => some 2 | .scriptEngineLastErrorKind => some 2
  | .scriptEngineEval => some 3 | .scriptEngineSetGlobalInt => some 3 | .scriptEngineSetGlobalText => some 3
  | .scriptEngineSetGlobalBool => some 3 | .scriptEngineSetGlobalFloat => some 3
  | .scriptEngineSetGlobalValue => some 3 | .scriptEngineRegister => some 3 | .scriptHostCallInt => some 3
  | .scriptWorldEval => some 3 | .scriptOutcomeListElemKind => some 3 | .scriptOutcomeListElemInt => some 3
  | .scriptOutcomeListElemFloat => some 3 | .scriptOutcomeListElemBool => some 3
  | .scriptOutcomeListElemText => some 3 | .scriptOutcomeMapKeyKind => some 3
  | .scriptOutcomeMapKeyInt => some 3 | .scriptOutcomeMapKeyFloat => some 3
  | .scriptOutcomeMapKeyBool => some 3 | .scriptOutcomeMapKeyText => some 3
  | .scriptOutcomeMapValueKind => some 3 | .scriptOutcomeMapValueInt => some 3
  | .scriptOutcomeMapValueFloat => some 3 | .scriptOutcomeMapValueBool => some 3
  | .scriptOutcomeMapValueText => some 3 | .scriptOutcomeListElemSub => some 3
  | .scriptOutcomeMapKeySub => some 3 | .scriptOutcomeMapValueSub => some 3 | .scriptSessionCall => some 3
  | .scriptEngineLink => some 3 | .scriptEngineNewSandboxed => some 4 | .scriptEngineCall => some 4
  | .scriptEngineLink2 => some 4 | .scriptEngineCallArgs => some 5
  | _ => none

def decodeExtendedKind (subOp : UInt8) : ExtendedSubOpcode → Decode Instruction
  | .newClosureTyped => decodeNewClosureTyped
  | .newClosureWitnessed => decodeNewClosureWitnessed
  | .typeResource => do return .typeResource (← decodeReg) (← decodeTypeRef)
  | .bindMethodReceiver => do return .bindMethodReceiver (← decodeTypeRef)
  | .dropTyped => do return .dropTyped (← decodeReg) (← decodeTypeRef)
  | .typeLayout => decodeTypeLayout
  | .setCallWitness => do return .setCallWitness (← decodeTypeRefVec)
  | .makeVariantTyped => do return .makeVariantTyped (← decodeReg) (← decodeU32) (← decodeU32) (← decodeU32)
  | .getFieldNamed => do return .getFieldNamed (← decodeReg) (← decodeReg) (← decodeU32)
  | .setFieldNamed => do return .setFieldNamed (← decodeReg) (← decodeU32) (← decodeReg)
  | kind =>
    match scriptOperandCount kind with
    | some count => do return .extended subOp (← decodeExtendedRegOperands count)
    | none => return .extended subOp []

def decodeExtended : Decode Instruction := do
  let subOp ← decodeU8
  match ExtendedSubOpcode.fromByte subOp with
  | some kind => decodeExtendedKind subOp kind
  | none => fail (.invalidOpcode subOp)

def nurseryConfig (configType : Nat) (nursery value : Reg) : Instruction :=
  match configType with
  | 0 => .nurserySetTimeout nursery value
  | 1 => .nurserySetMaxTasks nursery value
  | 2 => .nurserySetErrorBehavior nursery value
  | 3 => .nurseryEnter nursery
  | 4 => .nurseryExit nursery
  | _ => .raw .nurseryConfig []

def decodeNurseryConfig : Decode Instruction := do
  let nursery ← decodeReg
  let configType ← decodeVarint
  let value ← decodeReg
  return nurseryConfig configType nursery value

def refuseToGuess (opcode : String) : Decode Instruction :=
  fail (.deserialization ("decode_instruction: opcode " ++ opcode ++
    " has no canonical wire decoding (never emitted); refusing to guess"))

def decodeInstructionBody : Opcode → Decode Instruction
  | .mov => do return .mov (← decodeReg) (← decodeReg)
  | .loadK => do return .loadK (← decodeReg) (← decodeU32)
  | .loadI => do return .loadI (← decodeReg) (← decodeSignedVarint)
  | .loadF => do return .loadF (← decodeReg) (← decodeF64)
  | .loadTrue => do return .loadTrue (← decodeReg)
  | .loadFalse => do return .loadFalse (← decodeReg)
  | .loadUnit => do return .loadUnit (← decodeReg)
  | .loadT => do return .loadT (← decodeReg) (← decodeTypeRef)
  | .loadSmallI => do return .loadSmallI (← decodeReg) (← decodeI8)
  | .loadNil => do return .loadNil (← decodeReg)
  | .cvtIF => do return .cvtIF (← decodeReg) (← decodeReg)
  | .cvtFI => do
    return .cvtFI ((FloatToIntMode.fromByte (← decodeU8)).getD .trunc) (← decodeReg) (← decodeReg)
  | .cvtIC => do return .cvtIC (← decodeReg) (← decodeReg)
  | .cvtCI => do return .cvtCI (← decodeReg) (← decodeReg)
  | .cvtBI => do return .cvtBI (← decodeReg) (← decodeReg)
  | .cvtToI => do return .cvtToI (← decodeReg) (← decodeReg)
  | .cvtToF => do return .cvtToF (← decodeReg) (← decodeReg)
  | .addI => decodeBinaryI .add
  | .subI => decodeBinaryI .sub
  | .mulI => decodeBinaryI .mul
  | .divI => decodeBinaryI .div
  | .modI => decodeBinaryI .mod
  | .powI => decodeBinaryI .pow
  | .uDivI => decodeBinaryI .uDiv
  | .uModI => decodeBinaryI .uMod
  | .addF => decodeBinaryF .add
  | .subF => decodeBinaryF .sub
  | .mulF => decodeBinaryF .mul
  | .divF => decodeBinaryF .div
  | .powF => decodeBinaryF .pow
  | .modF => decodeBinaryF .mod
  | .addG => decodeBinaryG .add
  | .subG => decodeBinaryG .sub
  | .mulG => decodeBinaryG .mul
  | .divG => decodeBinaryG .div
  | .negI => decodeUnaryI .neg
  | .negF => do return .unaryF ((UnaryFloatOp.tryFrom (← decodeU8)).getD .neg) (← decodeReg) (← decodeReg)
  | .absI => decodeUnaryI .abs
  | .absF => do return .unaryF .abs (← decodeReg) (← decodeReg)
  | .inc => decodeUnaryI .inc
  | .dec => decodeUnaryI .dec
  | .not => do return .not (← decodeReg) (← decodeReg)
  | .band => decodeBitwise .and
  | .bor => decodeBitwise .or
  | .bxor => decodeBitwise .xor
  | .bnot => decodeBitwise .not
  | .shl => decodeBitwise .shl
  | .shr => decodeBitwise .shr
  | .ushr => decodeBitwise .ushr
  | .eqI => decodeCmpI .eq
  | .neI => decodeCmpI .ne
  | .ltI => decodeCmpI .lt
  | .leI => decodeCmpI .le
  | .gtI => decodeCmpI .gt
  | .geI => decodeCmpI .ge
  | .eqF => decodeCmpF .eq
  | .neF => decodeCmpF .ne
  | .ltF => decodeCmpF .lt
  | .leF => decodeCmpF .le
  | .gtF => decodeCmpF .gt
  | .geF => decodeCmpF .ge
  | .eqG => do return .cmpG true (← decodeReg) (← decodeReg) (← decodeReg) (← decodeU32)
  | .cmpG => do return .cmpG false (← decodeReg) (← decodeReg) (← decodeReg) (← decodeU32)
  | .eqRef => do return .cmpI .eq (← decodeReg) (← decodeReg) (← decodeReg)
  | .cmpExtended => do
    let subByte ← decodeU8
    match CmpSubOpcode.fromByte subByte with
    | none => fail (.invalidOpcode subByte)
    | some subOp => do return .cmpU subOp (← decodeReg) (← decodeReg) (← decodeReg)
  | .and => decodeBitwise .and
  | .or => decodeBitwise .or
  | .xor => decodeBitwise .xor
  | .jmp => do return .jmp (← decodeI32)
  | .jmpIf => do return .jmpIf (← decodeReg) (← decodeI32)
  | .jmpNot => do return .jmpNot (← decodeReg) (← decodeI32)
  | .jmpEq => decodeJmpCmp .eq
  | .jmpNe => decodeJmpCmp .ne
  | .jmpLt => decodeJmpCmp .lt
  | .jmpLe => decodeJmpCmp .le
  | .jmpGt => decodeJmpCmp .gt
  | .jmpGe => decodeJmpCmp .ge
  | .ret => do return .ret (← decodeReg)
  | .retV => return .retV
  | .call => do return .call (← decodeReg) (← decodeU32) (← decodeRegRange)
  | .tailCall => do return .tailCall (← decodeU32) (← decodeRegRange)
  | .callM => do return .callM (← decodeReg) (← decodeReg) (← decodeU32) (← decodeRegRange)
  | .callClosure => do return .callClosure (← decodeReg) (← decodeReg) (← decodeRegRange)
  | .newClosure => do return .newClosure (← decodeReg) (← decodeU32) (← decodeRegVec) none []
  | .new => do return .new (← decodeReg) (← decodeU32) (← decodeU32)
  | .newG => do return .newG (← decodeReg) (← decodeU32) (← decodeRegVec)
  | .getF => do return .getF (← decodeReg) (← decodeReg) (← decodeU32)
  | .setF => do return .setF (← decodeReg) (← decodeU32) (← decodeReg)
  | .getE => do return .getE (← decodeReg) (← decodeReg) (← decodeReg)
  | .setE => do return .setE (← decodeReg) (← decodeReg) (← decodeReg)
  | .len => do return .len (← decodeReg) (← decodeReg) (← decodeTypeHint)
  | .newArray => return .raw .newArray []
  | .newList => do return .newList (← decodeReg) (← decodeU16)
  | .listPush => do return .listPush (← decodeReg) (← decodeReg)
  | .listPop => do return .listPop (← decodeReg) (← decodeReg)
  | .newMap => do return .newMap (← decodeReg) (← decodeU16)
  | .mapGet => do return .mapGet (← decodeReg) (← decodeReg) (← decodeReg)
  | .mapSet => do return .mapSet (← decodeReg) (← decodeReg) (← decodeReg)
  | .mapContains => do return .mapContains (← decodeReg) (← decodeReg) (← decodeReg)
  | .ref => do return .ref (← decodeReg) (← decodeReg)
  | .refMut => do return .refMut (← decodeReg) (← decodeReg)
  | .refLocal => do return .refLocal (← decodeReg) (← decodeReg)
  | .refObj => do return .refObj (← decodeReg) (← decodeReg)
  | .deref => do return .deref (← decodeReg) (← decodeReg)
  | .derefMut => do return .derefMut (← decodeReg) (← decodeReg)
  | .chkRef => do return .chkRef (← decodeReg)
  | .refChecked => do return .refChecked (← decodeReg) (← decodeReg)
  | .refUnsafe => do return .refUnsafe (← decodeReg) (← decodeReg)
  | .dropRef => do return .dropRef (← decodeReg)
  | .clone => do return .clone (← decodeReg) (← decodeReg)
  | .callG => do return .callG (← decodeReg) (← decodeU32) (← decodeTypeRefVec) (← decodeRegRange)
  | .callV => do return .callV (← decodeReg) (← decodeReg) (← decodeU32) (← decodeRegRange)
  | .callC => do return .callC (← decodeReg) (← decodeU32) (← decodeRegRange)
  | .sizeOfG => refuseToGuess "SizeOfG"
  | .alignOfG => refuseToGuess "AlignOfG"
  | .instantiate => refuseToGuess "Instantiate"
  | .isVar => do return .isVar (← decodeReg) (← decodeReg) (← decodeU32)
  | .isType => do return .isType (← decodeReg) (← decodeReg) (← decodeU32)
  | .asVar => do return .asVar (← decodeReg) (← decodeReg) (← decodeU32)
  | .unpack => do return .unpack (← decodeReg) (← decodeReg) (← decodeU8)
  | .pack => do return .pack (← decodeReg) (← decodeReg) (← decodeU8)
  | .switch => do return .switch (← decodeReg) (← decodeI32) (← decodeVec decodeCase)
  | .matchGuard => return .raw .matchGuard []
  | .genCreate => do return .genCreate (← decodeReg) (← decodeU32) (← decodeRegRange)
  | .genNext => do return .genNext (← decodeReg) (← decodeReg)
  | .genHasNext => do return .genHasNext (← decodeReg) (← decodeReg)
  | .spawn => do return .spawn (← decodeReg) (← decodeU32) (← decodeRegRange)
  | .await => do return .await (← decodeReg) (← decodeReg)
  | .yield => do return .yield (← decodeReg)
  | .asyncYield => return .asyncYield
  | .select => do return .select (← decodeReg) (← decodeRegVec) (← decodeVec decodeI32)
  | .join => return .raw .join []
  | .gradBegin => do return .gradBegin (← decodeU32) (GradMode.fromByte (← decodeU8)) (← decodeRegVec)
  | .gradEnd => do return .gradEnd (← decodeU32) (← decodeReg) (← decodeReg) (← decodeRegVec)
  | .gradCheckpoint => do return .gradCheckpoint (← decodeU32) (← decodeRegVec)
  | .gradAccumulate => do return .gradAccumulate (← decodeReg) (← decodeReg)
  | .gradStop => do return .gradStop (← decodeReg) (← decodeReg)
  | .ctxGet => do return .ctxGet (← decodeReg) (← decodeU32)
  | .ctxProvide => do return .ctxProvide (← decodeU32) (← decodeReg) (← decodeI32)
  | .ctxEnd => return .ctxEnd
  | .spec => do return .spec (← decodeReg) (← decodeU32)
  | .guard => do return .guard (← decodeReg) (← decodeU32) (← decodeI32)
  | .assert => do return .assert (← decodeReg) (← decodeU32)
  | .panic => do return .panic (← decodeU32)
  | .unreachable => return .unreachable
  | .requires => return .raw .requires []
  | .ensures => return .raw .ensures []
  | .invariant => return .raw .invariant []
  | .tensorExtended => decodeTensorExtended
  | .gpuSync => do return .gpuSync (← decodeReg)
  | .gpuMemcpy => do return .gpuMemcpy (← decodeReg) (← decodeReg) (← decodeU8)
  | .gpuAlloc => do return .gpuAlloc (← decodeReg) (← decodeReg) (← decodeReg)
  | .gpuExtended => do return .gpuExtended (← decodeU8) (← decodeBytes).bytes
  | .metaQuote => do return .metaQuote (← decodeReg) (← decodeU32)
  | .metaSplice => do return .metaSplice (← decodeReg)
  | .metaEval => do return .metaEval (← decodeReg) (← decodeReg)
  | .metaReflect => do return .metaReflect (← decodeReg) (← decodeU32)
  | .memExtended => do return .memExtended (← decodeU8) (← decodeBytes).bytes
  | .mlExtended => decodeMlExtended
  | .extended => decodeExtended
  | .arithExtended => do return .arithExtended (← decodeU8) (← decodeBytes).bytes
  | .ffiExtended => do return .ffiExtended (← decodeU8) (← decodeBytes).bytes
  | .timeExtended => do return .timeExtended (← decodeU8) (← decodeBytes).bytes
  | .sysExtended => do return .sysExtended (← decodeU8) (← decodeBytes).bytes
  | .machExtended => do return .machExtended (← decodeU8) (← decodeBytes).bytes
  | .syncExtended => do return .syncExtended (← decodeU8) (← decodeBytes).bytes
  | .mathExtended => do return .mathExtended (← decodeU8) (← decodeBytes).bytes
  | .simdExtended => do return .simdExtended (← decodeU8) (← decodeBytes).bytes
  | .charExtended => do return .charExtended (← decodeU8) (← decodeBytes).bytes
  | .cbgrExtended => do return .cbgrExtended (← decodeU8) (← decodeBytes).bytes
  | .textExtended => do return .textExtended (← decodeU8) (← decodeBytes).bytes
  | .logExtended => do return .logExtended (← decodeU8) (← decodeBytes).bytes
  | .iterNew => do return .iterNew (← decodeReg) (← decodeReg)
  | .iterNext => do return .iterNext (← decodeReg) (← decodeReg) (← decodeReg)
  | .atomicLoad => do return .atomicLoad (← decodeReg) (← decodeReg) (← decodeU8) (← decodeU8)
  | .atomicStore => do return .atomicStore (← decodeReg) (← decodeReg) (← decodeU8) (← decodeU8)
  | .atomicCas => do
    return .atomicCas (← decodeReg) (← decodeReg) (← decodeReg) (← decodeReg) (← decodeU8) (← decodeU8)
  | .atomicFence => do return .atomicFence (← decodeU8)
  | .nop => return .nop
  | .debugPrint => do return .debugPrint (← decodeReg)
  | .makePi => do return .makePi (← decodeReg) (← decodeReg) (← decodeU32)
  | .makeSigma => do return .makeSigma (← decodeReg) (← decodeReg) (← decodeReg)
  | .makeWitness => do return .makeWitness (← decodeReg) (← decodeReg) (← decodeU32)
  | .tlsGet => do return .tlsGet (← decodeReg) (← decodeReg)
  | .tlsSet => do return .tlsSet (← decodeReg) (← decodeReg)
  | .getVariantData => do return .getVariantData (← decodeReg) (← decodeReg) (← decodeU32)
  | .getVariantDataRef => do return .getVariantDataRef (← decodeReg) (← decodeReg) (← decodeU32)
  | .concat => do return .concat (← decodeReg) (← decodeReg) (← decodeReg)
  | .toString => do return .toString (← decodeReg) (← decodeReg)
  | .charToStr => do return .charToStr (← decodeReg) (← decodeReg)
  | .makeVariant => do return .makeVariant (← decodeReg) (← decodeU32) (← decodeU32)
  | .setVariantData => do return .setVariantData (← decodeReg) (← decodeU32) (← decodeReg)
  | .getTag => do return .getTag (← decodeReg) (← decodeReg)
  | .push => do return .push (← decodeReg)
  | .pop => do return .pop (← decodeReg)
  | .callR => do return .callR (← decodeReg) (← decodeReg) (← decodeU8)
  | .throw => do return .throw (← decodeReg)
  | .tryBegin => do return .tryBegin (← decodeI32)
  | .tryEnd => return .tryEnd
  | .getException => do return .getException (← decodeReg)
  | .futureReady => do return .futureReady (← decodeReg) (← decodeReg)
  | .futureGet => do return .futureGet (← decodeReg) (← decodeReg)
  | .asyncNext => do return .asyncNext (← decodeReg) (← decodeReg)
  | .pushContext => do return .pushContext (← decodeU32) (← decodeReg)
  | .popContext => do return .popContext (← decodeU32)
  | .attenuate => do return .attenuate (← decodeReg) (← decodeReg) (← decodeU32)
  | .newSet => do return .newSet (← decodeReg) (← decodeU16)
  | .newDeque => do return .newDeque (← decodeReg) (← decodeU16)
  | .newRange => do return .newRange (← decodeReg) (← decodeReg) (← decodeReg) (← decodeFlag)
  | .setInsert => do return .setInsert (← decodeReg) (← decodeReg)
  | .setContains => do return .setContains (← decodeReg) (← decodeReg) (← decodeReg)
  | .setRemove => do return .setRemove (← decodeReg) (← decodeReg)
  | .syscallLinux => do
    return .syscallLinux (← decodeReg) (← decodeReg) (← decodeReg) (← decodeReg) (← decodeReg) (← decodeReg)
      (← decodeReg) (← decodeReg)
  | .mmap => do
    return .mmap (← decodeReg) (← decodeReg) (← decodeReg) (← decodeReg) (← decodeReg) (← decodeReg)
      (← decodeReg)
  | .munmap => do return .munmap (← decodeReg) (← decodeReg) (← decodeReg)
  | .ioSubmit => do return .ioSubmit (← decodeReg) (← decodeReg) (← decodeReg)
  | .ioPoll => do return .ioPoll (← decodeReg) (← decodeReg) (← decodeReg)
  | .nurseryInit => do return .nurseryInit (← decodeReg)
  | .nurseryConfig => decodeNurseryConfig
  | .nurserySpawn => do return .nurserySpawn (← decodeReg) (← decodeReg) (← decodeReg)
  | .nurseryAwait => do
    let success ← decodeReg
    let nursery ← decodeReg
    return .nurseryAwaitAll nursery success
  | .nurseryError => do
    let dst ← decodeReg
    let nursery ← decodeReg
    return .nurseryGetError nursery dst
  | .nurseryCancel => do return .nurseryCancel (← decodeReg)
  | .cubicalExtended => do
    let subOp ← decodeU8
    let dst ← decodeReg
    let argsLen ← decodeU8
    let args ← repeatN decodeReg argsLen.toNat
    return .cubicalExtended subOp dst args
  | opcode => return .raw opcode []

def decodeInstruction : Decode Instruction := do
  let opcodeByte ← decodeU8
  if Opcode.reclaimed opcodeByte then fail (.invalidOpcode opcodeByte)
  else decodeInstructionBody (Opcode.fromByte opcodeByte)

/-- `while offset < data.len()`. Every instruction consumes a byte, so the length bounds the rounds. -/
def decodeInstructionsFuel : Nat → Decode (List Instruction)
  | 0 => crash .outOfFuel
  | fuel + 1 => do
    let offset ← position
    let len ← dataLen
    if offset < len then do
      let instr ← decodeInstruction
      let instructions ← decodeInstructionsFuel fuel
      return instr :: instructions
    else return []

def decodeInstructions (data : Slice) : Result (List Instruction) :=
  decodeInstructionsFuel (data.length + 1) data 0

end Vbc
