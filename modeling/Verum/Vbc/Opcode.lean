import Mathlib.Data.List.Basic

namespace Vbc

inductive Opcode where
  | mov | loadK | loadI | loadF | loadTrue | loadFalse | loadUnit | loadT | loadSmallI | loadNil | nop | cvtIF
  | cvtFI | cvtIC | cvtCI | cvtBI | addI | subI | mulI | divI | modI | negI | absI | powI | inc | dec | cvtToI
  | uDivI | uModI | intArith1D | intArith1E | extended | addF | subF | mulF | divF | modF | negF | absF | powF
  | cvtToF | mathExtended | simdExtended | charExtended | floatArith2C | floatArith2D | floatArith2E
  | floatArith2F | band | bor | bxor | bnot | shl | shr | ushr | bitwise37 | addG | subG | mulG | divG
  | genArith3C | genArith3D | genArith3E | genArith3F | eqI | neI | ltI | leI | gtI | geI | eqF | neF | ltF
  | leF | gtF | geF | eqG | cmpG | eqRef | cmpExtended | jmp | jmpIf | jmpNot | jmpEq | jmpNe | jmpLt | jmpLe
  | jmpGt | jmpGe | ret | retV | call | tailCall | callM | callClosure | callR | new | newG | getF | setF
  | getE | setE | len | newArray | newList | listPush | listPop | newMap | mapGet | mapSet | mapContains
  | clone | ref | refMut | deref | derefMut | chkRef | refChecked | refUnsafe | dropRef | cbgrExtended
  | textExtended | refLocal | refObj | cbgr7C | cbgr7D | cbgr7E | cbgr7F | callG | callV | callC | sizeOfG
  | alignOfG | instantiate | makeVariant | setVariantData | getVariantData | getTag | newClosure
  | getVariantDataRef | typeOf | makePi | makeSigma | makeWitness | isVar | asVar | unpack | pack | switch
  | matchGuard | and | or | xor | not | isType | pattern9B | pattern9C | pattern9D | pattern9E | pattern9F
  | spawn | await | yield | select | join | futureReady | futureGet | asyncNext | nurseryInit | nurserySpawn
  | nurseryAwait | nurseryCancel | nurseryConfig | nurseryError | asyncYield | asyncAF | ctxGet | ctxProvide
  | ctxEnd | pushContext | popContext | attenuate | hasCapability | requireCapability | metaEval | metaQuote
  | metaSplice | metaReflect | ffiExtended | arithExtended | logExtended | memExtended | iterNew | iterNext
  | genCreate | genNext | genHasNext | toString | concat | newSet | setInsert | setContains | setRemove
  | charToStr | newRange | newDeque | push | pop | throw | tryBegin | tryEnd | getException | spec | guard
  | assert | panic | unreachable | debugPrint | requires | ensures | invariant | newChannel | cubicalExtended
  | debugDF | syscallLinux | mmap | munmap | atomicLoad | atomicStore | atomicCas | atomicFence | ioSubmit
  | ioPoll | tlsGet | tlsSet | gradBegin | gradEnd | gradCheckpoint | gradAccumulate | gradStop | timeExtended
  | sysExtended | machExtended | syncExtended | gpuExtended | gpuSync | gpuMemcpy | gpuAlloc | tensorExtended
  | mlExtended
  deriving DecidableEq

def Opcode.toByte : Opcode → UInt8
  | .mov => 0x00 | .loadK => 0x01 | .loadI => 0x02 | .loadF => 0x03 | .loadTrue => 0x04 | .loadFalse => 0x05
  | .loadUnit => 0x06 | .loadT => 0x07 | .loadSmallI => 0x08 | .loadNil => 0x09 | .nop => 0x0A | .cvtIF => 0x0B
  | .cvtFI => 0x0C | .cvtIC => 0x0D | .cvtCI => 0x0E | .cvtBI => 0x0F | .addI => 0x10 | .subI => 0x11
  | .mulI => 0x12 | .divI => 0x13 | .modI => 0x14 | .negI => 0x15 | .absI => 0x16 | .powI => 0x17
  | .inc => 0x18 | .dec => 0x19 | .cvtToI => 0x1A | .uDivI => 0x1B | .uModI => 0x1C | .intArith1D => 0x1D
  | .intArith1E => 0x1E | .extended => 0x1F | .addF => 0x20 | .subF => 0x21 | .mulF => 0x22 | .divF => 0x23
  | .modF => 0x24 | .negF => 0x25 | .absF => 0x26 | .powF => 0x27 | .cvtToF => 0x28 | .mathExtended => 0x29
  | .simdExtended => 0x2A | .charExtended => 0x2B | .floatArith2C => 0x2C | .floatArith2D => 0x2D
  | .floatArith2E => 0x2E | .floatArith2F => 0x2F | .band => 0x30 | .bor => 0x31 | .bxor => 0x32
  | .bnot => 0x33 | .shl => 0x34 | .shr => 0x35 | .ushr => 0x36 | .bitwise37 => 0x37 | .addG => 0x38
  | .subG => 0x39 | .mulG => 0x3A | .divG => 0x3B | .genArith3C => 0x3C | .genArith3D => 0x3D
  | .genArith3E => 0x3E | .genArith3F => 0x3F | .eqI => 0x40 | .neI => 0x41 | .ltI => 0x42 | .leI => 0x43
  | .gtI => 0x44 | .geI => 0x45 | .eqF => 0x46 | .neF => 0x47 | .ltF => 0x48 | .leF => 0x49 | .gtF => 0x4A
  | .geF => 0x4B | .eqG => 0x4C | .cmpG => 0x4D | .eqRef => 0x4E | .cmpExtended => 0x4F | .jmp => 0x50
  | .jmpIf => 0x51 | .jmpNot => 0x52 | .jmpEq => 0x53 | .jmpNe => 0x54 | .jmpLt => 0x55 | .jmpLe => 0x56
  | .jmpGt => 0x57 | .jmpGe => 0x58 | .ret => 0x59 | .retV => 0x5A | .call => 0x5B | .tailCall => 0x5C
  | .callM => 0x5D | .callClosure => 0x5E | .callR => 0x5F | .new => 0x60 | .newG => 0x61 | .getF => 0x62
  | .setF => 0x63 | .getE => 0x64 | .setE => 0x65 | .len => 0x66 | .newArray => 0x67 | .newList => 0x68
  | .listPush => 0x69 | .listPop => 0x6A | .newMap => 0x6B | .mapGet => 0x6C | .mapSet => 0x6D
  | .mapContains => 0x6E | .clone => 0x6F | .ref => 0x70 | .refMut => 0x71 | .deref => 0x72 | .derefMut => 0x73
  | .chkRef => 0x74 | .refChecked => 0x75 | .refUnsafe => 0x76 | .dropRef => 0x77 | .cbgrExtended => 0x78
  | .textExtended => 0x79 | .refLocal => 0x7A | .refObj => 0x7B | .cbgr7C => 0x7C | .cbgr7D => 0x7D
  | .cbgr7E => 0x7E | .cbgr7F => 0x7F | .callG => 0x80 | .callV => 0x81 | .callC => 0x82 | .sizeOfG => 0x83
  | .alignOfG => 0x84 | .instantiate => 0x85 | .makeVariant => 0x86 | .setVariantData => 0x87
  | .getVariantData => 0x88 | .getTag => 0x89 | .newClosure => 0x8A | .getVariantDataRef => 0x8B
  | .typeOf => 0x8C | .makePi => 0x8D | .makeSigma => 0x8E | .makeWitness => 0x8F | .isVar => 0x90
  | .asVar => 0x91 | .unpack => 0x92 | .pack => 0x93 | .switch => 0x94 | .matchGuard => 0x95 | .and => 0x96
  | .or => 0x97 | .xor => 0x98 | .not => 0x99 | .isType => 0x9A | .pattern9B => 0x9B | .pattern9C => 0x9C
  | .pattern9D => 0x9D | .pattern9E => 0x9E | .pattern9F => 0x9F | .spawn => 0xA0 | .await => 0xA1
  | .yield => 0xA2 | .select => 0xA3 | .join => 0xA4 | .futureReady => 0xA5 | .futureGet => 0xA6
  | .asyncNext => 0xA7 | .nurseryInit => 0xA8 | .nurserySpawn => 0xA9 | .nurseryAwait => 0xAA
  | .nurseryCancel => 0xAB | .nurseryConfig => 0xAC | .nurseryError => 0xAD | .asyncYield => 0xAE
  | .asyncAF => 0xAF | .ctxGet => 0xB0 | .ctxProvide => 0xB1 | .ctxEnd => 0xB2 | .pushContext => 0xB3
  | .popContext => 0xB4 | .attenuate => 0xB5 | .hasCapability => 0xB6 | .requireCapability => 0xB7
  | .metaEval => 0xB8 | .metaQuote => 0xB9 | .metaSplice => 0xBA | .metaReflect => 0xBB | .ffiExtended => 0xBC
  | .arithExtended => 0xBD | .logExtended => 0xBE | .memExtended => 0xBF | .iterNew => 0xC0 | .iterNext => 0xC1
  | .genCreate => 0xC2 | .genNext => 0xC3 | .genHasNext => 0xC4 | .toString => 0xC5 | .concat => 0xC6
  | .newSet => 0xC7 | .setInsert => 0xC8 | .setContains => 0xC9 | .setRemove => 0xCA | .charToStr => 0xCB
  | .newRange => 0xCC | .newDeque => 0xCD | .push => 0xCE | .pop => 0xCF | .throw => 0xD0 | .tryBegin => 0xD1
  | .tryEnd => 0xD2 | .getException => 0xD3 | .spec => 0xD4 | .guard => 0xD5 | .assert => 0xD6 | .panic => 0xD7
  | .unreachable => 0xD8 | .debugPrint => 0xD9 | .requires => 0xDA | .ensures => 0xDB | .invariant => 0xDC
  | .newChannel => 0xDD | .cubicalExtended => 0xDE | .debugDF => 0xDF | .syscallLinux => 0xE0 | .mmap => 0xE1
  | .munmap => 0xE2 | .atomicLoad => 0xE3 | .atomicStore => 0xE4 | .atomicCas => 0xE5 | .atomicFence => 0xE6
  | .ioSubmit => 0xE7 | .ioPoll => 0xE8 | .tlsGet => 0xE9 | .tlsSet => 0xEA | .gradBegin => 0xEB
  | .gradEnd => 0xEC | .gradCheckpoint => 0xED | .gradAccumulate => 0xEE | .gradStop => 0xEF
  | .timeExtended => 0xF0 | .sysExtended => 0xF1 | .machExtended => 0xF2 | .syncExtended => 0xF3
  | .gpuExtended => 0xF8 | .gpuSync => 0xF9 | .gpuMemcpy => 0xFA | .gpuAlloc => 0xFB | .tensorExtended => 0xFC
  | .mlExtended => 0xFD

def Opcode.all : List Opcode :=
  [.mov, .loadK, .loadI, .loadF, .loadTrue, .loadFalse, .loadUnit, .loadT, .loadSmallI, .loadNil, .nop, .cvtIF,
   .cvtFI, .cvtIC, .cvtCI, .cvtBI, .addI, .subI, .mulI, .divI, .modI, .negI, .absI, .powI, .inc, .dec, .cvtToI,
   .uDivI, .uModI, .intArith1D, .intArith1E, .extended, .addF, .subF, .mulF, .divF, .modF, .negF, .absF, .powF,
   .cvtToF, .mathExtended, .simdExtended, .charExtended, .floatArith2C, .floatArith2D, .floatArith2E,
   .floatArith2F, .band, .bor, .bxor, .bnot, .shl, .shr, .ushr, .bitwise37, .addG, .subG, .mulG, .divG,
   .genArith3C, .genArith3D, .genArith3E, .genArith3F, .eqI, .neI, .ltI, .leI, .gtI, .geI, .eqF, .neF, .ltF,
   .leF, .gtF, .geF, .eqG, .cmpG, .eqRef, .cmpExtended, .jmp, .jmpIf, .jmpNot, .jmpEq, .jmpNe, .jmpLt, .jmpLe,
   .jmpGt, .jmpGe, .ret, .retV, .call, .tailCall, .callM, .callClosure, .callR, .new, .newG, .getF, .setF,
   .getE, .setE, .len, .newArray, .newList, .listPush, .listPop, .newMap, .mapGet, .mapSet, .mapContains,
   .clone, .ref, .refMut, .deref, .derefMut, .chkRef, .refChecked, .refUnsafe, .dropRef, .cbgrExtended,
   .textExtended, .refLocal, .refObj, .cbgr7C, .cbgr7D, .cbgr7E, .cbgr7F, .callG, .callV, .callC, .sizeOfG,
   .alignOfG, .instantiate, .makeVariant, .setVariantData, .getVariantData, .getTag, .newClosure,
   .getVariantDataRef, .typeOf, .makePi, .makeSigma, .makeWitness, .isVar, .asVar, .unpack, .pack, .switch,
   .matchGuard, .and, .or, .xor, .not, .isType, .pattern9B, .pattern9C, .pattern9D, .pattern9E, .pattern9F,
   .spawn, .await, .yield, .select, .join, .futureReady, .futureGet, .asyncNext, .nurseryInit, .nurserySpawn,
   .nurseryAwait, .nurseryCancel, .nurseryConfig, .nurseryError, .asyncYield, .asyncAF, .ctxGet, .ctxProvide,
   .ctxEnd, .pushContext, .popContext, .attenuate, .hasCapability, .requireCapability, .metaEval, .metaQuote,
   .metaSplice, .metaReflect, .ffiExtended, .arithExtended, .logExtended, .memExtended, .iterNew, .iterNext,
   .genCreate, .genNext, .genHasNext, .toString, .concat, .newSet, .setInsert, .setContains, .setRemove,
   .charToStr, .newRange, .newDeque, .push, .pop, .throw, .tryBegin, .tryEnd, .getException, .spec, .guard,
   .assert, .panic, .unreachable, .debugPrint, .requires, .ensures, .invariant, .newChannel, .cubicalExtended,
   .debugDF, .syscallLinux, .mmap, .munmap, .atomicLoad, .atomicStore, .atomicCas, .atomicFence, .ioSubmit,
   .ioPoll, .tlsGet, .tlsSet, .gradBegin, .gradEnd, .gradCheckpoint, .gradAccumulate, .gradStop, .timeExtended,
   .sysExtended, .machExtended, .syncExtended, .gpuExtended, .gpuSync, .gpuMemcpy, .gpuAlloc, .tensorExtended,
   .mlExtended]

def Opcode.reclaimed (byte : UInt8) : Bool := (0xF4 ≤ byte && byte ≤ 0xF7) || byte = 0xFE || byte = 0xFF

/-- Reinterprets a byte as the opcode with that discriminant: these run through 0x00 to 0xF3 and
    0xF8 to 0xFD in the order of the declaration. -/
def Opcode.transmute (byte : UInt8) : Opcode :=
  Opcode.all.getD (if byte < 0xF4 then byte.toNat else byte.toNat - 4) .unreachable

def Opcode.fromByte (byte : UInt8) : Opcode :=
  if Opcode.reclaimed byte then .unreachable else Opcode.transmute byte

inductive TensorSubOpcode where
  | pool | newFromArgs | fillFromArgs | fromSliceArgs | argmin | nansum | nanmean | binopFromArgs
  | unopFromArgs | matmulFromArgs | reduceFromArgs | reshapeFromArgs | transposeFromArgs | sliceFromArgs
  | getElementFromArgs | setElementFromArgs | gather | permute | flip | roll | solve | lstsq | triSolve | qr
  | svd | lu | eig | eigSymmetric | schur | det | rank | cond | trace | norm | kron | cross | contract
  | matrixPower | expm | logm | inverse | rfft | irfft | complexMul | complexPow | ssmScan | uniform | bincount
  | gatherNd | arangeUsize | repeat | tanh | sumAll | fromArray | isTraining | randomFloat01 | maskedSelect
  | leakyRelu | diag | triu | tril | nonzero | oneHot | split | splitAt | getScalar | tokenizerLoadBpe
  | tokenizerLoadPretrained | tokenizerEncode | tokenizerDecode | tokenizerLoadSpm | tokenizerSpmEncode
  | tokenizerSpmDecode | sampleTopP | sampleTemperature | pagedAttention | parseToolCall | formatValue
  | tensorFromSliceUsize | quantizedMatmul | tensorNorm | generateRequestId | jsonSchemaToJson
  | functionSchemaToJson | parseFunctionCalls | allReduce | allGather | broadcast | reduceScatter | barrier
  | pmapPsum | pmapPmean | pmapPmax | pmapAllGather | vmapTransform | pmapTransform | distWorldGroup
  | distNewGroup | distGetRank | p2PSend | p2PRecv | collectiveGather | collectiveScatter | bucketGradients
  | getGrad | setGrad | moduleBackward | meshSelect | actorNewId | rdmaCreateRef | rdmaFetch | rdmaWrite
  | rdmaCheckValid | unsqueeze | setScalar | contiguous | toDevice | regexFindAll | regexReplaceAll
  | regexIsMatch | regexSplit | arange | linspace | rand | clone | identity | index | concat | stack
  | broadcastToShape | squeeze | cmp | where | clamp | cast | maskedFill | lerp | dot | conv | batchMatmul
  | einsum | outer | cholesky | argmax | topk | cumulative | softmax | layerNorm | batchNorm
  deriving DecidableEq

def TensorSubOpcode.toByte : TensorSubOpcode → UInt8
  | .pool => 0x00 | .newFromArgs => 0x0D | .fillFromArgs => 0x0E | .fromSliceArgs => 0x0F | .argmin => 0x10
  | .nansum => 0x11 | .nanmean => 0x12 | .binopFromArgs => 0x13 | .unopFromArgs => 0x14
  | .matmulFromArgs => 0x15 | .reduceFromArgs => 0x16 | .reshapeFromArgs => 0x17 | .transposeFromArgs => 0x18
  | .sliceFromArgs => 0x19 | .getElementFromArgs => 0x1A | .setElementFromArgs => 0x1B | .gather => 0x20
  | .permute => 0x21 | .flip => 0x22 | .roll => 0x23 | .solve => 0x30 | .lstsq => 0x31 | .triSolve => 0x32
  | .qr => 0x40 | .svd => 0x41 | .lu => 0x42 | .eig => 0x43 | .eigSymmetric => 0x44 | .schur => 0x45
  | .det => 0x60 | .rank => 0x61 | .cond => 0x62 | .trace => 0x63 | .norm => 0x64 | .kron => 0x70
  | .cross => 0x71 | .contract => 0x72 | .matrixPower => 0x73 | .expm => 0x74 | .logm => 0x75
  | .inverse => 0x76 | .rfft => 0x77 | .irfft => 0x78 | .complexMul => 0x79 | .complexPow => 0x7A
  | .ssmScan => 0x7B | .uniform => 0x7C | .bincount => 0x7D | .gatherNd => 0x7E | .arangeUsize => 0x7F
  | .repeat => 0x80 | .tanh => 0x81 | .sumAll => 0x82 | .fromArray => 0x83 | .isTraining => 0x84
  | .randomFloat01 => 0x85 | .maskedSelect => 0x86 | .leakyRelu => 0x87 | .diag => 0x88 | .triu => 0x89
  | .tril => 0x8A | .nonzero => 0x8B | .oneHot => 0x8C | .split => 0x8D | .splitAt => 0x8E | .getScalar => 0x8F
  | .tokenizerLoadBpe => 0x90 | .tokenizerLoadPretrained => 0x91 | .tokenizerEncode => 0x92
  | .tokenizerDecode => 0x93 | .tokenizerLoadSpm => 0x94 | .tokenizerSpmEncode => 0x95
  | .tokenizerSpmDecode => 0x96 | .sampleTopP => 0xA0 | .sampleTemperature => 0xA1 | .pagedAttention => 0xA2
  | .parseToolCall => 0xB0 | .formatValue => 0xB1 | .tensorFromSliceUsize => 0xB2 | .quantizedMatmul => 0xB3
  | .tensorNorm => 0xB4 | .generateRequestId => 0xB5 | .jsonSchemaToJson => 0xB6
  | .functionSchemaToJson => 0xB7 | .parseFunctionCalls => 0xB8 | .allReduce => 0xC0 | .allGather => 0xC1
  | .broadcast => 0xC2 | .reduceScatter => 0xC3 | .barrier => 0xC4 | .pmapPsum => 0xC5 | .pmapPmean => 0xC6
  | .pmapPmax => 0xC7 | .pmapAllGather => 0xC8 | .vmapTransform => 0xC9 | .pmapTransform => 0xCA
  | .distWorldGroup => 0xCB | .distNewGroup => 0xCC | .distGetRank => 0xCD | .p2PSend => 0xCE
  | .p2PRecv => 0xCF | .collectiveGather => 0xD0 | .collectiveScatter => 0xD1 | .bucketGradients => 0xD2
  | .getGrad => 0xD3 | .setGrad => 0xD4 | .moduleBackward => 0xD5 | .meshSelect => 0xD6 | .actorNewId => 0xD7
  | .rdmaCreateRef => 0xD8 | .rdmaFetch => 0xD9 | .rdmaWrite => 0xDA | .rdmaCheckValid => 0xDB
  | .unsqueeze => 0xDC | .setScalar => 0xDD | .contiguous => 0xDE | .toDevice => 0xDF | .regexFindAll => 0xE0
  | .regexReplaceAll => 0xE1 | .regexIsMatch => 0xE2 | .regexSplit => 0xE3 | .arange => 0xE4
  | .linspace => 0xE5 | .rand => 0xE6 | .clone => 0xE7 | .identity => 0xE8 | .index => 0xE9 | .concat => 0xEA
  | .stack => 0xEB | .broadcastToShape => 0xEC | .squeeze => 0xED | .cmp => 0xEE | .where => 0xEF
  | .clamp => 0xF0 | .cast => 0xF1 | .maskedFill => 0xF2 | .lerp => 0xF3 | .dot => 0xF4 | .conv => 0xF5
  | .batchMatmul => 0xF6 | .einsum => 0xF7 | .outer => 0xF8 | .cholesky => 0xF9 | .argmax => 0xFA
  | .topk => 0xFB | .cumulative => 0xFC | .softmax => 0xFD | .layerNorm => 0xFE | .batchNorm => 0xFF

def TensorSubOpcode.all : List TensorSubOpcode :=
  [.pool, .newFromArgs, .fillFromArgs, .fromSliceArgs, .argmin, .nansum, .nanmean, .binopFromArgs,
   .unopFromArgs, .matmulFromArgs, .reduceFromArgs, .reshapeFromArgs, .transposeFromArgs, .sliceFromArgs,
   .getElementFromArgs, .setElementFromArgs, .gather, .permute, .flip, .roll, .solve, .lstsq, .triSolve, .qr,
   .svd, .lu, .eig, .eigSymmetric, .schur, .det, .rank, .cond, .trace, .norm, .kron, .cross, .contract,
   .matrixPower, .expm, .logm, .inverse, .rfft, .irfft, .complexMul, .complexPow, .ssmScan, .uniform,
   .bincount, .gatherNd, .arangeUsize, .repeat, .tanh, .sumAll, .fromArray, .isTraining, .randomFloat01,
   .maskedSelect, .leakyRelu, .diag, .triu, .tril, .nonzero, .oneHot, .split, .splitAt, .getScalar,
   .tokenizerLoadBpe, .tokenizerLoadPretrained, .tokenizerEncode, .tokenizerDecode, .tokenizerLoadSpm,
   .tokenizerSpmEncode, .tokenizerSpmDecode, .sampleTopP, .sampleTemperature, .pagedAttention, .parseToolCall,
   .formatValue, .tensorFromSliceUsize, .quantizedMatmul, .tensorNorm, .generateRequestId, .jsonSchemaToJson,
   .functionSchemaToJson, .parseFunctionCalls, .allReduce, .allGather, .broadcast, .reduceScatter, .barrier,
   .pmapPsum, .pmapPmean, .pmapPmax, .pmapAllGather, .vmapTransform, .pmapTransform, .distWorldGroup,
   .distNewGroup, .distGetRank, .p2PSend, .p2PRecv, .collectiveGather, .collectiveScatter, .bucketGradients,
   .getGrad, .setGrad, .moduleBackward, .meshSelect, .actorNewId, .rdmaCreateRef, .rdmaFetch, .rdmaWrite,
   .rdmaCheckValid, .unsqueeze, .setScalar, .contiguous, .toDevice, .regexFindAll, .regexReplaceAll,
   .regexIsMatch, .regexSplit, .arange, .linspace, .rand, .clone, .identity, .index, .concat, .stack,
   .broadcastToShape, .squeeze, .cmp, .where, .clamp, .cast, .maskedFill, .lerp, .dot, .conv, .batchMatmul,
   .einsum, .outer, .cholesky, .argmax, .topk, .cumulative, .softmax, .layerNorm, .batchNorm]

def TensorSubOpcode.fromByte (byte : UInt8) : Option TensorSubOpcode := TensorSubOpcode.all.find? (·.toByte = byte)

inductive TensorExtSubOpcode where
  | rmsNorm | flashAttention | fft | scatter | contiguousView | randomU64 | randomFloat | globalAllocator
  | memNewId | memAllocTensor | regexFind | regexReplace | regexCaptures | permissionCheckWire
  | permissionAssert | permissionStatsRead | permissionStatsClear
  deriving DecidableEq

def TensorExtSubOpcode.toByte : TensorExtSubOpcode → UInt8
  | .rmsNorm => 0x00 | .flashAttention => 0x01 | .fft => 0x02 | .scatter => 0x03 | .contiguousView => 0x04
  | .randomU64 => 0x05 | .randomFloat => 0x06 | .globalAllocator => 0x07 | .memNewId => 0x08
  | .memAllocTensor => 0x09 | .regexFind => 0x0A | .regexReplace => 0x0B | .regexCaptures => 0x0C
  | .permissionCheckWire => 0x1C | .permissionAssert => 0x1D | .permissionStatsRead => 0x1E
  | .permissionStatsClear => 0x1F

def TensorExtSubOpcode.all : List TensorExtSubOpcode :=
  [.rmsNorm, .flashAttention, .fft, .scatter, .contiguousView, .randomU64, .randomFloat, .globalAllocator,
   .memNewId, .memAllocTensor, .regexFind, .regexReplace, .regexCaptures, .permissionCheckWire,
   .permissionAssert, .permissionStatsRead, .permissionStatsClear]

def TensorExtSubOpcode.fromByte (byte : UInt8) : Option TensorExtSubOpcode := TensorExtSubOpcode.all.find? (·.toByte = byte)

inductive ExtendedSubOpcode where
  | reserved | makeVariantTyped | setCallWitness | typeLayout | typeResource | newClosureTyped
  | newClosureWitnessed | dropTyped | bindMethodReceiver | processExit | scriptEngineNew | scriptEngineFree
  | scriptEngineEval | scriptOutcomeIsOk | scriptOutcomeKind | scriptOutcomeAsInt | scriptOutcomeAsFloat
  | scriptOutcomeAsBool | scriptOutcomeFree | scriptOutcomeAsText | scriptOutcomeError | scriptOutcomeStdout
  | scriptEngineNewSandboxed | scriptEngineSetGlobalInt | scriptEngineSetGlobalText | scriptGlobalKind
  | scriptGlobalInt | scriptGlobalText | scriptEngineRegister | scriptHostCallInt | scriptWorldNew
  | scriptWorldEval | scriptWorldFree | scriptSetInt | scriptSetText | scriptEngineSetGlobalBool
  | scriptEngineSetGlobalFloat | scriptGlobalBool | scriptGlobalFloat | scriptSetBool | scriptSetFloat
  | scriptOutcomeListLen | scriptOutcomeListElemKind | scriptOutcomeListElemInt | scriptOutcomeListElemFloat
  | scriptOutcomeListElemBool | scriptOutcomeListElemText | scriptOutcomeMapLen | scriptOutcomeMapKeyKind
  | scriptOutcomeMapKeyInt | scriptOutcomeMapKeyFloat | scriptOutcomeMapKeyBool | scriptOutcomeMapKeyText
  | scriptOutcomeMapValueKind | scriptOutcomeMapValueInt | scriptOutcomeMapValueFloat
  | scriptOutcomeMapValueBool | scriptOutcomeMapValueText | scriptOutcomeListElemSub | scriptOutcomeMapKeySub
  | scriptOutcomeMapValueSub | scriptGlobalList | scriptGlobalMap | scriptSetList | scriptSetMap
  | scriptEngineCall | getFieldNamed | setFieldNamed | scriptEngineCallArgs | scriptEngineLink2
  | scriptSessionCall | scriptSessionFree | scriptEngineLink | scriptEngineStdout | scriptEngineLastError
  | scriptEngineLastErrorKind | scriptEngineSetGlobalValue
  deriving DecidableEq

def ExtendedSubOpcode.toByte : ExtendedSubOpcode → UInt8
  | .reserved => 0x00 | .makeVariantTyped => 0x01 | .setCallWitness => 0x02 | .typeLayout => 0x05
  | .typeResource => 0x06 | .newClosureTyped => 0x07 | .newClosureWitnessed => 0x08 | .dropTyped => 0x09
  | .bindMethodReceiver => 0x0A | .processExit => 0x10 | .scriptEngineNew => 0x20 | .scriptEngineFree => 0x21
  | .scriptEngineEval => 0x22 | .scriptOutcomeIsOk => 0x23 | .scriptOutcomeKind => 0x24
  | .scriptOutcomeAsInt => 0x25 | .scriptOutcomeAsFloat => 0x26 | .scriptOutcomeAsBool => 0x27
  | .scriptOutcomeFree => 0x28 | .scriptOutcomeAsText => 0x29 | .scriptOutcomeError => 0x2A
  | .scriptOutcomeStdout => 0x2B | .scriptEngineNewSandboxed => 0x2C | .scriptEngineSetGlobalInt => 0x2D
  | .scriptEngineSetGlobalText => 0x2E | .scriptGlobalKind => 0x2F | .scriptGlobalInt => 0x30
  | .scriptGlobalText => 0x31 | .scriptEngineRegister => 0x32 | .scriptHostCallInt => 0x33
  | .scriptWorldNew => 0x34 | .scriptWorldEval => 0x35 | .scriptWorldFree => 0x36 | .scriptSetInt => 0x37
  | .scriptSetText => 0x38 | .scriptEngineSetGlobalBool => 0x39 | .scriptEngineSetGlobalFloat => 0x3A
  | .scriptGlobalBool => 0x3B | .scriptGlobalFloat => 0x3C | .scriptSetBool => 0x3D | .scriptSetFloat => 0x3E
  | .scriptOutcomeListLen => 0x3F | .scriptOutcomeListElemKind => 0x40 | .scriptOutcomeListElemInt => 0x41
  | .scriptOutcomeListElemFloat => 0x42 | .scriptOutcomeListElemBool => 0x43
  | .scriptOutcomeListElemText => 0x44 | .scriptOutcomeMapLen => 0x45 | .scriptOutcomeMapKeyKind => 0x46
  | .scriptOutcomeMapKeyInt => 0x47 | .scriptOutcomeMapKeyFloat => 0x48 | .scriptOutcomeMapKeyBool => 0x49
  | .scriptOutcomeMapKeyText => 0x4A | .scriptOutcomeMapValueKind => 0x4B | .scriptOutcomeMapValueInt => 0x4C
  | .scriptOutcomeMapValueFloat => 0x4D | .scriptOutcomeMapValueBool => 0x4E
  | .scriptOutcomeMapValueText => 0x4F | .scriptOutcomeListElemSub => 0x50 | .scriptOutcomeMapKeySub => 0x51
  | .scriptOutcomeMapValueSub => 0x52 | .scriptGlobalList => 0x53 | .scriptGlobalMap => 0x54
  | .scriptSetList => 0x55 | .scriptSetMap => 0x56 | .scriptEngineCall => 0x57 | .getFieldNamed => 0x03
  | .setFieldNamed => 0x04 | .scriptEngineCallArgs => 0x58 | .scriptEngineLink2 => 0x59
  | .scriptSessionCall => 0x5A | .scriptSessionFree => 0x5B | .scriptEngineLink => 0x5C
  | .scriptEngineStdout => 0x5D | .scriptEngineLastError => 0x5E | .scriptEngineLastErrorKind => 0x5F
  | .scriptEngineSetGlobalValue => 0x60

def ExtendedSubOpcode.all : List ExtendedSubOpcode :=
  [.reserved, .makeVariantTyped, .setCallWitness, .typeLayout, .typeResource, .newClosureTyped,
   .newClosureWitnessed, .dropTyped, .bindMethodReceiver, .processExit, .scriptEngineNew, .scriptEngineFree,
   .scriptEngineEval, .scriptOutcomeIsOk, .scriptOutcomeKind, .scriptOutcomeAsInt, .scriptOutcomeAsFloat,
   .scriptOutcomeAsBool, .scriptOutcomeFree, .scriptOutcomeAsText, .scriptOutcomeError, .scriptOutcomeStdout,
   .scriptEngineNewSandboxed, .scriptEngineSetGlobalInt, .scriptEngineSetGlobalText, .scriptGlobalKind,
   .scriptGlobalInt, .scriptGlobalText, .scriptEngineRegister, .scriptHostCallInt, .scriptWorldNew,
   .scriptWorldEval, .scriptWorldFree, .scriptSetInt, .scriptSetText, .scriptEngineSetGlobalBool,
   .scriptEngineSetGlobalFloat, .scriptGlobalBool, .scriptGlobalFloat, .scriptSetBool, .scriptSetFloat,
   .scriptOutcomeListLen, .scriptOutcomeListElemKind, .scriptOutcomeListElemInt, .scriptOutcomeListElemFloat,
   .scriptOutcomeListElemBool, .scriptOutcomeListElemText, .scriptOutcomeMapLen, .scriptOutcomeMapKeyKind,
   .scriptOutcomeMapKeyInt, .scriptOutcomeMapKeyFloat, .scriptOutcomeMapKeyBool, .scriptOutcomeMapKeyText,
   .scriptOutcomeMapValueKind, .scriptOutcomeMapValueInt, .scriptOutcomeMapValueFloat,
   .scriptOutcomeMapValueBool, .scriptOutcomeMapValueText, .scriptOutcomeListElemSub, .scriptOutcomeMapKeySub,
   .scriptOutcomeMapValueSub, .scriptGlobalList, .scriptGlobalMap, .scriptSetList, .scriptSetMap,
   .scriptEngineCall, .getFieldNamed, .setFieldNamed, .scriptEngineCallArgs, .scriptEngineLink2,
   .scriptSessionCall, .scriptSessionFree, .scriptEngineLink, .scriptEngineStdout, .scriptEngineLastError,
   .scriptEngineLastErrorKind, .scriptEngineSetGlobalValue]

def ExtendedSubOpcode.fromByte (byte : UInt8) : Option ExtendedSubOpcode := ExtendedSubOpcode.all.find? (·.toByte = byte)

inductive CmpSubOpcode where
  | ltU | leU | gtU | geU
  deriving DecidableEq

def CmpSubOpcode.toByte : CmpSubOpcode → UInt8
  | .ltU => 0x00 | .leU => 0x01 | .gtU => 0x02 | .geU => 0x03

def CmpSubOpcode.all : List CmpSubOpcode :=
  [.ltU, .leU, .gtU, .geU]

def CmpSubOpcode.fromByte (byte : UInt8) : Option CmpSubOpcode := CmpSubOpcode.all.find? (·.toByte = byte)

/-- The sub-opcodes that an encoder arm writes. -/
inductive GpuSubOpcode where
  | launch | streamCreate | streamCreateWithPriority | streamCreateNonBlocking | streamDestroy | streamQuery
  | streamWaitEvent | streamGetPriority | streamAddCallback | eventCreate | eventCreateWithFlags | eventDestroy
  | eventRecord | eventRecordWithFlags | eventSynchronize | eventQuery | eventElapsed | getDevice | setDevice
  | getDeviceCount | getDeviceProperty | getMemoryInfo | canAccessPeer | enablePeerAccess | disablePeerAccess
  | deviceReset | setDeviceFlags | memcpyAsync | free | pinMemory | unpinMemory | prefetch | memset
  | memsetAsync | memcpy2D | memcpy2DAsync | memcpyH2D | memcpyD2H | memcpyD2D | memcpyAsyncH2D
  | memcpyAsyncD2H | mallocManaged | memAdvise | prefetchAsync | memGetAttribute | graphCreate
  | graphBeginCapture | graphEndCapture | graphInstantiate | graphLaunch | graphDestroy | graphExecDestroy
  | graphExecUpdate | profileRangeStart | profileRangeEnd | profileMarkerPush | profileMarkerPop
  | enumerateCuda | enumerateMetal | enumerateRocm | enumerateVulkan | launchCooperative | launchMultiDevice
  | syncDevice
  deriving DecidableEq

def GpuSubOpcode.toByte : GpuSubOpcode → UInt8
  | .launch => 0x00 | .streamCreate => 0x30 | .streamCreateWithPriority => 0x34
  | .streamCreateNonBlocking => 0x36 | .streamDestroy => 0x31 | .streamQuery => 0x32 | .streamWaitEvent => 0x33
  | .streamGetPriority => 0x35 | .streamAddCallback => 0x37 | .eventCreate => 0x40
  | .eventCreateWithFlags => 0x46 | .eventDestroy => 0x41 | .eventRecord => 0x42
  | .eventRecordWithFlags => 0x47 | .eventSynchronize => 0x43 | .eventQuery => 0x44 | .eventElapsed => 0x45
  | .getDevice => 0x50 | .setDevice => 0x51 | .getDeviceCount => 0x52 | .getDeviceProperty => 0x53
  | .getMemoryInfo => 0x54 | .canAccessPeer => 0x55 | .enablePeerAccess => 0x56 | .disablePeerAccess => 0x57
  | .deviceReset => 0x58 | .setDeviceFlags => 0x59 | .memcpyAsync => 0x21 | .free => 0x23 | .pinMemory => 0x24
  | .unpinMemory => 0x25 | .prefetch => 0x26 | .memset => 0x27 | .memsetAsync => 0x28 | .memcpy2D => 0x29
  | .memcpy2DAsync => 0x2A | .memcpyH2D => 0x2B | .memcpyD2H => 0x2C | .memcpyD2D => 0x2D
  | .memcpyAsyncH2D => 0x2E | .memcpyAsyncD2H => 0x2F | .mallocManaged => 0x60 | .memAdvise => 0x61
  | .prefetchAsync => 0x62 | .memGetAttribute => 0x63 | .graphCreate => 0x70 | .graphBeginCapture => 0x71
  | .graphEndCapture => 0x72 | .graphInstantiate => 0x73 | .graphLaunch => 0x74 | .graphDestroy => 0x75
  | .graphExecDestroy => 0x76 | .graphExecUpdate => 0x77 | .profileRangeStart => 0x80
  | .profileRangeEnd => 0x81 | .profileMarkerPush => 0x82 | .profileMarkerPop => 0x83 | .enumerateCuda => 0x90
  | .enumerateMetal => 0x91 | .enumerateRocm => 0x92 | .enumerateVulkan => 0x93 | .launchCooperative => 0x01
  | .launchMultiDevice => 0x02 | .syncDevice => 0x11

inductive BinaryIntOp where
  | add | sub | mul | div | mod | pow | uDiv | uMod
  deriving DecidableEq

inductive BinaryFloatOp where
  | add | sub | mul | div | pow | mod
  deriving DecidableEq

inductive BinaryGenericOp where
  | add | sub | mul | div
  deriving DecidableEq

inductive UnaryIntOp where
  | neg | abs | inc | dec
  deriving DecidableEq

inductive BitwiseOp where
  | and | or | xor | not | shl | shr | ushr
  deriving DecidableEq

inductive FloatToIntMode where
  | trunc | floor | ceil | round
  deriving DecidableEq

def FloatToIntMode.toByte : FloatToIntMode → UInt8
  | .trunc => 0x00 | .floor => 0x01 | .ceil => 0x02 | .round => 0x03

inductive UnaryFloatOp where
  | neg | abs | sqrt | exp | log | sin | cos | tan | floor | ceil | round | asin | acos | atan | sinh | cosh
  | tanh | asinh | acosh | atanh | log10 | log2 | exp2 | cbrt | expm1 | ln1p | signum | trunc | fract | recip
  deriving DecidableEq

def UnaryFloatOp.toByte : UnaryFloatOp → UInt8
  | .neg => 0x00 | .abs => 0x01 | .sqrt => 0x02 | .exp => 0x03 | .log => 0x04 | .sin => 0x05 | .cos => 0x06
  | .tan => 0x07 | .floor => 0x08 | .ceil => 0x09 | .round => 0x0A | .asin => 0x0B | .acos => 0x0C
  | .atan => 0x0D | .sinh => 0x0E | .cosh => 0x0F | .tanh => 0x10 | .asinh => 0x11 | .acosh => 0x12
  | .atanh => 0x13 | .log10 => 0x14 | .log2 => 0x15 | .exp2 => 0x16 | .cbrt => 0x17 | .expm1 => 0x18
  | .ln1p => 0x19 | .signum => 0x1A | .trunc => 0x1B | .fract => 0x1C | .recip => 0x1D

inductive CompareOp where
  | eq | ne | lt | le | gt | ge
  deriving DecidableEq

def CompareOp.toByte : CompareOp → UInt8
  | .eq => 0x00 | .ne => 0x01 | .lt => 0x02 | .le => 0x03 | .gt => 0x04 | .ge => 0x05

inductive GradMode where
  | reverse | forward | auto
  deriving DecidableEq

def GradMode.toByte : GradMode → UInt8
  | .reverse => 0x00 | .forward => 0x01 | .auto => 0x02

inductive TensorDType where
  | f64 | f32 | f16 | bF16 | i64 | i32 | i16 | i8 | u64 | u32 | u16 | u8 | bool | complex64 | complex128
  deriving DecidableEq

def TensorDType.toByte : TensorDType → UInt8
  | .f64 => 0x00 | .f32 => 0x01 | .f16 => 0x02 | .bF16 => 0x03 | .i64 => 0x04 | .i32 => 0x05 | .i16 => 0x06
  | .i8 => 0x07 | .u64 => 0x08 | .u32 => 0x09 | .u16 => 0x0A | .u8 => 0x0B | .bool => 0x0C | .complex64 => 0x0D
  | .complex128 => 0x0E

inductive TensorCumulativeOp where
  | sum | prod | max | min
  deriving DecidableEq

def TensorCumulativeOp.toByte : TensorCumulativeOp → UInt8
  | .sum => 0x00 | .prod => 0x01 | .max => 0x02 | .min => 0x03

inductive TensorPoolOp where
  | max | avg | sum | adaptiveMax | adaptiveAvg
  deriving DecidableEq

def TensorPoolOp.toByte : TensorPoolOp → UInt8
  | .max => 0x00 | .avg => 0x01 | .sum => 0x02 | .adaptiveMax => 0x03 | .adaptiveAvg => 0x04

inductive LayoutProperty where
  | size | alignment | stride
  deriving DecidableEq

def LayoutProperty.toByte : LayoutProperty → UInt8
  | .size => 0x00 | .alignment => 0x01 | .stride => 0x02

def FloatToIntMode.fromByte : UInt8 → Option FloatToIntMode
  | 0 => some .trunc
  | 1 => some .floor
  | 2 => some .ceil
  | 3 => some .round
  | _ => none

/-- The conversion stops at `round`; the later operations have no arm. -/
def UnaryFloatOp.tryFrom : UInt8 → Option UnaryFloatOp
  | 0 => some .neg
  | 1 => some .abs
  | 2 => some .sqrt
  | 3 => some .exp
  | 4 => some .log
  | 5 => some .sin
  | 6 => some .cos
  | 7 => some .tan
  | 8 => some .floor
  | 9 => some .ceil
  | 10 => some .round
  | _ => none

def CompareOp.fromByte : UInt8 → CompareOp
  | 0 => .eq
  | 1 => .ne
  | 2 => .lt
  | 3 => .le
  | 4 => .gt
  | 5 => .ge
  | _ => .eq

def GradMode.fromByte : UInt8 → GradMode
  | 0 => .reverse
  | 1 => .forward
  | _ => .auto

def TensorDType.fromByte : UInt8 → TensorDType
  | 0x00 => .f64
  | 0x01 => .f32
  | 0x02 => .f16
  | 0x03 => .bF16
  | 0x04 => .i64
  | 0x05 => .i32
  | 0x06 => .i16
  | 0x07 => .i8
  | 0x08 => .u64
  | 0x09 => .u32
  | 0x0A => .u16
  | 0x0B => .u8
  | 0x0C => .bool
  | 0x0D => .complex64
  | 0x0E => .complex128
  | _ => .f64

def TensorCumulativeOp.fromByte : UInt8 → TensorCumulativeOp
  | 0 => .sum
  | 1 => .prod
  | 2 => .max
  | 3 => .min
  | _ => .sum

def TensorPoolOp.fromByte : UInt8 → TensorPoolOp
  | 0 => .max
  | 1 => .avg
  | 2 => .sum
  | 3 => .adaptiveMax
  | 4 => .adaptiveAvg
  | _ => .max

def LayoutProperty.fromByte : UInt8 → Option LayoutProperty
  | 0 => some .size
  | 1 => some .alignment
  | 2 => some .stride
  | _ => none

theorem Opcode.fromByte_toByte (opcode : Opcode) : Opcode.fromByte opcode.toByte = opcode := by
  cases opcode <;> decide +kernel

theorem Opcode.toByte_not_reclaimed (opcode : Opcode) : Opcode.reclaimed opcode.toByte = false := by
  cases opcode <;> decide +kernel

end Vbc
