import Verum.Vbc.Instruction

namespace Vbc

def binaryIntOpToOpcode : BinaryIntOp → Opcode
  | .add => .addI
  | .sub => .subI
  | .mul => .mulI
  | .div => .divI
  | .mod => .modI
  | .pow => .powI
  | .uDiv => .uDivI
  | .uMod => .uModI

def binaryFloatOpToOpcode : BinaryFloatOp → Opcode
  | .add => .addF
  | .sub => .subF
  | .mul => .mulF
  | .div => .divF
  | .pow => .powF
  | .mod => .modF

def binaryGenericOpToOpcode : BinaryGenericOp → Opcode
  | .add => .addG
  | .sub => .subG
  | .mul => .mulG
  | .div => .divG

def unaryIntOpToOpcode : UnaryIntOp → Opcode
  | .neg => .negI
  | .abs => .absI
  | .inc => .inc
  | .dec => .dec

def bitwiseOpToOpcode : BitwiseOp → Opcode
  | .and => .band
  | .or => .bor
  | .xor => .bxor
  | .not => .bnot
  | .shl => .shl
  | .shr => .shr
  | .ushr => .ushr

def cmpIntOpToOpcode : CompareOp → Opcode
  | .eq => .eqI
  | .ne => .neI
  | .lt => .ltI
  | .le => .leI
  | .gt => .gtI
  | .ge => .geI

def cmpFloatOpToOpcode : CompareOp → Opcode
  | .eq => .eqF
  | .ne => .neF
  | .lt => .ltF
  | .le => .leF
  | .gt => .gtF
  | .ge => .geF

def jmpCmpOpToOpcode : CompareOp → Opcode
  | .eq => .jmpEq
  | .ne => .jmpNe
  | .lt => .jmpLt
  | .le => .jmpLe
  | .gt => .jmpGt
  | .ge => .jmpGe

/-- An opcode byte followed by the fields in the order in which they are pushed. -/
def emit (opcode : Opcode) (fields : List (List UInt8)) : List UInt8 := opcode.toByte :: fields.flatten

def encodeRegVec (regs : List Reg) : List UInt8 := encodeVarint regs.length ++ regs.flatMap encodeReg

def encodeOptionalReg : Option Reg → List UInt8
  | some reg => 1 :: encodeReg reg
  | none => [0]

def encodeRegTriple (triple : RegTriple) : List UInt8 :=
  encodeReg triple.x ++ (encodeReg triple.y ++ encodeReg triple.z)

def encodeCase (case : UInt32 × Int32) : List UInt8 :=
  encodeVarint case.1.toNat ++ encodeSignedVarint case.2.toInt64

/-- The carrier that `encode_escaped_tensor_header` opens. Its length counts the sub-opcode. -/
def emitEscaped (subOp : TensorExtSubOpcode) (operandSize : Nat) (fields : List (List UInt8)) : List UInt8 :=
  emit .tensorExtended ([0xFF] :: encodeVarint (1 + operandSize) :: [subOp.toByte] :: fields)

def enumerateSubOpcode (backend : UInt8) : GpuSubOpcode :=
  match backend with
  | 0 => .enumerateCuda
  | 1 => .enumerateMetal
  | 2 => .enumerateRocm
  | 3 => .enumerateVulkan
  | _ => .enumerateCuda

def encodeCaptureType : Option TypeRef → List UInt8
  | some type => 1 :: encodeTypeRef type
  | none => [0]

def encodeCaptureTypes (types : List (Option TypeRef)) : List UInt8 :=
  encodeVarint types.length ++ types.flatMap encodeCaptureType

def encodeNewClosure (dst : Reg) (funcId : UInt32) (captures : List Reg)
    (captureTypes : Option (List (Option TypeRef))) (lexicalTypes : List TypeRef) : List UInt8 :=
  let head := [encodeReg dst, encodeVarint funcId.toNat, encodeRegVec captures]
  match lexicalTypes, captureTypes with
  | [], none => emit .newClosure head
  | [], some types =>
    emit .extended ([ExtendedSubOpcode.newClosureTyped.toByte] :: (head ++ [encodeCaptureTypes types]))
  | _ :: _, none =>
    emit .extended ([ExtendedSubOpcode.newClosureWitnessed.toByte] :: (head ++
      [[0], encodeVarint lexicalTypes.length, encodeTypeRefs lexicalTypes]))
  | _ :: _, some types =>
    emit .extended ([ExtendedSubOpcode.newClosureWitnessed.toByte] :: (head ++
      [[1], encodeCaptureTypes types, encodeVarint lexicalTypes.length, encodeTypeRefs lexicalTypes]))

def encodeGpuInstruction : GpuInstruction → List UInt8
  | .launch kernelId grid block sharedMem stream args =>
    emit .gpuExtended [[GpuSubOpcode.launch.toByte], encodeVarint kernelId.toNat, encodeRegTriple grid,
      encodeRegTriple block, encodeReg sharedMem, encodeReg stream, encodeRegVec args]
  | .streamCreate dst => emit .gpuExtended [[GpuSubOpcode.streamCreate.toByte], encodeReg dst]
  | .streamCreateWithPriority dst priority =>
    emit .gpuExtended [[GpuSubOpcode.streamCreateWithPriority.toByte], encodeReg dst, encodeReg priority]
  | .streamCreateNonBlocking dst =>
    emit .gpuExtended [[GpuSubOpcode.streamCreateNonBlocking.toByte], encodeReg dst]
  | .streamDestroy stream => emit .gpuExtended [[GpuSubOpcode.streamDestroy.toByte], encodeReg stream]
  | .streamQuery dst stream =>
    emit .gpuExtended [[GpuSubOpcode.streamQuery.toByte], encodeReg dst, encodeReg stream]
  | .streamWaitEvent stream event =>
    emit .gpuExtended [[GpuSubOpcode.streamWaitEvent.toByte], encodeReg stream, encodeReg event]
  | .streamGetPriority dst stream =>
    emit .gpuExtended [[GpuSubOpcode.streamGetPriority.toByte], encodeReg dst, encodeReg stream]
  | .streamAddCallback stream callbackId userData =>
    emit .gpuExtended [[GpuSubOpcode.streamAddCallback.toByte], encodeReg stream,
      encodeVarint callbackId.toNat, encodeReg userData]
  | .eventCreate dst => emit .gpuExtended [[GpuSubOpcode.eventCreate.toByte], encodeReg dst]
  | .eventCreateWithFlags dst flags =>
    emit .gpuExtended [[GpuSubOpcode.eventCreateWithFlags.toByte], encodeReg dst, [flags]]
  | .eventDestroy event => emit .gpuExtended [[GpuSubOpcode.eventDestroy.toByte], encodeReg event]
  | .eventRecord event stream =>
    emit .gpuExtended [[GpuSubOpcode.eventRecord.toByte], encodeReg event, encodeReg stream]
  | .eventRecordWithFlags event stream flags =>
    emit .gpuExtended [[GpuSubOpcode.eventRecordWithFlags.toByte], encodeReg event, encodeReg stream, [flags]]
  | .eventSynchronize event => emit .gpuExtended [[GpuSubOpcode.eventSynchronize.toByte], encodeReg event]
  | .eventQuery dst event =>
    emit .gpuExtended [[GpuSubOpcode.eventQuery.toByte], encodeReg dst, encodeReg event]
  | .eventElapsed dst startEvent endEvent =>
    emit .gpuExtended [[GpuSubOpcode.eventElapsed.toByte], encodeReg dst, encodeReg startEvent,
      encodeReg endEvent]
  | .getDevice dst => emit .gpuExtended [[GpuSubOpcode.getDevice.toByte], encodeReg dst]
  | .setDevice device => emit .gpuExtended [[GpuSubOpcode.setDevice.toByte], encodeReg device]
  | .getDeviceCount dst => emit .gpuExtended [[GpuSubOpcode.getDeviceCount.toByte], encodeReg dst]
  | .getDeviceProperty dst device propertyId =>
    emit .gpuExtended [[GpuSubOpcode.getDeviceProperty.toByte], encodeReg dst, encodeReg device, [propertyId]]
  | .getMemoryInfo free total device =>
    emit .gpuExtended [[GpuSubOpcode.getMemoryInfo.toByte], encodeReg free, encodeReg total, encodeReg device]
  | .canAccessPeer dst device peerDevice =>
    emit .gpuExtended [[GpuSubOpcode.canAccessPeer.toByte], encodeReg dst, encodeReg device,
      encodeReg peerDevice]
  | .enablePeerAccess device peerDevice =>
    emit .gpuExtended [[GpuSubOpcode.enablePeerAccess.toByte], encodeReg device, encodeReg peerDevice]
  | .disablePeerAccess device peerDevice =>
    emit .gpuExtended [[GpuSubOpcode.disablePeerAccess.toByte], encodeReg device, encodeReg peerDevice]
  | .deviceReset device => emit .gpuExtended [[GpuSubOpcode.deviceReset.toByte], encodeReg device]
  | .setDeviceFlags flags => emit .gpuExtended [[GpuSubOpcode.setDeviceFlags.toByte], [flags]]
  | .memcpyAsync dst src size direction stream =>
    emit .gpuExtended [[GpuSubOpcode.memcpyAsync.toByte], encodeReg dst, encodeReg src, encodeReg size,
      [direction], encodeReg stream]
  | .free ptr => emit .gpuExtended [[GpuSubOpcode.free.toByte], encodeReg ptr]
  | .pinMemory ptr size => emit .gpuExtended [[GpuSubOpcode.pinMemory.toByte], encodeReg ptr, encodeReg size]
  | .unpinMemory ptr => emit .gpuExtended [[GpuSubOpcode.unpinMemory.toByte], encodeReg ptr]
  | .prefetch ptr size device stream =>
    emit .gpuExtended [[GpuSubOpcode.prefetch.toByte], encodeReg ptr, encodeReg size, encodeReg device,
      encodeReg stream]
  | .memset ptr value size =>
    emit .gpuExtended [[GpuSubOpcode.memset.toByte], encodeReg ptr, [value], encodeReg size]
  | .memsetAsync ptr value size stream =>
    emit .gpuExtended [[GpuSubOpcode.memsetAsync.toByte], encodeReg ptr, [value], encodeReg size,
      encodeReg stream]
  | .memcpy2D dst dstPitch src srcPitch width height direction =>
    emit .gpuExtended [[GpuSubOpcode.memcpy2D.toByte], encodeReg dst, encodeReg dstPitch, encodeReg src,
      encodeReg srcPitch, encodeReg width, encodeReg height, [direction]]
  | .memcpy2DAsync dst dstPitch src srcPitch width height direction stream =>
    emit .gpuExtended [[GpuSubOpcode.memcpy2DAsync.toByte], encodeReg dst, encodeReg dstPitch, encodeReg src,
      encodeReg srcPitch, encodeReg width, encodeReg height, [direction], encodeReg stream]
  | .memcpyH2D dst src size =>
    emit .gpuExtended [[GpuSubOpcode.memcpyH2D.toByte], encodeReg dst, encodeReg src, encodeReg size]
  | .memcpyD2H dst src size =>
    emit .gpuExtended [[GpuSubOpcode.memcpyD2H.toByte], encodeReg dst, encodeReg src, encodeReg size]
  | .memcpyD2D dst src size =>
    emit .gpuExtended [[GpuSubOpcode.memcpyD2D.toByte], encodeReg dst, encodeReg src, encodeReg size]
  | .memcpyAsyncH2D dst src size stream =>
    emit .gpuExtended [[GpuSubOpcode.memcpyAsyncH2D.toByte], encodeReg dst, encodeReg src, encodeReg size,
      encodeReg stream]
  | .memcpyAsyncD2H dst src size stream =>
    emit .gpuExtended [[GpuSubOpcode.memcpyAsyncD2H.toByte], encodeReg dst, encodeReg src, encodeReg size,
      encodeReg stream]
  | .mallocManaged dst size attachFlags =>
    emit .gpuExtended [[GpuSubOpcode.mallocManaged.toByte], encodeReg dst, encodeReg size, [attachFlags]]
  | .memAdvise ptr size advice device =>
    emit .gpuExtended [[GpuSubOpcode.memAdvise.toByte], encodeReg ptr, encodeReg size, [advice],
      encodeReg device]
  | .prefetchAsync ptr size device stream =>
    emit .gpuExtended [[GpuSubOpcode.prefetchAsync.toByte], encodeReg ptr, encodeReg size, encodeReg device,
      encodeReg stream]
  | .memGetAttribute dst ptr attribute' =>
    emit .gpuExtended [[GpuSubOpcode.memGetAttribute.toByte], encodeReg dst, encodeReg ptr, [attribute']]
  | .graphCreate dst => emit .gpuExtended [[GpuSubOpcode.graphCreate.toByte], encodeReg dst]
  | .graphBeginCapture stream mode =>
    emit .gpuExtended [[GpuSubOpcode.graphBeginCapture.toByte], encodeReg stream, [mode]]
  | .graphEndCapture dst stream =>
    emit .gpuExtended [[GpuSubOpcode.graphEndCapture.toByte], encodeReg dst, encodeReg stream]
  | .graphInstantiate dst graph =>
    emit .gpuExtended [[GpuSubOpcode.graphInstantiate.toByte], encodeReg dst, encodeReg graph]
  | .graphLaunch graphExec stream =>
    emit .gpuExtended [[GpuSubOpcode.graphLaunch.toByte], encodeReg graphExec, encodeReg stream]
  | .graphDestroy graph => emit .gpuExtended [[GpuSubOpcode.graphDestroy.toByte], encodeReg graph]
  | .graphExecDestroy graphExec =>
    emit .gpuExtended [[GpuSubOpcode.graphExecDestroy.toByte], encodeReg graphExec]
  | .graphExecUpdate graphExec graph =>
    emit .gpuExtended [[GpuSubOpcode.graphExecUpdate.toByte], encodeReg graphExec, encodeReg graph]
  | .profileRangeStart nameId =>
    emit .gpuExtended [[GpuSubOpcode.profileRangeStart.toByte], encodeVarint nameId.toNat]
  | .profileRangeEnd => emit .gpuExtended [[GpuSubOpcode.profileRangeEnd.toByte]]
  | .profileMarkerPush nameId =>
    emit .gpuExtended [[GpuSubOpcode.profileMarkerPush.toByte], encodeVarint nameId.toNat]
  | .profileMarkerPop => emit .gpuExtended [[GpuSubOpcode.profileMarkerPop.toByte]]
  | .enumerateDevices dst backend => emit .gpuExtended [[(enumerateSubOpcode backend).toByte], encodeReg dst]
  | .launchCooperative kernelId grid block sharedMem stream args =>
    emit .gpuExtended [[GpuSubOpcode.launchCooperative.toByte], encodeVarint kernelId.toNat, encodeRegTriple grid,
      encodeRegTriple block, encodeReg sharedMem, encodeReg stream, encodeRegVec args]
  | .launchMultiDevice kernelId devices grid block sharedMem args =>
    emit .gpuExtended [[GpuSubOpcode.launchMultiDevice.toByte], encodeVarint kernelId.toNat, encodeReg devices,
      encodeRegTriple grid, encodeRegTriple block, encodeReg sharedMem, encodeRegVec args]
  | .deviceSync => emit .gpuExtended [[GpuSubOpcode.syncDevice.toByte]]

def encodeTensorInstruction : TensorInstruction → List UInt8
  | .makeTensor dst shapeLen totalSize data =>
    emit .tensorExtended [[TensorSubOpcode.newFromArgs.toByte], encodeReg dst, encodeVarint shapeLen.toNat,
      encodeVarint totalSize.toNat, encodeReg data]
  | .flashAttention dst q k v mask scale causal =>
    emit .tensorExtended [[TensorExtSubOpcode.flashAttention.toByte], encodeReg dst, encodeReg q,
      encodeReg k, encodeReg v, encodeOptionalReg mask, encodeReg scale, [causal.toUInt8]]
  | .contiguousView dst src =>
    emit .tensorExtended [[TensorExtSubOpcode.contiguousView.toByte], encodeReg dst, encodeReg src]
  | .arange dst start end' step dtype =>
    emit .tensorExtended [[TensorSubOpcode.arange.toByte], encodeReg dst, encodeReg start, encodeReg end',
      encodeReg step, [dtype.toByte]]
  | .linspace dst start end' num dtype =>
    emit .tensorExtended [[TensorSubOpcode.linspace.toByte], encodeReg dst, encodeReg start, encodeReg end',
      encodeReg num, [dtype.toByte]]
  | .rand dst shape dtype =>
    emit .tensorExtended [[TensorSubOpcode.rand.toByte], encodeReg dst, encodeRegVec shape, [dtype.toByte]]
  | .clone dst src => emit .tensorExtended [[TensorSubOpcode.clone.toByte], encodeReg dst, encodeReg src]
  | .identity dst size dtype =>
    emit .tensorExtended [[TensorSubOpcode.identity.toByte], encodeReg dst, encodeReg size, [dtype.toByte]]
  | .index dst src indices axis =>
    emit .tensorExtended [[TensorSubOpcode.index.toByte], encodeReg dst, encodeReg src, encodeReg indices,
      [axis]]
  | .concat dst tensors axis =>
    emit .tensorExtended [[TensorSubOpcode.concat.toByte], encodeReg dst, encodeRegVec tensors, [axis]]
  | .stack dst tensors axis =>
    emit .tensorExtended [[TensorSubOpcode.stack.toByte], encodeReg dst, encodeRegVec tensors, [axis]]
  | .broadcast dst src shape =>
    emit .tensorExtended [[TensorSubOpcode.broadcastToShape.toByte], encodeReg dst, encodeReg src,
      encodeRegVec shape]
  | .squeeze dst src axes =>
    emit .tensorExtended [[TensorSubOpcode.squeeze.toByte], encodeReg dst, encodeReg src,
      encodeVarint axes.length, axes]
  | .cmp op dst a b =>
    emit .tensorExtended [[TensorSubOpcode.cmp.toByte], [op.toByte], encodeReg dst, encodeReg a, encodeReg b]
  | .where dst cond x y =>
    emit .tensorExtended [[TensorSubOpcode.where.toByte], encodeReg dst, encodeReg cond, encodeReg x,
      encodeReg y]
  | .clamp dst src min max =>
    emit .tensorExtended [[TensorSubOpcode.clamp.toByte], encodeReg dst, encodeReg src, encodeReg min,
      encodeReg max]
  | .cast dst src dtype =>
    emit .tensorExtended [[TensorSubOpcode.cast.toByte], encodeReg dst, encodeReg src, [dtype.toByte]]
  | .maskedFill dst src mask value =>
    emit .tensorExtended [[TensorSubOpcode.maskedFill.toByte], encodeReg dst, encodeReg src, encodeReg mask,
      encodeReg value]
  | .lerp dst a b t =>
    emit .tensorExtended [[TensorSubOpcode.lerp.toByte], encodeReg dst, encodeReg a, encodeReg b, encodeReg t]
  | .dot dst a b axesA axesB =>
    emit .tensorExtended [[TensorSubOpcode.dot.toByte], encodeReg dst, encodeReg a, encodeReg b,
      encodeVarint axesA.length, axesA, encodeVarint axesB.length, axesB]
  | .conv dst input kernel bias stride padding dilation groups =>
    emit .tensorExtended [[TensorSubOpcode.conv.toByte], encodeReg dst, encodeReg input, encodeReg kernel,
      encodeOptionalReg bias, encodeVarint stride.length, stride, encodeVarint padding.length, padding,
      encodeVarint dilation.length, dilation, [groups]]
  | .batchMatmul dst a b =>
    emit .tensorExtended [[TensorSubOpcode.batchMatmul.toByte], encodeReg dst, encodeReg a, encodeReg b]
  | .einsum dst inputs equationId =>
    emit .tensorExtended [[TensorSubOpcode.einsum.toByte], encodeReg dst, encodeRegVec inputs,
      encodeVarint equationId.toNat]
  | .outer dst a b =>
    emit .tensorExtended [[TensorSubOpcode.outer.toByte], encodeReg dst, encodeReg a, encodeReg b]
  | .triSolve dst a b upper =>
    emit .tensorExtended [[TensorSubOpcode.triSolve.toByte], encodeReg dst, encodeReg a, encodeReg b,
      [upper.toUInt8]]
  | .cholesky dst src upper =>
    emit .tensorExtended [[TensorSubOpcode.cholesky.toByte], encodeReg dst, encodeReg src, [upper.toUInt8]]
  | .argmax dst src axis keepdim =>
    emit .tensorExtended [[TensorSubOpcode.argmax.toByte], encodeReg dst, encodeReg src, [axis.toUInt8],
      [keepdim.toUInt8]]
  | .topk values indices src k axis largest =>
    emit .tensorExtended [[TensorSubOpcode.topk.toByte], encodeReg values, encodeReg indices, encodeReg src,
      encodeReg k, [axis.toUInt8], [largest.toUInt8]]
  | .cumulative op dst src axis =>
    emit .tensorExtended [[TensorSubOpcode.cumulative.toByte], [op.toByte], encodeReg dst, encodeReg src,
      [axis.toUInt8]]
  | .softmax dst src axis =>
    emit .tensorExtended [[TensorSubOpcode.softmax.toByte], encodeReg dst, encodeReg src, [axis.toUInt8]]
  | .layerNorm dst input gamma beta normalizedShape eps =>
    emit .tensorExtended [[TensorSubOpcode.layerNorm.toByte], encodeReg dst, encodeReg input,
      encodeOptionalReg gamma, encodeOptionalReg beta, encodeVarint normalizedShape.toNat, encodeF32 eps]
  | .batchNorm dst input gamma beta runningMean runningVar training momentum eps =>
    emit .tensorExtended [[TensorSubOpcode.batchNorm.toByte], encodeReg dst, encodeReg input,
      encodeOptionalReg gamma, encodeOptionalReg beta, encodeOptionalReg runningMean,
      encodeOptionalReg runningVar, [training.toUInt8], encodeF32 momentum, encodeF32 eps]
  | .rmsNorm dst input gamma eps =>
    emit .tensorExtended [[TensorExtSubOpcode.rmsNorm.toByte], encodeReg dst, encodeReg input,
      encodeOptionalReg gamma, encodeF32 eps]
  | .fft dst src dim inverse =>
    emit .tensorExtended [[TensorExtSubOpcode.fft.toByte], encodeReg dst, encodeReg src, [dim.toUInt8],
      [inverse.toUInt8]]
  | .scatter dst src index values axis mode =>
    emit .tensorExtended [[TensorExtSubOpcode.scatter.toByte], encodeReg dst, encodeReg src, encodeReg index,
      encodeReg values, [axis.toUInt8], [mode]]
  | .pool op dst src kernelSize stride padding =>
    emit .tensorExtended [[TensorSubOpcode.pool.toByte], [op.toByte], encodeReg dst, encodeReg src,
      encodeVarint kernelSize.length, kernelSize, encodeVarint stride.length, stride,
      encodeVarint padding.length, padding]
  | .argmin dst src axis keepdim =>
    emit .tensorExtended [[TensorSubOpcode.argmin.toByte], encodeReg dst, encodeReg src, [axis.toUInt8],
      [keepdim.toUInt8]]
  | .solve dst a b =>
    emit .tensorExtended [[TensorSubOpcode.solve.toByte], encodeReg dst, encodeReg a, encodeReg b]
  | .gather dst src index axis =>
    emit .tensorExtended [[TensorSubOpcode.gather.toByte], encodeReg dst, encodeReg src, encodeReg index,
      [axis.toUInt8]]
  | .permute dst src axes =>
    emit .tensorExtended [[TensorSubOpcode.permute.toByte], encodeReg dst, encodeReg src,
      encodeVarint axes.length, axes]
  | .qr q r src mode =>
    emit .tensorExtended [[TensorSubOpcode.qr.toByte], encodeReg q, encodeReg r, encodeReg src, [mode]]
  | .svd u s vh src fullMatrices computeUv =>
    emit .tensorExtended [[TensorSubOpcode.svd.toByte], encodeReg u, encodeReg s, encodeReg vh,
      encodeReg src, [fullMatrices.toUInt8], [computeUv.toUInt8]]
  | .lu p l u src =>
    emit .tensorExtended [[TensorSubOpcode.lu.toByte], encodeReg p, encodeReg l, encodeReg u, encodeReg src]
  | .eig eigenvalues eigenvectors src computeV =>
    emit .tensorExtended [[TensorSubOpcode.eig.toByte], encodeReg eigenvalues, encodeReg eigenvectors,
      encodeReg src, [computeV.toUInt8]]
  | .eigSymmetric eigenvalues eigenvectors src upper =>
    emit .tensorExtended [[TensorSubOpcode.eigSymmetric.toByte], encodeReg eigenvalues,
      encodeReg eigenvectors, encodeReg src, [upper.toUInt8]]
  | .lstsq x residuals rank s a b rcond =>
    emit .tensorExtended [[TensorSubOpcode.lstsq.toByte], encodeReg x, encodeReg residuals, encodeReg rank,
      encodeReg s, encodeReg a, encodeReg b, encodeF64 rcond]
  | .det dst src => emit .tensorExtended [[TensorSubOpcode.det.toByte], encodeReg dst, encodeReg src]
  | .trace dst src => emit .tensorExtended [[TensorSubOpcode.trace.toByte], encodeReg dst, encodeReg src]
  | .norm dst src ord =>
    emit .tensorExtended [[TensorSubOpcode.norm.toByte], encodeReg dst, encodeReg src, [ord.toUInt8]]

def encodeInstruction : Instruction → List UInt8
  | .mov dst src => emit .mov [encodeReg dst, encodeReg src]
  | .loadK dst constId => emit .loadK [encodeReg dst, encodeVarint constId.toNat]
  | .loadI dst value => emit .loadI [encodeReg dst, encodeSignedVarint value]
  | .loadF dst value => emit .loadF [encodeReg dst, encodeF64 value]
  | .loadTrue dst => emit .loadTrue [encodeReg dst]
  | .loadFalse dst => emit .loadFalse [encodeReg dst]
  | .loadUnit dst => emit .loadUnit [encodeReg dst]
  | .loadT dst typeRef => emit .loadT [encodeReg dst, encodeTypeRef typeRef]
  | .typeLayout dst typeRef property =>
    emit .extended [[ExtendedSubOpcode.typeLayout.toByte], encodeReg dst, [property.toByte],
      encodeTypeRef typeRef]
  | .typeResource dst typeRef =>
    emit .extended [[ExtendedSubOpcode.typeResource.toByte], encodeReg dst, encodeTypeRef typeRef]
  | .loadSmallI dst value => emit .loadSmallI [encodeReg dst, [value.toUInt8]]
  | .cvtIF dst src => emit .cvtIF [encodeReg dst, encodeReg src]
  | .cvtFI mode dst src => emit .cvtFI [[mode.toByte], encodeReg dst, encodeReg src]
  | .cvtIC dst src => emit .cvtIC [encodeReg dst, encodeReg src]
  | .cvtCI dst src => emit .cvtCI [encodeReg dst, encodeReg src]
  | .cvtBI dst src => emit .cvtBI [encodeReg dst, encodeReg src]
  | .cvtToI dst src => emit .cvtToI [encodeReg dst, encodeReg src]
  | .cvtToF dst src => emit .cvtToF [encodeReg dst, encodeReg src]
  | .binaryI op dst a b => emit (binaryIntOpToOpcode op) [encodeReg dst, encodeReg a, encodeReg b]
  | .binaryF op dst a b => emit (binaryFloatOpToOpcode op) [encodeReg dst, encodeReg a, encodeReg b]
  | .binaryG op dst a b protocolId =>
    emit (binaryGenericOpToOpcode op) [encodeReg dst, encodeReg a, encodeReg b, encodeVarint protocolId.toNat]
  | .unaryI op dst src => emit (unaryIntOpToOpcode op) [encodeReg dst, encodeReg src]
  | .unaryF op dst src => emit .negF [[op.toByte], encodeReg dst, encodeReg src]
  | .not dst src => emit .not [encodeReg dst, encodeReg src]
  | .bitwise op dst a b => emit (bitwiseOpToOpcode op) [encodeReg dst, encodeReg a, encodeReg b]
  | .cmpI op dst a b => emit (cmpIntOpToOpcode op) [encodeReg dst, encodeReg a, encodeReg b]
  | .cmpF op dst a b => emit (cmpFloatOpToOpcode op) [encodeReg dst, encodeReg a, encodeReg b]
  | .cmpG eq dst a b protocolId =>
    emit (if eq then .eqG else .cmpG) [encodeReg dst, encodeReg a, encodeReg b, encodeVarint protocolId.toNat]
  | .cmpU subOp dst a b => emit .cmpExtended [[subOp.toByte], encodeReg dst, encodeReg a, encodeReg b]
  | .nop => emit .nop []
  | .jmp offset => emit .jmp [encodeSignedVarint offset.toInt64]
  | .jmpIf cond offset => emit .jmpIf [encodeReg cond, encodeSignedVarint offset.toInt64]
  | .jmpNot cond offset => emit .jmpNot [encodeReg cond, encodeSignedVarint offset.toInt64]
  | .jmpCmp op a b offset =>
    emit (jmpCmpOpToOpcode op) [encodeReg a, encodeReg b, encodeSignedVarint offset.toInt64]
  | .ret value => emit .ret [encodeReg value]
  | .retV => emit .retV []
  | .call dst funcId args => emit .call [encodeReg dst, encodeVarint funcId.toNat, encodeRegRange args]
  | .tailCall funcId args => emit .tailCall [encodeVarint funcId.toNat, encodeRegRange args]
  | .callM dst receiver methodId args =>
    emit .callM [encodeReg dst, encodeReg receiver, encodeVarint methodId.toNat, encodeRegRange args]
  | .callClosure dst closure args =>
    emit .callClosure [encodeReg dst, encodeReg closure, encodeReg args.start, [args.count]]
  | .newClosure dst funcId captures captureTypes lexicalTypes =>
    encodeNewClosure dst funcId captures captureTypes lexicalTypes
  | .new dst typeId fieldCount =>
    emit .new [encodeReg dst, encodeVarint typeId.toNat, encodeVarint fieldCount.toNat]
  | .newG dst typeId typeArgs => emit .newG [encodeReg dst, encodeVarint typeId.toNat, encodeRegVec typeArgs]
  | .getF dst obj fieldIdx => emit .getF [encodeReg dst, encodeReg obj, encodeVarint fieldIdx.toNat]
  | .setF obj fieldIdx value => emit .setF [encodeReg obj, encodeVarint fieldIdx.toNat, encodeReg value]
  | .getE dst arr idx => emit .getE [encodeReg dst, encodeReg arr, encodeReg idx]
  | .setE arr idx value => emit .setE [encodeReg arr, encodeReg idx, encodeReg value]
  | .len dst arr typeHint => emit .len [encodeReg dst, encodeReg arr, [typeHint]]
  | .newList dst capacityHint => emit .newList [encodeReg dst, encodeVarint capacityHint.toNat]
  | .listPush list val => emit .listPush [encodeReg list, encodeReg val]
  | .listPop dst list => emit .listPop [encodeReg dst, encodeReg list]
  | .newMap dst capacityHint => emit .newMap [encodeReg dst, encodeVarint capacityHint.toNat]
  | .mapGet dst map key => emit .mapGet [encodeReg dst, encodeReg map, encodeReg key]
  | .mapSet map key val => emit .mapSet [encodeReg map, encodeReg key, encodeReg val]
  | .mapContains dst map key => emit .mapContains [encodeReg dst, encodeReg map, encodeReg key]
  | .iterNew dst iterable => emit .iterNew [encodeReg dst, encodeReg iterable]
  | .iterNext dst hasNext iter => emit .iterNext [encodeReg dst, encodeReg hasNext, encodeReg iter]
  | .clone dst src => emit .clone [encodeReg dst, encodeReg src]
  | .ref dst src => emit .ref [encodeReg dst, encodeReg src]
  | .refMut dst src => emit .refMut [encodeReg dst, encodeReg src]
  | .refLocal dst src => emit .refLocal [encodeReg dst, encodeReg src]
  | .refObj dst src => emit .refObj [encodeReg dst, encodeReg src]
  | .deref dst refReg => emit .deref [encodeReg dst, encodeReg refReg]
  | .derefMut refReg value => emit .derefMut [encodeReg refReg, encodeReg value]
  | .chkRef refReg => emit .chkRef [encodeReg refReg]
  | .refChecked dst src => emit .refChecked [encodeReg dst, encodeReg src]
  | .refUnsafe dst src => emit .refUnsafe [encodeReg dst, encodeReg src]
  | .dropRef src => emit .dropRef [encodeReg src]
  | .dropTyped src typeRef =>
    emit .extended [[ExtendedSubOpcode.dropTyped.toByte], encodeReg src, encodeTypeRef typeRef]
  | .callG dst funcId typeArgs args =>
    emit .callG [encodeReg dst, encodeVarint funcId.toNat, encodeVarint typeArgs.length, encodeTypeRefs typeArgs,
      encodeRegRange args]
  | .callV dst receiver vtableSlot args =>
    emit .callV [encodeReg dst, encodeReg receiver, encodeVarint vtableSlot.toNat, encodeRegRange args]
  | .callC dst cacheId args => emit .callC [encodeReg dst, encodeVarint cacheId.toNat, encodeRegRange args]
  | .isVar dst value tag => emit .isVar [encodeReg dst, encodeReg value, encodeVarint tag.toNat]
  | .isType dst value typeId => emit .isType [encodeReg dst, encodeReg value, encodeVarint typeId.toNat]
  | .asVar dst value tag => emit .asVar [encodeReg dst, encodeReg value, encodeVarint tag.toNat]
  | .unpack dstStart tuple count => emit .unpack [encodeReg dstStart, encodeReg tuple, [count]]
  | .pack dst srcStart count => emit .pack [encodeReg dst, encodeReg srcStart, [count]]
  | .switch value defaultOffset cases =>
    emit .switch [encodeReg value, encodeSignedVarint defaultOffset.toInt64, encodeVarint cases.length,
      cases.flatMap encodeCase]
  | .genCreate dst funcId args =>
    emit .genCreate [encodeReg dst, encodeVarint funcId.toNat, encodeRegRange args]
  | .genNext dst generator => emit .genNext [encodeReg dst, encodeReg generator]
  | .genHasNext dst generator => emit .genHasNext [encodeReg dst, encodeReg generator]
  | .spawn dst funcId args => emit .spawn [encodeReg dst, encodeVarint funcId.toNat, encodeRegRange args]
  | .await dst task => emit .await [encodeReg dst, encodeReg task]
  | .yield value => emit .yield [encodeReg value]
  | .asyncYield => emit .asyncYield []
  | .select dst futures handlers =>
    emit .select [encodeReg dst, encodeRegVec futures, encodeVarint handlers.length,
      handlers.flatMap fun handler => encodeSignedVarint handler.toInt64]
  | .nurseryInit dst => emit .nurseryInit [encodeReg dst]
  | .nurserySetTimeout nursery timeout =>
    emit .nurseryConfig [encodeReg nursery, encodeVarint 0, encodeReg timeout]
  | .nurserySetMaxTasks nursery maxTasks =>
    emit .nurseryConfig [encodeReg nursery, encodeVarint 1, encodeReg maxTasks]
  | .nurserySetErrorBehavior nursery behavior =>
    emit .nurseryConfig [encodeReg nursery, encodeVarint 2, encodeReg behavior]
  | .nurseryEnter nursery => emit .nurseryConfig [encodeReg nursery, encodeVarint 3, encodeReg nursery]
  | .nurseryExit nursery => emit .nurseryConfig [encodeReg nursery, encodeVarint 4, encodeReg nursery]
  | .nurserySpawn dst nursery task => emit .nurserySpawn [encodeReg dst, encodeReg nursery, encodeReg task]
  | .nurseryAwaitAll nursery success => emit .nurseryAwait [encodeReg success, encodeReg nursery]
  | .nurseryGetError nursery dst => emit .nurseryError [encodeReg dst, encodeReg nursery]
  | .nurseryCancel nursery => emit .nurseryCancel [encodeReg nursery]
  | .gradBegin scopeId mode wrt => emit .gradBegin [encodeVarint scopeId.toNat, [mode.toByte], encodeRegVec wrt]
  | .gradEnd scopeId output gradOut gradRegs =>
    emit .gradEnd [encodeVarint scopeId.toNat, encodeReg output, encodeReg gradOut, encodeRegVec gradRegs]
  | .gradCheckpoint id tensors => emit .gradCheckpoint [encodeVarint id.toNat, encodeRegVec tensors]
  | .gradAccumulate dst src => emit .gradAccumulate [encodeReg dst, encodeReg src]
  | .gradStop dst src => emit .gradStop [encodeReg dst, encodeReg src]
  | .ctxGet dst ctxType => emit .ctxGet [encodeReg dst, encodeVarint ctxType.toNat]
  | .ctxProvide ctxType value bodyOffset =>
    emit .ctxProvide [encodeVarint ctxType.toNat, encodeReg value, encodeSignedVarint bodyOffset.toInt64]
  | .ctxEnd => emit .ctxEnd []
  | .ctxCheckNegative ctxType _ => emit .ctxGet [encodeReg ⟨0⟩, encodeVarint ctxType.toNat]
  | .spec reg expectedType => emit .spec [encodeReg reg, encodeVarint expectedType.toNat]
  | .guard reg expectedType deoptOffset =>
    emit .guard [encodeReg reg, encodeVarint expectedType.toNat, encodeSignedVarint deoptOffset.toInt64]
  | .assert cond messageId => emit .assert [encodeReg cond, encodeVarint messageId.toNat]
  | .panic messageId => emit .panic [encodeVarint messageId.toNat]
  | .unreachable => emit .unreachable []
  | .debugPrint value => emit .debugPrint [encodeReg value]
  | .newSet dst capacityHint => emit .newSet [encodeReg dst, encodeVarint capacityHint.toNat]
  | .newDeque dst capacityHint => emit .newDeque [encodeReg dst, encodeVarint capacityHint.toNat]
  | .setInsert set elem => emit .setInsert [encodeReg set, encodeReg elem]
  | .setContains dst set elem => emit .setContains [encodeReg dst, encodeReg set, encodeReg elem]
  | .setRemove set elem => emit .setRemove [encodeReg set, encodeReg elem]
  | .toString dst src => emit .toString [encodeReg dst, encodeReg src]
  | .concat dst a b => emit .concat [encodeReg dst, encodeReg a, encodeReg b]
  | .charToStr dst src => emit .charToStr [encodeReg dst, encodeReg src]
  | .newRange dst start end' inclusive =>
    emit .newRange [encodeReg dst, encodeReg start, encodeReg end', [inclusive.toUInt8]]
  | .push src => emit .push [encodeReg src]
  | .pop dst => emit .pop [encodeReg dst]
  | .callR dst func argc => emit .callR [encodeReg dst, encodeReg func, [argc]]
  | .loadNil dst => emit .loadNil [encodeReg dst]
  | .throw error => emit .throw [encodeReg error]
  | .tryBegin handlerOffset => emit .tryBegin [encodeSignedVarint handlerOffset.toInt64]
  | .tryEnd => emit .tryEnd []
  | .getException dst => emit .getException [encodeReg dst]
  | .futureReady dst future => emit .futureReady [encodeReg dst, encodeReg future]
  | .futureGet dst future => emit .futureGet [encodeReg dst, encodeReg future]
  | .asyncNext dst iter => emit .asyncNext [encodeReg dst, encodeReg iter]
  | .pushContext name handler => emit .pushContext [encodeVarint name.toNat, encodeReg handler]
  | .popContext name => emit .popContext [encodeVarint name.toNat]
  | .attenuate dst context capabilities =>
    emit .attenuate [encodeReg dst, encodeReg context, encodeVarint capabilities.toNat]
  | .metaQuote dst bytesConstId => emit .metaQuote [encodeReg dst, encodeVarint bytesConstId.toNat]
  | .metaSplice src => emit .metaSplice [encodeReg src]
  | .metaEval dst expr => emit .metaEval [encodeReg dst, encodeReg expr]
  | .metaReflect dst typeId => emit .metaReflect [encodeReg dst, encodeVarint typeId.toNat]
  | .iter dst iterable => emit .iterNew [encodeReg dst, encodeReg iterable]
  | .getTag dst variant => emit .getTag [encodeReg dst, encodeReg variant]
  | .makeVariant dst tag fieldCount =>
    emit .makeVariant [encodeReg dst, encodeVarint tag.toNat, encodeVarint fieldCount.toNat]
  | .bindMethodReceiver typeRef =>
    emit .extended [[ExtendedSubOpcode.bindMethodReceiver.toByte], encodeTypeRef typeRef]
  | .setCallWitness typeArgs =>
    emit .extended [[ExtendedSubOpcode.setCallWitness.toByte], encodeVarint typeArgs.length,
      encodeTypeRefs typeArgs]
  | .makeVariantTyped dst typeId tag fieldCount =>
    emit .extended [[ExtendedSubOpcode.makeVariantTyped.toByte], encodeReg dst, encodeVarint typeId.toNat,
      encodeVarint tag.toNat, encodeVarint fieldCount.toNat]
  | .getFieldNamed dst obj name =>
    emit .extended [[ExtendedSubOpcode.getFieldNamed.toByte], encodeReg dst, encodeReg obj,
      encodeVarint name.toNat]
  | .setFieldNamed obj name value =>
    emit .extended [[ExtendedSubOpcode.setFieldNamed.toByte], encodeReg obj, encodeVarint name.toNat,
      encodeReg value]
  | .setVariantData variant field value =>
    emit .setVariantData [encodeReg variant, encodeVarint field.toNat, encodeReg value]
  | .getVariantData dst variant field =>
    emit .getVariantData [encodeReg dst, encodeReg variant, encodeVarint field.toNat]
  | .getVariantDataRef dst variant field =>
    emit .getVariantDataRef [encodeReg dst, encodeReg variant, encodeVarint field.toNat]
  | .makePi dst param returnTypeId =>
    emit .makePi [encodeReg dst, encodeReg param, encodeVarint returnTypeId.toNat]
  | .makeSigma dst witness payload => emit .makeSigma [encodeReg dst, encodeReg witness, encodeReg payload]
  | .makeWitness dst value proofHash =>
    emit .makeWitness [encodeReg dst, encodeReg value, encodeVarint proofHash.toNat]
  | .mapInsert map key value => emit .mapSet [encodeReg map, encodeReg key, encodeReg value]
  | .randomU64 dst => emit .tensorExtended [[TensorExtSubOpcode.randomU64.toByte], encodeReg dst]
  | .randomFloat dst low high =>
    emit .tensorExtended [[TensorExtSubOpcode.randomFloat.toByte], encodeReg dst, encodeReg low,
      encodeReg high]
  | .globalAllocator dst => emit .tensorExtended [[TensorExtSubOpcode.globalAllocator.toByte], encodeReg dst]
  | .memNewId dst => emit .tensorExtended [[TensorExtSubOpcode.memNewId.toByte], encodeReg dst]
  | .memAllocTensor dst shape dtype =>
    emit .tensorExtended [[TensorExtSubOpcode.memAllocTensor.toByte], encodeReg dst, encodeReg shape, [dtype]]
  | .permissionCheckWire dst scopeTag targetId =>
    emitEscaped .permissionCheckWire (regSize dst + regSize scopeTag + regSize targetId)
      [encodeReg dst, encodeReg scopeTag, encodeReg targetId]
  | .permissionAssert scopeTag targetId =>
    emitEscaped .permissionAssert (1 + regSize targetId) [[scopeTag], encodeReg targetId]
  | .permissionStatsRead dst selector =>
    emitEscaped .permissionStatsRead (regSize dst + regSize selector) [encodeReg dst, encodeReg selector]
  | .permissionStatsClear dst => emitEscaped .permissionStatsClear (regSize dst) [encodeReg dst]
  | .gpuSync stream => emit .gpuSync [encodeReg stream]
  | .gpuMemcpy dst src direction => emit .gpuMemcpy [encodeReg dst, encodeReg src, [direction]]
  | .gpuAlloc dst size device => emit .gpuAlloc [encodeReg dst, encodeReg size, encodeReg device]
  | .syscallLinux dst num a1 a2 a3 a4 a5 a6 =>
    emit .syscallLinux [encodeReg dst, encodeReg num, encodeReg a1, encodeReg a2, encodeReg a3, encodeReg a4,
      encodeReg a5, encodeReg a6]
  | .mmap dst addr len prot flags fd offset =>
    emit .mmap [encodeReg dst, encodeReg addr, encodeReg len, encodeReg prot, encodeReg flags, encodeReg fd,
      encodeReg offset]
  | .munmap dst addr len => emit .munmap [encodeReg dst, encodeReg addr, encodeReg len]
  | .atomicLoad dst ptr ordering size => emit .atomicLoad [encodeReg dst, encodeReg ptr, [ordering], [size]]
  | .atomicStore ptr val ordering size => emit .atomicStore [encodeReg ptr, encodeReg val, [ordering], [size]]
  | .atomicCas dst ptr expected desired ordering size =>
    emit .atomicCas [encodeReg dst, encodeReg ptr, encodeReg expected, encodeReg desired, [ordering], [size]]
  | .atomicFence ordering => emit .atomicFence [[ordering]]
  | .ioSubmit dst engine ops => emit .ioSubmit [encodeReg dst, encodeReg engine, encodeReg ops]
  | .ioPoll dst engine timeout => emit .ioPoll [encodeReg dst, encodeReg engine, encodeReg timeout]
  | .tlsGet dst slot => emit .tlsGet [encodeReg dst, encodeReg slot]
  | .tlsSet slot val => emit .tlsSet [encodeReg slot, encodeReg val]
  | .arithExtended subOp operands => emit .arithExtended [[subOp], encodeVarint operands.length, operands]
  | .tensorExtended subOp operands => emit .tensorExtended [[subOp], encodeVarint operands.length, operands]
  | .mathExtended subOp operands => emit .mathExtended [[subOp], encodeVarint operands.length, operands]
  | .simdExtended subOp operands => emit .simdExtended [[subOp], encodeVarint operands.length, operands]
  | .charExtended subOp operands => emit .charExtended [[subOp], encodeVarint operands.length, operands]
  | .cbgrExtended subOp operands => emit .cbgrExtended [[subOp], encodeVarint operands.length, operands]
  | .textExtended subOp operands => emit .textExtended [[subOp], encodeVarint operands.length, operands]
  | .cubicalExtended subOp dst args =>
    emit .cubicalExtended [[subOp], encodeReg dst, [UInt8.ofNat args.length], args.flatMap encodeReg]
  | .gpuExtended subOp operands => emit .gpuExtended [[subOp], encodeVarint operands.length, operands]
  | .ffiExtended subOp operands => emit .ffiExtended [[subOp], encodeVarint operands.length, operands]
  | .timeExtended subOp operands => emit .timeExtended [[subOp], encodeVarint operands.length, operands]
  | .sysExtended subOp operands => emit .sysExtended [[subOp], encodeVarint operands.length, operands]
  | .machExtended subOp operands => emit .machExtended [[subOp], encodeVarint operands.length, operands]
  | .syncExtended subOp operands => emit .syncExtended [[subOp], encodeVarint operands.length, operands]
  | .extended subOp operands => emit .extended [[subOp], operands]
  | .memExtended subOp operands => emit .memExtended [[subOp], encodeVarint operands.length, operands]
  | .logExtended subOp operands => emit .logExtended [[subOp], encodeVarint operands.length, operands]
  | .loopHint _ => emit .nop []
  | .branchHint _ => emit .nop []
  | .prefetchHint _ _ _ => emit .nop []
  | .optBarrier _ => emit .nop []
  | .raw opcode data => emit opcode [data]
  | .gpu instr => encodeGpuInstruction instr
  | .tensor instr => encodeTensorInstruction instr

def instructionSize (instr : Instruction) : Nat := (encodeInstruction instr).length

def encodeInstructions (instructions : List Instruction) : List UInt8 := instructions.flatMap encodeInstruction

end Vbc
