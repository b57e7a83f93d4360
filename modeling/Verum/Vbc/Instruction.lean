import Verum.Vbc.Opcode
import Verum.Vbc.TypeRef

namespace Vbc

inductive LoopUnrollHint where
  | count (factor : UInt32)
  | full
  | disable
  deriving DecidableEq

inductive VectorizeHint where
  | enable
  | force
  | width (lanes : UInt32)
  | disable
  deriving DecidableEq

structure LoopHints where
  unroll : Option LoopUnrollHint
  vectorize : Option VectorizeHint
  deriving DecidableEq

/-- A `[Reg; 3]`. -/
structure RegTriple where
  x : Reg
  y : Reg
  z : Reg
  deriving DecidableEq

/-- The structured `Gpu*` variants. They have encoder arms only. -/
inductive GpuInstruction where
  | launch (kernelId : UInt32) (grid block : RegTriple) (sharedMem stream : Reg) (args : List Reg)
  | streamCreate (dst : Reg)
  | streamCreateWithPriority (dst priority : Reg)
  | streamCreateNonBlocking (dst : Reg)
  | streamDestroy (stream : Reg)
  | streamQuery (dst stream : Reg)
  | streamWaitEvent (stream event : Reg)
  | streamGetPriority (dst stream : Reg)
  | streamAddCallback (stream : Reg) (callbackId : UInt32) (userData : Reg)
  | eventCreate (dst : Reg)
  | eventCreateWithFlags (dst : Reg) (flags : UInt8)
  | eventDestroy (event : Reg)
  | eventRecord (event stream : Reg)
  | eventRecordWithFlags (event stream : Reg) (flags : UInt8)
  | eventSynchronize (event : Reg)
  | eventQuery (dst event : Reg)
  | eventElapsed (dst startEvent endEvent : Reg)
  | getDevice (dst : Reg)
  | setDevice (device : Reg)
  | getDeviceCount (dst : Reg)
  | getDeviceProperty (dst device : Reg) (propertyId : UInt8)
  | getMemoryInfo (free total device : Reg)
  | canAccessPeer (dst device peerDevice : Reg)
  | enablePeerAccess (device peerDevice : Reg)
  | disablePeerAccess (device peerDevice : Reg)
  | deviceReset (device : Reg)
  | setDeviceFlags (flags : UInt8)
  | memcpyAsync (dst src size : Reg) (direction : UInt8) (stream : Reg)
  | free (ptr : Reg)
  | pinMemory (ptr size : Reg)
  | unpinMemory (ptr : Reg)
  | prefetch (ptr size device stream : Reg)
  | memset (ptr : Reg) (value : UInt8) (size : Reg)
  | memsetAsync (ptr : Reg) (value : UInt8) (size stream : Reg)
  | memcpy2D (dst dstPitch src srcPitch width height : Reg) (direction : UInt8)
  | memcpy2DAsync (dst dstPitch src srcPitch width height : Reg) (direction : UInt8) (stream : Reg)
  | memcpyH2D (dst src size : Reg)
  | memcpyD2H (dst src size : Reg)
  | memcpyD2D (dst src size : Reg)
  | memcpyAsyncH2D (dst src size stream : Reg)
  | memcpyAsyncD2H (dst src size stream : Reg)
  | mallocManaged (dst size : Reg) (attachFlags : UInt8)
  | memAdvise (ptr size : Reg) (advice : UInt8) (device : Reg)
  | prefetchAsync (ptr size device stream : Reg)
  | memGetAttribute (dst ptr : Reg) (attribute' : UInt8)
  | graphCreate (dst : Reg)
  | graphBeginCapture (stream : Reg) (mode : UInt8)
  | graphEndCapture (dst stream : Reg)
  | graphInstantiate (dst graph : Reg)
  | graphLaunch (graphExec stream : Reg)
  | graphDestroy (graph : Reg)
  | graphExecDestroy (graphExec : Reg)
  | graphExecUpdate (graphExec graph : Reg)
  | profileRangeStart (nameId : UInt32)
  | profileRangeEnd
  | profileMarkerPush (nameId : UInt32)
  | profileMarkerPop
  | enumerateDevices (dst : Reg) (backend : UInt8)
  | launchCooperative (kernelId : UInt32) (grid block : RegTriple) (sharedMem stream : Reg) (args : List Reg)
  | launchMultiDevice (kernelId : UInt32) (devices : Reg) (grid block : RegTriple) (sharedMem : Reg)
      (args : List Reg)
  | deviceSync

/-- The structured `Tensor*` variants and `MakeTensor`. -/
inductive TensorInstruction where
  | makeTensor (dst : Reg) (shapeLen : UInt16) (totalSize : UInt32) (data : Reg)
  | flashAttention (dst q k v : Reg) (mask : Option Reg) (scale : Reg) (causal : Bool)
  | contiguousView (dst src : Reg)
  | arange (dst start end' step : Reg) (dtype : TensorDType)
  | linspace (dst start end' num : Reg) (dtype : TensorDType)
  | rand (dst : Reg) (shape : List Reg) (dtype : TensorDType)
  | clone (dst src : Reg)
  | identity (dst size : Reg) (dtype : TensorDType)
  | index (dst src indices : Reg) (axis : UInt8)
  | concat (dst : Reg) (tensors : List Reg) (axis : UInt8)
  | stack (dst : Reg) (tensors : List Reg) (axis : UInt8)
  | broadcast (dst src : Reg) (shape : List Reg)
  | squeeze (dst src : Reg) (axes : List UInt8)
  | cmp (op : CompareOp) (dst a b : Reg)
  | where (dst cond x y : Reg)
  | clamp (dst src min max : Reg)
  | cast (dst src : Reg) (dtype : TensorDType)
  | maskedFill (dst src mask value : Reg)
  | lerp (dst a b t : Reg)
  | dot (dst a b : Reg) (axesA axesB : List UInt8)
  | conv (dst input kernel : Reg) (bias : Option Reg) (stride padding dilation : List UInt8) (groups : UInt8)
  | batchMatmul (dst a b : Reg)
  | einsum (dst : Reg) (inputs : List Reg) (equationId : UInt32)
  | outer (dst a b : Reg)
  | triSolve (dst a b : Reg) (upper : Bool)
  | cholesky (dst src : Reg) (upper : Bool)
  | argmax (dst src : Reg) (axis : Int8) (keepdim : Bool)
  | topk (values indices src k : Reg) (axis : Int8) (largest : Bool)
  | cumulative (op : TensorCumulativeOp) (dst src : Reg) (axis : Int8)
  | softmax (dst src : Reg) (axis : Int8)
  | layerNorm (dst input : Reg) (gamma beta : Option Reg) (normalizedShape eps : UInt32)
  | batchNorm (dst input : Reg) (gamma beta runningMean runningVar : Option Reg) (training : Bool)
      (momentum eps : UInt32)
  | rmsNorm (dst input : Reg) (gamma : Option Reg) (eps : UInt32)
  | fft (dst src : Reg) (dim : Int8) (inverse : Bool)
  | scatter (dst src index values : Reg) (axis : Int8) (mode : UInt8)
  | pool (op : TensorPoolOp) (dst src : Reg) (kernelSize stride padding : List UInt8)
  | argmin (dst src : Reg) (axis : Int8) (keepdim : Bool)
  | solve (dst a b : Reg)
  | gather (dst src index : Reg) (axis : Int8)
  | permute (dst src : Reg) (axes : List UInt8)
  | qr (q r src : Reg) (mode : UInt8)
  | svd (u s vh src : Reg) (fullMatrices computeUv : Bool)
  | lu (p l u src : Reg)
  | eig (eigenvalues eigenvectors src : Reg) (computeV : Bool)
  | eigSymmetric (eigenvalues eigenvectors src : Reg) (upper : Bool)
  | lstsq (x residuals rank s a b : Reg) (rcond : UInt64)
  | det (dst src : Reg)
  | trace (dst src : Reg)
  | norm (dst src : Reg) (ord : Int8)

/-- Floats are carried as their bit patterns. -/
inductive Instruction where
  | mov (dst src : Reg)
  | loadK (dst : Reg) (constId : UInt32)
  | loadI (dst : Reg) (value : Int64)
  | loadF (dst : Reg) (value : UInt64)
  | loadTrue (dst : Reg)
  | loadFalse (dst : Reg)
  | loadUnit (dst : Reg)
  | loadT (dst : Reg) (typeRef : TypeRef)
  | typeLayout (dst : Reg) (typeRef : TypeRef) (property : LayoutProperty)
  | typeResource (dst : Reg) (typeRef : TypeRef)
  | loadSmallI (dst : Reg) (value : Int8)
  | cvtIF (dst src : Reg)
  | cvtFI (mode : FloatToIntMode) (dst src : Reg)
  | cvtIC (dst src : Reg)
  | cvtCI (dst src : Reg)
  | cvtBI (dst src : Reg)
  | cvtToI (dst src : Reg)
  | cvtToF (dst src : Reg)
  | binaryI (op : BinaryIntOp) (dst a b : Reg)
  | binaryF (op : BinaryFloatOp) (dst a b : Reg)
  | binaryG (op : BinaryGenericOp) (dst a b : Reg) (protocolId : UInt32)
  | unaryI (op : UnaryIntOp) (dst src : Reg)
  | unaryF (op : UnaryFloatOp) (dst src : Reg)
  | not (dst src : Reg)
  | bitwise (op : BitwiseOp) (dst a b : Reg)
  | cmpI (op : CompareOp) (dst a b : Reg)
  | cmpF (op : CompareOp) (dst a b : Reg)
  | cmpG (eq : Bool) (dst a b : Reg) (protocolId : UInt32)
  | cmpU (subOp : CmpSubOpcode) (dst a b : Reg)
  | nop
  | jmp (offset : Int32)
  | jmpIf (cond : Reg) (offset : Int32)
  | jmpNot (cond : Reg) (offset : Int32)
  | jmpCmp (op : CompareOp) (a b : Reg) (offset : Int32)
  | ret (value : Reg)
  | retV
  | call (dst : Reg) (funcId : UInt32) (args : RegRange)
  | tailCall (funcId : UInt32) (args : RegRange)
  | callM (dst receiver : Reg) (methodId : UInt32) (args : RegRange)
  | callClosure (dst closure : Reg) (args : RegRange)
  | newClosure (dst : Reg) (funcId : UInt32) (captures : List Reg) (captureTypes : Option (List
      (Option TypeRef))) (lexicalTypes : List TypeRef)
  | new (dst : Reg) (typeId fieldCount : UInt32)
  | newG (dst : Reg) (typeId : UInt32) (typeArgs : List Reg)
  | getF (dst obj : Reg) (fieldIdx : UInt32)
  | setF (obj : Reg) (fieldIdx : UInt32) (value : Reg)
  | getE (dst arr idx : Reg)
  | setE (arr idx value : Reg)
  | len (dst arr : Reg) (typeHint : UInt8)
  | newList (dst : Reg) (capacityHint : UInt16)
  | listPush (list val : Reg)
  | listPop (dst list : Reg)
  | newMap (dst : Reg) (capacityHint : UInt16)
  | mapGet (dst map key : Reg)
  | mapSet (map key val : Reg)
  | mapContains (dst map key : Reg)
  | iterNew (dst iterable : Reg)
  | iterNext (dst hasNext iter : Reg)
  | clone (dst src : Reg)
  | ref (dst src : Reg)
  | refMut (dst src : Reg)
  | refLocal (dst src : Reg)
  | refObj (dst src : Reg)
  | deref (dst refReg : Reg)
  | derefMut (refReg value : Reg)
  | chkRef (refReg : Reg)
  | refChecked (dst src : Reg)
  | refUnsafe (dst src : Reg)
  | dropRef (src : Reg)
  | dropTyped (src : Reg) (typeRef : TypeRef)
  | callG (dst : Reg) (funcId : UInt32) (typeArgs : List TypeRef) (args : RegRange)
  | callV (dst receiver : Reg) (vtableSlot : UInt32) (args : RegRange)
  | callC (dst : Reg) (cacheId : UInt32) (args : RegRange)
  | isVar (dst value : Reg) (tag : UInt32)
  | isType (dst value : Reg) (typeId : UInt32)
  | asVar (dst value : Reg) (tag : UInt32)
  | unpack (dstStart tuple : Reg) (count : UInt8)
  | pack (dst srcStart : Reg) (count : UInt8)
  | switch (value : Reg) (defaultOffset : Int32) (cases : List (UInt32 × Int32))
  | genCreate (dst : Reg) (funcId : UInt32) (args : RegRange)
  | genNext (dst generator : Reg)
  | genHasNext (dst generator : Reg)
  | spawn (dst : Reg) (funcId : UInt32) (args : RegRange)
  | await (dst task : Reg)
  | yield (value : Reg)
  | asyncYield
  | select (dst : Reg) (futures : List Reg) (handlers : List Int32)
  | nurseryInit (dst : Reg)
  | nurserySetTimeout (nursery timeout : Reg)
  | nurserySetMaxTasks (nursery maxTasks : Reg)
  | nurserySetErrorBehavior (nursery behavior : Reg)
  | nurseryEnter (nursery : Reg)
  | nurseryExit (nursery : Reg)
  | nurserySpawn (dst nursery task : Reg)
  | nurseryAwaitAll (nursery success : Reg)
  | nurseryGetError (nursery dst : Reg)
  | nurseryCancel (nursery : Reg)
  | gradBegin (scopeId : UInt32) (mode : GradMode) (wrt : List Reg)
  | gradEnd (scopeId : UInt32) (output gradOut : Reg) (gradRegs : List Reg)
  | gradCheckpoint (id : UInt32) (tensors : List Reg)
  | gradAccumulate (dst src : Reg)
  | gradStop (dst src : Reg)
  | ctxGet (dst : Reg) (ctxType : UInt32)
  | ctxProvide (ctxType : UInt32) (value : Reg) (bodyOffset : Int32)
  | ctxEnd
  | ctxCheckNegative (ctxType funcName : UInt32)
  | spec (reg : Reg) (expectedType : UInt32)
  | guard (reg : Reg) (expectedType : UInt32) (deoptOffset : Int32)
  | assert (cond : Reg) (messageId : UInt32)
  | panic (messageId : UInt32)
  | unreachable
  | debugPrint (value : Reg)
  | newSet (dst : Reg) (capacityHint : UInt16)
  | newDeque (dst : Reg) (capacityHint : UInt16)
  | setInsert (set elem : Reg)
  | setContains (dst set elem : Reg)
  | setRemove (set elem : Reg)
  | toString (dst src : Reg)
  | concat (dst a b : Reg)
  | charToStr (dst src : Reg)
  | newRange (dst start end' : Reg) (inclusive : Bool)
  | push (src : Reg)
  | pop (dst : Reg)
  | callR (dst func : Reg) (argc : UInt8)
  | loadNil (dst : Reg)
  | throw (error : Reg)
  | tryBegin (handlerOffset : Int32)
  | tryEnd
  | getException (dst : Reg)
  | futureReady (dst future : Reg)
  | futureGet (dst future : Reg)
  | asyncNext (dst iter : Reg)
  | pushContext (name : UInt32) (handler : Reg)
  | popContext (name : UInt32)
  | attenuate (dst context : Reg) (capabilities : UInt32)
  | metaQuote (dst : Reg) (bytesConstId : UInt32)
  | metaSplice (src : Reg)
  | metaEval (dst expr : Reg)
  | metaReflect (dst : Reg) (typeId : UInt32)
  | iter (dst iterable : Reg)
  | getTag (dst variant : Reg)
  | makeVariant (dst : Reg) (tag fieldCount : UInt32)
  | bindMethodReceiver (typeRef : TypeRef)
  | setCallWitness (typeArgs : List TypeRef)
  | makeVariantTyped (dst : Reg) (typeId tag fieldCount : UInt32)
  | getFieldNamed (dst obj : Reg) (name : UInt32)
  | setFieldNamed (obj : Reg) (name : UInt32) (value : Reg)
  | setVariantData (variant : Reg) (field : UInt32) (value : Reg)
  | getVariantData (dst variant : Reg) (field : UInt32)
  | getVariantDataRef (dst variant : Reg) (field : UInt32)
  | makePi (dst param : Reg) (returnTypeId : UInt32)
  | makeSigma (dst witness payload : Reg)
  | makeWitness (dst value : Reg) (proofHash : UInt32)
  | mapInsert (map key value : Reg)
  | randomU64 (dst : Reg)
  | randomFloat (dst low high : Reg)
  | globalAllocator (dst : Reg)
  | memNewId (dst : Reg)
  | memAllocTensor (dst shape : Reg) (dtype : UInt8)
  | permissionCheckWire (dst scopeTag targetId : Reg)
  | permissionAssert (scopeTag : UInt8) (targetId : Reg)
  | permissionStatsRead (dst selector : Reg)
  | permissionStatsClear (dst : Reg)
  | gpuSync (stream : Reg)
  | gpuMemcpy (dst src : Reg) (direction : UInt8)
  | gpuAlloc (dst size device : Reg)
  | syscallLinux (dst num a1 a2 a3 a4 a5 a6 : Reg)
  | mmap (dst addr len prot flags fd offset : Reg)
  | munmap (dst addr len : Reg)
  | atomicLoad (dst ptr : Reg) (ordering size : UInt8)
  | atomicStore (ptr val : Reg) (ordering size : UInt8)
  | atomicCas (dst ptr expected desired : Reg) (ordering size : UInt8)
  | atomicFence (ordering : UInt8)
  | ioSubmit (dst engine ops : Reg)
  | ioPoll (dst engine timeout : Reg)
  | tlsGet (dst slot : Reg)
  | tlsSet (slot val : Reg)
  | arithExtended (subOp : UInt8) (operands : List UInt8)
  | tensorExtended (subOp : UInt8) (operands : List UInt8)
  | mathExtended (subOp : UInt8) (operands : List UInt8)
  | simdExtended (subOp : UInt8) (operands : List UInt8)
  | charExtended (subOp : UInt8) (operands : List UInt8)
  | cbgrExtended (subOp : UInt8) (operands : List UInt8)
  | textExtended (subOp : UInt8) (operands : List UInt8)
  | cubicalExtended (subOp : UInt8) (dst : Reg) (args : List Reg)
  | gpuExtended (subOp : UInt8) (operands : List UInt8)
  | ffiExtended (subOp : UInt8) (operands : List UInt8)
  | timeExtended (subOp : UInt8) (operands : List UInt8)
  | sysExtended (subOp : UInt8) (operands : List UInt8)
  | machExtended (subOp : UInt8) (operands : List UInt8)
  | syncExtended (subOp : UInt8) (operands : List UInt8)
  | extended (subOp : UInt8) (operands : List UInt8)
  | memExtended (subOp : UInt8) (operands : List UInt8)
  | logExtended (subOp : UInt8) (operands : List UInt8)
  | loopHint (hints : LoopHints)
  | branchHint (likely : Bool)
  | prefetchHint (addr : Reg) (isRead : Bool) (locality : UInt8)
  | optBarrier (reg : Reg)
  | raw (opcode : Opcode) (data : List UInt8)
  | gpu (instr : GpuInstruction)
  | tensor (instr : TensorInstruction)

end Vbc
