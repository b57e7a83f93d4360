import Verum.Vbc.Decode
import Verum.Vbc.TypeRefRoundTrip

namespace Vbc

open Wire

theorem FloatToIntMode.fromByte_toByte (mode : FloatToIntMode) :
    (FloatToIntMode.fromByte mode.toByte).getD .trunc = mode := by
  cases mode <;> rfl

theorem LayoutProperty.fromByte_toByte (property : LayoutProperty) :
    LayoutProperty.fromByte property.toByte = some property := by
  cases property <;> rfl

theorem GradMode.fromByte_toByte (mode : GradMode) : GradMode.fromByte mode.toByte = mode := by
  cases mode <;> rfl

theorem CmpSubOpcode.fromByte_toByte (subOp : CmpSubOpcode) :
    CmpSubOpcode.fromByte subOp.toByte = some subOp := by
  cases subOp <;> rfl

theorem ExtendedSubOpcode.fromByte_toByte (subOp : ExtendedSubOpcode) :
    ExtendedSubOpcode.fromByte subOp.toByte = some subOp := by
  cases subOp <;> decide +kernel

theorem TensorExtSubOpcode.fromByte_toByte (subOp : TensorExtSubOpcode) :
    TensorExtSubOpcode.fromByte subOp.toByte = some subOp := by
  cases subOp <;> decide +kernel

section Fields

theorem reads_varint_u32 (value : UInt32) : Reads decodeU32 (encodeVarint value.toNat) value :=
  (reads_u32 value).bind_pure (Reads.pure_eq (by rw [UInt32.ofNat_toNat]))

theorem reads_varint_u16 (value : UInt16) : Reads decodeU16 (encodeVarint value.toNat) value :=
  (reads_u16 value).bind_pure (Reads.pure_eq (by rw [UInt16.ofNat_toNat]))

theorem reads_i32 (value : Int32) : Reads decodeI32 (encodeSignedVarint value.toInt64) value :=
  (reads_signed value.toInt64).bind_pure (Reads.pure_eq (by rw [Int32.toInt32_toInt64]))

theorem reads_i8 (value : Int8) : Reads decodeI8 [value.toUInt8] value :=
  (reads_u8 value.toUInt8).bind_pure (Reads.pure _)

theorem reads_flag (flag : Bool) : Reads decodeFlag [flag.toUInt8] flag := by
  refine (reads_u8 _).bind_pure (Reads.pure_eq ?_)
  cases flag <;> rfl

theorem reads_typeHint (hint : UInt8) : Reads decodeTypeHint [hint] hint := by
  intro data offset held
  have bound := held.bound
  have fits := data.length_lt
  have inside : offset < data.length := by
    rw [List.length_singleton] at bound
    omega
  have small : offset + 1 < 2 ^ 64 := by omega
  simp only [decodeTypeHint, bind_run, position, dataLen, inside, if_true, index, held.getElem?, advance, small,
    pure_run, List.length_singleton]

theorem reads_vec {α : Type} {item : Decode α} {encode : α → List UInt8} (vs : List α)
    (some : ∀ value ∈ vs, encode value ≠ []) (each : ∀ value ∈ vs, Reads item (encode value) value) :
    Reads (decodeVec item) (encodeVarint vs.length ++ vs.flatMap encode) vs := by
  refine Reads.of_fits fun hf => ?_
  have n : vs.length ≤ (vs.flatMap encode).length := by
    clear hf each
    induction vs with
    | nil => simp
    | cons head tail ih =>
      have pos := List.length_pos_of_ne_nil (some head (by simp))
      have rest := ih fun value mem => some value (by simp [mem])
      simp only [List.flatMap_cons, List.length_append, List.length_cons]
      omega
  rw [List.length_append] at hf
  exact (reads_varint _ (by omega)).bind (Reads.repeatN vs each)

theorem encodeReg_ne_nil (reg : Reg) : encodeReg reg ≠ [] := by
  unfold encodeReg
  split <;> simp

theorem regSize_eq (reg : Reg) : regSize reg = (encodeReg reg).length := by
  unfold regSize encodeReg
  split <;> rfl

theorem encodeVarint_ne_nil (value : Nat) : encodeVarint value ≠ [] :=
  List.ne_nil_of_length_pos (encodeVarint_length_pos value)

theorem reads_regVec (regs : List Reg) (good : ∀ reg ∈ regs, reg.Encodable) :
    Reads decodeRegVec (encodeRegVec regs) regs :=
  reads_vec regs (fun reg _ => encodeReg_ne_nil reg) fun reg mem => reads_reg reg (good reg mem)

theorem reads_typeRefVec (types : List TypeRef) (good : ∀ type ∈ types, type.Encodable) :
    Reads decodeTypeRefVec (encodeVarint types.length ++ encodeTypeRefs types) types := by
  rw [encodeTypeRefs_flatMap]
  exact reads_vec types (fun type _ => encodeTypeRef_ne_nil type) fun type mem =>
    reads_typeRef type (good type mem)

theorem reads_cases (cases : List (UInt32 × Int32)) :
    Reads (decodeVec decodeCase) (encodeVarint cases.length ++ cases.flatMap encodeCase) cases := by
  refine reads_vec cases (fun case _ => by simp [encodeCase, encodeVarint_ne_nil]) fun case _ => ?_
  exact (reads_varint_u32 case.1).bind ((reads_i32 case.2).bind_pure (Reads.pure _))

theorem reads_handlers (handlers : List Int32) :
    Reads (decodeVec decodeI32)
      (encodeVarint handlers.length ++ handlers.flatMap fun handler => encodeSignedVarint handler.toInt64) handlers :=
  reads_vec handlers (fun _ _ => encodeVarint_ne_nil _) fun handler _ => reads_i32 handler

end Fields

section Shapes

variable {a b c : Reg}

theorem reads_reg1 {make : Reg → Instruction} (good : a.Encodable) :
    Reads (do return make (← decodeReg)) [encodeReg a].flatten (make a) :=
  (reads_reg _ good).field (Reads.pure _)

theorem reads_reg2 {make : Reg → Reg → Instruction} (good : a.Encodable ∧ b.Encodable) :
    Reads (do return make (← decodeReg) (← decodeReg)) [encodeReg a, encodeReg b].flatten (make a b) :=
  (reads_reg _ good.1).field ((reads_reg _ good.2).field (Reads.pure _))

theorem reads_reg3 {make : Reg → Reg → Reg → Instruction} (good : a.Encodable ∧ b.Encodable ∧ c.Encodable) :
    Reads (do return make (← decodeReg) (← decodeReg) (← decodeReg))
      [encodeReg a, encodeReg b, encodeReg c].flatten (make a b c) :=
  (reads_reg _ good.1).field ((reads_reg _ good.2.1).field ((reads_reg _ good.2.2).field (Reads.pure _)))
variable {id : UInt32}

theorem reads_reg3U32 {make : Reg → Reg → Reg → UInt32 → Instruction}
    (good : a.Encodable ∧ b.Encodable ∧ c.Encodable) :
    Reads (do return make (← decodeReg) (← decodeReg) (← decodeReg) (← decodeU32))
      [encodeReg a, encodeReg b, encodeReg c, encodeVarint id.toNat].flatten (make a b c id) :=
  (reads_reg _ good.1).field ((reads_reg _ good.2.1).field ((reads_reg _ good.2.2).field
    ((reads_varint_u32 _).field (Reads.pure _))))

theorem reads_regU16 {make : Reg → UInt16 → Instruction} {hint : UInt16} (good : a.Encodable) :
    Reads (do return make (← decodeReg) (← decodeU16)) [encodeReg a, encodeVarint hint.toNat].flatten
      (make a hint) :=
  (reads_reg _ good).field ((reads_varint_u16 _).field (Reads.pure _))

theorem reads_regU32 {make : Reg → UInt32 → Instruction} (good : a.Encodable) :
    Reads (do return make (← decodeReg) (← decodeU32)) [encodeReg a, encodeVarint id.toNat].flatten (make a id) :=
  (reads_reg _ good).field ((reads_varint_u32 _).field (Reads.pure _))

theorem reads_reg2U32 {make : Reg → Reg → UInt32 → Instruction} (good : a.Encodable ∧ b.Encodable) :
    Reads (do return make (← decodeReg) (← decodeReg) (← decodeU32))
      [encodeReg a, encodeReg b, encodeVarint id.toNat].flatten (make a b id) :=
  (reads_reg _ good.1).field ((reads_reg _ good.2).field ((reads_varint_u32 _).field (Reads.pure _)))

theorem reads_regU32Range {make : Reg → UInt32 → RegRange → Instruction} {args : RegRange}
    (good : a.Encodable ∧ args.start.Encodable) :
    Reads (do return make (← decodeReg) (← decodeU32) (← decodeRegRange))
      [encodeReg a, encodeVarint id.toNat, encodeRegRange args].flatten (make a id args) :=
  (reads_reg _ good.1).field ((reads_varint_u32 _).field ((reads_reg_range _ good.2).field (Reads.pure _)))

theorem reads_carrier {make : UInt8 → List UInt8 → Instruction} (subOp : UInt8) (operands : List UInt8) :
    Reads (do return make (← decodeU8) (← decodeBytes).bytes)
      [[subOp], encodeVarint operands.length, operands].flatten (make subOp operands) := by
  refine Reads.of_fits fun hf => ?_
  have small : operands.length < 2 ^ 63 := by
    simp only [List.flatten_cons, List.length_append] at hf
    omega
  exact (reads_u8 _).field ((reads_bytes operands small).field2 (Reads.pure _))

end Shapes

section Opcodes

variable {fs : List (List UInt8)} {value : Instruction} {permission : Decode Instruction}

theorem reads_emit (opcode : Opcode) (body : Reads (decodeInstructionBody opcode) fs.flatten value) :
    Reads decodeInstruction (emit opcode fs) value := by
  refine reads_tag _ ?_
  rw [Opcode.toByte_not_reclaimed, Opcode.fromByte_toByte]
  exact body

theorem reads_extended (subOp : ExtendedSubOpcode)
    (body : Reads (decodeExtendedKind subOp.toByte subOp) fs.flatten value) :
    Reads decodeInstruction (emit .extended ([subOp.toByte] :: fs)) value := by
  refine reads_emit .extended ((reads_u8 _).field ?_)
  rw [ExtendedSubOpcode.fromByte_toByte]
  exact body

theorem reads_tensorExt (subOp : TensorExtSubOpcode) (outside : TensorSubOpcode.fromByte subOp.toByte = none)
    (body : Reads (decodeTensorExt subOp.toByte subOp) fs.flatten value) :
    Reads decodeInstruction (emit .tensorExtended ([subOp.toByte] :: fs)) value := by
  have structured : isTensorCarrier subOp.toByte = false := by rw [isTensorCarrier, outside]
  refine reads_emit .tensorExtended ((reads_u8 _).field ?_)
  rw [structured, decodeTensorStructured, outside, TensorExtSubOpcode.fromByte_toByte]
  exact body

theorem escape_isTensorCarrier : isTensorCarrier 0xFF = true := by decide +kernel

theorem reads_nurseryConfig {nursery value : Reg} {res : Instruction} (configType : Nat)
    (small : configType < 2 ^ 64) (good : nursery.Encodable ∧ value.Encodable)
    (body : nurseryConfig configType nursery value = res) :
    Reads decodeInstruction (emit .nurseryConfig [encodeReg nursery, encodeVarint configType, encodeReg value])
      res :=
  reads_emit .nurseryConfig ((reads_reg _ good.1).field ((reads_varint _ small).field ((reads_reg _ good.2).field
    (Reads.pure_eq body))))

theorem reads_cubical (subOp : UInt8) (dst : Reg) (args : List Reg) (good : dst.Encodable) (few : args.length < 256)
    (each : ∀ reg ∈ args, reg.Encodable) :
    Reads decodeInstruction (encodeInstruction (.cubicalExtended subOp dst args)) (.cubicalExtended subOp dst args) := by
  have regs := Reads.repeatN args fun reg mem => reads_reg reg (each reg mem)
  refine reads_emit .cubicalExtended ((reads_u8 _).field ((reads_reg _ good).field ((reads_u8 _).field ?_)))
  rw [UInt8.toNat_ofNat', Nat.mod_eq_of_lt few]
  exact regs.field (Reads.pure _)

theorem reads_tensorCarrier (subOp : UInt8) (operands : List UInt8) (carrier : isTensorCarrier subOp = true)
    (plain : subOp = 0xFF → operands.head?.bind decodePermissionInstruction = none) :
    Reads decodeInstruction (encodeInstruction (.tensorExtended subOp operands)) (.tensorExtended subOp operands) := by
  refine Reads.of_fits fun hf => ?_
  have small : operands.length < 2 ^ 63 := by
    change (emit .tensorExtended [[subOp], encodeVarint operands.length, operands]).length < _ at hf
    simp only [emit, List.flatten_cons, List.length_cons, List.length_append] at hf
    omega
  refine reads_emit .tensorExtended ((reads_u8 _).field ?_)
  rw [if_pos carrier]
  refine (reads_bytes operands small).field2 ?_
  split
  · rename_i escape
    subst escape
    cases operands with
    | nil => exact Reads.pure _
    | cons extended rest =>
      have none : decodePermissionInstruction extended = none := plain rfl
      simp only [decodeEscapedOperands, none]
      exact Reads.pure _
  · exact Reads.pure _

theorem decodeEscapedOperands_permission (operands : Slice) {extended : UInt8} {rest : List UInt8} {data : Slice}
    {off : Nat} (layout : operands.bytes = extended :: rest)
    (known : decodePermissionInstruction extended = some permission)
    (inner : permission operands 1 = .ok value operands.length) :
    decodeEscapedOperands operands data off = .ok value off := by
  have run : within operands 1 permission data off = .ok (value, operands.length) off := by
    simp only [within, inner]
  simp only [decodeEscapedOperands, layout, known]
  rw [bind_ok run, if_neg (by simp), pure_run]

theorem reads_escaped (subOp : TensorExtSubOpcode) {size : Nat}
    (known : decodePermissionInstruction subOp.toByte = some permission) (counted : size = fs.flatten.length)
    (body : Reads permission fs.flatten value) :
    Reads decodeInstruction (emitEscaped subOp size fs) value := by
  refine Reads.of_fits fun hf => ?_
  have small : (subOp.toByte :: fs.flatten).length < 2 ^ 63 := by
    simp only [emitEscaped, emit, List.flatten_cons, List.length_cons, List.length_append] at hf ⊢
    omega
  have pl := reads_bytes (subOp.toByte :: fs.flatten) small
  have inner : permission ⟨subOp.toByte :: fs.flatten, small⟩ 1 = .ok value (1 + fs.flatten.length) :=
    body ⟨_, small⟩ 1 ⟨by simp [Slice.length], [], by simp⟩
  refine reads_emit .tensorExtended ((reads_u8 _).field ?_)
  rw [if_pos escape_isTensorCarrier, counted, Nat.add_comm]
  refine pl.bind_pure ?_
  intro data off _
  exact decodeEscapedOperands_permission ⟨_, small⟩ rfl known (inner.trans (by simp [Slice.length, Nat.add_comm]))

end Opcodes

section Closures

def CaptureTypesEncodable (types : List (Option TypeRef)) : Prop :=
  types.length ≤ 65535 ∧ ∀ type, some type ∈ types → type.Encodable

theorem reads_captureTypes (types : List (Option TypeRef)) (good : CaptureTypesEncodable types) :
    Reads decodeCaptureTypes (encodeCaptureTypes types) types := by
  have each : ∀ type ∈ types, Reads decodeCaptureType (encodeCaptureType type) type := by
    intro type mem
    cases type with
    | none => exact (reads_u8 0).bind_pure (Reads.pure _)
    | some type => exact reads_tag 1 ((reads_typeRef type (good.2 type mem)).bind_pure (Reads.pure _))
  have few := good.1
  refine (reads_varint _ (by omega)).bind ?_
  rw [if_neg (by omega)]
  exact Reads.repeatN types each

theorem reads_lexicalTypes (types : List TypeRef) (few : types.length ≤ 65535)
    (good : ∀ type ∈ types, type.Encodable) :
    Reads decodeLexicalTypes (encodeVarint types.length ++ encodeTypeRefs types) types := by
  refine (reads_varint _ (by omega)).bind ?_
  rw [if_neg (by omega), encodeTypeRefs_flatMap]
  exact Reads.repeatN types fun type mem => reads_typeRef type (good type mem)

theorem reads_newClosure (dst : Reg) (funcId : UInt32) (captures : List Reg)
    (captureTypes : Option (List (Option TypeRef))) (lexicalTypes : List TypeRef) (tgt : dst.Encodable)
    (captured : ∀ reg ∈ captures, reg.Encodable)
    (typed : ∀ types, captureTypes = some types → CaptureTypesEncodable types) (few : lexicalTypes.length ≤ 65535)
    (good : ∀ type ∈ lexicalTypes, type.Encodable) :
    Reads decodeInstruction (encodeNewClosure dst funcId captures captureTypes lexicalTypes)
      (.newClosure dst funcId captures captureTypes lexicalTypes) := by
  have lexical := reads_lexicalTypes lexicalTypes few good
  have regs := reads_regVec captures captured
  rcases lexicalTypes with _ | ⟨type, rest⟩ <;> rcases captureTypes with _ | types
  · exact reads_emit .newClosure ((reads_reg _ tgt).field ((reads_varint_u32 _).field (regs.field (Reads.pure _))))
  · exact reads_extended .newClosureTyped ((reads_reg _ tgt).field ((reads_varint_u32 _).field
      (regs.field ((reads_captureTypes types (typed types rfl)).field (Reads.pure _)))))
  · exact reads_extended .newClosureWitnessed ((reads_reg _ tgt).field ((reads_varint_u32 _).field
      (regs.field ((reads_u8 0).field (lexical.field2 (Reads.pure _))))))
  · exact reads_extended .newClosureWitnessed ((reads_reg _ tgt).field ((reads_varint_u32 _).field
      (regs.field ((reads_u8 1).field ((reads_captureTypes types (typed types rfl)).field
        (lexical.field2 (Reads.pure _)))))))

end Closures

/-- The instructions that carry their own wire form, with operands that fit it. `NewClosure` is read back
    only below its type count limits, and the tensor carrier only for the sub-opcodes that are length-prefixed
    and not taken for a permission instruction. -/
def WireForm : Instruction → Prop
  | .mov dst src | .cvtIF dst src | .cvtFI _ dst src | .cvtIC dst src | .cvtCI dst src | .cvtBI dst src
  | .cvtToI dst src | .cvtToF dst src | .unaryI _ dst src | .not dst src | .clone dst src | .ref dst src
  | .refMut dst src | .refLocal dst src | .refObj dst src | .refChecked dst src | .refUnsafe dst src
  | .gradAccumulate dst src | .gradStop dst src | .toString dst src | .charToStr dst src | .gpuMemcpy dst src _ =>
    dst.Encodable ∧ src.Encodable
  | .loadK dst _ | .loadI dst _ | .loadF dst _ | .loadTrue dst | .loadFalse dst | .loadUnit dst
  | .loadSmallI dst _ | .new dst _ _ | .newList dst _ | .newMap dst _ | .nurseryInit dst | .ctxGet dst _
  | .newSet dst _ | .newDeque dst _ | .pop dst | .loadNil dst | .getException dst | .metaQuote dst _
  | .metaReflect dst _ | .makeVariant dst _ _ | .makeVariantTyped dst _ _ _ | .randomU64 dst
  | .globalAllocator dst | .memNewId dst | .permissionStatsClear dst => dst.Encodable
  | .loadT dst typeRef | .typeLayout dst typeRef _ | .typeResource dst typeRef =>
    dst.Encodable ∧ typeRef.Encodable
  | .binaryI _ dst a b | .binaryF _ dst a b | .binaryG _ dst a b _ | .bitwise _ dst a b | .cmpI _ dst a b
  | .cmpF _ dst a b | .cmpG _ dst a b _ | .cmpU _ dst a b | .concat dst a b =>
    dst.Encodable ∧ a.Encodable ∧ b.Encodable
  | .unaryF op dst src => UnaryFloatOp.tryFrom op.toByte = some op ∧ dst.Encodable ∧ src.Encodable
  | .nop | .jmp _ | .retV | .asyncYield | .ctxEnd | .panic _ | .unreachable | .tryBegin _ | .tryEnd
  | .popContext _ | .atomicFence _ | .arithExtended _ _ | .mathExtended _ _ | .simdExtended _ _
  | .charExtended _ _ | .cbgrExtended _ _ | .textExtended _ _ | .gpuExtended _ _ | .ffiExtended _ _
  | .timeExtended _ _ | .sysExtended _ _ | .machExtended _ _ | .syncExtended _ _ | .memExtended _ _
  | .logExtended _ _ => True
  | .jmpIf cond _ | .jmpNot cond _ | .assert cond _ => cond.Encodable
  | .jmpCmp _ a b _ => a.Encodable ∧ b.Encodable
  | .ret value | .switch value _ _ | .yield value | .ctxProvide _ value _ | .debugPrint value => value.Encodable
  | .call dst _ args | .callC dst _ args | .genCreate dst _ args | .spawn dst _ args =>
    dst.Encodable ∧ args.start.Encodable
  | .tailCall _ args => args.start.Encodable
  | .callM dst receiver _ args | .callV dst receiver _ args =>
    dst.Encodable ∧ receiver.Encodable ∧ args.start.Encodable
  | .callClosure dst closure args => dst.Encodable ∧ closure.Encodable ∧ args.start.Encodable
  | .newClosure dst _ captures captureTypes lexicalTypes => dst.Encodable ∧ (∀ reg ∈ captures, reg.Encodable) ∧
      (∀ types, captureTypes = some types → CaptureTypesEncodable types) ∧
      lexicalTypes.length ≤ 65535 ∧ ∀ type ∈ lexicalTypes, type.Encodable
  | .newG dst _ typeArgs => dst.Encodable ∧ ∀ reg ∈ typeArgs, reg.Encodable
  | .getF dst obj _ | .getFieldNamed dst obj _ => dst.Encodable ∧ obj.Encodable
  | .setF obj _ value | .setFieldNamed obj _ value => obj.Encodable ∧ value.Encodable
  | .getE dst arr idx => dst.Encodable ∧ arr.Encodable ∧ idx.Encodable
  | .setE arr idx value => arr.Encodable ∧ idx.Encodable ∧ value.Encodable
  | .len dst arr _ => dst.Encodable ∧ arr.Encodable
  | .listPush list val => list.Encodable ∧ val.Encodable
  | .listPop dst list => dst.Encodable ∧ list.Encodable
  | .mapGet dst map key | .mapContains dst map key => dst.Encodable ∧ map.Encodable ∧ key.Encodable
  | .mapSet map key val => map.Encodable ∧ key.Encodable ∧ val.Encodable
  | .iterNew dst iterable => dst.Encodable ∧ iterable.Encodable
  | .iterNext dst hasNext iter => dst.Encodable ∧ hasNext.Encodable ∧ iter.Encodable
  | .deref dst refReg => dst.Encodable ∧ refReg.Encodable
  | .derefMut refReg value => refReg.Encodable ∧ value.Encodable
  | .chkRef refReg => refReg.Encodable
  | .dropRef src | .push src | .metaSplice src => src.Encodable
  | .dropTyped src typeRef => src.Encodable ∧ typeRef.Encodable
  | .callG dst _ typeArgs args => dst.Encodable ∧ (∀ type ∈ typeArgs, type.Encodable) ∧ args.start.Encodable
  | .isVar dst value _ | .isType dst value _ | .asVar dst value _ | .makeWitness dst value _ =>
    dst.Encodable ∧ value.Encodable
  | .unpack dstStart tuple _ => dstStart.Encodable ∧ tuple.Encodable
  | .pack dst srcStart _ => dst.Encodable ∧ srcStart.Encodable
  | .genNext dst generator | .genHasNext dst generator => dst.Encodable ∧ generator.Encodable
  | .await dst task => dst.Encodable ∧ task.Encodable
  | .select dst futures _ => dst.Encodable ∧ ∀ reg ∈ futures, reg.Encodable
  | .nurserySetTimeout nursery timeout => nursery.Encodable ∧ timeout.Encodable
  | .nurserySetMaxTasks nursery maxTasks => nursery.Encodable ∧ maxTasks.Encodable
  | .nurserySetErrorBehavior nursery behavior => nursery.Encodable ∧ behavior.Encodable
  | .nurseryEnter nursery | .nurseryExit nursery | .nurseryCancel nursery => nursery.Encodable
  | .nurserySpawn dst nursery task => dst.Encodable ∧ nursery.Encodable ∧ task.Encodable
  | .nurseryAwaitAll nursery success => nursery.Encodable ∧ success.Encodable
  | .nurseryGetError nursery dst => nursery.Encodable ∧ dst.Encodable
  | .gradBegin _ _ wrt => ∀ reg ∈ wrt, reg.Encodable
  | .gradEnd _ output gradOut gradRegs => output.Encodable ∧ gradOut.Encodable ∧ ∀ reg ∈ gradRegs, reg.Encodable
  | .gradCheckpoint _ tensors => ∀ reg ∈ tensors, reg.Encodable
  | .spec reg _ | .guard reg _ _ => reg.Encodable
  | .setInsert set elem | .setRemove set elem => set.Encodable ∧ elem.Encodable
  | .setContains dst set elem => dst.Encodable ∧ set.Encodable ∧ elem.Encodable
  | .newRange dst start end' _ => dst.Encodable ∧ start.Encodable ∧ end'.Encodable
  | .callR dst func _ => dst.Encodable ∧ func.Encodable
  | .throw error => error.Encodable
  | .futureReady dst future | .futureGet dst future => dst.Encodable ∧ future.Encodable
  | .asyncNext dst iter => dst.Encodable ∧ iter.Encodable
  | .pushContext _ handler => handler.Encodable
  | .attenuate dst context _ => dst.Encodable ∧ context.Encodable
  | .metaEval dst expr => dst.Encodable ∧ expr.Encodable
  | .getTag dst variant | .getVariantData dst variant _ | .getVariantDataRef dst variant _ =>
    dst.Encodable ∧ variant.Encodable
  | .bindMethodReceiver typeRef => typeRef.Encodable
  | .setCallWitness typeArgs => ∀ type ∈ typeArgs, type.Encodable
  | .setVariantData variant _ value => variant.Encodable ∧ value.Encodable
  | .makePi dst param _ => dst.Encodable ∧ param.Encodable
  | .makeSigma dst witness payload => dst.Encodable ∧ witness.Encodable ∧ payload.Encodable
  | .randomFloat dst low high => dst.Encodable ∧ low.Encodable ∧ high.Encodable
  | .memAllocTensor dst shape _ => dst.Encodable ∧ shape.Encodable
  | .permissionCheckWire dst scopeTag targetId => dst.Encodable ∧ scopeTag.Encodable ∧ targetId.Encodable
  | .permissionAssert _ targetId => targetId.Encodable
  | .permissionStatsRead dst selector => dst.Encodable ∧ selector.Encodable
  | .gpuSync stream => stream.Encodable
  | .gpuAlloc dst size device => dst.Encodable ∧ size.Encodable ∧ device.Encodable
  | .syscallLinux dst num a1 a2 a3 a4 a5 a6 =>
    dst.Encodable ∧ num.Encodable ∧ a1.Encodable ∧ a2.Encodable ∧ a3.Encodable ∧ a4.Encodable ∧ a5.Encodable ∧ a6.Encodable
  | .mmap dst addr len prot flags fd offset =>
    dst.Encodable ∧ addr.Encodable ∧ len.Encodable ∧ prot.Encodable ∧ flags.Encodable ∧ fd.Encodable ∧ offset.Encodable
  | .munmap dst addr len => dst.Encodable ∧ addr.Encodable ∧ len.Encodable
  | .atomicLoad dst ptr _ _ => dst.Encodable ∧ ptr.Encodable
  | .atomicStore ptr val _ _ => ptr.Encodable ∧ val.Encodable
  | .atomicCas dst ptr expected desired _ _ =>
    dst.Encodable ∧ ptr.Encodable ∧ expected.Encodable ∧ desired.Encodable
  | .ioSubmit dst engine ops => dst.Encodable ∧ engine.Encodable ∧ ops.Encodable
  | .ioPoll dst engine timeout => dst.Encodable ∧ engine.Encodable ∧ timeout.Encodable
  | .tlsGet dst slot => dst.Encodable ∧ slot.Encodable
  | .tlsSet slot val => slot.Encodable ∧ val.Encodable
  | .tensorExtended subOp operands =>
    isTensorCarrier subOp = true ∧ (subOp = 0xFF → operands.head?.bind decodePermissionInstruction = none)
  | .cubicalExtended _ dst args => dst.Encodable ∧ args.length < 256 ∧ ∀ reg ∈ args, reg.Encodable
  | _ => False

theorem reads_instruction (instr : Instruction) (good : WireForm instr) :
    Reads decodeInstruction (encodeInstruction instr) instr := by
  cases instr with
  | mov dst src | cvtIF dst src | cvtIC dst src | cvtCI dst src | cvtBI dst src | cvtToI dst src | cvtToF dst src
  | not dst src | listPush list val | listPop dst list | iterNew dst iterable | clone dst src | ref dst src
  | refMut dst src | refLocal dst src | refObj dst src | deref dst refReg | derefMut refReg value
  | refChecked dst src | refUnsafe dst src | genNext dst generator | genHasNext dst generator | await dst task
  | gradAccumulate dst src | gradStop dst src | setInsert set elem | setRemove set elem | toString dst src
  | charToStr dst src | futureReady dst future | futureGet dst future | asyncNext dst iter | metaEval dst expr
  | getTag dst variant | tlsGet dst slot | tlsSet slot val => exact reads_emit _ (reads_reg2 good)
  | loadK dst constId | ctxGet dst ctxType | spec reg expectedType | assert cond messageId
  | metaQuote dst bytesConstId | metaReflect dst typeId => exact reads_emit _ (reads_regU32 good)
  | loadI dst value =>
    exact reads_emit .loadI ((reads_reg _ good).field ((reads_signed _).field (Reads.pure _)))
  | loadF dst value => exact reads_emit .loadF ((reads_reg _ good).field ((reads_f64 _).field (Reads.pure _)))
  | loadTrue dst | loadFalse dst | loadUnit dst | ret value | chkRef refReg | dropRef src | yield value
  | nurseryInit dst | nurseryCancel nursery | debugPrint value | push src | pop dst | loadNil dst | throw error
  | getException dst | metaSplice src | gpuSync stream => exact reads_emit _ (reads_reg1 good)
  | loadT dst typeRef =>
    exact reads_emit .loadT ((reads_reg _ good.1).field ((reads_typeRef _ good.2).field (Reads.pure _)))
  | typeLayout dst typeRef property =>
    refine reads_extended .typeLayout ((reads_reg _ good.1).field ((reads_u8 _).field ?_))
    rw [LayoutProperty.fromByte_toByte]
    exact (reads_typeRef _ good.2).field (Reads.pure _)
  | typeResource dst typeRef | dropTyped src typeRef =>
    exact reads_extended _ ((reads_reg _ good.1).field ((reads_typeRef _ good.2).field (Reads.pure _)))
  | loadSmallI dst value =>
    exact reads_emit .loadSmallI ((reads_reg _ good).field ((reads_i8 _).field (Reads.pure _)))
  | cvtFI mode dst src =>
    refine reads_emit .cvtFI ((reads_u8 _).field ((reads_reg _ good.1).field ((reads_reg _ good.2).field ?_)))
    rw [FloatToIntMode.fromByte_toByte]
    exact Reads.pure _
  | binaryI op dst a b | binaryF op dst a b | bitwise op dst a b | cmpI op dst a b | cmpF op dst a b =>
    cases op <;> exact reads_emit _ (reads_reg3 good)
  | binaryG op dst a b protocolId => cases op <;> exact reads_emit _ (reads_reg3U32 good)
  | unaryI op dst src => cases op <;> exact reads_emit _ (reads_reg2 good)
  | unaryF op dst src =>
    refine reads_emit .negF ((reads_u8 _).field ((reads_reg _ good.2.1).field ((reads_reg _ good.2.2).field ?_)))
    rw [good.1]
    exact Reads.pure _
  | cmpG eq dst a b protocolId => cases eq <;> exact reads_emit _ (reads_reg3U32 good)
  | cmpU subOp dst a b =>
    refine reads_emit .cmpExtended ((reads_u8 _).field ?_)
    rw [CmpSubOpcode.fromByte_toByte]
    exact reads_reg3 good
  | nop | retV | asyncYield | ctxEnd | unreachable | tryEnd => exact reads_emit _ (Reads.pure _)
  | jmp off | tryBegin handlerOffset => exact reads_emit _ ((reads_i32 _).field (Reads.pure _))
  | jmpIf cond off | jmpNot cond off =>
    exact reads_emit _ ((reads_reg _ good).field ((reads_i32 _).field (Reads.pure _)))
  | jmpCmp op a b off =>
    have body : Reads (decodeJmpCmp op) [encodeReg a, encodeReg b, encodeSignedVarint off.toInt64].flatten
        (.jmpCmp op a b off) :=
      (reads_reg _ good.1).field ((reads_reg _ good.2).field ((reads_i32 _).field (Reads.pure _)))
    cases op <;> exact reads_emit _ body
  | call dst funcId args | callC dst cacheId args | genCreate dst funcId args | spawn dst funcId args =>
    exact reads_emit _ (reads_regU32Range good)
  | tailCall funcId args =>
    exact reads_emit .tailCall ((reads_varint_u32 _).field ((reads_reg_range _ good).field (Reads.pure _)))
  | callM dst receiver methodId args | callV dst receiver vtableSlot args =>
    exact reads_emit _ ((reads_reg _ good.1).field ((reads_reg _ good.2.1).field ((reads_varint_u32 _).field
      ((reads_reg_range _ good.2.2).field (Reads.pure _)))))
  | callClosure dst closure args =>
    exact reads_emit .callClosure ((reads_reg _ good.1).field ((reads_reg _ good.2.1).field
      ((reads_reg_range args good.2.2).field2 (Reads.pure _))))
  | newClosure dst funcId captures captureTypes lexicalTypes =>
    exact reads_newClosure dst funcId captures captureTypes lexicalTypes good.1 good.2.1 good.2.2.1 good.2.2.2.1
      good.2.2.2.2
  | new dst typeId fieldCount | makeVariant dst tag fieldCount =>
    exact reads_emit _ ((reads_reg _ good).field ((reads_varint_u32 _).field ((reads_varint_u32 _).field
      (Reads.pure _))))
  | newG dst typeId typeArgs =>
    exact reads_emit .newG ((reads_reg _ good.1).field ((reads_varint_u32 _).field
      ((reads_regVec _ good.2).field (Reads.pure _))))
  | getF dst obj fieldIdx | isVar dst value tag | isType dst value typeId | asVar dst value tag
  | attenuate dst context capabilities | getVariantData dst variant field | getVariantDataRef dst variant field
  | makePi dst param returnTypeId | makeWitness dst value proofHash => exact reads_emit _ (reads_reg2U32 good)
  | setF obj fieldIdx value | setVariantData variant field value =>
    exact reads_emit _ ((reads_reg _ good.1).field ((reads_varint_u32 _).field ((reads_reg _ good.2).field
      (Reads.pure _))))
  | getE dst arr idx | setE arr idx value | mapGet dst map key | mapSet map key val | mapContains dst map key
  | iterNext dst hasNext iter | nurserySpawn dst nursery task | setContains dst set elem | concat dst a b
  | makeSigma dst witness pl | gpuAlloc dst size device | munmap dst addr len | ioSubmit dst engine ops
  | ioPoll dst engine timeout => exact reads_emit _ (reads_reg3 good)
  | len dst arr typeHint =>
    exact reads_emit .len ((reads_reg _ good.1).field ((reads_reg _ good.2).field ((reads_typeHint _).field
      (Reads.pure _))))
  | newList dst capacityHint | newMap dst capacityHint | newSet dst capacityHint | newDeque dst capacityHint =>
    exact reads_emit _ (reads_regU16 good)
  | callG dst funcId typeArgs args =>
    exact reads_emit .callG ((reads_reg _ good.1).field ((reads_varint_u32 _).field
      ((reads_typeRefVec _ good.2.1).field2 ((reads_reg_range _ good.2.2).field (Reads.pure _)))))
  | unpack dstStart tuple n | pack dst srcStart n | callR dst func argc | gpuMemcpy dst src direction =>
    exact reads_emit _ ((reads_reg _ good.1).field ((reads_reg _ good.2).field ((reads_u8 _).field (Reads.pure
      _))))
  | switch value defaultOffset cases =>
    exact reads_emit .switch ((reads_reg _ good).field ((reads_i32 _).field ((reads_cases _).field2
      (Reads.pure _))))
  | select dst futures handlers =>
    exact reads_emit .select ((reads_reg _ good.1).field ((reads_regVec _ good.2).field ((reads_handlers _).field2
      (Reads.pure _))))
  | nurserySetTimeout nursery timeout => exact reads_nurseryConfig 0 (by decide) good rfl
  | nurserySetMaxTasks nursery maxTasks => exact reads_nurseryConfig 1 (by decide) good rfl
  | nurserySetErrorBehavior nursery behavior => exact reads_nurseryConfig 2 (by decide) good rfl
  | nurseryEnter nursery => exact reads_nurseryConfig 3 (by decide) ⟨good, good⟩ rfl
  | nurseryExit nursery => exact reads_nurseryConfig 4 (by decide) ⟨good, good⟩ rfl
  | nurseryAwaitAll nursery success | nurseryGetError nursery dst =>
    exact reads_emit _ ((reads_reg _ good.2).field ((reads_reg _ good.1).field (Reads.pure _)))
  | gradBegin scopeId mode wrt =>
    refine reads_emit .gradBegin ((reads_varint_u32 _).field ((reads_u8 _).field ((reads_regVec _ good).field ?_)))
    rw [GradMode.fromByte_toByte]
    exact Reads.pure _
  | gradEnd scopeId output gradOut gradRegs =>
    exact reads_emit .gradEnd ((reads_varint_u32 _).field ((reads_reg _ good.1).field
      ((reads_reg _ good.2.1).field ((reads_regVec _ good.2.2).field (Reads.pure _)))))
  | gradCheckpoint id tensors =>
    exact reads_emit .gradCheckpoint ((reads_varint_u32 _).field ((reads_regVec _ good).field (Reads.pure _)))
  | ctxProvide ctxType value bodyOffset =>
    exact reads_emit .ctxProvide ((reads_varint_u32 _).field ((reads_reg _ good).field ((reads_i32 _).field
      (Reads.pure _))))
  | guard reg expectedType deoptOffset =>
    exact reads_emit .guard ((reads_reg _ good).field ((reads_varint_u32 _).field ((reads_i32 _).field
      (Reads.pure _))))
  | panic messageId | popContext name => exact reads_emit _ ((reads_varint_u32 _).field (Reads.pure _))
  | newRange dst start end' inclusive =>
    exact reads_emit .newRange ((reads_reg _ good.1).field ((reads_reg _ good.2.1).field
      ((reads_reg _ good.2.2).field ((reads_flag _).field (Reads.pure _)))))
  | pushContext name handler => exact reads_emit .pushContext ((reads_varint_u32 _).field (reads_reg1 good))
  | bindMethodReceiver typeRef =>
    exact reads_extended .bindMethodReceiver ((reads_typeRef _ good).field (Reads.pure _))
  | setCallWitness typeArgs =>
    exact reads_extended .setCallWitness ((reads_typeRefVec _ good).field2 (Reads.pure _))
  | makeVariantTyped dst typeId tag fieldCount =>
    exact reads_extended .makeVariantTyped ((reads_reg _ good).field ((reads_varint_u32 _).field
      ((reads_varint_u32 _).field ((reads_varint_u32 _).field (Reads.pure _)))))
  | getFieldNamed dst obj name => exact reads_extended .getFieldNamed (reads_reg2U32 good)
  | setFieldNamed obj name value =>
    exact reads_extended .setFieldNamed ((reads_reg _ good.1).field ((reads_varint_u32 _).field
      ((reads_reg _ good.2).field (Reads.pure _))))
  | randomU64 dst => exact reads_tensorExt .randomU64 (by decide +kernel) (reads_reg1 good)
  | randomFloat dst low high => exact reads_tensorExt .randomFloat (by decide +kernel) (reads_reg3 good)
  | globalAllocator dst => exact reads_tensorExt .globalAllocator (by decide +kernel) (reads_reg1 good)
  | memNewId dst => exact reads_tensorExt .memNewId (by decide +kernel) (reads_reg1 good)
  | memAllocTensor dst shape dtype =>
    exact reads_tensorExt .memAllocTensor (by decide +kernel) ((reads_reg _ good.1).field
      ((reads_reg _ good.2).field ((reads_u8 _).field (Reads.pure _))))
  | permissionCheckWire dst scopeTag targetId =>
    exact reads_escaped .permissionCheckWire rfl (by simp [regSize_eq]; omega) (reads_reg3 good)
  | permissionAssert scopeTag targetId =>
    exact reads_escaped .permissionAssert rfl (by simp [regSize_eq]; omega)
      ((reads_u8 _).field ((reads_reg _ good).field (Reads.pure _)))
  | permissionStatsRead dst selector =>
    exact reads_escaped .permissionStatsRead rfl (by simp [regSize_eq]) (reads_reg2 good)
  | permissionStatsClear dst =>
    exact reads_escaped .permissionStatsClear rfl (by simp [regSize_eq]) (reads_reg1 good)
  | syscallLinux dst num a1 a2 a3 a4 a5 a6 =>
    exact reads_emit .syscallLinux ((reads_reg _ good.1).field ((reads_reg _ good.2.1).field
      ((reads_reg _ good.2.2.1).field ((reads_reg _ good.2.2.2.1).field ((reads_reg _ good.2.2.2.2.1).field
      ((reads_reg _ good.2.2.2.2.2.1).field ((reads_reg _ good.2.2.2.2.2.2.1).field
      ((reads_reg _ good.2.2.2.2.2.2.2).field (Reads.pure _)))))))))
  | mmap dst addr len prot flags fd off =>
    exact reads_emit .mmap ((reads_reg _ good.1).field ((reads_reg _ good.2.1).field
      ((reads_reg _ good.2.2.1).field ((reads_reg _ good.2.2.2.1).field ((reads_reg _ good.2.2.2.2.1).field
      ((reads_reg _ good.2.2.2.2.2.1).field ((reads_reg _ good.2.2.2.2.2.2).field (Reads.pure _))))))))
  | atomicLoad dst ptr ordering size | atomicStore ptr val ordering size =>
    exact reads_emit _ ((reads_reg _ good.1).field ((reads_reg _ good.2).field ((reads_u8 _).field ((reads_u8
      _).field (Reads.pure _)))))
  | atomicCas dst ptr expected desired ordering size =>
    exact reads_emit .atomicCas ((reads_reg _ good.1).field ((reads_reg _ good.2.1).field
      ((reads_reg _ good.2.2.1).field ((reads_reg _ good.2.2.2).field ((reads_u8 _).field ((reads_u8 _).field
      (Reads.pure _)))))))
  | atomicFence ordering => exact reads_emit .atomicFence ((reads_u8 _).field (Reads.pure _))
  | arithExtended subOp operands | mathExtended subOp operands | simdExtended subOp operands
  | charExtended subOp operands | cbgrExtended subOp operands | textExtended subOp operands
  | gpuExtended subOp operands | ffiExtended subOp operands | timeExtended subOp operands
  | sysExtended subOp operands | machExtended subOp operands | syncExtended subOp operands
  | memExtended subOp operands | logExtended subOp operands => exact reads_emit _ (reads_carrier subOp operands)
  | tensorExtended subOp operands => exact reads_tensorCarrier subOp operands good.1 good.2
  | cubicalExtended subOp dst args => exact reads_cubical subOp dst args good.1 good.2.1 good.2.2
  | ctxCheckNegative _ _ | iter _ _ | mapInsert _ _ _ | extended _ _ | loopHint _ | branchHint _
  | prefetchHint _ _ _ | optBarrier _ | raw _ _ | gpu _ | tensor _ => exact good.elim

theorem emit_ne_nil (opcode : Opcode) (fs : List (List UInt8)) : emit opcode fs ≠ [] :=
  List.cons_ne_nil _ _

theorem encodeInstruction_ne_nil (instr : Instruction) : encodeInstruction instr ≠ [] := by
  cases instr with
  | gpu instr | tensor instr => cases instr <;> exact emit_ne_nil _ _
  | newClosure dst funcId captures captureTypes lexicalTypes =>
    cases lexicalTypes <;> cases captureTypes <;> exact emit_ne_nil _ _
  | _ => exact emit_ne_nil _ _

theorem decodeInstructionsFuel_reads (instrs : List Instruction) (good : ∀ instr ∈ instrs, WireForm instr)
    (data : Slice) (off fuel : Nat) (held : data.Holds off (encodeInstructions instrs))
    (all : off + (encodeInstructions instrs).length = data.length) (he : instrs.length < fuel) :
    decodeInstructionsFuel fuel data off = .ok instrs data.length := by
  induction instrs generalizing off fuel with
  | nil =>
    obtain _ | fuel := fuel
    · simp at he
    · have done : off = data.length := all
      subst done
      simp [decodeInstructionsFuel, bind_run, position, dataLen]
  | cons instr rest ih =>
    obtain _ | fuel := fuel
    · simp at he
    have positive := List.length_pos_of_ne_nil (encodeInstruction_ne_nil instr)
    simp only [encodeInstructions, List.flatMap_cons, List.length_append] at held all
    have hin : off < data.length := by omega
    have first := reads_instruction instr (good instr (by simp)) data off held.left
    have hl := ih (fun instr mem => good instr (by simp [mem])) _ fuel held.right
      (by simp only [encodeInstructions]; omega) (by simpa using he)
    simp only [decodeInstructionsFuel, bind_run, position, dataLen, hin, if_true, first, hl, pure_run]

theorem length_le_encodeInstructions (instrs : List Instruction) :
    instrs.length ≤ (encodeInstructions instrs).length := by
  induction instrs with
  | nil => exact Nat.zero_le _
  | cons instr rest ih =>
    have pos := List.length_pos_of_ne_nil (encodeInstruction_ne_nil instr)
    simp only [encodeInstructions, List.flatMap_cons, List.length_append, List.length_cons] at ih ⊢
    omega

/-- Whole bodies are restored, and one instruction is read back exactly wherever it stands. -/
theorem instruction_codec :
    (∀ (instructions : List Instruction) (data : Slice), (∀ instr ∈ instructions, WireForm instr) →
      data.bytes = encodeInstructions instructions → decodeInstructions data = .ok instructions data.length) ∧
    (∀ (instr : Instruction) (before after : List UInt8) (data : Slice), WireForm instr →
      data.bytes = before ++ encodeInstruction instr ++ after →
      decodeInstruction data before.length = .ok instr (before.length + (encodeInstruction instr).length)) := by
  refine ⟨?_, ?_⟩
  · intro instructions data good layout
    have count := length_le_encodeInstructions instructions
    have size : data.length = (encodeInstructions instructions).length := by rw [Slice.length, layout]
    have held : data.Holds 0 (encodeInstructions instructions) :=
      @Slice.holds_of_eq data [] _ [] (by simpa using layout)
    exact decodeInstructionsFuel_reads instructions good data 0 _ held (by omega) (by omega)
  · intro instr before after data good layout
    exact reads_instruction instr good data before.length (Slice.holds_of_eq layout)

def bodySample : List Instruction :=
  [.loadI ⟨300⟩ (-5), .callG ⟨1⟩ 9 [.tuple [.generic ⟨2⟩]] ⟨⟨2⟩, 3⟩, .permissionAssert 4 ⟨200⟩,
    .jmpCmp .lt ⟨1⟩ ⟨2⟩ (-70), .retV]

theorem instruction_codec_body :
    decodeInstructions ⟨encodeInstructions bodySample, by decide +kernel⟩ = .ok bodySample 27 ∧
    decodeInstruction ⟨[9, 9] ++ encodeInstruction (.jmp 700) ++ [1], by decide⟩ 2 = .ok (.jmp 700) 5 := by
  refine ⟨?_, ?_⟩
  · have small : ∀ index : UInt16, index < 1000 → Reg.Encodable ⟨index⟩ := fun index lt => Nat.lt_trans lt (by decide)
    have tuple : ∀ type ∈ [TypeRef.tuple [.generic ⟨2⟩]], type.Encodable := by
      simp [TypeRef.Encodable, TypeRef.AllEncodable]
    have good : ∀ instr ∈ bodySample, WireForm instr := by
      simp only [bodySample, List.forall_mem_cons]
      exact ⟨small 300 (by decide), ⟨small 1 (by decide), tuple, small 2 (by decide)⟩, small 200 (by decide),
        ⟨small 1 (by decide), small 2 (by decide)⟩, trivial, by simp⟩
    have size : (encodeInstructions bodySample).length = 27 := by decide +kernel
    have run := instruction_codec.1 bodySample ⟨encodeInstructions bodySample, by decide +kernel⟩ good rfl
    exact run.trans (congrArg (Outcome.ok bodySample) size)
  · exact instruction_codec.2 (.jmp 700) [9, 9] [1] ⟨_, by decide⟩ trivial rfl

theorem ctxCheckNegative_run (data : Slice) (layout : data.bytes = encodeInstructions [.ctxCheckNegative 7 9]) :
    decodeInstructions data = .ok [.ctxGet ⟨0⟩ 7] 3 := by
  obtain ⟨bytes, hf⟩ := data
  subst layout
  rfl

/-- Variants of the list that do not come back: the negative context check is written as a read into
    register 0, a tensor carrier whose sub-opcode is not length-prefixed is refused, the escaped carrier is
    taken for a permission instruction, and a float operation after `Round` comes back as `Neg`. -/
theorem instruction_codec_fails :
    (∀ after, decodeInstructions ⟨encodeInstructions [.ctxCheckNegative 7 9], by decide⟩ ≠
      .ok [.ctxCheckNegative 7 9] after) ∧
    decodeInstructions ⟨encodeInstructions [.tensorExtended 0x11 []], by decide⟩ = .err (.invalidOpcode 0x11) ∧
    decodeInstructions ⟨encodeInstructions [.tensorExtended 0xFF [0x1F, 0]], by decide⟩ =
      .ok [.permissionStatsClear ⟨0⟩] 5 ∧
    decodeInstructions ⟨encodeInstructions [.unaryF .asin ⟨1⟩ ⟨2⟩], by decide⟩ = .ok [.unaryF .neg ⟨1⟩ ⟨2⟩] 4 := by
  refine ⟨?_, rfl, rfl, rfl⟩
  intro after same
  have run := (ctxCheckNegative_run ⟨_, by decide⟩ rfl).symm.trans same
  simp at run

end Vbc
