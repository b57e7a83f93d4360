import Verum.Vbc.Decode
import Verum.Vbc.TypeRefHazard

namespace Vbc

open Wire

section Operands

theorem safe_u32 : Safe decodeU32 := safe_varint.bind fun _ => Safe.pure _

theorem safe_u16 : Safe decodeU16 := safe_varint.bind fun _ => Safe.pure _

theorem safe_varint_u8 : Safe decodeVarintU8 := safe_varint.bind fun _ => Safe.pure _

theorem safe_i32 : Safe decodeI32 := safe_signed.bind fun _ => Safe.pure _

theorem safe_i8 : Safe decodeI8 := safe_u8.bind fun _ => Safe.pure _

theorem safe_flag : Safe decodeFlag := safe_u8.bind fun _ => Safe.pure _

theorem safe_dtype : Safe decodeTensorDType := safe_u8.bind fun _ => Safe.pure _

theorem safe_compare_op : Safe decodeCompareOp := safe_u8.bind fun _ => Safe.pure _

theorem safe_pool_op : Safe decodeTensorPoolOp := safe_u8.bind fun _ => Safe.pure _

theorem safe_cumulative_op : Safe decodeTensorCumulativeOp := safe_u8.bind fun _ => Safe.pure _

theorem safe_vec {α : Type} {item : Decode α} (each : Safe item) : Safe (decodeVec item) :=
  safe_varint.bind fun count => each.repeatN count

theorem safe_reg_vec : Safe decodeRegVec := safe_vec safe_reg

theorem safe_optional_reg : Safe decodeOptionalReg :=
  safe_u8.bind fun _ => (Safe.pure _).ite (safe_reg.bind fun _ => Safe.pure _)

theorem safe_case : Safe decodeCase := safe_u32.bind fun _ => safe_i32.bind fun _ => Safe.pure _

theorem safe_type_hint : Safe decodeTypeHint := by
  have run : ∀ (data : Slice) (offset : Nat), offset ≤ data.length →
      ∃ byte after, decodeTypeHint data offset = .ok byte after ∧ offset ≤ after ∧ after ≤ data.length := by
    intro data offset inside
    have bound := data.length_lt
    by_cases more : offset < data.length
    · have found : data.bytes[offset]? = some data.bytes[offset] := List.getElem?_eq_getElem more
      have noWrap : offset + 1 < 2 ^ 64 := by omega
      refine ⟨data.bytes[offset], offset + 1, ?_, by omega, by omega⟩
      simp only [decodeTypeHint, bind_run, position, dataLen, more, if_true, index, found, advance, noWrap, pure_run]
    · refine ⟨0, offset, ?_, by omega, by omega⟩
      simp only [decodeTypeHint, bind_run, position, dataLen, more, if_false, pure_run]
  constructor
  · intro data offset v after inside eq
    obtain ⟨byte, stop, ran, bound⟩ := run data offset inside
    rw [ran] at eq
    cases eq
    omega
  · rintro data offset inside ⟨fault, eq⟩
    obtain ⟨byte, stop, ran, _⟩ := run data offset inside
    rw [ran] at eq
    cases eq

theorem safe_extended_operand : Safe decodeExtendedRegOperand :=
  safe_u8.bind fun _ => (safe_u8.bind fun _ => Safe.pure _).ite (Safe.pure _)

theorem safe_extended_operands (count : Nat) : Safe (decodeExtendedRegOperands count) :=
  (safe_extended_operand.repeatN count).bind fun _ => Safe.pure _

theorem safe_within {α : Type} {decoder : Decode α} {inner : Slice} {start : Nat} (safe : Safe decoder)
    (inside : start ≤ inner.length) : Safe (within inner start decoder) := by
  constructor
  · intro data off v after bound run
    unfold within at run
    split at run
    · cases run
      omega
    · cases run
    · cases run
  · rintro data off _ ⟨fault, run⟩
    unfold within at run
    split at run
    · cases run
    · cases run
    · rename_i hit
      exact safe.noFault inner start inside ⟨_, hit⟩

end Operands

section Bodies

theorem safe_permission {subOp : UInt8} {decoder : Decode Instruction}
    (known : decodePermissionInstruction subOp = some decoder) : Safe decoder := by
  unfold decodePermissionInstruction at known
  split at known
  · cases known
    exact safe_reg.bind fun _ => safe_reg.bind fun _ => safe_reg.bind fun _ => Safe.pure _
  · cases known
    exact safe_u8.bind fun _ => safe_reg.bind fun _ => Safe.pure _
  · cases known
    exact safe_reg.bind fun _ => safe_reg.bind fun _ => Safe.pure _
  · cases known
    exact safe_reg.bind fun _ => Safe.pure _
  · cases known

theorem safe_tensor_ext (byte : UInt8) (subOp : TensorExtSubOpcode) : Safe (decodeTensorExt byte subOp) := by
  have permission : Safe ((decodePermissionInstruction byte).getD (fail (.invalidOpcode byte))) := by
    cases known : decodePermissionInstruction byte with
    | none => exact Safe.fail _
    | some decoder => exact safe_permission known
  cases subOp
  all_goals
    unfold decodeTensorExt
    first
      | exact permission
      | repeat first
        | exact Safe.pure _
        | exact Safe.fail _
        | refine Safe.bind safe_reg fun _ => ?_
        | refine Safe.bind safe_optional_reg fun _ => ?_
        | refine Safe.bind safe_flag fun _ => ?_
        | refine Safe.bind safe_i8 fun _ => ?_
        | refine Safe.bind safe_u8 fun _ => ?_
        | refine Safe.bind safe_f32 fun _ => ?_

theorem safe_tensor (byte : UInt8) (subOp : TensorSubOpcode) : Safe (decodeTensor byte subOp) := by
  unfold decodeTensor
  split
  all_goals
    repeat first
      | exact Safe.pure _
      | refine Safe.bind safe_reg fun _ => ?_
      | refine Safe.bind safe_reg_vec fun _ => ?_
      | refine Safe.bind (safe_vec safe_u8) fun _ => ?_
      | refine Safe.bind safe_optional_reg fun _ => ?_
      | refine Safe.bind safe_flag fun _ => ?_
      | refine Safe.bind safe_i8 fun _ => ?_
      | refine Safe.bind safe_u8 fun _ => ?_
      | refine Safe.bind safe_u32 fun _ => ?_
      | refine Safe.bind safe_varint_u8 fun _ => ?_
      | refine Safe.bind safe_f32 fun _ => ?_
      | refine Safe.bind safe_f64 fun _ => ?_
      | refine Safe.bind safe_dtype fun _ => ?_
      | refine Safe.bind safe_compare_op fun _ => ?_
      | refine Safe.bind safe_pool_op fun _ => ?_
      | refine Safe.bind safe_cumulative_op fun _ => ?_
  split
  · exact (safe_extended_operands _).bind fun _ => Safe.pure _
  · exact Safe.fail _

theorem safe_tensor_structured (byte : UInt8) : Safe (decodeTensorStructured byte) := by
  unfold decodeTensorStructured
  split
  · exact safe_tensor byte _
  · split
    · exact safe_tensor_ext byte _
    · exact Safe.fail _

theorem safe_escaped_operands (operands : Slice) : Safe (decodeEscapedOperands operands) := by
  unfold decodeEscapedOperands
  split
  · exact Safe.pure _
  · rename_i extended rest shape
    cases known : decodePermissionInstruction extended with
    | none => exact Safe.pure _
    | some permission =>
      have inside : 1 ≤ operands.length := by
        unfold Slice.length
        rw [shape]
        simp
      refine (safe_within (safe_permission known) inside).bind fun decoded => ?_
      exact (safe_position.bind fun _ => Safe.fail _).ite (Safe.pure _)

theorem safe_tensor_extended : Safe decodeTensorExtended := by
  refine safe_u8.bind fun byte => Safe.ite ?_ (safe_tensor_structured byte)
  exact safe_bytes.bind fun operands => (safe_escaped_operands operands).ite (Safe.pure _)

theorem safe_ml_extended : Safe decodeMlExtended :=
  safe_u8.bind fun _ => safe_bytes.bind fun _ => Safe.pure _

theorem safe_nursery_config : Safe decodeNurseryConfig :=
  safe_reg.bind fun _ => safe_varint.bind fun _ => safe_reg.bind fun _ => Safe.pure _

theorem safe_three_regs {α : Type} (res : Reg → Reg → Reg → α) :
    Safe (do return res (← decodeReg) (← decodeReg) (← decodeReg) : Decode α) :=
  safe_reg.bind fun _ => safe_reg.bind fun _ => safe_reg.bind fun _ => Safe.pure _

theorem safe_binary_g (op : BinaryGenericOp) : Safe (decodeBinaryG op) :=
  safe_reg.bind fun _ => safe_reg.bind fun _ => safe_reg.bind fun _ => safe_u32.bind fun _ => Safe.pure _

theorem safe_unary_i (op : UnaryIntOp) : Safe (decodeUnaryI op) :=
  safe_reg.bind fun _ => safe_reg.bind fun _ => Safe.pure _

theorem safe_jmp_cmp (op : CompareOp) : Safe (decodeJmpCmp op) :=
  safe_reg.bind fun _ => safe_reg.bind fun _ => safe_i32.bind fun _ => Safe.pure _

theorem safe_refuse (opcode : String) : Safe (refuseToGuess opcode) := Safe.fail _

theorem safe_instruction_body {opcode : Opcode} (notLoadT : opcode ≠ .loadT) (notCallG : opcode ≠ .callG)
    (notExtended : opcode ≠ .extended) : Safe (decodeInstructionBody opcode) := by
  cases opcode
  all_goals
    dsimp only [decodeInstructionBody]
    with_reducible repeat first
      | refine Safe.bind safe_reg fun _ => ?_
      | exact Safe.pure _
      | refine Safe.bind safe_u32 fun _ => ?_
      | refine Safe.bind safe_reg_range fun _ => ?_
      | refine Safe.bind safe_i32 fun _ => ?_
      | refine Safe.bind safe_u8 fun _ => ?_
      | refine Safe.bind safe_bytes fun _ => ?_
      | refine Safe.bind safe_reg_vec fun _ => ?_
      | refine Safe.bind safe_u16 fun _ => ?_
      | refine Safe.bind safe_i8 fun _ => ?_
      | refine Safe.bind safe_flag fun _ => ?_
      | refine Safe.bind safe_signed fun _ => ?_
      | refine Safe.bind safe_f64 fun _ => ?_
      | refine Safe.bind safe_type_hint fun _ => ?_
      | refine Safe.bind (safe_vec safe_case) fun _ => ?_
      | refine Safe.bind (safe_vec safe_i32) fun _ => ?_
      | refine Safe.bind (safe_reg.repeatN _) fun _ => ?_
      | exact safe_binary_g _
      | exact safe_unary_i _
      | exact safe_jmp_cmp _
      | exact safe_refuse _
      | exact safe_tensor_extended
      | exact safe_ml_extended
      | exact safe_nursery_config
      | contradiction
  case cmpExtended subByte =>
    cases CmpSubOpcode.fromByte subByte with
    | none => exact Safe.fail _
    | some subOp => exact safe_three_regs _
  all_goals exact safe_three_regs _

end Bodies

section Captures

variable (data : Slice)

/-- The bytes from `start` to `stop` are `count` optional type references. -/
inductive CapturesAt : Nat → Nat → Nat → Prop
  | none {start : Nat} : CapturesAt 0 start start
  | absent {count start stop : Nat} (flag : ByteAt data start 0) (tail : CapturesAt count (start + 1) stop) :
    CapturesAt (count + 1) start stop
  | present {count start middle stop : Nat} (flag : ByteAt data start 1)
    (type : TypeRefsAt data 1 (start + 1) middle) (tail : CapturesAt count middle stop) :
    CapturesAt (count + 1) start stop

variable {data} {start stop : Nat}

theorem ends_capture :
    Ends decodeCaptureType data start stop ↔
      (ByteAt data start 0 ∧ start + 1 = stop) ∨ (ByteAt data start 1 ∧ TypeRefsAt data 1 (start + 1) stop) := by
  refine ends_u8.trans ⟨?_, ?_⟩
  · rintro ⟨flag, hit, rest⟩
    split at rest
    · exact .inl ⟨hit, ends_pure.mp rest⟩
    · exact .inr ⟨hit, ends_type_ref_iff.mp (ends_map.mp rest)⟩
    · obtain ⟨v, run⟩ := rest
      cases run
  · rintro (⟨hit, rfl⟩ | ⟨hit, type⟩)
    · exact ⟨0, hit, ends_pure.mpr rfl⟩
    · exact ⟨1, hit, ends_map.mpr (ends_type_ref_iff.mpr type)⟩

variable {count : Nat}

theorem ends_captures :
    Ends (repeatN decodeCaptureType count) data start stop ↔ CapturesAt data count start stop := by
  induction count generalizing start with
  | zero =>
    refine ends_pure.trans ⟨fun eq => eq ▸ .none, fun captures => ?_⟩
    cases captures
    rfl
  | succ count ih =>
    rw [ends_repeatN_succ]
    constructor
    · rintro ⟨mid, head, tail⟩
      rcases ends_capture.mp head with ⟨flag, rfl⟩ | ⟨flag, type⟩
      · exact .absent flag (ih.mp tail)
      · exact .present flag type (ih.mp tail)
    · intro captures
      cases captures with
      | absent flag tail => exact ⟨_, ends_capture.mpr (.inl ⟨flag, rfl⟩), ih.mpr tail⟩
      | present flag type tail => exact ⟨_, ends_capture.mpr (.inr ⟨flag, type⟩), ih.mpr tail⟩

theorem decodeCaptureType_advances : Advances 0 decodeCaptureType := by
  refine safe_u8.stays.bind_zero fun flag => ?_
  split
  · exact Advances.pure none
  · exact decodeTypeRef_stays.bind_zero fun _ => Advances.pure _
  · exact Advances.fail 0 _

theorem faults_capture (hin : start ≤ data.length) :
    Faults decodeCaptureType data start ↔ ByteAt data start 1 ∧ Faults decodeTypeRef data (start + 1) := by
  refine (faults_u8 hin).trans ⟨?_, ?_⟩
  · rintro ⟨flag, hit, last⟩
    split at last
    · exact absurd last (not_faults_pure none)
    · exact ⟨hit, (faults_map decodeTypeRef_stays hit.inside).mp last⟩
    · exact absurd last (not_faults_fail _)
  · rintro ⟨hit, last⟩
    exact ⟨1, hit, (faults_map decodeTypeRef_stays hit.inside).mpr last⟩

theorem faults_captures (hin : start ≤ data.length) : Faults (repeatN decodeCaptureType count) data start ↔
      ∃ idx < count, ∃ pos, CapturesAt data idx start pos ∧ ByteAt data pos 1 ∧
        Faults decodeTypeRef data (pos + 1) := by
  rw [faults_repeatN]
  refine exists_congr fun idx => and_congr_right fun _ => exists_congr fun pos => ?_
  rw [ends_captures]
  refine and_congr_right fun captures => faults_capture ?_
  exact ((decodeCaptureType_advances.repeatN idx).ends hin (ends_captures.mpr captures)).2

end Captures

section Instructions

variable (data : Slice)

def OpcodeAt (start : Nat) (opcode : Opcode) : Prop :=
  ∃ byte, ByteAt data start byte ∧ Opcode.reclaimed byte = false ∧ Opcode.fromByte byte = opcode

def ExtendedAt (start : Nat) (subOp : ExtendedSubOpcode) : Prop :=
  OpcodeAt data start .extended ∧ ∃ byte, ByteAt data (start + 1) byte ∧ ExtendedSubOpcode.fromByte byte = some subOp

/-- The bytes from `start` to `stop` are a register. -/
def RegAt (start stop : Nat) : Prop := Ends decodeReg data start stop

/-- The bytes from `start` to `stop` are the destination, the function and the captures of a closure. -/
def ClosureAt (start stop : Nat) : Prop :=
  ∃ a, RegAt data start a ∧ ∃ b, (∃ function, VarintAt data a function b) ∧ Ends decodeRegVec data b stop

/-- The instruction at `start` reads `count` type references, the first of them at `first`. -/
inductive InstructionTypes (start : Nat) : Nat → Nat → Prop
  | loadT {first : Nat} (opcode : OpcodeAt data start .loadT) (dst : RegAt data (start + 1) first) :
    InstructionTypes start 1 first
  | callG {a function b count first : Nat} (opcode : OpcodeAt data start .callG) (dst : RegAt data (start + 1) a)
    (number : VarintAt data a function b) (length : VarintAt data b count first) : InstructionTypes start count first
  | typeResource {first : Nat} (opcode : ExtendedAt data start .typeResource) (dst : RegAt data (start + 2) first) :
    InstructionTypes start 1 first
  | bindMethodReceiver (opcode : ExtendedAt data start .bindMethodReceiver) : InstructionTypes start 1 (start + 2)
  | dropTyped {first : Nat} (opcode : ExtendedAt data start .dropTyped) (src : RegAt data (start + 2) first) :
    InstructionTypes start 1 first
  | typeLayout {a : Nat} {byte : UInt8} {property : LayoutProperty} (opcode : ExtendedAt data start .typeLayout)
    (dst : RegAt data (start + 2) a) (found : ByteAt data a byte) (known : LayoutProperty.fromByte byte = some property) :
    InstructionTypes start 1 (a + 1)
  | setCallWitness {count first : Nat} (opcode : ExtendedAt data start .setCallWitness)
    (length : VarintAt data (start + 2) count first) : InstructionTypes start count first
  | capture {a count b index position : Nat} (opcode : ExtendedAt data start .newClosureTyped)
    (closure : ClosureAt data (start + 2) a) (length : VarintAt data a count b) (few : count ≤ 65535)
    (lt : index < count) (before : CapturesAt data index b position) (flag : ByteAt data position 1) :
    InstructionTypes start 1 (position + 1)
  | witnessedCapture {a count b index position : Nat} (opcode : ExtendedAt data start .newClosureWitnessed)
    (closure : ClosureAt data (start + 2) a) (declared : ByteAt data a 1) (length : VarintAt data (a + 1) count b)
    (few : count ≤ 65535) (lt : index < count) (before : CapturesAt data index b position)
    (flag : ByteAt data position 1) : InstructionTypes start 1 (position + 1)
  | lexical {a count first : Nat} (opcode : ExtendedAt data start .newClosureWitnessed)
    (closure : ClosureAt data (start + 2) a) (declared : ByteAt data a 0) (length : VarintAt data (a + 1) count first)
    (few : count ≤ 65535) : InstructionTypes start count first
  | witnessedLexical {a captureCount b c count first : Nat} (opcode : ExtendedAt data start .newClosureWitnessed)
    (closure : ClosureAt data (start + 2) a) (declared : ByteAt data a 1)
    (captureLength : VarintAt data (a + 1) captureCount b) (fewCaptures : captureCount ≤ 65535)
    (captures : CapturesAt data captureCount b c) (length : VarintAt data c count first) (few : count ≤ 65535) :
    InstructionTypes start count first

/-- One of the type references that the instruction at `start` reads overflows. -/
def InstructionHazard (start : Nat) : Prop :=
  ∃ count first index position, InstructionTypes data start count first ∧ index < count ∧
    TypeRefsAt data index first position ∧ TypeRefHazard data position

end Instructions

section Faulting

variable {data : Slice} {start : Nat}
variable {count stop first : Nat} {kind : ExtendedSubOpcode}

theorem faults_type_refs : Faults (repeatN decodeTypeRef count) data start ↔
      ∃ idx < count, ∃ pos, TypeRefsAt data idx start pos ∧ TypeRefHazard data pos := by
  rw [faults_repeatN]
  simp only [ends_type_refs, faults_type_ref_iff]

theorem instructionHazard_iff :
    InstructionHazard data start ↔
      ∃ count first, InstructionTypes data start count first ∧ Faults (repeatN decodeTypeRef count) data first := by
  simp only [faults_type_refs]
  constructor
  · rintro ⟨count, first, idx, pos, types, lt, pre, hazard⟩
    exact ⟨count, first, types, idx, lt, pos, pre, hazard⟩
  · rintro ⟨count, first, types, idx, lt, pos, pre, hazard⟩
    exact ⟨count, first, idx, pos, types, lt, pre, hazard⟩

theorem ends_u32 : Ends decodeU32 data start stop ↔ ∃ v, VarintAt data start v stop := ends_map

theorem decodeTypeRefVec_advances : Advances 0 decodeTypeRefVec :=
  safe_varint.stays.bind_zero fun count => decodeTypeRef_stays.repeatN count

theorem faults_type_ref_vec (hin : start ≤ data.length) :
    Faults decodeTypeRefVec data start ↔
      ∃ count first, VarintAt data start count first ∧ Faults (repeatN decodeTypeRef count) data first :=
  faults_varint hin

theorem faults_reg_type {res : Reg → TypeRef → Instruction} (hin : start ≤ data.length) :
    Faults (do return res (← decodeReg) (← decodeTypeRef) : Decode Instruction) data start ↔
      ∃ first, RegAt data start first ∧ Faults (repeatN decodeTypeRef 1) data first := by
  refine faults_bind_safe_any safe_reg hin fun dst first hw => ?_
  exact (faults_map decodeTypeRef_stays hw).trans faults_one.symm

theorem faults_call_g (hin : start ≤ data.length) :
    Faults (decodeInstructionBody .callG) data start ↔
      ∃ a, RegAt data start a ∧ ∃ b, (∃ function, VarintAt data a function b) ∧
        ∃ count first, VarintAt data b count first ∧ Faults (repeatN decodeTypeRef count) data first := by
  refine faults_bind_safe_any safe_reg hin fun dst a hw => ?_
  refine (faults_bind_safe_any safe_u32 hw fun function b hw => ?_).trans
    (exists_congr fun b => and_congr_left fun _ => ends_u32)
  exact (faults_bind_last decodeTypeRefVec_advances (fun _ => safe_reg_range.bind fun _ => Safe.pure _) hw).trans
    (faults_type_ref_vec hw)

theorem faults_closure {α : Type} {next : Reg → UInt32 → List Reg → Decode α} {tail : Nat → Prop}
    (hin : start ≤ data.length)
    (rest : ∀ dst function captures mid, mid ≤ data.length →
      (Faults (next dst function captures) data mid ↔ tail mid)) :
    Faults (decodeReg >>= fun dst => decodeU32 >>= fun function => decodeRegVec >>= next dst function) data start ↔
      ∃ mid, ClosureAt data start mid ∧ tail mid := by
  refine (faults_bind_safe_any safe_reg hin fun dst a hw =>
    faults_bind_safe_any safe_u32 hw fun function b hw =>
      faults_bind_safe_any safe_reg_vec hw (rest dst function)).trans ⟨?_, ?_⟩
  · rintro ⟨a, dst, b, function, c, captures, last⟩
    exact ⟨c, ⟨a, dst, b, ends_u32.mp function, captures⟩, last⟩
  · rintro ⟨c, ⟨a, dst, b, function, captures⟩, last⟩
    exact ⟨a, dst, b, ends_u32.mpr function, c, captures, last⟩

theorem decodeCaptureTypes_advances : Advances 0 decodeCaptureTypes := counted_advances decodeCaptureType_advances

theorem decodeLexicalTypes_advances : Advances 0 decodeLexicalTypes := counted_advances decodeTypeRef_stays

theorem faults_capture_types (hin : start ≤ data.length) :
    Faults decodeCaptureTypes data start ↔
      ∃ count first, VarintAt data start count first ∧ count ≤ 65535 ∧
        Faults (repeatN decodeCaptureType count) data first :=
  faults_counted hin

theorem faults_lexical_types (hin : start ≤ data.length) :
    Faults decodeLexicalTypes data start ↔
      ∃ count first, VarintAt data start count first ∧ count ≤ 65535 ∧
        Faults (repeatN decodeTypeRef count) data first :=
  faults_counted hin

theorem faults_new_closure_typed (hin : start ≤ data.length) :
    Faults decodeNewClosureTyped data start ↔
      ∃ a, ClosureAt data start a ∧ Faults decodeCaptureTypes data a := by
  refine faults_closure hin fun dst function captures a hw => ?_
  exact faults_map decodeCaptureTypes_advances hw

theorem faults_new_closure_witnessed (hin : start ≤ data.length) :
    Faults decodeNewClosureWitnessed data start ↔
      ∃ a, ClosureAt data start a ∧
        ((ByteAt data a 0 ∧ Faults decodeLexicalTypes data (a + 1)) ∨
          (ByteAt data a 1 ∧ (Faults decodeCaptureTypes data (a + 1) ∨
            ∃ b, Ends decodeCaptureTypes data (a + 1) b ∧ Faults decodeLexicalTypes data b))) := by
  refine faults_closure hin fun dst function captures a hw => ?_
  have declared : a + 1 ≤ data.length → (Faults (do
      return Instruction.newClosure dst function captures (some (← decodeCaptureTypes)) (← decodeLexicalTypes) :
        Decode Instruction) data (a + 1) ↔ (Faults decodeCaptureTypes data (a + 1) ∨
          ∃ b, Ends decodeCaptureTypes data (a + 1) b ∧ Faults decodeLexicalTypes data b)) := fun hw =>
    faults_bind_any decodeCaptureTypes_advances hw fun types b hw =>
      faults_map decodeLexicalTypes_advances hw
  refine (faults_u8 hw).trans ⟨?_, ?_⟩
  · rintro ⟨flag, hit, last⟩
    split at last
    · exact .inl ⟨hit, (faults_map decodeLexicalTypes_advances hit.inside).mp last⟩
    · exact .inr ⟨hit, (declared hit.inside).mp last⟩
    · exact absurd last (not_faults_fail _)
  · rintro (⟨hit, last⟩ | ⟨hit, last⟩)
    · exact ⟨0, hit, (faults_map decodeLexicalTypes_advances hit.inside).mpr last⟩
    · exact ⟨1, hit, (declared hit.inside).mpr last⟩

theorem faults_type_layout (hin : start ≤ data.length) :
    Faults decodeTypeLayout data start ↔
      ∃ a, RegAt data start a ∧ ∃ byte, ByteAt data a byte ∧ ∃ property, LayoutProperty.fromByte byte = some property ∧
        Faults decodeTypeRef data (a + 1) := by
  refine faults_bind_safe_any safe_reg hin fun dst a hw => ?_
  refine (faults_u8 hw).trans (exists_congr fun byte => and_congr_right fun hit => ?_)
  cases LayoutProperty.fromByte byte with
  | none => exact iff_of_false (not_faults_fail _) (by simp)
  | some property =>
    refine (faults_map decodeTypeRef_stays hit.inside).trans ?_
    simp

def typed : ExtendedSubOpcode → Bool
  | .newClosureTyped | .newClosureWitnessed | .typeResource | .bindMethodReceiver | .dropTyped | .typeLayout
  | .setCallWitness => true
  | _ => false

theorem safe_extended_kind (subOp : UInt8) (plain : typed kind = false) : Safe (decodeExtendedKind subOp kind) := by
  have script : Safe ((scriptOperandCount kind).elim (return .extended subOp [] : Decode Instruction)
      fun count => do return .extended subOp (← decodeExtendedRegOperands count)) := by
    cases scriptOperandCount kind with
    | none => exact Safe.pure _
    | some count => exact (safe_extended_operands count).bind fun _ => Safe.pure _
  cases kind
  case makeVariantTyped =>
    exact safe_reg.bind fun _ => safe_u32.bind fun _ => safe_u32.bind fun _ => safe_u32.bind fun _ => Safe.pure _
  case getFieldNamed => exact safe_reg.bind fun _ => safe_reg.bind fun _ => safe_u32.bind fun _ => Safe.pure _
  case setFieldNamed => exact safe_reg.bind fun _ => safe_u32.bind fun _ => safe_reg.bind fun _ => Safe.pure _
  all_goals first
    | cases plain; done
    | exact script

theorem faults_instruction (hin : start ≤ data.length) :
    Faults decodeInstruction data start ↔
      ∃ opcode, OpcodeAt data start opcode ∧ Faults (decodeInstructionBody opcode) data (start + 1) := by
  refine (faults_u8 hin).trans ⟨?_, ?_⟩
  · rintro ⟨byte, hit, last⟩
    split at last
    · exact absurd last (not_faults_fail _)
    · rename_i kept
      exact ⟨_, ⟨byte, hit, Bool.eq_false_iff.mpr kept, rfl⟩, last⟩
  · rintro ⟨opcode, ⟨byte, hit, kept, rfl⟩, last⟩
    refine ⟨byte, hit, ?_⟩
    rw [if_neg (Bool.eq_false_iff.mp kept)]
    exact last

theorem faults_extended (hin : start ≤ data.length) :
    Faults decodeExtended data start ↔
      ∃ byte, ByteAt data start byte ∧ ∃ kind, ExtendedSubOpcode.fromByte byte = some kind ∧
        Faults (decodeExtendedKind byte kind) data (start + 1) := by
  refine (faults_u8 hin).trans (exists_congr fun byte => and_congr_right fun _ => ?_)
  cases ExtendedSubOpcode.fromByte byte with
  | none => exact iff_of_false (not_faults_fail _) (by simp)
  | some kind => simp

theorem OpcodeAt.inside {opcode : Opcode} (hit : OpcodeAt data start opcode) : start < data.length := by
  obtain ⟨byte, at', _⟩ := hit
  exact at'.inside

theorem ExtendedAt.inside {subOp : ExtendedSubOpcode} (hit : ExtendedAt data start subOp) :
    start + 1 < data.length := by
  obtain ⟨_, byte, at', _⟩ := hit
  exact at'.inside

theorem faults_captured (hin : first ≤ data.length)
    (faults : Faults (repeatN decodeCaptureType count) data first) :
    ∃ idx < count, ∃ pos, CapturesAt data idx first pos ∧ ByteAt data pos 1 ∧
      Faults (repeatN decodeTypeRef 1) data (pos + 1) := by
  obtain ⟨idx, lt, pos, pre, flag, last⟩ := (faults_captures hin).mp faults
  exact ⟨idx, lt, pos, pre, flag, faults_one.mpr last⟩

theorem ClosureAt.after (closure : ClosureAt data start stop) (hin : start ≤ data.length) :
    stop ≤ data.length := by
  obtain ⟨a, dst, b, ⟨function, num⟩, captures⟩ := closure
  have first := safe_reg.stays.ends hin dst
  have snd := num.after first.2
  exact (safe_reg_vec.stays.ends snd.2 captures).2

theorem faults_extended_kind_inv {byte : UInt8} (opcode : ExtendedAt data start kind)
    (faults : Faults (decodeExtendedKind byte kind) data (start + 2)) :
    ∃ count first, InstructionTypes data start count first ∧ Faults (repeatN decodeTypeRef count) data first := by
  have hin : start + 2 ≤ data.length := opcode.inside
  cases kind
  case newClosureTyped =>
    obtain ⟨a, closure, last⟩ := (faults_new_closure_typed hin).mp faults
    have hb := closure.after hin
    obtain ⟨count, b, length, few, last⟩ := (faults_capture_types hb).mp last
    obtain ⟨idx, lt, pos, pre, flag, last⟩ := faults_captured (length.after hb).2 last
    exact ⟨1, pos + 1, .capture opcode closure length few lt pre flag, last⟩
  case newClosureWitnessed =>
    obtain ⟨a, closure, ⟨declared, last⟩ | ⟨declared, last | ⟨c, captures, last⟩⟩⟩ :=
      (faults_new_closure_witnessed hin).mp faults
    · obtain ⟨count, first, length, few, last⟩ := (faults_lexical_types declared.inside).mp last
      exact ⟨count, first, .lexical opcode closure declared length few, last⟩
    · obtain ⟨count, b, length, few, last⟩ := (faults_capture_types declared.inside).mp last
      obtain ⟨idx, lt, pos, pre, flag, last⟩ := faults_captured (length.after declared.inside).2 last
      exact ⟨1, pos + 1, .witnessedCapture opcode closure declared length few lt pre flag, last⟩
    · have hb := decodeCaptureTypes_advances.ends declared.inside captures
      obtain ⟨captureCount, b, captureLength, fewCaptures, captured⟩ := ends_counted.mp captures
      obtain ⟨count, first, length, few, last⟩ := (faults_lexical_types hb.2).mp last
      exact ⟨count, first, .witnessedLexical opcode closure declared captureLength fewCaptures
        (ends_captures.mp captured) length few, last⟩
  case typeResource =>
    obtain ⟨first, dst, last⟩ := (faults_reg_type hin).mp faults
    exact ⟨1, first, .typeResource opcode dst, last⟩
  case bindMethodReceiver =>
    have last := (faults_map decodeTypeRef_stays hin).mp faults
    exact ⟨1, start + 2, .bindMethodReceiver opcode, faults_one.mpr last⟩
  case dropTyped =>
    obtain ⟨first, src, last⟩ := (faults_reg_type hin).mp faults
    exact ⟨1, first, .dropTyped opcode src, last⟩
  case typeLayout =>
    obtain ⟨a, dst, byte, hit, property, known, last⟩ := (faults_type_layout hin).mp faults
    exact ⟨1, a + 1, .typeLayout opcode dst hit known, faults_one.mpr last⟩
  case setCallWitness =>
    have types := (faults_map decodeTypeRefVec_advances hin).mp faults
    obtain ⟨count, first, length, last⟩ := (faults_type_ref_vec hin).mp types
    exact ⟨count, first, .setCallWitness opcode length, last⟩
  all_goals exact absurd faults ((safe_extended_kind byte rfl).noFault data _ hin)

theorem faults_instruction_inv (hin : start ≤ data.length) (faults : Faults decodeInstruction data start) :
    ∃ count first, InstructionTypes data start count first ∧ Faults (repeatN decodeTypeRef count) data first := by
  obtain ⟨opcode, hit, body⟩ := (faults_instruction hin).mp faults
  have hb : start + 1 ≤ data.length := hit.inside
  by_cases isLoadT : opcode = .loadT
  · subst isLoadT
    obtain ⟨first, dst, last⟩ := (faults_reg_type hb).mp body
    exact ⟨1, first, .loadT hit dst, last⟩
  by_cases isCallG : opcode = .callG
  · subst isCallG
    obtain ⟨a, dst, b, ⟨function, num⟩, count, first, length, last⟩ := (faults_call_g hb).mp body
    exact ⟨count, first, .callG hit dst num length, last⟩
  by_cases isExtended : opcode = .extended
  · subst isExtended
    obtain ⟨byte, sub, kind, known, last⟩ := (faults_extended hb).mp body
    exact faults_extended_kind_inv ⟨hit, byte, sub, known⟩ last
  · exact absurd body ((safe_instruction_body isLoadT isCallG isExtended).noFault data _ hb)

theorem ExtendedAt.faults (opcode : ExtendedAt data start kind)
    (body : ∀ byte, Faults (decodeExtendedKind byte kind) data (start + 2)) :
    Faults decodeInstruction data start := by
  obtain ⟨hit, byte, sub, known⟩ := opcode
  refine (faults_instruction (Nat.le_of_lt hit.inside)).mpr ⟨.extended, hit, ?_⟩
  exact (faults_extended hit.inside).mpr ⟨byte, sub, kind, known, body byte⟩

theorem InstructionTypes.faults (types : InstructionTypes data start count first)
    (faults : Faults (repeatN decodeTypeRef count) data first) : Faults decodeInstruction data start := by
  cases types with
  | loadT opcode dst =>
    exact (faults_instruction (Nat.le_of_lt opcode.inside)).mpr
      ⟨_, opcode, (faults_reg_type opcode.inside).mpr ⟨_, dst, faults⟩⟩
  | callG opcode dst num length =>
    exact (faults_instruction (Nat.le_of_lt opcode.inside)).mpr
      ⟨_, opcode, (faults_call_g opcode.inside).mpr ⟨_, dst, _, ⟨_, num⟩, _, _, length, faults⟩⟩
  | typeResource opcode dst | dropTyped opcode dst =>
    exact opcode.faults fun _ => (faults_reg_type opcode.inside).mpr ⟨_, dst, faults⟩
  | bindMethodReceiver opcode =>
    exact opcode.faults fun _ => (faults_map decodeTypeRef_stays opcode.inside).mpr (faults_one.mp faults)
  | typeLayout opcode dst hit known =>
    exact opcode.faults fun _ => (faults_type_layout opcode.inside).mpr
      ⟨_, dst, _, hit, _, known, faults_one.mp faults⟩
  | setCallWitness opcode length =>
    exact opcode.faults fun _ => (faults_map decodeTypeRefVec_advances opcode.inside).mpr
      ((faults_type_ref_vec opcode.inside).mpr ⟨_, _, length, faults⟩)
  | capture opcode closure length few lt pre flag =>
    have hb := closure.after opcode.inside
    refine opcode.faults fun _ => (faults_new_closure_typed opcode.inside).mpr ⟨_, closure, ?_⟩
    refine (faults_capture_types hb).mpr ⟨_, _, length, few, ?_⟩
    exact (faults_captures (length.after hb).2).mpr ⟨_, lt, _, pre, flag, faults_one.mp faults⟩
  | witnessedCapture opcode closure declared length few lt pre flag =>
    refine opcode.faults fun _ => (faults_new_closure_witnessed opcode.inside).mpr ⟨_, closure, .inr ⟨declared, .inl ?_⟩⟩
    refine (faults_capture_types declared.inside).mpr ⟨_, _, length, few, ?_⟩
    exact (faults_captures (length.after declared.inside).2).mpr ⟨_, lt, _, pre, flag, faults_one.mp faults⟩
  | lexical opcode closure declared length few =>
    refine opcode.faults fun _ => (faults_new_closure_witnessed opcode.inside).mpr ⟨_, closure, .inl ⟨declared, ?_⟩⟩
    exact (faults_lexical_types declared.inside).mpr ⟨_, _, length, few, faults⟩
  | witnessedLexical opcode closure declared captureLength fewCaptures captures length few =>
    have captured : Ends decodeCaptureTypes data _ _ :=
      ends_counted.mpr ⟨_, _, captureLength, fewCaptures, ends_captures.mpr captures⟩
    have hb := decodeCaptureTypes_advances.ends declared.inside captured
    refine opcode.faults fun _ => (faults_new_closure_witnessed opcode.inside).mpr
      ⟨_, closure, .inr ⟨declared, .inr ⟨_, captured, ?_⟩⟩⟩
    exact (faults_lexical_types hb.2).mpr ⟨_, _, length, few, faults⟩

theorem faults_instruction_iff (hin : start ≤ data.length) :
    Faults decodeInstruction data start ↔ InstructionHazard data start := by
  rw [instructionHazard_iff]
  refine ⟨faults_instruction_inv hin, ?_⟩
  rintro ⟨count, first, types, faults⟩
  exact types.faults faults

end Faulting

section Streams

theorem decodeNewClosureWitnessed_advances : Advances 0 decodeNewClosureWitnessed := by
  refine safe_reg.stays.bind_zero fun _ => safe_u32.stays.bind_zero fun _ => safe_reg_vec.stays.bind_zero fun _ =>
    safe_u8.stays.bind_zero fun _ => ?_
  split
  · exact decodeLexicalTypes_advances.bind_zero fun _ => Advances.pure _
  · exact decodeCaptureTypes_advances.bind_zero fun _ => decodeLexicalTypes_advances.bind_zero fun _ => Advances.pure _
  · exact Advances.fail 0 _

theorem decodeTypeLayout_advances : Advances 0 decodeTypeLayout := by
  refine safe_reg.stays.bind_zero fun _ => safe_u8.stays.bind_zero fun _ => ?_
  split
  · exact Advances.fail 0 _
  · exact decodeTypeRef_stays.bind_zero fun _ => Advances.pure _

theorem decodeExtendedKind_advances (byte : UInt8) (kind : ExtendedSubOpcode) :
    Advances 0 (decodeExtendedKind byte kind) := by
  cases kind
  case newClosureTyped =>
    exact safe_reg.stays.bind_zero fun _ => safe_u32.stays.bind_zero fun _ => safe_reg_vec.stays.bind_zero fun _ =>
      decodeCaptureTypes_advances.bind_zero fun _ => Advances.pure _
  case newClosureWitnessed => exact decodeNewClosureWitnessed_advances
  case typeResource => exact safe_reg.stays.bind_zero fun _ => decodeTypeRef_stays.bind_zero fun _ => Advances.pure _
  case bindMethodReceiver => exact decodeTypeRef_stays.bind_zero fun _ => Advances.pure _
  case dropTyped => exact safe_reg.stays.bind_zero fun _ => decodeTypeRef_stays.bind_zero fun _ => Advances.pure _
  case typeLayout => exact decodeTypeLayout_advances
  case setCallWitness => exact decodeTypeRefVec_advances.bind_zero fun _ => Advances.pure _
  all_goals exact (safe_extended_kind byte rfl).stays

theorem decodeInstructionBody_advances (opcode : Opcode) : Advances 0 (decodeInstructionBody opcode) := by
  by_cases isLoadT : opcode = .loadT
  · subst isLoadT
    exact safe_reg.stays.bind_zero fun _ => decodeTypeRef_stays.bind_zero fun _ => Advances.pure _
  by_cases isCallG : opcode = .callG
  · subst isCallG
    exact safe_reg.stays.bind_zero fun _ => safe_u32.stays.bind_zero fun _ =>
      decodeTypeRefVec_advances.bind_zero fun _ => safe_reg_range.stays.bind_zero fun _ => Advances.pure _
  by_cases isExtended : opcode = .extended
  · subst isExtended
    refine safe_u8.stays.bind_zero fun byte => ?_
    split
    · exact decodeExtendedKind_advances byte _
    · exact Advances.fail 0 _
  · exact (safe_instruction_body isLoadT isCallG isExtended).stays

theorem decodeInstruction_advances : Advances 1 decodeInstruction := by
  refine decodeU8_advances.bind_first fun byte => ?_
  split
  · exact Advances.fail 0 _
  · exact decodeInstructionBody_advances _

/-- The loop decodes an instruction at `start` and goes on at `stop`. -/
def InstructionStep (data : Slice) (start stop : Nat) : Prop :=
  start < data.length ∧ Ends decodeInstruction data start stop

def InstructionStart (data : Slice) : Nat → Prop := Relation.ReflTransGen (InstructionStep data) 0

variable {data : Slice} {start : Nat}

theorem InstructionTypes.inside {count first : Nat} (types : InstructionTypes data start count first) :
    start < data.length := by
  cases types with
  | loadT opcode | callG opcode => exact opcode.inside
  | typeResource opcode | bindMethodReceiver opcode | dropTyped opcode | typeLayout opcode
  | setCallWitness opcode | capture opcode | witnessedCapture opcode | lexical opcode | witnessedLexical opcode =>
    exact opcode.1.inside

theorem decodeInstructionsFuel_run (fuel : Nat) (more : start < data.length) :
    decodeInstructionsFuel (fuel + 1) data start =
      (decodeInstruction >>= fun instr => decodeInstructionsFuel fuel >>= fun instrs =>
        pure (instr :: instrs)) data start := by
  change (if start < data.length then _ else _ : Decode (List Instruction)) data start = _
  rw [if_pos more]

theorem decodeInstructionsFuel_stop (fuel : Nat) (done : ¬ start < data.length) :
    decodeInstructionsFuel (fuel + 1) data start = .ok [] start := by
  change (if start < data.length then _ else _ : Decode (List Instruction)) data start = _
  rw [if_neg done, pure_run]

theorem decodeInstructionsFuel_advances (fuel : Nat) : Advances 0 (decodeInstructionsFuel fuel) := by
  induction fuel with
  | zero => exact Advances.crash 0 .outOfFuel
  | succ fuel ih =>
    intro data start v after hin run
    by_cases more : start < data.length
    · rw [decodeInstructionsFuel_run fuel more] at run
      have loop : Advances 0 (decodeInstruction >>= fun instr => decodeInstructionsFuel fuel >>= fun instrs =>
          pure (instr :: instrs)) :=
        (decodeInstruction_advances.weaken (Nat.zero_le 1)).bind_zero fun _ => ih.bind_zero fun _ => Advances.pure _
      exact loop data start v after hin run
    · rw [decodeInstructionsFuel_stop fuel more] at run
      cases run
      omega

theorem faults_instructions_fuel {fuel : Nat} (hin : start ≤ data.length) (he : data.length < start + fuel) :
    Faults (decodeInstructionsFuel fuel) data start ↔
      ∃ pos, Relation.ReflTransGen (InstructionStep data) start pos ∧ InstructionHazard data pos := by
  induction fuel generalizing start with
  | zero => omega
  | succ fuel ih =>
    by_cases more : start < data.length
    · have hl : ∀ {mid}, Ends decodeInstruction data start mid →
          mid ≤ data.length ∧ data.length < mid + fuel := fun ends => by
        have moved := decodeInstruction_advances.ends hin ends
        omega
      unfold Faults
      rw [decodeInstructionsFuel_run fuel more]
      refine faults_bind.trans ?_
      rw [faults_instruction_iff hin]
      constructor
      · rintro (hazard | ⟨instr, mid, run, last⟩)
        · exact ⟨start, .refl, hazard⟩
        · have hb := hl ⟨instr, run⟩
          have rest := (faults_map (decodeInstructionsFuel_advances fuel) hb.1).mp last
          obtain ⟨pos, steps, hazard⟩ := (ih hb.1 hb.2).mp rest
          exact ⟨pos, .head ⟨more, instr, run⟩ steps, hazard⟩
      · rintro ⟨pos, steps, hazard⟩
        rcases Relation.ReflTransGen.cases_head steps with rfl | ⟨mid, ⟨_, instr, run⟩, steps⟩
        · exact .inl hazard
        · have hb := hl ⟨instr, run⟩
          refine .inr ⟨instr, mid, run, (faults_map (decodeInstructionsFuel_advances fuel) hb.1).mpr ?_⟩
          exact (ih hb.1 hb.2).mpr ⟨pos, steps, hazard⟩
    · refine iff_of_false ?_ ?_
      · rintro ⟨fault, run⟩
        rw [decodeInstructionsFuel_stop fuel more] at run
        cases run
      · rintro ⟨pos, steps, count, first, idx, at', types, _⟩
        rcases Relation.ReflTransGen.cases_head steps with rfl | ⟨mid, ⟨lt, _⟩, _⟩
        · exact more types.inside
        · exact more lt

/-- The outcome that the readers promise: an error, or a value and a position further on in the slice. -/
def Decodes {α : Type} (decoder : Decode α) (data : Slice) (offset : Nat) : Prop :=
  (∃ error, decoder data offset = .err error) ∨
    ∃ value after, decoder data offset = .ok value after ∧ offset < after ∧ after ≤ data.length

theorem decodes_iff {α : Type} {decoder : Decode α} {off : Nat} (moves : Advances 1 decoder)
    (hin : off ≤ data.length) : Decodes decoder data off ↔ ¬ Faults decoder data off := by
  unfold Decodes Faults
  cases run : decoder data off with
  | ok v after =>
    have hb := moves data off v after hin run
    simp only [reduceCtorEq, exists_false, not_false_eq_true, iff_true]
    exact .inr ⟨v, after, rfl, by omega, hb.2⟩
  | err error | fault fault => simp

/-- `LoadT` of a reference to a concrete type. -/
def loadReference : Slice where
  bytes := [0x07, 0x00, 0x04, 0x00, 0x05, 0x00, 0x01]
  fits := by decide

/-- `LoadT` of a legacy projection whose name length is `u64::MAX`. -/
def wrappingName : Slice where
  bytes := [0x07, 0x00, 0x09, 0x00, 0x00, 0xFF, 0xFF, 0xFF, 0xFF, 0xFF, 0xFF, 0xFF, 0xFF, 0xFF, 0x01]
  fits := by decide

theorem wrappingName_run :
    decodeTypeRef wrappingName 2 = .fault .addOverflow ∧ decodeInstruction wrappingName 0 = .fault .addOverflow ∧
      decodeInstructions wrappingName = .fault .addOverflow :=
  ⟨rfl, rfl, rfl⟩

end Streams

end Vbc
