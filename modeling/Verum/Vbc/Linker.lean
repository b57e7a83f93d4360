import Verum.Vbc.JumpFixup
import Verum.Vbc.InstructionSafety

namespace Vbc

structure ConstId where
  id : UInt32
  deriving DecidableEq

/-- The remapping surface that the instruction rewriter uses. -/
structure IdRemap where
  mapFunction : FunctionId → FunctionId
  mapTypeId : TypeId → TypeId
  mapConst : ConstId → ConstId
  mapProtocol : ProtocolId → ProtocolId

/-- The linker's tables. Hash maps are lookup functions. -/
structure RemapTable where
  type' : UInt32 → Option TypeId
  function : List FunctionId
  constant : List ConstId
  protocol : UInt32 → Option ProtocolId

def TypeId.firstUser : UInt32 := 19

def TypeId.isBuiltin (type : TypeId) : Bool := type.id < TypeId.firstUser

namespace RemapTable

variable (table : RemapTable)

def mapTypeId (src : TypeId) : TypeId :=
  if src.isBuiltin then src else (table.type' src.id).getD src

def mapFunction (src : FunctionId) : FunctionId :=
  if src.id = 0xFFFFFFFF then src
  else (table.function[src.id.toNat]?.filter fun found => found.id ≠ 0xFFFFFFFF).getD src

def mapConst (src : ConstId) : ConstId :=
  (table.constant[src.id.toNat]?.filter fun found => found.id ≠ 0xFFFFFFFF).getD src

def mapProtocol (src : ProtocolId) : ProtocolId := (table.protocol src.id).getD src

def toIdRemap : IdRemap where
  mapFunction := table.mapFunction
  mapTypeId := table.mapTypeId
  mapConst := table.mapConst
  mapProtocol := table.mapProtocol

end RemapTable

mutual

/-- Rebases every nested nominal type and protocol. Generic parameters stay. -/
def rewriteTypeRefIds (remap : IdRemap) : TypeRef → TypeRef
  | .concrete id => .concrete (remap.mapTypeId id)
  | .recordFieldProjection owner ordinal => .recordFieldProjection (remap.mapTypeId owner) ordinal
  | .instantiated base args => .instantiated (remap.mapTypeId base) (rewriteTypeRefsIds remap args)
  | .function isAsync params returnType contexts =>
    .function isAsync (rewriteTypeRefsIds remap params) (rewriteTypeRefIds remap returnType) contexts
  | .rank2Function isAsync typeParamCount params returnType contexts =>
    .rank2Function isAsync typeParamCount (rewriteTypeRefsIds remap params) (rewriteTypeRefIds remap returnType)
      contexts
  | .reference inner mutability tier => .reference (rewriteTypeRefIds remap inner) mutability tier
  | .slice inner => .slice (rewriteTypeRefIds remap inner)
  | .tuple elems => .tuple (rewriteTypeRefsIds remap elems)
  | .array element length => .array (rewriteTypeRefIds remap element) length
  | .associatedProjection base qualifier assoc args =>
    .associatedProjection (rewriteTypeRefIds remap base) (rewriteQualifierIds remap qualifier) assoc
      (rewriteTypeRefsIds remap args)
  | .generic param => .generic param
  | .constValue value => .constValue value

def rewriteTypeRefsIds (remap : IdRemap) : List TypeRef → List TypeRef
  | [] => []
  | head :: tail => rewriteTypeRefIds remap head :: rewriteTypeRefsIds remap tail

def rewriteQualifierIds (remap : IdRemap) :
    Option (ProtocolApplication TypeRef) → Option (ProtocolApplication TypeRef)
  | none => none
  | some ⟨protocol, args⟩ => some ⟨remap.mapProtocol protocol, rewriteTypeRefsIds remap args⟩

end

/-- The function id inside the operands of `CreateCallback`, after a register of one or two bytes. -/
def rewriteCallbackId (remap : IdRemap) (operands : List UInt8) : List UInt8 :=
  let fnIdOffset := if operands.headD 0 &&& 0x80 ≠ 0 then 2 else 1
  if fnIdOffset + 4 ≤ operands.length then
    let oldFnId := UInt32.ofNat (fromLeBytes ((operands.drop fnIdOffset).take 4))
    let newFnId := (remap.mapFunction ⟨oldFnId⟩).id
    if newFnId ≠ oldFnId then
      operands.take fnIdOffset ++ toLeBytes 4 newFnId.toNat ++ operands.drop (fnIdOffset + 4)
    else operands
  else operands

def rewriteInstructionIds (remap : IdRemap) : Instruction → Instruction
  | .bindMethodReceiver typeRef => .bindMethodReceiver (rewriteTypeRefIds remap typeRef)
  | .dropTyped src typeRef => .dropTyped src (rewriteTypeRefIds remap typeRef)
  | .typeResource dst typeRef => .typeResource dst (rewriteTypeRefIds remap typeRef)
  | .typeLayout dst typeRef property => .typeLayout dst (rewriteTypeRefIds remap typeRef) property
  | .loadT dst typeRef => .loadT dst (rewriteTypeRefIds remap typeRef)
  | .setCallWitness typeArgs => .setCallWitness (typeArgs.map (rewriteTypeRefIds remap))
  | .callG dst funcId typeArgs args =>
    .callG dst (remap.mapFunction ⟨funcId⟩).id (typeArgs.map (rewriteTypeRefIds remap)) args
  | .newClosure dst funcId captures captureTypes lexicalTypes =>
    .newClosure dst (remap.mapFunction ⟨funcId⟩).id captures
      (captureTypes.map fun types => types.map fun type => type.map (rewriteTypeRefIds remap))
      (lexicalTypes.map (rewriteTypeRefIds remap))
  | .loadK dst constId => .loadK dst (remap.mapConst ⟨constId⟩).id
  | .metaQuote dst bytesConstId => .metaQuote dst (remap.mapConst ⟨bytesConstId⟩).id
  | .call dst funcId args => .call dst (remap.mapFunction ⟨funcId⟩).id args
  | .tailCall funcId args => .tailCall (remap.mapFunction ⟨funcId⟩).id args
  | .spawn dst funcId args => .spawn dst (remap.mapFunction ⟨funcId⟩).id args
  | .genCreate dst funcId args => .genCreate dst (remap.mapFunction ⟨funcId⟩).id args
  | .new dst typeId fieldCount => .new dst (remap.mapTypeId ⟨typeId⟩).id fieldCount
  | .newG dst typeId typeArgs => .newG dst (remap.mapTypeId ⟨typeId⟩).id typeArgs
  | .metaReflect dst typeId => .metaReflect dst (remap.mapTypeId ⟨typeId⟩).id
  | .makeVariantTyped dst typeId tag fieldCount =>
    .makeVariantTyped dst (remap.mapTypeId ⟨typeId⟩).id tag fieldCount
  | .spec reg expectedType => .spec reg (remap.mapTypeId ⟨expectedType⟩).id
  | .guard reg expectedType deoptOffset => .guard reg (remap.mapTypeId ⟨expectedType⟩).id deoptOffset
  | .makePi dst param returnTypeId => .makePi dst param (remap.mapTypeId ⟨returnTypeId⟩).id
  | .binaryG op dst a b protocolId => .binaryG op dst a b (remap.mapProtocol ⟨protocolId⟩).id
  | .cmpG eq dst a b protocolId => .cmpG eq dst a b (remap.mapProtocol ⟨protocolId⟩).id
  | .ffiExtended subOp operands =>
    if subOp = 0x50 then .ffiExtended subOp (rewriteCallbackId remap operands) else .ffiExtended subOp operands
  | instr => instr

theorem jumpOffset_rewriteInstructionIds (remap : IdRemap) (instr : Instruction) :
    jumpOffset (rewriteInstructionIds remap instr) = jumpOffset instr := by
  unfold rewriteInstructionIds
  split
  all_goals first
    | rfl
    | split <;> rfl

open Wire

inductive LinkError where
  | truncatedBytecode (offset want : Nat)
  deriving DecidableEq

/-- `match decode_instruction(..) { Ok(i) => i, Err(_) => return Err(TruncatedBytecode { .. }) }`. -/
def decodeOrTruncated : Decoder LinkError Instruction := fun data offset =>
  match decodeInstruction data offset with
  | .ok instr after => .ok instr after
  | .err _ => .err (.truncatedBytecode offset data.length)
  | .fault fault => .fault fault

def decodeBodyFuel : Nat → Decoder LinkError (List Instruction)
  | 0 => crash .outOfFuel
  | fuel + 1 => do
    let offset ← position
    let len ← dataLen
    if offset < len then do
      let instr ← decodeOrTruncated
      let instructions ← decodeBodyFuel fuel
      return instr :: instructions
    else return []

def rewriteFunctionBytecode (srcBytes : Slice) (remap : RemapTable) : Outcome LinkError (List UInt8) :=
  (do
    let instructions ← decodeBodyFuel (srcBytes.length + 1)
    return encodeInstructions (instructions.map (rewriteInstructionIds remap.toIdRemap))) srcBytes 0

/-- The slice from `start` on decodes to `instructions`; `starts` are their positions and the end. -/
inductive BodyAt (data : Slice) : Nat → List Instruction → List Nat → Prop
  | done : BodyAt data data.length [] [data.length]
  | next {start middle : Nat} {instr : Instruction} {instructions : List Instruction} {starts : List Nat}
    (more : start < data.length) (run : decodeInstruction data start = .ok instr middle)
    (rest : BodyAt data middle instructions starts) : BodyAt data start (instr :: instructions) (start :: starts)

section Bodies

variable {data : Slice} {start : Nat} {instructions : List Instruction} {starts : List Nat}

theorem BodyAt.unique (fst : BodyAt data start instructions starts) {others : List Instruction} {others' : List Nat}
    (snd : BodyAt data start others others') : others = instructions ∧ others' = starts := by
  induction fst generalizing others others' with
  | done =>
    cases snd with
    | done => exact ⟨rfl, rfl⟩
    | next more => omega
  | next more run _ ih =>
    cases snd with
    | done => omega
    | next _ run' rest' =>
      rw [run] at run'
      cases run'
      obtain ⟨rfl, rfl⟩ := ih rest'
      exact ⟨rfl, rfl⟩

theorem BodyAt.length (body : BodyAt data start instructions starts) : starts.length = instructions.length + 1 := by
  induction body with
  | done => rfl
  | next _ _ _ ih => simp [ih]

theorem bodyAt_of_decodeBodyFuel {fuel after : Nat} (hin : start ≤ data.length)
    (run : decodeBodyFuel fuel data start = .ok instructions after) : ∃ starts, BodyAt data start instructions starts := by
  induction fuel generalizing start instructions after with
  | zero => cases run
  | succ fuel ih =>
    change (if start < data.length then _ else _ : Decoder LinkError (List Instruction)) data start = _ at run
    by_cases more : start < data.length
    · rw [if_pos more] at run
      obtain ⟨instr, mid, head, rest⟩ := bind_eq_ok run
      obtain ⟨tail, stop, loop, last⟩ := bind_eq_ok rest
      cases last
      have step : decodeInstruction data start = .ok instr mid := by
        unfold decodeOrTruncated at head
        split at head
        · rename_i hit
          cases head
          exact hit
        · cases head
        · cases head
      have moved := decodeInstruction_advances data start instr mid hin step
      obtain ⟨starts, body⟩ := ih moved.2 loop
      exact ⟨start :: starts, .next more step body⟩
    · rw [if_neg more] at run
      cases run
      obtain rfl : start = data.length := by omega
      exact ⟨_, .done⟩

theorem bodyAt_encodeInstructions
    (recodes : ∀ instr ∈ instructions, Reads decodeInstruction (encodeInstruction instr) instr)
    (held : data.Holds start (encodeInstructions instructions))
    (all : start + (encodeInstructions instructions).length = data.length) :
    BodyAt data start instructions (byteOffsetsFrom start instructions) := by
  induction instructions generalizing start with
  | nil =>
    obtain rfl : start = data.length := all
    exact .done
  | cons instr rest ih =>
    have pos := List.length_pos_of_ne_nil (encodeInstruction_ne_nil instr)
    rw [encodeInstructions_cons] at held all
    rw [List.length_append] at all
    have run := recodes instr (by simp) data start held.left
    exact .next (by omega) run (ih (fun instr mem => recodes instr (by simp [mem])) held.right (by omega))

end Bodies

section ControlFlow

variable (remap : RemapTable) (src target : Slice)

/-- Instruction `idx` is a jump whose byte target is the start of instruction `k`. -/
def JumpsTo (instructions : List Instruction) (starts : List Nat) (idx k : Nat) : Prop :=
  k < instructions.length ∧ ∃ offset ∈ instructions[idx]?.bind jumpOffset,
    (starts.getD (idx + 1) 0 : Int) + offset.toInt = starts.getD k 0

/-- The target decodes to the rewritten instructions of the source, and every jump still leads to the start of the
    same instruction. -/
def ControlFlowKept : Prop :=
  ∃ instructions starts starts', BodyAt src 0 instructions starts ∧
    BodyAt target 0 (instructions.map (rewriteInstructionIds remap.toIdRemap)) starts' ∧
    ∀ idx k, JumpsTo instructions starts idx k →
      JumpsTo (instructions.map (rewriteInstructionIds remap.toIdRemap)) starts' idx k

def Recodes : Prop :=
  ∀ instructions starts, BodyAt src 0 instructions starts → ∀ instr ∈ instructions,
    Reads decodeInstruction (encodeInstruction (rewriteInstructionIds remap.toIdRemap instr))
      (rewriteInstructionIds remap.toIdRemap instr)

/-- The bytes that the rewritten instructions from `first` to `last` take. -/
def rewrittenWidth (instructions : List Instruction) (first last : Nat) : Nat :=
  (encodeInstructions (((instructions.map (rewriteInstructionIds remap.toIdRemap)).take last).drop first)).length

/-- Between every jump and its target the rewritten instructions take as many bytes as the source's. -/
def WidthsKept : Prop :=
  ∀ instructions starts, BodyAt src 0 instructions starts → ∀ idx k, JumpsTo instructions starts idx k →
    if idx < k then starts.getD (idx + 1) 0 + rewrittenWidth remap instructions (idx + 1) k = starts.getD k 0
    else starts.getD k 0 + rewrittenWidth remap instructions k (idx + 1) = starts.getD (idx + 1) 0

variable {remap src target}

theorem rewrittenWidth_add (remap : RemapTable) (instructions : List Instruction) {fst last : Nat}
    (le : fst ≤ last) :
    (encodeInstructions ((instructions.map (rewriteInstructionIds remap.toIdRemap)).take fst)).length +
        rewrittenWidth remap instructions fst last =
      (encodeInstructions ((instructions.map (rewriteInstructionIds remap.toIdRemap)).take last)).length := by
  unfold rewrittenWidth
  have split := List.take_append_drop fst ((instructions.map (rewriteInstructionIds remap.toIdRemap)).take last)
  rw [List.take_take, Nat.min_eq_left le] at split
  rw [← List.length_append, ← encodeInstructions_append, split]

theorem JumpsTo.idx_lt {instructions : List Instruction} {starts : List Nat} {idx k : Nat}
    (jump : JumpsTo instructions starts idx k) : idx < instructions.length := by
  obtain ⟨_, off, held, _⟩ := jump
  obtain ⟨instr, hit, _⟩ := Option.bind_eq_some_iff.mp held
  exact (List.getElem?_eq_some_iff.mp hit).1

theorem jumpOffset_map_rewrite (remap : IdRemap) (instructions : List Instruction) (idx : Nat) :
    (instructions.map (rewriteInstructionIds remap))[idx]?.bind jumpOffset = instructions[idx]?.bind jumpOffset := by
  rw [List.getElem?_map]
  cases instructions[idx]? with
  | none => rfl
  | some instr => exact jumpOffset_rewriteInstructionIds remap instr

theorem jumpsTo_rewritten_iff {instructions : List Instruction} {starts : List Nat} {idx k : Nat}
    (jump : JumpsTo instructions starts idx k) :
    JumpsTo (instructions.map (rewriteInstructionIds remap.toIdRemap))
        (byteOffsetsFrom 0 (instructions.map (rewriteInstructionIds remap.toIdRemap))) idx k ↔
      if idx < k then starts.getD (idx + 1) 0 + rewrittenWidth remap instructions (idx + 1) k = starts.getD k 0
      else starts.getD k 0 + rewrittenWidth remap instructions k (idx + 1) = starts.getD (idx + 1) 0 := by
  have hb := jump.idx_lt
  obtain ⟨hin, off, held, reached⟩ := jump
  have ps : ∀ i ≤ instructions.length,
      (byteOffsetsFrom 0 (instructions.map (rewriteInstructionIds remap.toIdRemap))).getD i 0 =
        (encodeInstructions ((instructions.map (rewriteInstructionIds remap.toIdRemap)).take i)).length := by
    intro i le
    rw [List.getD_eq_getElem?_getD, byteOffsetsFrom_getElem? 0 i _ (by simpa using le), Option.getD_some,
      Nat.zero_add]
  have unfolded : JumpsTo (instructions.map (rewriteInstructionIds remap.toIdRemap))
      (byteOffsetsFrom 0 (instructions.map (rewriteInstructionIds remap.toIdRemap))) idx k ↔
      ((encodeInstructions ((instructions.map (rewriteInstructionIds remap.toIdRemap)).take (idx + 1))).length : Int) +
        off.toInt = (encodeInstructions ((instructions.map (rewriteInstructionIds remap.toIdRemap)).take k)).length := by
    unfold JumpsTo
    rw [jumpOffset_map_rewrite, ps (idx + 1) hb, ps k (by omega)]
    constructor
    · rintro ⟨_, other, held', landed⟩
      rw [held] at held'
      cases held'
      exact landed
    · intro landed
      exact ⟨by simpa using hin, off, held, landed⟩
  rw [unfolded]
  split
  · rename_i forward
    have span := rewrittenWidth_add remap instructions (show idx + 1 ≤ k by omega)
    omega
  · rename_i backward
    have span := rewrittenWidth_add remap instructions (show k ≤ idx + 1 by omega)
    omega

/-- Linking keeps the control flow of a body of instructions that survive re-encoding exactly when the widths
    between jumps and targets stay the same. -/
theorem rewriteFunctionBytecode_keeps_iff (remap : RemapTable) (src target : Slice) (after : Nat)
    (run : rewriteFunctionBytecode src remap = .ok target.bytes after) (recodes : Recodes remap src) :
    ControlFlowKept remap src target ↔ WidthsKept remap src := by
  obtain ⟨instructions, middle, decoded, encoded⟩ := bind_eq_ok run
  obtain ⟨starts, body⟩ := bodyAt_of_decodeBodyFuel (Nat.zero_le _) decoded
  simp only [pure_run, Outcome.ok.injEq] at encoded
  have rewritten : BodyAt target 0 (instructions.map (rewriteInstructionIds remap.toIdRemap))
      (byteOffsetsFrom 0 (instructions.map (rewriteInstructionIds remap.toIdRemap))) := by
    refine bodyAt_encodeInstructions ?_ ?_ ?_
    · intro instr member
      obtain ⟨original, found, rfl⟩ := List.mem_map.mp member
      exact recodes instructions starts body original found
    · exact @Slice.holds_of_eq target [] _ [] (by simpa using encoded.1.symm)
    · rw [encoded.1, Nat.zero_add]
      rfl
  constructor
  · rintro ⟨found, starts', positions, body', target', kept⟩ others others' body'' idx k jump
    obtain ⟨rfl, rfl⟩ := body.unique body'
    obtain ⟨rfl, rfl⟩ := body.unique body''
    obtain ⟨_, rfl⟩ := rewritten.unique target'
    exact (jumpsTo_rewritten_iff jump).mp (kept idx k jump)
  · intro widths
    refine ⟨instructions, starts, _, body, rewritten, fun idx k jump => ?_⟩
    exact (jumpsTo_rewritten_iff jump).mpr (widths instructions starts body idx k jump)

end ControlFlow

section Samples

def skipCall : Slice where
  bytes := encodeInstructions [.jmp 5, .call ⟨0⟩ 0 ⟨⟨0⟩, 0⟩, .retV]
  fits := by decide +kernel

/-- The table that sends function 0 to function `id`. -/
def functionTable (id : UInt32) : RemapTable where
  type' := fun _ => none
  function := [⟨id⟩]
  constant := []
  protocol := fun _ => none

theorem skipCall_body : BodyAt skipCall 0 [.jmp 5, .call ⟨0⟩ 0 ⟨⟨0⟩, 0⟩, .retV] [0, 2, 7, 8] :=
  .next (by decide +kernel) rfl (.next (by decide +kernel) rfl (.next (by decide +kernel) rfl .done))

theorem skipCall_jump : JumpsTo [.jmp 5, .call ⟨0⟩ 0 ⟨⟨0⟩, 0⟩, .retV] [0, 2, 7, 8] 0 2 :=
  ⟨by decide, 5, rfl, rfl⟩

def nearCall : Slice where
  bytes := encodeInstructions [.jmp 5, .call ⟨0⟩ 3 ⟨⟨0⟩, 0⟩, .retV]
  fits := by decide +kernel

theorem rewriteFunctionBytecode_keeps_iff_near :
    ControlFlowKept (functionTable 3) skipCall nearCall ∧ WidthsKept (functionTable 3) skipCall := by
  have small : Reg.Encodable ⟨0⟩ := by
    unfold Reg.Encodable
    decide
  have recodes : Recodes (functionTable 3) skipCall := by
    intro instructions starts body instr member
    obtain ⟨rfl, rfl⟩ := skipCall_body.unique body
    refine reads_instruction _ ?_
    simp only [List.mem_cons, List.not_mem_nil, or_false] at member
    rcases member with rfl | rfl | rfl
    · trivial
    · exact ⟨small, small⟩
    · trivial
  have kept : ControlFlowKept (functionTable 3) skipCall nearCall := by
    refine ⟨_, _, [0, 2, 7, 8], skipCall_body, ?_, fun idx k jump => ?_⟩
    · exact .next (by decide +kernel) rfl (.next (by decide +kernel) rfl (.next (by decide +kernel) rfl .done))
    · obtain ⟨inside, offset, held, reached⟩ := jump
      exact ⟨by simpa using inside, offset, by rwa [jumpOffset_map_rewrite], reached⟩
  exact ⟨kept, (rewriteFunctionBytecode_keeps_iff (functionTable 3) skipCall nearCall 8 rfl recodes).mp kept⟩

def farCall : Slice where
  bytes := encodeInstructions [.jmp 5, .call ⟨0⟩ 300 ⟨⟨0⟩, 0⟩, .retV]
  fits := by decide +kernel

theorem farCall_body : BodyAt farCall 0 [.jmp 5, .call ⟨0⟩ 300 ⟨⟨0⟩, 0⟩, .retV] [0, 2, 8, 9] :=
  .next (by decide +kernel) rfl (.next (by decide +kernel) rfl (.next (by decide +kernel) rfl .done))

theorem rewriteFunctionBytecode_breaks :
    ¬ ∀ (remap : RemapTable) (src target : Slice) (after : Nat),
      rewriteFunctionBytecode src remap = .ok target.bytes after → ControlFlowKept remap src target := by
  intro claim
  obtain ⟨instructions, starts, starts', body, target, kept⟩ := claim (functionTable 300) skipCall farCall 8 rfl
  obtain ⟨rfl, rfl⟩ := skipCall_body.unique body
  obtain ⟨_, rfl⟩ := farCall_body.unique target
  obtain ⟨_, offset, held, reached⟩ := kept 0 2 skipCall_jump
  cases held
  revert reached
  decide

end Samples

end Vbc
