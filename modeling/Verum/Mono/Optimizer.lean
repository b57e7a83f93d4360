import Verum.Vbc.Linker

namespace Mono

open Wire Vbc

/-- `none` for the operations that are not folded. -/
def foldIntBinop (op : BinaryIntOp) (a b : Int64) : Option Int64 :=
  match op with
  | .add => some (a + b)
  | .sub => some (a - b)
  | .mul => some (a * b)
  | .div => if b ≠ 0 then some (a / b) else none
  | .mod => if b ≠ 0 then some (a % b) else none
  | _ => none

def decodeWithPositionsFuel : Nat → Decode (List Instruction × List Nat)
  | 0 => crash .outOfFuel
  | fuel + 1 => do
    let pc ← position
    let len ← dataLen
    if pc < len then do
      let instr ← decodeInstruction
      let (instrs, positions) ← decodeWithPositionsFuel fuel
      return (instr :: instrs, pc :: positions)
    else return ([], [])

def decodeWithPositions (bytecode : Slice) : Outcome VbcError (List Instruction × List Nat) :=
  decodeWithPositionsFuel (bytecode.length + 1) bytecode 0

/-- `byte_to_idx.get(&target)`: the end of the code was inserted last. -/
def byteToIdx (positions : List Nat) (totalLen target : Nat) : Option Int32 :=
  if target = totalLen then some (Int32.ofNat positions.length)
  else (positions.idxOf? target).map Int32.ofNat

def normalizeJumpTarget (positions : List Nat) (totalLen i : Nat) (instr : Instruction) : Option Instruction :=
  match jumpOffset instr with
  | none => some instr
  | some byteOff =>
    let stop := positions[i + 1]?.getD totalLen
    let targetByte : Int := stop + byteOff.toInt
    if targetByte < 0 then none
    else (byteToIdx positions totalLen targetByte.toNat).map fun targetIdx =>
      setJumpOffset (targetIdx - Int32.ofNat i) instr

def normalizeJumpTargets (positions : List Nat) (totalLen : Nat) :
    (i : Nat) → List Instruction → Option (List Instruction)
  | _, [] => some []
  | i, instr :: instrs => do
    let instr ← normalizeJumpTarget positions totalLen i instr
    let instrs ← normalizeJumpTargets positions totalLen (i + 1) instrs
    some (instr :: instrs)

abbrev Consts : Type := UInt16 → Option Int64

namespace Consts

def empty : Consts := fun _ => none

def insert (consts : Consts) (reg : Reg) (value : Int64) : Consts := Function.update consts reg.index (some value)

def remove (consts : Consts) (reg : Reg) : Consts := Function.update consts reg.index none

end Consts

def isReturn : Instruction → Bool
  | .ret _ | .retV => true
  | _ => false

/-- One round of the loop: the constants after the instruction, what stands in its place, and whether it was
    folded. -/
def foldOne (consts : Consts) (instr : Instruction) : Consts × Instruction × Bool :=
  if (jumpOffset instr).isSome || isReturn instr then (.empty, instr, false)
  else match instr with
    | .loadI dst value => (consts.insert dst value, instr, false)
    | .loadSmallI dst value => (consts.insert dst value.toInt64, instr, false)
    | .binaryI op dst a b =>
      match consts a.index, consts b.index with
      | some va, some vb =>
        match foldIntBinop op va vb with
        | some folded => (consts.insert dst folded, .loadI dst folded, true)
        | none => (consts.remove dst, instr, false)
      | _, _ => (consts.remove dst, instr, false)
    | _ => (.empty, instr, false)

def foldFrom (consts : Consts) : List Instruction → List Instruction × Nat
  | [] => ([], 0)
  | instr :: instrs =>
    let (consts, instr, folded) := foldOne consts instr
    let (instrs, count) := foldFrom consts instrs
    (instr :: instrs, count + folded.toNat)

def foldConstants (instrs : List Instruction) : List Instruction × Nat := foldFrom .empty instrs

structure SpecializationOptimizer where
  constantFold : Bool
  maxIterations : Nat

def SpecializationOptimizer.default : SpecializationOptimizer := ⟨true, 3⟩

def foldRounds (constantFold : Bool) : Nat → List Instruction → List Instruction
  | 0, instrs => instrs
  | rounds + 1, instrs =>
    let (instrs, count) := if constantFold then foldConstants instrs else (instrs, 0)
    if count = 0 then instrs else foldRounds constantFold rounds instrs

/-- `none` is a panic while decoding. The statistics beyond the count of folds, and the two flags that no pass
    reads, are left out. -/
def SpecializationOptimizer.optimize (config : SpecializationOptimizer) (bytecode : Slice) : Option (List UInt8) :=
  match decodeWithPositions bytecode with
  | .ok (instrs, positions) _ =>
    match normalizeJumpTargets positions bytecode.length 0 instrs with
    | some instrs =>
      some (encodeInstructionsWithFixup (foldRounds config.constantFold config.maxIterations instrs))
    | none => some bytecode.bytes
  | .err _ => some bytecode.bytes
  | .fault _ => none

end Mono
