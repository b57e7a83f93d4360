import Verum.Mono.InstantiationGraph
import Verum.Mono.Substitution
import Verum.Vbc.Linker

namespace Vbc.TypeId

def bool : TypeId := ⟨1⟩

def int : TypeId := ⟨2⟩

def float : TypeId := ⟨3⟩

def isNumeric (id : TypeId) : Bool := [2, 3, 6, 7, 8, 9, 10, 11, 12, 13, 17, 18].contains id.id

def isInteger (id : TypeId) : Bool := [2, 6, 7, 8, 9, 10, 11, 12, 17, 18].contains id.id

def isFloat (id : TypeId) : Bool := [3, 13].contains id.id

end Vbc.TypeId

namespace Mono

open Vbc

structure SpecializerStats where
  callGSpecialized : Nat
  arithGSpecialized : Nat
  cmpGSpecialized : Nat
  deriving DecidableEq

/-- The substitution of a specialization and the graph that knows the specialized functions. -/
structure BytecodeSpecializer where
  substitution : TypeSubstitution
  graph : InstantiationGraph
  computeHash : FunctionId → List TypeRef → UInt64

namespace BytecodeSpecializer

def concreteImage (self : BytecodeSpecializer) (kind : TypeId → Bool) (param : Nat) : Option TypeRef :=
  match self.substitution ⟨UInt16.ofNat param⟩ with
  | some (.concrete id) => if kind id then some (.concrete id) else none
  | _ => none

/-- The first numeric type that one of sixteen parameters stands for, else the first concrete one. -/
def inferOperandTypeFromContext (self : BytecodeSpecializer) : Option TypeRef :=
  match (List.range 16).findSome? (self.concreteImage TypeId.isNumeric) with
  | some type => some type
  | none => (List.range 16).findSome? (self.concreteImage fun _ => true)

def intOp : BinaryGenericOp → BinaryIntOp
  | .add => .add
  | .sub => .sub
  | .mul => .mul
  | .div => .div

def floatOp : BinaryGenericOp → BinaryFloatOp
  | .add => .add
  | .sub => .sub
  | .mul => .mul
  | .div => .div

def arithmetic : Option TypeRef → Option Bool
  | some (.concrete id) =>
    if id.isInteger || id.id == TypeId.int.id then some false
    else if id.isFloat || id.id == TypeId.float.id then some true
    else none
  | _ => none

def specializeInstrValue (self : BytecodeSpecializer) (stats : SpecializerStats) :
    Instruction → Except SubstitutionError (Instruction × SpecializerStats)
  | .newClosure dst funcId captures captureTypes lexicalTypes => do
    let captureTypes ← captureTypes.mapM fun types => types.mapM fun type => type.mapM self.substitution.apply
    let lexicalTypes ← lexicalTypes.mapM self.substitution.apply
    return (.newClosure dst funcId captures captureTypes lexicalTypes, stats)
  | .callG dst funcId typeArgs args => do
    let substituted ← typeArgs.mapM self.substitution.apply
    match self.graph.getSpecializationByKey self.computeHash ⟨funcId⟩ substituted with
    | some specialized =>
      return (.call dst specialized.id args, { stats with callGSpecialized := stats.callGSpecialized + 1 })
    | none => return (.callG dst funcId substituted args, stats)
  | .setCallWitness typeArgs => do
    let typeArgs ← typeArgs.mapM self.substitution.apply
    return (.setCallWitness typeArgs, stats)
  | .binaryG op dst a b protocolId =>
    match arithmetic self.inferOperandTypeFromContext with
    | some true =>
      .ok (.binaryF (floatOp op) dst a b, { stats with arithGSpecialized := stats.arithGSpecialized + 1 })
    | some false =>
      .ok (.binaryI (intOp op) dst a b, { stats with arithGSpecialized := stats.arithGSpecialized + 1 })
    | none => .ok (.binaryG op dst a b protocolId, stats)
  | .cmpG true dst a b protocolId =>
    match self.inferOperandTypeFromContext with
    | some (.concrete id) =>
      if id.isInteger || id.id == TypeId.int.id || id.id == TypeId.bool.id then
        .ok (.cmpI .eq dst a b, { stats with cmpGSpecialized := stats.cmpGSpecialized + 1 })
      else if id.isFloat then
        .ok (.cmpF .eq dst a b, { stats with cmpGSpecialized := stats.cmpGSpecialized + 1 })
      else .ok (.cmpG true dst a b protocolId, stats)
    | _ => .ok (.cmpG true dst a b protocolId, stats)
  | .bindMethodReceiver typeRef => do
    let typeRef ← self.substitution.apply typeRef
    return (.bindMethodReceiver typeRef, stats)
  | .dropTyped src typeRef => do
    let typeRef ← self.substitution.apply typeRef
    return (.dropTyped src typeRef, stats)
  | .typeResource dst typeRef => do
    let typeRef ← self.substitution.apply typeRef
    return (.typeResource dst typeRef, stats)
  | .loadT dst typeRef => do
    let typeRef ← self.substitution.apply typeRef
    return (.loadT dst typeRef, stats)
  | .typeLayout dst typeRef property => do
    let typeRef ← self.substitution.apply typeRef
    return (.typeLayout dst typeRef property, stats)
  | instr => .ok (instr, stats)

end BytecodeSpecializer

/-- What the specializer looks up in the module. -/
structure DisplayModule where
  typeName : TypeId → Option String
  findFunctionByName : String → Option FunctionId

/-- What the specializer reads of a function descriptor. -/
structure FunctionSignature where
  params : List TypeRef
  registerCount : UInt16

/-- A `ToString` that is expanded: its position, its source and the function that formats it. -/
structure DisplaySite where
  idx : Nat
  src : UInt16
  fmt : UInt32
  deriving DecidableEq

namespace BytecodeSpecializer

def writtenReg : Instruction → Option Reg
  | .dropTyped src _ => some src
  | .mov dst _ => some dst
  | .loadI dst _ => some dst
  | .typeResource dst _ => some dst
  | .typeLayout dst _ _ => some dst
  | .loadK dst _ => some dst
  | .call dst _ _ => some dst
  | .callM dst _ _ _ => some dst
  | .callG dst _ _ _ => some dst
  | .toString dst _ => some dst
  | .concat dst _ _ => some dst
  | .getF dst _ _ => some dst
  | .refObj dst _ => some dst
  | _ => none

def writeCount (instrs : List Instruction) (reg : UInt16) : Nat := (instrs.filterMap writtenReg).count ⟨reg⟩

abbrev RegTypes : Type := UInt16 → Option TypeRef

/-- The substituted types of the parameters that the body does not write. -/
def parameterTypes (self : BytecodeSpecializer) (instrs : List Instruction) :
    Nat → List TypeRef → RegTypes → Except SubstitutionError RegTypes
  | _, [], types => .ok types
  | i, param :: params, types => do
    let substituted ← self.substitution.apply param
    parameterTypes self instrs (i + 1) params
      (if writeCount instrs (UInt16.ofNat i) = 0 then Function.update types (UInt16.ofNat i) (some substituted)
        else types)

def propagateMoves (instrs : List Instruction) (types : RegTypes) : RegTypes :=
  instrs.foldl (fun types instr =>
    match instr with
    | .mov dst src =>
      match writeCount instrs dst.index, types src.index with
      | 1, some type => Function.update types dst.index (some type)
      | _, _ => types
    | _ => types) types

/-- The `ToString`s whose source is of a user type with its own `fmt`. -/
def displaySites (module : DisplayModule) (types : RegTypes) (instrs : List Instruction) : List DisplaySite :=
  (instrs.zipIdx).filterMap fun (instr, idx) =>
    match instr with
    | .toString _ src =>
      match types src.index with
      | some (.concrete id) =>
        if id.isBuiltin then none
        else do
          let name ← module.typeName id
          let fmt ← module.findFunctionByName (name ++ ".fmt")
          return ⟨idx, src.index, fmt.id⟩
      | _ => none
    | _ => none

/-- The seven instructions a `ToString` becomes, over six fresh registers. -/
def displayChain (textNew formatterNew fmt : UInt32) (dst : Reg) (src : UInt16) (fresh : Nat → Reg) :
    List Instruction :=
  [.call (fresh 0) textNew ⟨⟨0⟩, 0⟩,
    .refObj (fresh 1) (fresh 0),
    .call (fresh 2) formatterNew ⟨fresh 1, 1⟩,
    .mov (fresh 3) ⟨src⟩,
    .refObj (fresh 4) (fresh 2),
    .call (fresh 5) fmt ⟨fresh 3, 2⟩,
    .mov dst (fresh 0)]

/-- Register `k` of an expansion, in `u16` arithmetic. -/
def freshReg (base expansions : UInt16) (k : Nat) : Reg := ⟨base + expansions * 6 + UInt16.ofNat k⟩

/-- `Vec::splice` of one instruction. -/
def spliceAt (idx : Nat) (seq instrs : List Instruction) : List Instruction :=
  instrs.take idx ++ seq ++ instrs.drop (idx + 1)

/-- The instructions after an expansion, the positions expanded and their number. -/
structure Expanded where
  instrs : List Instruction
  insertedAt : List Nat
  expansions : UInt16

def expandSite (textNew formatterNew : UInt32) (base : UInt16) (site : DisplaySite) (expanded : Expanded) : Expanded :=
  match expanded.instrs[site.idx]? with
  | some (.toString dst _) =>
    ⟨spliceAt site.idx
        (displayChain textNew formatterNew site.fmt dst site.src (freshReg base expanded.expansions)) expanded.instrs,
      expanded.insertedAt ++ [site.idx], expanded.expansions + 1⟩
  | _ => expanded

def shiftFor (insertedAt : List Nat) (oldIdx : Nat) : Int :=
  (insertedAt.map fun site => if oldIdx > site then (6 : Int) else 0).sum

def retarget (insertedAt : List Nat) : Nat → List (Option Int) → List Instruction → List Instruction
  | _, [], instrs => instrs
  | oldIdx, none :: targets, instrs => retarget insertedAt (oldIdx + 1) targets instrs
  | oldIdx, some target :: targets, instrs =>
    let newIdx := oldIdx + shiftFor insertedAt oldIdx
    let newTarget := target + shiftFor insertedAt (max target 0).toNat
    retarget insertedAt (oldIdx + 1) targets
      (instrs.modify newIdx.toNat (setJumpOffset (Int32.ofInt (newTarget - newIdx))))

def absTargets (instrs : List Instruction) : List (Option Int) :=
  instrs.mapIdx fun idx instr => (jumpOffset instr).map fun offset => (idx : Int) + offset.toInt

/-- Expand the sites back to front and repair the jumps; also the number of registers used. -/
def expandSites (textNew formatterNew : UInt32) (base : UInt16) (sites : List DisplaySite) (instrs : List Instruction) :
    List Instruction × UInt16 :=
  let expanded := sites.foldr (expandSite textNew formatterNew base) ⟨instrs, [], 0⟩
  (retarget expanded.insertedAt 0 (absTargets instrs) expanded.instrs, expanded.expansions * 6)

end BytecodeSpecializer

end Mono
