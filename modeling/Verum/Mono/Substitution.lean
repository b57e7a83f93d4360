import Verum.Vbc.TypeRef

namespace Mono

open Vbc

inductive SubstitutionError where
  | genericIndexOverflow (index : UInt16) (shift : Nat)
  | binderDepthOverflow
  deriving DecidableEq

abbrev TypeSubstitution := TypeParamId → Option TypeRef

def liftedParameter (id : TypeParamId) (shift : Nat) : Except SubstitutionError TypeRef :=
  if id.id.toNat + shift < 2 ^ 16 then .ok (.generic ⟨UInt16.ofNat (id.id.toNat + shift)⟩)
  else .error (.genericIndexOverflow id.id shift)

/-- `u32::checked_add`, on numbers. -/
def checkedDepth (depth amount : Nat) : Except SubstitutionError Nat :=
  if depth + amount < 2 ^ 32 then .ok (depth + amount) else .error .binderDepthOverflow

mutual

/-- Map the free parameters, each named as in the outer scope and given with the binders around it. -/
def mapFreeParameters (map : TypeParamId → Nat → Except SubstitutionError TypeRef) :
    TypeRef → Nat → Except SubstitutionError TypeRef
  | .generic id, depth =>
    if depth ≤ id.id.toNat then map ⟨UInt16.ofNat (id.id.toNat - depth)⟩ depth else .ok (.generic id)
  | .concrete id, _ => .ok (.concrete id)
  | .constValue value, _ => .ok (.constValue value)
  | .recordFieldProjection owner ordinal, _ => .ok (.recordFieldProjection owner ordinal)
  | .instantiated base args, depth => do
    let args ← mapEachParameters map args depth
    return .instantiated base args
  | .function isAsync params returnType contexts, depth => do
    let params ← mapEachParameters map params depth
    let returnType ← mapFreeParameters map returnType depth
    return .function isAsync params returnType contexts
  | .rank2Function isAsync typeParamCount params returnType contexts, depth => do
    let depth ← checkedDepth depth typeParamCount.toNat
    let params ← mapEachParameters map params depth
    let returnType ← mapFreeParameters map returnType depth
    return .rank2Function isAsync typeParamCount params returnType contexts
  | .reference inner mutability tier, depth => do
    let inner ← mapFreeParameters map inner depth
    return .reference inner mutability tier
  | .tuple elems, depth => do
    let elems ← mapEachParameters map elems depth
    return .tuple elems
  | .array element length, depth => do
    let element ← mapFreeParameters map element depth
    return .array element length
  | .slice inner, depth => do
    let inner ← mapFreeParameters map inner depth
    return .slice inner
  | .associatedProjection base qualifier assoc args, depth => do
    let base ← mapFreeParameters map base depth
    let qualifier ← mapQualifierParameters map qualifier depth
    let args ← mapEachParameters map args depth
    return .associatedProjection base qualifier assoc args

def mapEachParameters (map : TypeParamId → Nat → Except SubstitutionError TypeRef) :
    List TypeRef → Nat → Except SubstitutionError (List TypeRef)
  | [], _ => .ok []
  | head :: tail, depth => do
    let head ← mapFreeParameters map head depth
    let tail ← mapEachParameters map tail depth
    return head :: tail

def mapQualifierParameters (map : TypeParamId → Nat → Except SubstitutionError TypeRef) :
    Option (ProtocolApplication TypeRef) → Nat →
      Except SubstitutionError (Option (ProtocolApplication TypeRef))
  | none, _ => .ok none
  | some application, depth => do
    let application ← mapApplicationParameters map application depth
    return some application

def mapApplicationParameters (map : TypeParamId → Nat → Except SubstitutionError TypeRef) :
    ProtocolApplication TypeRef → Nat → Except SubstitutionError (ProtocolApplication TypeRef)
  | ⟨protocol, args⟩, depth => do
    let args ← mapEachParameters map args depth
    return ⟨protocol, args⟩

end

def liftFreeParameters (ty : TypeRef) (amount : Nat) : Except SubstitutionError TypeRef :=
  mapFreeParameters (fun id depth => do
    let shift ← checkedDepth depth amount
    liftedParameter id shift) ty 0

namespace TypeSubstitution

/-- What becomes of a free parameter under `depth` binders. -/
def replace (s : TypeSubstitution) (id : TypeParamId) (depth : Nat) : Except SubstitutionError TypeRef :=
  match s id with
  | some replacement => liftFreeParameters replacement depth
  | none => liftedParameter id depth

def apply (s : TypeSubstitution) (ty : TypeRef) : Except SubstitutionError TypeRef :=
  mapFreeParameters s.replace ty 0

end TypeSubstitution

end Mono
