import Verum.Proof.Checker
import Verum.Json.Trees

namespace Proof

open Json (Tree)

section Limits

def usizeMax : Nat := 2 ^ 64 - 1

def checkedUsize (n : Nat) : Option Nat := if n ≤ usizeMax then some n else none

structure AdmissionLimits where
  maxBytes : Nat
  maxNodes : Nat
  maxDepth : Nat

def AdmissionLimits.default : AdmissionLimits := { maxBytes := 1024 * 1024, maxNodes := 65536, maxDepth := 128 }

def AdmissionLimits.jsonNestingLimit (limits : AdmissionLimits) : Option Nat := do
  let levels ← checkedUsize (limits.maxDepth + 1)
  let containers ← checkedUsize (levels * 8)
  checkedUsize (containers + 8)

/-- In `u64`, which is as wide as `usize`. -/
def AdmissionLimits.readLimit (limits : AdmissionLimits) : Option Nat := checkedUsize (limits.maxBytes + 1)

def AdmissionLimits.isValid (limits : AdmissionLimits) : Bool :=
  limits.jsonNestingLimit.isSome && limits.readLimit.isSome

end Limits

structure Judgment where
  profile : String
  statement : Term
  certificate : Certificate

inductive ReplayOutcome where
  | accepted
  | rejected
  | unsupported
  | resourceExhausted
  | inconclusive

inductive AdmissionFailure where
  | exhausted (code : String)
  | invalid (code : String)

section Structure

inductive Node where
  | term (t : Term) (binders : Nat)
  | level (l : Level)

/-- Terms under the same binders, or each under one binder more than the one before it. -/
def termNodes (terms : List Term) (binders step : Nat) : List Node :=
  terms.mapIdx fun index t => .term t (binders + step * index)

def fieldNodes (binders index : Nat) : DataField → List Node
  | .value ty => [.term ty binders]
  | .dependent ty => [.term ty (binders + index)]
  | .recursive => []
  | .recursiveAt indices => termNodes indices (binders + index) 0

def constructorNodes (binders : Nat) (constructor : DataConstructor) : List Node :=
  termNodes constructor.indices (binders + constructor.fields.length) 0 ++
    (constructor.fields.mapIdx fun index field => fieldNodes binders index field).flatten

def Node.children : Node → List Node
  | .term (.funExt functionType lhs rhs pointwise) binders => termNodes [functionType, lhs, rhs, pointwise] binders 0
  | .term (.data _ l indices constructors) binders =>
    .level l :: termNodes indices binders 1 ++ (constructors.map (constructorNodes binders)).flatten
  | .term (.construct data _ args) binders => .term data binders :: termNodes args binders 0
  | .term (.induct scrutinee motive cases) binders =>
    .term scrutinee binders :: .term motive binders :: termNodes cases binders 0
  | .term (.universe l) _ => [.level l]
  | .term (.var _) _ => []
  | .term (.letIn a b) binders | .term (.pi a b) binders | .term (.lam a b) binders | .term (.sigma a b) binders =>
    [.term a binders, .term b (binders + 1)]
  | .term (.app a b) binders | .term (.pair a b) binders => [.term a binders, .term b binders]
  | .term (.fst a) binders | .term (.snd a) binders | .term (.refl a) binders => [.term a binders]
  | .term (.id a b c) binders | .term (.j a b c) binders | .term (.idElim a b c) binders => termNodes [a, b, c] binders 0
  | .level (.concrete _) | .level (.var _) => []
  | .level (.succ a) | .level (.offset a _) => [.level a]
  | .level (.max a b) => [.level a, .level b]

/-- The constructors and fields of a declaration count besides its nodes. -/
def Node.declared : Node → Nat
  | .term (.data _ _ _ constructors) _ => constructors.length + (constructors.map (·.fields.length)).sum
  | _ => 0

def Node.unbound : Node → Bool
  | .term (.var index) binders => binders ≤ index
  | _ => false

def countNodes (limits : AdmissionLimits) (count : Nat) : Except AdmissionFailure Nat :=
  match checkedUsize count with
  | some count => if limits.maxNodes < count then .error (.exhausted "structural_limit") else .ok count
  | none => .error (.exhausted "structural_limit")

/-- The last pushed node is at the head of the queue. The count stops the loop before `fuel` does. -/
def admitLoop (limits : AdmissionLimits) : Nat → List (Node × Nat) → Nat → Except AdmissionFailure Unit
  | _, [], _ => .ok ()
  | 0, _ :: _, _ => .error (.exhausted "structural_limit")
  | fuel + 1, (node, depth) :: queue, count => do
    let count ← countNodes limits (count + 1)
    if limits.maxDepth < depth then throw (.exhausted "structural_limit")
    if node.unbound then throw (.invalid "unbound_variable")
    let count ← countNodes limits (count + node.declared)
    admitLoop limits fuel ((node.children.map (·, depth + 1)).reverse ++ queue) count

def admitStructure (judgment : Judgment) (limits : AdmissionLimits) : Except AdmissionFailure Unit :=
  admitLoop limits (limits.maxNodes + 1)
    [(.term judgment.certificate.claimedType 0, 0), (.term judgment.certificate.term 0, 0),
      (.term judgment.statement 0, 0)] 0

end Structure

section Envelope

/-- The last opened container is at the head of `containers`. -/
def envelopeLoop (maxNesting : Nat) (containers : List UInt8) (quoted escaped : Bool) :
    List UInt8 → Except AdmissionFailure Unit
  | [] => if quoted || !containers.isEmpty then .error (.invalid "invalid_certificate") else .ok ()
  | byte :: bytes =>
    if quoted then
      if escaped then envelopeLoop maxNesting containers true false bytes
      else if byte = 0x5C then envelopeLoop maxNesting containers true true bytes
      else if byte = 0x22 then envelopeLoop maxNesting containers false false bytes
      else envelopeLoop maxNesting containers true false bytes
    else if byte = 0x22 then envelopeLoop maxNesting containers true escaped bytes
    else if byte = 0x7B ∨ byte = 0x5B then
      if containers.length = maxNesting then .error (.exhausted "json_depth_limit")
      else envelopeLoop maxNesting (byte :: containers) false escaped bytes
    else if byte = 0x7D ∨ byte = 0x5D then
      if containers.head? = some (if byte = 0x7D then 0x7B else 0x5B) then
        envelopeLoop maxNesting containers.tail false escaped bytes
      else .error (.invalid "invalid_certificate")
    else envelopeLoop maxNesting containers false escaped bytes

attribute [grind =] envelopeLoop

def jsonEnvelope (bytes : List UInt8) (maxNesting : Nat) : Except AdmissionFailure Unit :=
  envelopeLoop maxNesting [] false false bytes

end Envelope

section Decoding

def Foundation.profile : Foundation → String
  | .intensional => "verum-native/1"
  | .functionExtensionality => "verum-native-funext/1"

structure Refusal where
  outcome : ReplayOutcome
  stage : String
  code : String
  message : String

def malformedMessage : String :=
  "Expected one strict native judgment JSON object; duplicate or unknown fields and malformed terms are rejected."

/-- `deserialize` is the strict JSON decoder of the wire form. -/
def decodeJudgment (deserialize : List UInt8 → Option Judgment) (bytes : List UInt8) (foundation : Foundation)
    (limits : AdmissionLimits) : Except Refusal Judgment := do
  let some nesting := if limits.isValid then limits.jsonNestingLimit else none
    | throw ⟨.inconclusive, "policy", "invalid_limits", "Admission limits cannot be represented safely."⟩
  if limits.maxBytes < bytes.length then
    throw ⟨.resourceExhausted, "decode", "byte_limit", "Native judgment exceeds the input byte budget."⟩
  match jsonEnvelope bytes nesting with
  | .error (.exhausted code) =>
    throw ⟨.resourceExhausted, "decode", code, "Native judgment exceeds the JSON nesting budget."⟩
  | .error (.invalid code) => throw ⟨.rejected, "decode", code, "Native judgment has malformed JSON nesting."⟩
  | .ok () => pure ()
  let some judgment := deserialize bytes
    | throw ⟨.rejected, "decode", "invalid_certificate", malformedMessage⟩
  if judgment.profile ≠ foundation.profile then
    throw ⟨.unsupported, "profile", "unsupported_profile",
      "The requested logical profile is not supported by this checker."⟩
  match admitStructure judgment limits with
  | .error (.invalid code) =>
    throw ⟨.rejected, "admission", code, "A closed native judgment contains a variable outside its binder scope."⟩
  | .error (.exhausted code) =>
    throw ⟨.resourceExhausted, "admission", code, "Native judgment exceeds the node or depth budget."⟩
  | .ok () => pure ()
  if judgment.statement ≠ judgment.certificate.claimedType then
    throw ⟨.rejected, "statement", "statement_mismatch", "The certificate claims a different formal statement."⟩
  return judgment

end Decoding

section Serialization

def variant (name : String) (value : Tree) : Tree := .object [(name, value)]

def Level.toJson : Level → Tree
  | .concrete n => variant "Concrete" (.number n.toNat)
  | .var name => variant "Var" (.string name)
  | .succ inner => variant "Succ" inner.toJson
  | .max a b => variant "Max" (.array [a.toJson, b.toJson])
  | .offset base amount => variant "Offset" (.array [base.toJson, .number amount.toNat])

mutual

def Term.toJson : Term → Tree
  | .data name level indices constructors =>
    variant "Data" (.object ([("name", .string name), ("level", level.toJson)] ++
      (if indices.isEmpty then [] else [("indices", .array (termsToJson indices))]) ++
      [("constructors", .array (constructorsToJson constructors))]))
  | .construct data constructor args =>
    variant "Construct" (.object [("data", data.toJson), ("constructor", .number constructor),
      ("args", .array (termsToJson args))])
  | .induct scrutinee motive cases =>
    variant "Induct" (.object [("scrutinee", scrutinee.toJson), ("motive", motive.toJson),
      ("cases", .array (termsToJson cases))])
  | .letIn value body => variant "Let" (.object [("value", value.toJson), ("body", body.toJson)])
  | .var index => variant "Var" (.number index)
  | .universe level => variant "Universe" level.toJson
  | .pi domain body => variant "Pi" (.array [domain.toJson, body.toJson])
  | .lam domain body => variant "Lam" (.array [domain.toJson, body.toJson])
  | .app f x => variant "App" (.array [f.toJson, x.toJson])
  | .sigma domain body => variant "Sigma" (.array [domain.toJson, body.toJson])
  | .pair first second => variant "Pair" (.array [first.toJson, second.toJson])
  | .fst p => variant "Fst" p.toJson
  | .snd p => variant "Snd" p.toJson
  | .id ty lhs rhs => variant "Id" (.object [("ty", ty.toJson), ("lhs", lhs.toJson), ("rhs", rhs.toJson)])
  | .refl value => variant "Refl" value.toJson
  | .j motive base scrutinee =>
    variant "J" (.object [("motive", motive.toJson), ("base", base.toJson), ("scrutinee", scrutinee.toJson)])
  | .idElim motive base scrutinee =>
    variant "IdElim" (.object [("motive", motive.toJson), ("base", base.toJson), ("scrutinee", scrutinee.toJson)])
  | .funExt functionType lhs rhs pointwise =>
    variant "FunExt" (.object [("function_type", functionType.toJson), ("lhs", lhs.toJson), ("rhs", rhs.toJson),
      ("pointwise", pointwise.toJson)])

def termsToJson : List Term → List Tree
  | [] => []
  | term :: rest => term.toJson :: termsToJson rest

def DataField.toJson : DataField → Tree
  | .value ty => variant "Value" ty.toJson
  | .dependent ty => variant "Dependent" ty.toJson
  | .recursive => .string "Recursive"
  | .recursiveAt indices => variant "RecursiveAt" (.array (termsToJson indices))

def fieldsToJson : List DataField → List Tree
  | [] => []
  | field :: rest => field.toJson :: fieldsToJson rest

/-- A constructor without indices keeps the older wire form, the array of its fields. -/
def DataConstructor.toJson : DataConstructor → Tree
  | .mk fields indices =>
    if indices.isEmpty then .array (fieldsToJson fields)
    else .object [("fields", .array (fieldsToJson fields)), ("indices", .array (termsToJson indices))]

def constructorsToJson : List DataConstructor → List Tree
  | [] => []
  | constructor :: rest => constructor.toJson :: constructorsToJson rest

end

def Certificate.toJson (certificate : Certificate) : Tree :=
  .object [("term", certificate.term.toJson), ("claimed_type", certificate.claimedType.toJson),
    ("metadata", .object (certificate.metadata.map fun (key, value) => (key, .string value)))]

def Judgment.toJson (judgment : Judgment) : Tree :=
  .object [("profile", .string judgment.profile), ("statement", judgment.statement.toJson),
    ("certificate", judgment.certificate.toJson)]

end Serialization

end Proof
