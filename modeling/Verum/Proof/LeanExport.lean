import Verum.Proof.Admission

namespace Proof

section Renaming

def Level.renameLevels (names : String → String) : Level → Level
  | .concrete n => .concrete n
  | .var name => .var (names name)
  | .succ inner => .succ (inner.renameLevels names)
  | .max a b => .max (a.renameLevels names) (b.renameLevels names)
  | .offset base amount => .offset (base.renameLevels names) amount

mutual

def Term.renameLevels (names : String → String) : Term → Term
  | .data name level indices constructors =>
    .data name (level.renameLevels names) (renameTerms names indices) (renameConstructors names constructors)
  | .construct data constructor args => .construct (data.renameLevels names) constructor (renameTerms names args)
  | .induct scrutinee motive cases =>
    .induct (scrutinee.renameLevels names) (motive.renameLevels names) (renameTerms names cases)
  | .letIn value body => .letIn (value.renameLevels names) (body.renameLevels names)
  | .var index => .var index
  | .universe level => .universe (level.renameLevels names)
  | .pi domain body => .pi (domain.renameLevels names) (body.renameLevels names)
  | .lam domain body => .lam (domain.renameLevels names) (body.renameLevels names)
  | .app f x => .app (f.renameLevels names) (x.renameLevels names)
  | .sigma domain body => .sigma (domain.renameLevels names) (body.renameLevels names)
  | .pair first second => .pair (first.renameLevels names) (second.renameLevels names)
  | .fst p => .fst (p.renameLevels names)
  | .snd p => .snd (p.renameLevels names)
  | .id ty lhs rhs => .id (ty.renameLevels names) (lhs.renameLevels names) (rhs.renameLevels names)
  | .refl value => .refl (value.renameLevels names)
  | .j motive base scrutinee => .j (motive.renameLevels names) (base.renameLevels names) (scrutinee.renameLevels names)
  | .idElim motive base scrutinee => .idElim (motive.renameLevels names) (base.renameLevels names) (scrutinee.renameLevels names)
  | .funExt functionType lhs rhs pointwise =>
    .funExt (functionType.renameLevels names) (lhs.renameLevels names) (rhs.renameLevels names) (pointwise.renameLevels names)

def renameTerms (names : String → String) : List Term → List Term
  | [] => []
  | term :: rest => term.renameLevels names :: renameTerms names rest

def DataField.renameLevels (names : String → String) : DataField → DataField
  | .value ty => .value (ty.renameLevels names)
  | .dependent ty => .dependent (ty.renameLevels names)
  | .recursive => .recursive
  | .recursiveAt indices => .recursiveAt (renameTerms names indices)

def renameFields (names : String → String) : List DataField → List DataField
  | [] => []
  | field :: rest => field.renameLevels names :: renameFields names rest

def DataConstructor.renameLevels (names : String → String) : DataConstructor → DataConstructor
  | .mk fields indices => .mk (renameFields names fields) (renameTerms names indices)

def renameConstructors (names : String → String) : List DataConstructor → List DataConstructor
  | [] => []
  | constructor :: rest => constructor.renameLevels names :: renameConstructors names rest

end

def Judgment.renameLevels (names : String → String) (judgment : Judgment) : Judgment :=
  { judgment with
    statement := judgment.statement.renameLevels names
    certificate :=
      { judgment.certificate with
        term := judgment.certificate.term.renameLevels names
        claimedType := judgment.certificate.claimedType.renameLevels names } }

end Renaming

section Encoding

@[irreducible] def exportPrelude : String :=
  "import Init\nset_option autoImplicit false\nset_option warningAsError true\nset_option maxRecDepth 4096\n" ++
  "namespace VerumCertificate\nuniverse u v\n" ++
  "inductive Identity \x7bA : Type u\x7d (x : A) : A → Type u where\n  | refl : Identity x x\n\n" ++
  "def transport \x7bA : Type u\x7d \x7bx y : A\x7d (P : A → Type v) (b : P x)\n" ++
  "    (p : Identity x y) : P y := match p with | .refl => b\n\n" ++
  "def induction \x7bA : Type u\x7d \x7bx y : A\x7d (P : (z : A) → Identity x z → Type v)\n" ++
  "    (b : P x (.refl)) (p : Identity x y) : P y p := match p with | .refl => b\n\n"

def decimal (n : Nat) : List Char := Nat.toDigits 10 n

/-- The encoder's map of level names lists them as the statement first mentions them, so that a name's
    number is its position. -/
abbrev LevelNames := List String

def levelIndex (inStatement : Bool) (levels : LevelNames) (name : String) : Except String (Nat × LevelNames) :=
  match levels.idxOf? name with
  | some index => .ok (index, levels)
  | none =>
    if inStatement then .ok (levels.length, levels ++ [name])
    else .error "proof universe is outside the statement scope"

def encodeLevel (inStatement : Bool) (levels : LevelNames) : Level → Except String (List Char × LevelNames)
  | .concrete n => .ok (decimal n.toNat, levels)
  | .var name => do
    let (index, levels) ← levelIndex inStatement levels name
    return ('w' :: decimal index, levels)
  | .succ inner => do
    let (text, levels) ← encodeLevel inStatement levels inner
    return ('(' :: (text ++ " + ".toList ++ decimal 1 ++ [')']), levels)
  | .offset inner amount => do
    let (text, levels) ← encodeLevel inStatement levels inner
    return ('(' :: (text ++ " + ".toList ++ decimal amount.toNat ++ [')']), levels)
  | .max a b => do
    let (text, levels) ← encodeLevel inStatement levels a
    let (text', levels) ← encodeLevel inStatement levels b
    return ("(max ".toList ++ text ++ ' ' :: (text' ++ [')']), levels)

def unsupportedMessage : String := "native inductive declarations are outside this Lean export fragment"

/-- The text of a term under `depth` binders, and the names after it. -/
def encodeTerm (inStatement : Bool) (levels : LevelNames) (depth : Nat) :
    Term → Except String (List Char × LevelNames)
  | .var index =>
    if depth < index + 1 then .error "unbound term variable"
    else .ok ("(x".toList ++ decimal (depth - (index + 1)) ++ [')'], levels)
  | .universe level => do
    let (text, levels) ← encodeLevel inStatement levels level
    return ("(Type ".toList ++ text ++ [')'], levels)
  | .pi domain body => do
    let (text, levels) ← encodeTerm inStatement levels depth domain
    let (text', levels) ← encodeTerm inStatement levels (depth + 1) body
    return ("((x".toList ++ decimal depth ++ " : ".toList ++ text ++ ") → ".toList ++ text' ++ [')'], levels)
  | .lam domain body => do
    let (text, levels) ← encodeTerm inStatement levels depth domain
    let (text', levels) ← encodeTerm inStatement levels (depth + 1) body
    return ("(fun (x".toList ++ decimal depth ++ " : ".toList ++ text ++ ") => ".toList ++ text' ++ [')'], levels)
  | .sigma domain body => do
    let (text, levels) ← encodeTerm inStatement levels depth domain
    let (text', levels) ← encodeTerm inStatement levels (depth + 1) body
    return ("(Sigma (fun (x".toList ++ decimal depth ++ " : ".toList ++ text ++ ") => ".toList ++ text' ++
      "))".toList, levels)
  | .letIn value body => do
    let (text, levels) ← encodeTerm inStatement levels depth value
    let (text', levels) ← encodeTerm inStatement levels (depth + 1) body
    return ("(let x".toList ++ decimal depth ++ " := ".toList ++ text ++ "; ".toList ++ text' ++ [')'], levels)
  | .app f x => do
    let (text, levels) ← encodeTerm inStatement levels depth f
    let (text', levels) ← encodeTerm inStatement levels depth x
    return ('(' :: (text ++ ' ' :: (text' ++ [')'])), levels)
  | .pair first second => do
    let (text, levels) ← encodeTerm inStatement levels depth first
    let (text', levels) ← encodeTerm inStatement levels depth second
    return ("(⟨".toList ++ text ++ ", ".toList ++ text' ++ "⟩)".toList, levels)
  | .fst p => do
    let (text, levels) ← encodeTerm inStatement levels depth p
    return ('(' :: (text ++ ".1)".toList), levels)
  | .snd p => do
    let (text, levels) ← encodeTerm inStatement levels depth p
    return ('(' :: (text ++ ".2)".toList), levels)
  | .id ty lhs rhs => do
    let (text, levels) ← encodeTerm inStatement levels depth ty
    let (text', levels) ← encodeTerm inStatement levels depth lhs
    let (text'', levels) ← encodeTerm inStatement levels depth rhs
    return ("(@Identity ".toList ++ text ++ ' ' :: (text' ++ ' ' :: (text'' ++ [')'])), levels)
  | .refl value => do
    let (text, levels) ← encodeTerm inStatement levels depth value
    return ("(Identity.refl (x := ".toList ++ text ++ "))".toList, levels)
  | .j motive base scrutinee => do
    let (text, levels) ← encodeTerm inStatement levels depth motive
    let (text', levels) ← encodeTerm inStatement levels depth base
    let (text'', levels) ← encodeTerm inStatement levels depth scrutinee
    return ("(transport ".toList ++ text ++ ' ' :: (text' ++ ' ' :: (text'' ++ [')'])), levels)
  | .idElim motive base scrutinee => do
    let (text, levels) ← encodeTerm inStatement levels depth motive
    let (text', levels) ← encodeTerm inStatement levels depth base
    let (text'', levels) ← encodeTerm inStatement levels depth scrutinee
    return ("(induction ".toList ++ text ++ ' ' :: (text' ++ ' ' :: (text'' ++ [')'])), levels)
  | .funExt _ _ _ _ => .error "extensionality is outside the intensional profile"
  | .data _ _ _ _ | .construct _ _ _ | .induct _ _ _ => .error unsupportedMessage

def universeHeader (levels : LevelNames) : List Char :=
  if levels.isEmpty then []
  else "universe".toList ++ (List.range levels.length).flatMap (fun index => " w".toList ++ decimal index) ++ ['\n']

def exportJudgment (judgment : Judgment) : Except String (List Char) := do
  let (statement, levels) ← encodeTerm true [] 0 judgment.statement
  let (proof, levels) ← encodeTerm false levels 0 judgment.certificate.term
  return exportPrelude.toList ++ (universeHeader levels ++ ("def checked : ".toList ++ (statement ++
    (" :=\n".toList ++ (proof ++ "\n#print axioms checked\nend VerumCertificate\n".toList)))))

def source (deserialize : List UInt8 → Option Judgment) (bytes : List UInt8) : Except String (List Char) :=
  match decodeJudgment deserialize bytes .intensional .default with
  | .ok judgment => exportJudgment judgment
  | .error refusal => .error refusal.message

end Encoding

end Proof
