import Verum.Proof.Conversion

namespace Proof

/-- Instantiate an ordered telescope with arguments in a common outer frame. -/
def instantiateFields (term : Term) (arguments : List Term) : Term :=
  arguments.zipIdx.foldr (fun (argument, remaining) term => subst term 0 (shiftUp argument remaining 0)) term

def applyTerms (head : Term) (arguments : List Term) : Term := arguments.foldl Term.app head

def fieldDomain (data : Term) (field : DataField) (preceding : Nat) : Term :=
  (fieldValueType field preceding).getD
    (applyTerms (shiftUp data preceding 0) ((recursiveIndices field).getD []))

/-- Embed an ordinary field telescope into a branch with interleaved hypotheses. -/
def rebindFields (term : Term) (positions : List Nat) (depth : Nat) : Term :=
  instantiateFields (shiftUp term depth positions.length) (positions.map fun p => .var (depth - 1 - p))

/-- The domains of a branch in order, and the positions of the fields among them. -/
def caseDomains (data motive : Term) (domains : List Term) (positions : List Nat) :
    List DataField → List Term × List Nat
  | [] => (domains, positions)
  | field :: rest =>
    let depth := domains.length
    let domain := rebindFields (fieldDomain data field positions.length) positions depth
    match recursiveIndices field with
    | some indices =>
      let arguments := indices.map fun index => rebindFields index positions (depth + 1)
      let hypothesis := Term.app (applyTerms (shiftUp motive (depth + 1) 0) arguments) (.var 0)
      caseDomains data motive (domains ++ [domain, hypothesis]) (positions ++ [depth]) rest
    | none => caseDomains data motive (domains ++ [domain]) (positions ++ [depth]) rest

def inductionCaseType (data motive : Term) (index : Nat) (constructor : DataConstructor) : Term :=
  let (domains, positions) := caseDomains data motive [] [] constructor.fields
  let depth := domains.length
  let indices := constructor.indices.map fun index => rebindFields index positions depth
  let applied := Term.construct (shiftUp data depth 0) index (positions.map fun p => .var (depth - 1 - p))
  domains.foldr Term.pi (.app (applyTerms (shiftUp motive depth 0) indices) applied)

/-- The calls the checker can make at one recursion depth. -/
structure Checker where
  depth : Nat
  infer : Context → Term → Run Term
  checkAgainst : Context → Term → Term → Run Unit

def Checker.defEq (checker : Checker) : Conversion → Term → Term → Run Bool :=
  Conversion.defEq checker.depth

def checkEach {α : Type} (check : α → Run Unit) : List α → Run Unit
  | [] => pure ()
  | item :: rest => do
    check item
    checkEach check rest

/-- `bound` limits the unapplications of the head. -/
def splitFamily (ctx : Context) : Nat → Term → List Term → Run (Option (Term × List Term))
  | 0, _, _ => Run.unfinished
  | bound + 1, .app head argument, values => do
    let head ← ctx.conversion.whnf head
    splitFamily ctx bound head (argument :: values)
  | _ + 1, .data name level indices constructors, values =>
    pure (if indices.length = values.length then some (.data name level indices constructors, values) else none)
  | _ + 1, _, _ => pure none

section Step

variable (checker : Checker)

def inferUniverse (ctx : Context) (ty : Term) : Run Level := do
  let kind ← checker.infer ctx ty
  match ← ctx.conversion.expectUniverse kind with
  | some level => pure level
  | none => throw (.notAType ty)

def checkDomain (ctx : Context) (term expected : Term) : Run Unit :=
  tryCatch (checker.checkAgainst ctx term expected) fun error =>
    match error with
    | .typeMismatch expected actual => throw (.domainMismatch expected actual)
    | other => throw other

def checkIndices (ctx : Context) (telescope arguments : List Term) (ambientShift : Nat) : Run Unit :=
  if telescope.length ≠ arguments.length then throw (.invalidInductive "family index arity mismatch")
  else
    checkEach (fun ((ty, value), index) =>
      checker.checkAgainst ctx value
        (instantiateFields (shiftUp ty ambientShift index) (arguments.take index)))
      (telescope.zip arguments).zipIdx

def checkTelescope (ctx : Context) : List Term → Run Unit
  | [] => pure ()
  | ty :: rest => do
    let _ ← inferUniverse checker ctx ty
    checkTelescope (ctx.extend ty) rest

def checkFields (data : Term) (level : Level) (indices : List Term) (ctx : Context) (index : Nat) :
    List DataField → Run Context
  | [] => pure ctx
  | field :: rest => do
    let domain := fieldDomain data field index
    match recursiveIndices field with
    | some values => checkIndices checker ctx indices values index
    | none => do
      let fieldLevel ← inferUniverse checker ctx domain
      if !levelEq (fieldLevel.maxWith level) level then
        throw (.invalidInductive "field exceeds declaration universe")
    checkFields data level indices (ctx.extend domain) (index + 1) rest

def checkConstructor (data : Term) (level : Level) (indices : List Term) (ctx : Context)
    (constructor : DataConstructor) : Run Unit := do
  let fields ← checkFields checker data level indices ctx 0 constructor.fields
  checkIndices checker fields indices constructor.indices constructor.fields.length

def motiveFamily (ctx : Context) (motiveKind : Term) (index : Nat) : List Term → Run Term
  | [] => pure motiveKind
  | ty :: rest => do
    match ← (ctx.conversion.under index).whnf motiveKind with
    | .pi domain result => do
      if ← checker.defEq (ctx.conversion.under index) domain ty then
        motiveFamily ctx result (index + 1) rest
      else throw (.invalidInductive "induction motive index domain mismatch")
    | _ => throw (.invalidInductive "induction motive omits a family index")

def checkMotive (ctx : Context) (declaration motive : Term) (indices : List Term) : Run Unit := do
  let motiveKind ← checker.infer ctx motive
  let family ← motiveFamily checker ctx motiveKind 0 indices
  match ← (ctx.conversion.under indices.length).whnf family with
  | .pi domain result => do
    let references := (List.range indices.length).reverse.map Term.var
    let expectedDomain := applyTerms (shiftUp declaration indices.length 0) references
    if ← checker.defEq (ctx.conversion.under indices.length) domain expectedDomain then
      match ← (ctx.conversion.under (indices.length + 1)).expectUniverse result with
      | some _ => pure ()
      | none => throw (.invalidInductive "induction motive domain or universe mismatch")
    else throw (.invalidInductive "induction motive domain or universe mismatch")
  | _ => throw (.invalidInductive "induction motive is not a family")

def inferInduct (ctx : Context) (scrutinee motive : Term) (cases : List Term) : Run Term := do
  let actual ← ctx.conversion.whnf (← checker.infer ctx scrutinee)
  match ← splitFamily ctx checker.depth actual [] with
  | some (.data name level indices constructors, values) => do
    let declaration := Term.data name level indices constructors
    checkMotive checker ctx declaration motive indices
    if cases.length ≠ constructors.length then
      throw (.invalidInductive "induction case count mismatch")
    checkEach (fun ((constructor, case), index) =>
      checker.checkAgainst ctx case (inductionCaseType declaration motive index constructor))
      (constructors.zip cases).zipIdx
    pure (.app (applyTerms motive values) scrutinee)
  | _ => throw (.invalidInductive "induction requires a fully applied data family")

def inferConstruct (ctx : Context) (data : Term) (constructor : Nat) (args : List Term) : Run Term := do
  let _ ← checker.infer ctx data
  match ← ctx.conversion.whnf data with
  | .data name level indices constructors => do
    let declaration := Term.data name level indices constructors
    match constructors[constructor]? with
    | some signature => do
      if signature.fields.length ≠ args.length then
        throw (.invalidInductive "constructor field arity mismatch")
      checkEach (fun ((field, argument), index) =>
        checker.checkAgainst ctx argument
          (instantiateFields (fieldDomain declaration field index) (args.take index)))
        (signature.fields.zip args).zipIdx
      pure (applyTerms declaration (signature.indices.map fun index => instantiateFields index args))
    | none => throw (.invalidInductive "unknown constructor")
  | _ => throw (.invalidInductive "constructor owner is not a data declaration")

def pathResult (ctx : Context) (motive ty lhs codomain : Term) : Run Term := do
  match ← (ctx.conversion.under 1).whnf codomain with
  | .pi pathDomain result => do
    let expectedPath := Term.id (shiftUp ty 1 0) (shiftUp lhs 1 0) (.var 0)
    if ← checker.defEq (ctx.conversion.under 1) pathDomain expectedPath then pure result
    else throw (.domainMismatch expectedPath pathDomain)
  | _ => throw (.notAValidJMotive motive)

def motiveResult (ctx : Context) (dependent : Bool) (motive ty lhs codomain : Term) : Run Term :=
  if dependent then pathResult checker ctx motive ty lhs codomain else pure codomain

/-- Endpoint transport, and based path induction when `dependent`. -/
def inferElim (ctx : Context) (dependent : Bool) (motive base scrutinee : Term) : Run Term := do
  match ← ctx.conversion.whnf (← checker.infer ctx scrutinee) with
  | .id ty lhs rhs => do
    match ← ctx.conversion.whnf (← checker.infer ctx motive) with
    | .pi domain codomain => do
      if ← checker.defEq ctx.conversion domain ty then
        let result ← motiveResult checker ctx dependent motive ty lhs codomain
        match ← (ctx.conversion.under (if dependent then 2 else 1)).expectUniverse result with
        | some _ => do
          let atLhs := Term.app motive lhs
          checkDomain checker ctx base (if dependent then .app atLhs (.refl lhs) else atLhs)
          let atRhs := Term.app motive rhs
          pure (if dependent then .app atRhs scrutinee else atRhs)
        | none => throw (.notAValidJMotive motive)
      else throw (.domainMismatch ty domain)
    | _ => throw (.notAValidJMotive motive)
  | other => throw (.notAnIdentity other)

def inferFunExt (ctx : Context) (functionType lhs rhs pointwise : Term) : Run Term := do
  if ctx.foundation ≠ .functionExtensionality then
    throw (.foundationRequired .functionExtensionality)
  let _ ← inferUniverse checker ctx functionType
  match ← ctx.conversion.whnf functionType with
  | .pi domain codomain => do
    checker.checkAgainst ctx lhs functionType
    checker.checkAgainst ctx rhs functionType
    let premise := Term.pi domain
      (.id codomain (.app (shiftUp lhs 1 0) (.var 0)) (.app (shiftUp rhs 1 0) (.var 0)))
    checker.checkAgainst ctx pointwise premise
    pure (.id functionType lhs rhs)
  | _ => throw (.notAFunction functionType)

def inferStep (ctx : Context) : Term → Run Term
  | .funExt functionType lhs rhs pointwise => inferFunExt checker ctx functionType lhs rhs pointwise
  | .letIn value body => do
    let ty ← checker.infer ctx value
    let result ← checker.infer (ctx.define ty value) body
    pure (subst result 0 value)
  | .data name level indices constructors => do
    checkTelescope checker ctx indices
    checkEach (checkConstructor checker (.data name level indices constructors) level indices ctx) constructors
    pure (indices.foldr Term.pi (.universe level.normalize))
  | .construct data constructor args => inferConstruct checker ctx data constructor args
  | .induct scrutinee motive cases => inferInduct checker ctx scrutinee motive cases
  | .var index =>
    match ctx.lookup index with
    | some ty => pure ty
    | none => throw (.unboundVariable index)
  | .universe level => pure (.universe level.normalize.successor)
  | .pi a b | .sigma a b => do
    let n ← inferUniverse checker ctx a
    let m ← inferUniverse checker (ctx.extend a) b
    pure (.universe (n.maxWith m))
  | .lam domain body => do
    let _ ← inferUniverse checker ctx domain
    let bodyTy ← checker.infer (ctx.extend domain) body
    pure (.pi domain bodyTy)
  | .app f x => do
    match ← ctx.conversion.whnf (← checker.infer ctx f) with
    | .pi domain codomain => do
      checkDomain checker ctx x domain
      pure (subst codomain 0 x)
    | other => throw (.notAFunction other)
  | .pair a b => do
    let aTy ← checker.infer ctx a
    let bTy ← checker.infer ctx b
    pure (.sigma aTy (shiftUp bTy 1 0))
  | .fst p => do
    match ← ctx.conversion.whnf (← checker.infer ctx p) with
    | .sigma a _ => pure a
    | other => throw (.notASigma other)
  | .snd p => do
    match ← ctx.conversion.whnf (← checker.infer ctx p) with
    | .sigma _ b => pure (subst b 0 (.fst p))
    | other => throw (.notASigma other)
  | .id ty lhs rhs => do
    let n ← inferUniverse checker ctx ty
    checkDomain checker ctx lhs ty
    checkDomain checker ctx rhs ty
    pure (.universe n)
  | .refl value => do
    let valueTy ← checker.infer ctx value
    pure (.id valueTy value value)
  | .j motive base scrutinee => inferElim checker ctx false motive base scrutinee
  | .idElim motive base scrutinee => inferElim checker ctx true motive base scrutinee

/-- Checks by the introduction forms, else by inference and conversion. -/
def checkIntroduction (ctx : Context) (term expected : Term) : Run Unit := do
  match term, ← ctx.conversion.whnf expected with
  | .lam domain body, .pi expectedDomain codomain => do
    let _ ← inferUniverse checker ctx domain
    if ← checker.defEq ctx.conversion domain expectedDomain then
      checker.checkAgainst (ctx.extend domain) body codomain
    else throw (.typeMismatch expectedDomain domain)
  | .pair first second, .sigma domain family => do
    checker.checkAgainst ctx first domain
    checker.checkAgainst ctx second (subst family 0 first)
  | .refl value, .id ty lhs rhs => do
    checkDomain checker ctx value ty
    if ← both (checker.defEq ctx.conversion value lhs) (checker.defEq ctx.conversion value rhs) then pure ()
    else throw (.typeMismatch expected (.id ty value value))
  | term, _ => do
    let inferred ← checker.infer ctx term
    if ← checker.defEq ctx.conversion inferred expected then pure ()
    else throw (.typeMismatch expected inferred)

def checkAgainstStep (ctx : Context) (term expected : Term) : Run Unit :=
  match term with
  | .letIn value body => do
    let ty ← checker.infer ctx value
    checker.checkAgainst (ctx.define ty value) body (shiftUp expected 1 0)
  | .var index =>
    match ctx.lookup index with
    | none => throw (.unboundVariable index)
    | some actual => do
      if ← checker.defEq ctx.conversion actual expected then pure ()
      else
        match ctx.definition index with
        | some source => checker.checkAgainst ctx source expected
        | none => checkIntroduction checker ctx (.var index) expected
  | term => checkIntroduction checker ctx term expected

end Step

def checkerAt : Nat → Checker
  | 0 => { depth := 0, infer := fun _ _ => Run.unfinished, checkAgainst := fun _ _ _ => Run.unfinished }
  | depth + 1 =>
    { depth := depth + 1
      infer := inferStep (checkerAt depth)
      checkAgainst := checkAgainstStep (checkerAt depth) }

def infer (depth : Nat) : Context → Term → Run Term := (checkerAt depth).infer

def checkAgainst (depth : Nat) : Context → Term → Term → Run Unit := (checkerAt depth).checkAgainst

def check (depth : Nat) (ctx : Context) (term expected : Term) : Run Unit := do
  let _ ← inferUniverse (checkerAt depth) ctx expected
  checkAgainst depth ctx term expected

structure Certificate where
  term : Term
  claimedType : Term
  metadata : List (String × String) := []

def Certificate.verifyWithFoundation (depth : Nat) (certificate : Certificate) (foundation : Foundation) :
    Run Unit := do
  let ctx := Context.withFoundation foundation
  let claimedKind ← infer depth ctx certificate.claimedType
  match ← ctx.conversion.expectUniverse claimedKind with
  | none => throw (.claimedTypeNotAType certificate.claimedType claimedKind)
  | some _ => checkAgainst depth ctx certificate.term certificate.claimedType

end Proof
