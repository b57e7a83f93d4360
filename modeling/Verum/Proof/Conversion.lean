import Verum.Proof.Substitution

namespace Proof

inductive Foundation where
  | intensional
  | functionExtensionality
  deriving DecidableEq

inductive CheckError where
  | fuelExhausted
  | foundationRequired (foundation : Foundation)
  | invalidInductive (message : String)
  | unboundVariable (index : Nat)
  | notAType (term : Term)
  | notAFunction (term : Term)
  | notASigma (term : Term)
  | notAnIdentity (term : Term)
  | notAValidJMotive (term : Term)
  | domainMismatch (expected actual : Term)
  | typeMismatch (expected actual : Term)
  | claimedTypeNotAType (claimedType actual : Term)

/-- `none` is a run that has not returned within the recursion depth it was given. -/
abbrev Run (α : Type) := ExceptT CheckError Option α

def Run.ofExcept {α : Type} (result : Except CheckError α) : Run α := ExceptT.mk (some result)

def Run.unfinished {α : Type} : Run α := ExceptT.mk none

section Run

variable {α β : Type}

@[simp] theorem Run.bind_eq_pure {run : Run α} {next : α → Run β} {b : β} :
    (run >>= next) = pure b ↔ ∃ a, run = pure a ∧ next a = pure b := by
  constructor
  · intro done
    match run, done with
    | some (.ok a), done => exact ⟨a, rfl, done⟩
  · intro ⟨a, ret, done⟩
    rw [ret]
    exact done

@[simp] theorem Run.pure_eq_pure {a b : α} : (pure a : Run α) = pure b ↔ a = b := by
  constructor
  · intro same
    cases same
    rfl
  · exact congrArg _

@[simp] theorem Run.throw_ne_pure {error : CheckError} {a : α} : (throw error : Run α) ≠ pure a := nofun

@[simp] theorem Run.unfinished_ne_pure {a : α} : (Run.unfinished : Run α) ≠ pure a := nofun

@[simp] theorem Run.ofExcept_eq_pure {res : Except CheckError α} {a : α} :
    Run.ofExcept res = pure a ↔ res = .ok a := by
  constructor
  · intro same
    cases same
    rfl
  · exact congrArg Run.ofExcept

end Run

/-- A binding-site type; `closed` spares `lookup` the shift of a type without free variables. -/
structure ContextBinding where
  ty : Term
  closed : Bool
  definition : Option Term
  closed_eq : closed = !containsFree ty 0 none

/-- The innermost binding comes first. -/
structure Context where
  foundation : Foundation
  bindings : List ContextBinding

def Context.withFoundation (foundation : Foundation) : Context := { foundation, bindings := [] }

def Context.lookup (ctx : Context) (index : Nat) : Option Term :=
  ctx.bindings[index]?.map fun binding =>
    if binding.closed then binding.ty else shiftUp binding.ty (index + 1) 0

def Context.extend (ctx : Context) (ty : Term) : Context :=
  { ctx with bindings := ⟨ty, !containsFree ty 0 none, none, rfl⟩ :: ctx.bindings }

def Context.define (ctx : Context) (ty value : Term) : Context :=
  { ctx with bindings := ⟨ty, !containsFree ty 0 none, some value, rfl⟩ :: ctx.bindings }

def Context.definitionUnder (ctx : Context) (index binders : Nat) : Option Term := do
  let binding ← ctx.bindings[index]?
  let value ← binding.definition
  return shiftUp value (index + 1 + binders) 0

def Context.definition (ctx : Context) (index : Nat) : Option Term := ctx.definitionUnder index 0

/-- `binders` counts the local binders beyond the checked context. -/
structure Conversion where
  context : Context
  binders : Nat

def Context.conversion (ctx : Context) : Conversion := { context := ctx, binders := 0 }

def Conversion.under (conversion : Conversion) (binders : Nat) : Conversion :=
  { conversion with binders := conversion.binders + binders }

def Conversion.definition (conversion : Conversion) (index : Nat) : Option Term :=
  if conversion.binders ≤ index then
    conversion.context.definitionUnder (index - conversion.binders) conversion.binders
  else none

def whnfFuelCeiling : Nat := 2 ^ 20

def recursiveIndices : DataField → Option (List Term)
  | .recursive => some []
  | .recursiveAt indices => some indices
  | _ => none

/-- View a nonrecursive field type in the frame of all preceding fields. -/
def fieldValueType (field : DataField) (preceding : Nat) : Option Term :=
  match field with
  | .value ty => some (shiftUp ty preceding 0)
  | .dependent ty => some ty
  | .recursive | .recursiveAt _ => none

def applyCase (motive : Term) (cases : List Term) (result : Term) : List (DataField × Term) → Term
  | [] => result
  | (field, argument) :: rest =>
    let applied := Term.app result argument
    if (recursiveIndices field).isSome then
      applyCase motive cases (.app applied (.induct argument motive cases)) rest
    else applyCase motive cases applied rest

/-- The reduct of an induction on a saturated constructor of a declaration. -/
def selectCase (declaration : Term) (constructor : Nat) (args : List Term) (motive : Term) (cases : List Term) :
    Option Term :=
  match declaration with
  | .data _ _ _ constructors => do
    let signature ← constructors[constructor]?
    let case ← cases[constructor]?
    if signature.fields.length = args.length then
      return applyCase motive cases case (signature.fields.zip args)
    else none
  | _ => none

/-- `bound` only makes the recursion structural: each call uses up at least one unit of `fuel`. -/
def Conversion.whnfWithin (conversion : Conversion) :
    Nat → Term → Nat → Except CheckError (Term × Nat)
  | 0, _, _ | _, _, 0 => throw .fuelExhausted
  | bound + 1, .var index, fuel + 1 =>
    match conversion.definition index with
    | some value => conversion.whnfWithin bound value fuel
    | none => pure (.var index, fuel)
  | bound + 1, .letIn value body, fuel + 1 => conversion.whnfWithin bound (subst body 0 value) fuel
  | bound + 1, .induct scrutinee motive cases, fuel + 1 => do
    let (head, fuel) ← conversion.whnfWithin bound scrutinee fuel
    match head with
    | .construct data constructor args => do
      let (declaration, fuel) ← conversion.whnfWithin bound data fuel
      match selectCase declaration constructor args motive cases with
      | some result => conversion.whnfWithin bound result fuel
      | none => pure (.induct head motive cases, fuel)
    | _ => pure (.induct head motive cases, fuel)
  | bound + 1, .app f x, fuel + 1 => do
    let (head, fuel) ← conversion.whnfWithin bound f fuel
    match head with
    | .lam _ body => conversion.whnfWithin bound (subst body 0 x) fuel
    | _ => pure (.app head x, fuel)
  | bound + 1, .fst p, fuel + 1 => do
    let (head, fuel) ← conversion.whnfWithin bound p fuel
    match head with
    | .pair first _ => conversion.whnfWithin bound first fuel
    | _ => pure (.fst head, fuel)
  | bound + 1, .snd p, fuel + 1 => do
    let (head, fuel) ← conversion.whnfWithin bound p fuel
    match head with
    | .pair _ second => conversion.whnfWithin bound second fuel
    | _ => pure (.snd head, fuel)
  | bound + 1, .j motive base scrutinee, fuel + 1 => do
    let (head, fuel) ← conversion.whnfWithin bound scrutinee fuel
    match head with
    | .refl _ => conversion.whnfWithin bound base fuel
    | _ => pure (.j motive base head, fuel)
  | bound + 1, .idElim motive base scrutinee, fuel + 1 => do
    let (head, fuel) ← conversion.whnfWithin bound scrutinee fuel
    match head with
    | .refl _ => conversion.whnfWithin bound base fuel
    | _ => pure (.idElim motive base head, fuel)
  | _ + 1, term, fuel + 1 => pure (term, fuel)

def Conversion.whnfFuel (conversion : Conversion) (term : Term) (fuel : Nat) :
    Except CheckError (Term × Nat) :=
  conversion.whnfWithin fuel term fuel

def Conversion.whnf (conversion : Conversion) (term : Term) : Run Term :=
  Run.ofExcept ((conversion.whnfFuel term whnfFuelCeiling).map Prod.fst)

def Conversion.expectUniverse (conversion : Conversion) (term : Term) : Run (Option Level) := do
  match ← conversion.whnf term with
  | .universe level => pure (some level.normalize)
  | _ => pure none

def both (first second : Run Bool) : Run Bool := do
  if ← first then second else pure false

def allChecked {α : Type} (check : α → Run Bool) : List α → Run Bool
  | [] => pure true
  | item :: rest => both (check item) (allChecked check rest)

@[simp] theorem both_eq_true {fst snd : Run Bool} :
    both fst snd = pure true ↔ fst = pure true ∧ snd = pure true := by
  simp only [both, Run.bind_eq_pure]
  constructor
  · intro ⟨hit, ret, done⟩
    cases hit with
    | true => exact ⟨ret, done⟩
    | false => simp at done
  · intro ⟨ret, done⟩
    exact ⟨true, ret, done⟩

theorem allChecked_eq_true {α : Type} {check : α → Run Bool} {items : List α} :
    allChecked check items = pure true ↔ ∀ item ∈ items, check item = pure true := by
  induction items with
  | nil => simp [allChecked]
  | cons item rest ih => simp [allChecked, ih]

section DefEq

-- `compare` is the recursive call of `defEq`.
variable (compare : Conversion → Term → Term → Run Bool)

def termsDefEq (conversion : Conversion) (as bs : List Term) : Run Bool :=
  if as.length = bs.length then allChecked (fun (a, b) => compare conversion a b) (as.zip bs) else pure false

def telescopeDefEq (conversion : Conversion) (as bs : List Term) : Run Bool :=
  allChecked (fun ((a, b), index) => compare (conversion.under index) a b) (as.zip bs).zipIdx

def fieldDefEq (conversion : Conversion) (index : Nat) (a b : DataField) : Run Bool :=
  match recursiveIndices a, recursiveIndices b with
  | some as, some bs => termsDefEq compare (conversion.under index) as bs
  | none, none =>
    match fieldValueType a index, fieldValueType b index with
    | some a, some b => compare (conversion.under index) a b
    | _, _ => pure false
  | _, _ => pure false

def constructorDefEq (conversion : Conversion) (a b : DataConstructor) : Run Bool :=
  both (pure (a.fields.length = b.fields.length))
    (both (termsDefEq compare (conversion.under a.fields.length) a.indices b.indices)
      (allChecked (fun ((a, b), index) => fieldDefEq compare conversion index a b)
        (a.fields.zip b.fields).zipIdx))

def etaMatch (conversion : Conversion) (lamBody other : Term) : Run Bool := do
  match ← (conversion.under 1).whnf lamBody with
  | .app f x => do
    let argument ← (conversion.under 1).whnf x
    if argument ≠ .var 0 then pure false
    else if isFreeIn f 0 then pure false
    else compare conversion (shiftDown f 1 0) other
  | _ => pure false

/-- `etaMatch` is a parameter so that conversion with and without function eta share this comparison. -/
def defEqWhnf (etaMatch : Conversion → Term → Term → Run Bool) (conversion : Conversion) :
    Term → Term → Run Bool
  | .data an al ai ac, .data bn bl bi bc =>
    both (pure (an = bn && levelEq al bl && ai.length = bi.length))
      (both (telescopeDefEq compare conversion ai bi)
        (both (pure (ac.length = bc.length))
          (allChecked (fun (a, b) => constructorDefEq compare conversion a b) (ac.zip bc))))
  | .construct ad ai aa, .construct bd bi ba =>
    both (pure (ai = bi)) (both (compare conversion ad bd) (termsDefEq compare conversion aa ba))
  | .induct a am ac, .induct b bm bc =>
    both (compare conversion a b) (both (compare conversion am bm) (termsDefEq compare conversion ac bc))
  | .var i, .var j => pure (i = j)
  | .universe l1, .universe l2 => pure (levelEq l1 l2)
  | .pi a1 b1, .pi a2 b2 => both (compare conversion a1 a2) (compare (conversion.under 1) b1 b2)
  | .lam a1 b1, .lam a2 b2 => both (compare conversion a1 a2) (compare (conversion.under 1) b1 b2)
  | .app f1 x1, .app f2 x2 => both (compare conversion f1 f2) (compare conversion x1 x2)
  | .sigma a1 b1, .sigma a2 b2 => both (compare conversion a1 a2) (compare (conversion.under 1) b1 b2)
  | .pair a1 b1, .pair a2 b2 => both (compare conversion a1 a2) (compare conversion b1 b2)
  | .pair first second, other =>
    both (compare conversion first (.fst other)) (compare conversion second (.snd other))
  | other, .pair first second =>
    both (compare conversion first (.fst other)) (compare conversion second (.snd other))
  | .fst p1, .fst p2 => compare conversion p1 p2
  | .snd p1, .snd p2 => compare conversion p1 p2
  | .id t1 l1 r1, .id t2 l2 r2 =>
    both (compare conversion t1 t2) (both (compare conversion l1 l2) (compare conversion r1 r2))
  | .refl v1, .refl v2 => compare conversion v1 v2
  | .j m1 b1 s1, .j m2 b2 s2 =>
    both (compare conversion m1 m2) (both (compare conversion b1 b2) (compare conversion s1 s2))
  | .idElim m1 b1 s1, .idElim m2 b2 s2 =>
    both (compare conversion m1 m2) (both (compare conversion b1 b2) (compare conversion s1 s2))
  | .funExt a b c d, .funExt e f g h =>
    both (compare conversion a e)
      (both (compare conversion b f) (both (compare conversion c g) (compare conversion d h)))
  | .lam _ body, other => etaMatch conversion body other
  | other, .lam _ body => etaMatch conversion body other
  | _, _ => pure false

end DefEq

/-- `depth` bounds the nesting of recursive calls. -/
def Conversion.defEq : Nat → Conversion → Term → Term → Run Bool
  | 0, _, _, _ => Run.unfinished
  | depth + 1, conversion, a, b =>
    if a = b then pure true
    else do
      let a ← conversion.whnf a
      let b ← conversion.whnf b
      defEqWhnf (Conversion.defEq depth) (etaMatch (Conversion.defEq depth)) conversion a b

end Proof
