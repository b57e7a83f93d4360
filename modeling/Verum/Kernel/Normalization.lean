import Verum.Kernel.Substitution

namespace Kernel

structure RegisteredAxiom where
  name : String
  body : Option CoreTerm

abbrev AxiomRegistry := List RegisteredAxiom

/-- The body of a transparent definition; a postulate has none. -/
def AxiomRegistry.definition (axioms : AxiomRegistry) (name : String) : Option CoreTerm :=
  (axioms.find? fun entry => entry.name == name).bind fun entry => entry.body

structure ConstructorSig where
  name : String
  argTypes : List CoreTerm

structure PathCtorSig where
  name : String
  dim : UInt32
  lhs : CoreTerm
  rhs : CoreTerm

structure RegisteredInductive where
  name : String
  params : List String
  constructors : List ConstructorSig
  pathConstructors : List PathCtorSig

abbrev InductiveRegistry := List RegisteredInductive

def InductiveRegistry.get (inductives : InductiveRegistry) (name : String) :
    Option RegisteredInductive :=
  inductives.find? fun entry => entry.name == name

def RegisteredInductive.isDirectRecursiveArgument (parent : RegisteredInductive) :
    CoreTerm → Bool
  | .node (.inductiveType path _) _ => path == parent.name
  | _ => false

/-- The registries that license unfolding and elimination. -/
structure Registries where
  axioms : Option AxiomRegistry
  inductives : Option InductiveRegistry

def Registries.definition (r : Registries) (name : String) : Option CoreTerm :=
  r.axioms.bind fun axioms => axioms.definition name

/-- A branch applied to the fields of a constructor, each recursive field followed by its
    recursor call. -/
def recursorChain {T : Type} (app : T → T → T) (recCall : T → T) : T → List (T × Bool) → T
  | beta, [] => beta
  | beta, (field, recursive) :: rest =>
    let applied := app beta field
    recursorChain app recCall (if recursive then app applied (recCall field) else applied) rest

/-- The position of a point constructor and which of its fields are recursive, when the node and
    the number of branches agree with the declaration. -/
def Registries.pointRule (r : Registries) (owner name : String) (params fields cases : Nat) :
    Option (Nat × List Bool) := do
  let inductives ← r.inductives
  let parent ← inductives.get owner
  let ctorIdx ← parent.constructors.findIdx? fun ctor => ctor.name == name
  let ctorSig ← parent.constructors[ctorIdx]?
  if cases = parent.constructors.length + parent.pathConstructors.length ∧
      params = parent.params.length ∧ fields = ctorSig.argTypes.length then
    some (ctorIdx, ctorSig.argTypes.map parent.isDirectRecursiveArgument)
  else none

namespace CoreTerm

/-- The contraction of an eliminator whose scrutinee is a registered point constructor. -/
def pointReduct (r : Registries) (cases : Nat) (args : Fin (2 + cases) → CoreTerm) :
    CoreTerm → Option CoreTerm
  | .node (.constructor owner name params fields) parts => do
    let (ctorIdx, recursive) ← r.pointRule owner name params fields cases
    let branch ← (List.ofFn fun i => args (Fin.natAdd 2 i))[ctorIdx]?
    let values := List.ofFn fun i => parts (Fin.natAdd params i)
    some (recursorChain app
      (fun field => .node (.elim cases) (Function.update args (Fin.castAdd cases 0) field)) branch
      (values.zip recursive))
  | _ => none

def normalizeAll (recurse : CoreTerm → Nat → CoreTerm × Nat) :
    (n : Nat) → (Fin n → CoreTerm) → Nat → (Fin n → CoreTerm) × Nat
  | 0, args, budget => (args, budget)
  | n + 1, args, budget =>
    let first := recurse (args 0) budget
    let rest := normalizeAll recurse n (fun i => args i.succ) first.2
    (Fin.cons first.1 rest.1, rest.2)

/-- One level of normalisation, `recurse` standing for the recursive calls. -/
def normalizeStep (r : Registries) (recurse : CoreTerm → Nat → CoreTerm × Nat) :
    CoreTerm → Nat → CoreTerm × Nat
  | .var n, budget => (.var n, budget)
  | .axiomNode name ty framework, budget =>
    match r.definition name with
    | some body => recurse body budget
    | none =>
      let (newTy, budget) := recurse ty budget
      (.axiomNode name newTy framework, budget)
  | .bind k binder domain body, budget =>
    let (newDomain, budget) := recurse domain budget
    let (newBody, budget) := recurse body budget
    (.bind k binder newDomain newBody, budget)
  | .node .app args, budget =>
    let (fNorm, budget) := recurse (args 0) budget
    let (argNorm, budget) := recurse (args 1) budget
    match fNorm with
    | .bind .lam binder _ body => recurse (body.substitute binder argNorm) budget
    | neutral => (app neutral argNorm, budget)
  | .node .fst args, budget =>
    let (pNorm, budget) := recurse (args 0) budget
    match pNorm with
    | .node .pair parts => recurse (parts 0) budget
    | neutral => (fst neutral, budget)
  | .node .snd args, budget =>
    let (pNorm, budget) := recurse (args 0) budget
    match pNorm with
    | .node .pair parts => recurse (parts 1) budget
    | neutral => (snd neutral, budget)
  | .node .pathOver args, budget =>
    let (lhs, budget) := recurse (args 2) budget
    let (rhs, budget) := recurse (args 3) budget
    let (path, budget) := recurse (args 1) budget
    let (motive, budget) := recurse (args 0) budget
    match path with
    | .node .refl point =>
      let (carrier, budget) := recurse (app motive (point 0)) budget
      (pathTy carrier lhs rhs, budget)
    | path => (pathOver motive path lhs rhs, budget)
  | .node .transport args, budget =>
    let (path, budget) := recurse (args 0) budget
    let (value, budget) := recurse (args 1) budget
    match path with
    | .node .refl _ => (value, budget)
    | path => (transport path value, budget)
  | .node .quotElim args, budget =>
    let (scrutinee, budget) := recurse (args 0) budget
    match scrutinee with
    | .node .quotIntro parts =>
      let (case, budget) := recurse (args 2) budget
      let (value, budget) := recurse (parts 0) budget
      recurse (app case value) budget
    | scrutinee =>
      let (motive, budget) := recurse (args 1) budget
      let (case, budget) := recurse (args 2) budget
      let (respect, budget) := recurse (args 3) budget
      (quotElim scrutinee motive case respect, budget)
  | .node (.elim cases) args, budget =>
    let (scrutinee, budget) := recurse (args (Fin.castAdd cases 0)) budget
    match pointReduct r cases args scrutinee with
    | some beta => recurse beta budget
    | none =>
      let (branches, budget) := normalizeAll recurse cases (fun i => args (Fin.natAdd 2 i)) budget
      let (motive, budget) := recurse (args (Fin.castAdd cases 1)) budget
      (.node (.elim cases) (Fin.append ![scrutinee, motive] branches), budget)
  | .node f args, budget =>
    let (newArgs, budget) := normalizeAll recurse f.arity args budget
    (.node f newArgs, budget)

/-- Every call takes one unit of the shared budget and at none returns its term; `fuel` bounds
    the nesting of calls, for which the budget is enough. -/
def normalizeWithin (r : Registries) : Nat → CoreTerm → Nat → CoreTerm × Nat
  | _, term, 0 => (term, 0)
  | 0, term, budget => (term, budget)
  | fuel + 1, term, budget + 1 => normalizeStep r (normalizeWithin r fuel) term budget

def normalizeCore (r : Registries) (budget : Nat) (term : CoreTerm) : CoreTerm :=
  (normalizeWithin r budget term budget).1

def normalizeStepLimit : Nat := 10000

/-- Comparison by binding position; `bound` pairs the binders of the two sides, innermost first. -/
def compare : CoreTerm → CoreTerm → List (String × String) → Bool
  | .var a, .var b, bound =>
    match (bound.map Prod.fst).idxOf? a, (bound.map Prod.snd).idxOf? b with
    | some x, some y => x == y
    | none, none => a == b
    | _, _ => false
  | .node f as, .node g bs, bound =>
    if same : f = g then
      (List.finRange f.arity).all fun i => compare (as i) (bs (i.cast (by rw [same]))) bound
    else false
  | .bind k a ad ab, .bind l b bd bb, bound =>
    k == l && compare ad bd bound && compare ab bb ((a, b) :: bound)
  | .axiomNode a aty af, .axiomNode b bty bf, bound => a == b && af == bf && compare aty bty bound
  | _, _, _ => false

def alphaEquivalent (left right : CoreTerm) : Bool := compare left right []

/-- Equality on sight, or of the two normal forms up to the names of binders. -/
def comparison (r : Registries) (budget : Nat) (a b : CoreTerm) : Bool :=
  decide (a = b) || alphaEquivalent (normalizeCore r budget a) (normalizeCore r budget b)

def definitionalEq (a b : CoreTerm) : Bool := comparison ⟨none, none⟩ normalizeStepLimit a b

def definitionalEqWithAxioms (a b : CoreTerm) (axioms : AxiomRegistry) : Bool :=
  comparison ⟨some axioms, none⟩ normalizeStepLimit a b

def convertibleIn (a b : CoreTerm) (axioms : AxiomRegistry)
    (inductives : Option InductiveRegistry) : Bool :=
  comparison ⟨some axioms, inductives⟩ normalizeStepLimit a b

end CoreTerm

end Kernel
