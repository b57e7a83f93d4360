import Verum.Proof.Checker

namespace Proof

/-- The transparent definitions in scope, each in the frame of its use. -/
abbrev Definitions := Nat → Option Term

def Definitions.under (definitions : Definitions) (binders : Nat) : Definitions := fun index =>
  if binders ≤ index then (definitions (index - binders)).map (shiftUp · binders 0) else none

/-- Replaces the innermost variables by a telescope of arguments and lifts the ambient ones. -/
def instantiation (arguments : List Term) (ambient : Nat) (index : Nat) : Term :=
  arguments.reverse[index]?.getD (.var (index - arguments.length + ambient))

mutual

/-- The least congruence with computation, unfolding, eta and equality of level denotations. -/
inductive Conv : Definitions → Term → Term → Prop where
  | refl {defs a} : Conv defs a a
  | symm {defs a b} : Conv defs a b → Conv defs b a
  | trans {defs a b c} : Conv defs a b → Conv defs b c → Conv defs a c
  | beta {defs domain body x} : Conv defs (.app (.lam domain body) x) (subst body 0 x)
  | zeta {defs value body} : Conv defs (.letIn value body) (subst body 0 value)
  | delta {defs index value} : defs index = some value → Conv defs (.var index) value
  | fstPair {defs first second} : Conv defs (.fst (.pair first second)) first
  | sndPair {defs first second} : Conv defs (.snd (.pair first second)) second
  | jRefl {defs motive base value} : Conv defs (.j motive base (.refl value)) base
  | idElimRefl {defs motive base value} : Conv defs (.idElim motive base (.refl value)) base
  | inductConstruct {defs name level indices constructors index args motive cases signature case} :
      constructors[index]? = some signature → cases[index]? = some case →
      signature.fields.length = args.length →
      Conv defs (.induct (.construct (.data name level indices constructors) index args) motive cases)
        (applyCase motive cases case (signature.fields.zip args))
  | etaLam {defs domain f} : Conv defs (.lam domain (.app (shiftUp f 1 0) (.var 0))) f
  | etaPair {defs p} : Conv defs (.pair (.fst p) (.snd p)) p
  | universe {defs l m} : l.Equiv m → Conv defs (.universe l) (.universe m)
  | data {defs name l m as bs cs ds} : l.Equiv m → ConvTelescope defs 0 as bs →
      ConvConstructors defs cs ds → Conv defs (.data name l as cs) (.data name m bs ds)
  | construct {defs a b index as bs} : Conv defs a b → ConvTerms defs as bs →
      Conv defs (.construct a index as) (.construct b index bs)
  | induct {defs s s' motive motive' as bs} : Conv defs s s' → Conv defs motive motive' →
      ConvTerms defs as bs → Conv defs (.induct s motive as) (.induct s' motive' bs)
  | letIn {defs value value' body body'} : Conv defs value value' → Conv (defs.under 1) body body' →
      Conv defs (.letIn value body) (.letIn value' body')
  | pi {defs a a' b b'} : Conv defs a a' → Conv (defs.under 1) b b' → Conv defs (.pi a b) (.pi a' b')
  | lam {defs a a' b b'} : Conv defs a a' → Conv (defs.under 1) b b' → Conv defs (.lam a b) (.lam a' b')
  | app {defs f f' x x'} : Conv defs f f' → Conv defs x x' → Conv defs (.app f x) (.app f' x')
  | sigma {defs a a' b b'} : Conv defs a a' → Conv (defs.under 1) b b' →
      Conv defs (.sigma a b) (.sigma a' b')
  | pair {defs a a' b b'} : Conv defs a a' → Conv defs b b' → Conv defs (.pair a b) (.pair a' b')
  | fst {defs p p'} : Conv defs p p' → Conv defs (.fst p) (.fst p')
  | snd {defs p p'} : Conv defs p p' → Conv defs (.snd p) (.snd p')
  | id {defs ty ty' l l' r r'} : Conv defs ty ty' → Conv defs l l' → Conv defs r r' →
      Conv defs (.id ty l r) (.id ty' l' r')
  | reflTerm {defs a a'} : Conv defs a a' → Conv defs (.refl a) (.refl a')
  | j {defs m m' b b' s s'} : Conv defs m m' → Conv defs b b' → Conv defs s s' →
      Conv defs (.j m b s) (.j m' b' s')
  | idElim {defs m m' b b' s s'} : Conv defs m m' → Conv defs b b' → Conv defs s s' →
      Conv defs (.idElim m b s) (.idElim m' b' s')
  | funExt {defs ty ty' l l' r r' p p'} : Conv defs ty ty' → Conv defs l l' → Conv defs r r' →
      Conv defs p p' → Conv defs (.funExt ty l r p) (.funExt ty' l' r' p')

inductive ConvTerms : Definitions → List Term → List Term → Prop where
  | nil {defs} : ConvTerms defs [] []
  | cons {defs a b as bs} : Conv defs a b → ConvTerms defs as bs → ConvTerms defs (a :: as) (b :: bs)

/-- Each type is under the binders of the ones before it. -/
inductive ConvTelescope : Definitions → Nat → List Term → List Term → Prop where
  | nil {defs index} : ConvTelescope defs index [] []
  | cons {defs index a b as bs} : Conv (defs.under index) a b → ConvTelescope defs (index + 1) as bs →
      ConvTelescope defs index (a :: as) (b :: bs)

/-- Fields are compared in the frame of the fields before them, whichever way they are written. -/
inductive ConvFields : Definitions → Nat → List DataField → List DataField → Prop where
  | nil {defs index} : ConvFields defs index [] []
  | recursive {defs index field field' as bs fields fields'} :
      recursiveIndices field = some as → recursiveIndices field' = some bs →
      ConvTerms (defs.under index) as bs → ConvFields defs (index + 1) fields fields' →
      ConvFields defs index (field :: fields) (field' :: fields')
  | value {defs index field field' a b fields fields'} :
      fieldValueType field index = some a → fieldValueType field' index = some b →
      Conv (defs.under index) a b → ConvFields defs (index + 1) fields fields' →
      ConvFields defs index (field :: fields) (field' :: fields')

inductive ConvConstructors : Definitions → List DataConstructor → List DataConstructor → Prop where
  | nil {defs} : ConvConstructors defs [] []
  | cons {defs} {c d : DataConstructor} {cs ds} : ConvFields defs 0 c.fields d.fields →
      ConvTerms (defs.under c.fields.length) c.indices d.indices → ConvConstructors defs cs ds →
      ConvConstructors defs (c :: cs) (d :: ds)

end

/-- A declared variable, or a transparent definition. -/
structure Entry where
  ty : Term
  definition : Option Term

def definitionsOf (entries : List Entry) : Definitions := fun index => do
  let entry ← entries[index]?
  let value ← entry.definition
  return shiftUp value (index + 1) 0

def Term.rename (place : Nat → Nat) (term : Term) : Term := term.substitute fun index => .var (place index)

/-- The branch for a constructor: its fields in order, with an induction hypothesis after each recursive
    one. `place` sends the frame of the fields read so far to the branch, `depth` binders deep. -/
def branchType (data motive : Term) (index : Nat) (result : List Term) (place : Nat → Nat)
    (depth count : Nat) : List DataField → Term
  | [] =>
    .app (applyTerms (shiftUp motive depth 0) (result.map (Term.rename place)))
      (.construct (shiftUp data depth 0) index ((List.range count).reverse.map fun field => .var (place field)))
  | field :: rest =>
    .pi ((fieldDomain data field count).rename place)
      (match recursiveIndices field with
      | none =>
        branchType data motive index result
          (fun slot => if slot = 0 then 0 else place (slot - 1) + 1) (depth + 1) (count + 1) rest
      | some indices =>
        .pi
          (.app (applyTerms (shiftUp motive (depth + 1) 0)
            (indices.map (Term.rename fun slot => place slot + 1))) (.var 0))
          (branchType data motive index result
            (fun slot => if slot = 0 then 1 else place (slot - 1) + 2) (depth + 2) (count + 1) rest))

mutual

/-- The typing rules, under the definitions and the types of the entries. -/
inductive HasType (foundation : Foundation) : List Entry → Term → Term → Prop where
  | conv {entries term ty ty'} : HasType foundation entries term ty →
      Conv (definitionsOf entries) ty ty' → HasType foundation entries term ty'
  | var {entries : List Entry} {index entry} : entries[index]? = some entry →
      HasType foundation entries (.var index) (shiftUp entry.ty (index + 1) 0)
  | varDefinition {entries index value ty} : definitionsOf entries index = some value →
      HasType foundation entries value ty → HasType foundation entries (.var index) ty
  | univ {entries level} : HasType foundation entries (.universe level) (.universe (.succ level))
  | pi {entries a b l m} : HasType foundation entries a (.universe l) →
      HasType foundation (⟨a, none⟩ :: entries) b (.universe m) →
      HasType foundation entries (.pi a b) (.universe (.max l m))
  | lam {entries domain body ty l} : HasType foundation entries domain (.universe l) →
      HasType foundation (⟨domain, none⟩ :: entries) body ty →
      HasType foundation entries (.lam domain body) (.pi domain ty)
  | app {entries f x domain codomain} : HasType foundation entries f (.pi domain codomain) →
      HasType foundation entries x domain → HasType foundation entries (.app f x) (subst codomain 0 x)
  | sigma {entries a b l m} : HasType foundation entries a (.universe l) →
      HasType foundation (⟨a, none⟩ :: entries) b (.universe m) →
      HasType foundation entries (.sigma a b) (.universe (.max l m))
  | pair {entries first second domain family} : HasType foundation entries first domain →
      HasType foundation entries second (subst family 0 first) →
      HasType foundation entries (.pair first second) (.sigma domain family)
  | fst {entries p domain family} : HasType foundation entries p (.sigma domain family) →
      HasType foundation entries (.fst p) domain
  | snd {entries p domain family} : HasType foundation entries p (.sigma domain family) →
      HasType foundation entries (.snd p) (subst family 0 (.fst p))
  | id {entries ty lhs rhs l} : HasType foundation entries ty (.universe l) →
      HasType foundation entries lhs ty → HasType foundation entries rhs ty →
      HasType foundation entries (.id ty lhs rhs) (.universe l)
  | refl {entries value ty} : HasType foundation entries value ty →
      HasType foundation entries (.refl value) (.id ty value value)
  | j {entries motive base scrutinee ty lhs rhs l} :
      HasType foundation entries scrutinee (.id ty lhs rhs) →
      HasType foundation entries motive (.pi ty (.universe l)) →
      HasType foundation entries base (.app motive lhs) →
      HasType foundation entries (.j motive base scrutinee) (.app motive rhs)
  | idElim {entries motive base scrutinee ty lhs rhs l} :
      HasType foundation entries scrutinee (.id ty lhs rhs) →
      HasType foundation entries motive
        (.pi ty (.pi (.id (shiftUp ty 1 0) (shiftUp lhs 1 0) (.var 0)) (.universe l))) →
      HasType foundation entries base (.app (.app motive lhs) (.refl lhs)) →
      HasType foundation entries (.idElim motive base scrutinee) (.app (.app motive rhs) scrutinee)
  | letIn {entries value body ty bodyTy} : HasType foundation entries value ty →
      HasType foundation (⟨ty, some value⟩ :: entries) body bodyTy →
      HasType foundation entries (.letIn value body) (subst bodyTy 0 value)
  | data {entries name level indices constructors} : TelescopeTyped foundation entries indices →
      (∀ constructor ∈ constructors,
        ConstructorTyped foundation (.data name level indices constructors) level indices entries 0
          constructor.fields constructor.indices) →
      HasType foundation entries (.data name level indices constructors)
        (indices.foldr Term.pi (.universe level))
  | construct {entries data kind name level indices constructors index signature args} :
      HasType foundation entries data kind →
      Conv (definitionsOf entries) data (.data name level indices constructors) →
      constructors[index]? = some signature → signature.fields.length = args.length →
      (∀ position field argument, signature.fields[position]? = some field →
        args[position]? = some argument →
        HasType foundation entries argument
          ((fieldDomain (.data name level indices constructors) field position).substitute
            (instantiation (args.take position) 0))) →
      HasType foundation entries (.construct data index args)
        (applyTerms (.data name level indices constructors)
          (signature.indices.map (Term.substitute (instantiation args 0))))
  | induct {entries scrutinee motive cases name level indices constructors values l} :
      HasType foundation entries scrutinee (applyTerms (.data name level indices constructors) values) →
      indices.length = values.length →
      HasType foundation entries motive
        (indices.foldr Term.pi
          (.pi (applyTerms (shiftUp (.data name level indices constructors) indices.length 0)
            ((List.range indices.length).reverse.map Term.var)) (.universe l))) →
      cases.length = constructors.length →
      (∀ index constructor case, constructors[index]? = some constructor → cases[index]? = some case →
        HasType foundation entries case
          (branchType (.data name level indices constructors) motive index constructor.indices
            (fun slot => slot) 0 0 constructor.fields)) →
      HasType foundation entries (.induct scrutinee motive cases) (.app (applyTerms motive values) scrutinee)
  | funExt {entries functionType domain codomain lhs rhs pointwise l} :
      foundation = .functionExtensionality →
      HasType foundation entries functionType (.universe l) →
      Conv (definitionsOf entries) functionType (.pi domain codomain) →
      HasType foundation entries lhs functionType → HasType foundation entries rhs functionType →
      HasType foundation entries pointwise
        (.pi domain (.id codomain (.app (shiftUp lhs 1 0) (.var 0)) (.app (shiftUp rhs 1 0) (.var 0)))) →
      HasType foundation entries (.funExt functionType lhs rhs pointwise) (.id functionType lhs rhs)

inductive TelescopeTyped (foundation : Foundation) : List Entry → List Term → Prop where
  | nil {entries} : TelescopeTyped foundation entries []
  | cons {entries ty rest l} : HasType foundation entries ty (.universe l) →
      TelescopeTyped foundation (⟨ty, none⟩ :: entries) rest →
      TelescopeTyped foundation entries (ty :: rest)

/-- The arguments inhabit a telescope whose ambient frame is `ambient` binders further out. -/
inductive ArgumentsTyped (foundation : Foundation) :
    List Entry → List Term → List Term → Nat → Prop where
  | intro {entries telescope arguments ambient} : telescope.length = arguments.length →
      (∀ position ty argument, telescope[position]? = some ty → arguments[position]? = some argument →
        HasType foundation entries argument
          (Term.substitute (instantiation (arguments.take position) ambient) ty)) →
      ArgumentsTyped foundation entries telescope arguments ambient

/-- The remaining fields, each a small type or a recursive occurrence, and the resulting indices. -/
inductive ConstructorTyped (foundation : Foundation) :
    Term → Level → List Term → List Entry → Nat → List DataField → List Term → Prop where
  | result {data level indices entries count result} :
      ArgumentsTyped foundation entries indices result count →
      ConstructorTyped foundation data level indices entries count [] result
  | recursive {data level indices entries count field values rest result} :
      recursiveIndices field = some values →
      ArgumentsTyped foundation entries indices values count →
      ConstructorTyped foundation data level indices
        (⟨applyTerms (shiftUp data count 0) values, none⟩ :: entries) (count + 1) rest result →
      ConstructorTyped foundation data level indices entries count (field :: rest) result
  | value {data level indices entries count field ty l rest result} : fieldValueType field count = some ty →
      HasType foundation entries ty (.universe l) →
      (∀ valuation, l.denote valuation ≤ level.denote valuation) →
      ConstructorTyped foundation data level indices (⟨ty, none⟩ :: entries) (count + 1) rest result →
      ConstructorTyped foundation data level indices entries count (field :: rest) result

end

end Proof
