import Verum.Exhaustiveness.Pattern

namespace Exhaustiveness

/-- The types that the analysis takes apart; a named one is looked up in the environment. -/
inductive Ty where
  | unit
  | bool
  | int
  | never
  | tuple (elements : List Ty)
  | variant (variants : List (String × Ty))
  | named (name : String)

abbrev TypeEnv := String → Option Ty

def Ty.isUnit : Ty → Bool
  | .unit => true
  | _ => false

structure Constructor where
  name : String
  argTypes : List Ty
  isDefault : Bool

namespace Constructor

def nullary (name : String) : Constructor := ⟨name, [], false⟩

def withArgs (name : String) (args : List Ty) : Constructor := ⟨name, args, false⟩

def defaultCtor (name : String) : Constructor := ⟨name, [], true⟩

def ofVariant : String × Ty → Constructor
  | (name, ty) => if ty.isUnit then nullary name else withArgs name [ty]

end Constructor

structure TypeConstructors where
  constructors : List Constructor
  isInfinite : Bool
  isEmpty : Bool

namespace TypeConstructors

def single (ctor : Constructor) : TypeConstructors := ⟨[ctor], false, false⟩

def infinite : TypeConstructors := ⟨[.defaultCtor "_"], true, false⟩

end TypeConstructors

def getTypeConstructors (env : TypeEnv) : Ty → TypeConstructors
  | .unit => .single (.nullary "()")
  | .bool => ⟨[.nullary "true", .nullary "false"], false, false⟩
  | .never => ⟨[], false, true⟩
  | .int => .infinite
  | .tuple elements => .single (.withArgs "()" elements)
  | .variant variants => ⟨variants.map .ofVariant, false, false⟩
  | .named name =>
    match env name with
    | some (.variant variants) => if variants.isEmpty then .infinite else ⟨variants.map .ofVariant, false, false⟩
    | _ => .infinite

def PatternColumn.isWildcard : PatternColumn → Bool
  | .wildcard => true
  | _ => false

def PatternRow.isWildcard (row : PatternRow) : Bool := (row.columns.head?.map (·.isWildcard)).getD true

abbrev CoverageMatrix := List PatternRow

def CoverageMatrix.hasWildcardRow (matrix : CoverageMatrix) : Bool :=
  matrix.any fun row => row.isWildcard && !row.hasGuard

def wildcards (ctor : Constructor) : List PatternColumn := List.replicate ctor.argTypes.length .wildcard

def boolName (value : Bool) : String := if value then "true" else "false"

mutual

def matchesConstructor (ctor : Constructor) : PatternColumn → Bool
  | .wildcard => true
  | .constructor name _ => name == ctor.name || ctor.isDefault
  | .or alts => matchesAny ctor alts
  | .guarded inner => matchesConstructor ctor inner
  | .and conjuncts => matchesAny ctor conjuncts
  | .literal (.bool value) => ctor.name == boolName value || ctor.isDefault
  | .literal _ => ctor.isDefault
  | .range _ _ _ => ctor.isDefault
  | .tuple _ => ctor.name == "()" || ctor.isDefault

def matchesAny (ctor : Constructor) : List PatternColumn → Bool
  | [] => false
  | col :: cols => matchesConstructor ctor col || matchesAny ctor cols

end

mutual

def expandAlternative (ctor : Constructor) : PatternColumn → List PatternColumn
  | .wildcard => wildcards ctor
  | .constructor _ args => args
  | .guarded inner => expandAlternative ctor inner
  | .and conjuncts => (expandSpecific ctor conjuncts none).getD (wildcards ctor)
  | .literal (.bool _) => []
  | .tuple elements => elements
  | _ => []

/-- The expansion of the most specific conjunct that matches, the last one that is no wildcard. -/
def expandSpecific (ctor : Constructor) : List PatternColumn → Option (List PatternColumn) →
    Option (List PatternColumn)
  | [], best => best
  | conj :: conjuncts, best =>
    if matchesConstructor ctor conj then
      if conj.isWildcard then expandSpecific ctor conjuncts (best.or (some (wildcards ctor)))
      else expandSpecific ctor conjuncts (some (expandAlternative ctor conj))
    else expandSpecific ctor conjuncts best

end

/-- What the first column of a row becomes for a constructor, row by row, and whether under a guard. -/
def specializeColumn (ctor : Constructor) (hasGuard : Bool) : PatternColumn → List (List PatternColumn × Bool)
  | .wildcard => [(wildcards ctor, hasGuard)]
  | .constructor name args => if name == ctor.name then [(args, hasGuard)] else []
  | .or alts => (alts.filter (matchesConstructor ctor)).map fun alt => (expandAlternative ctor alt, hasGuard)
  | .guarded inner => if matchesConstructor ctor inner then [(expandAlternative ctor inner, true)] else []
  | .and conjuncts => (expandSpecific ctor conjuncts none).toList.map (·, hasGuard)
  | .literal (.bool value) => if ctor.name == boolName value || ctor.isDefault then [([], hasGuard)] else []
  | .tuple elements => if ctor.name == "()" || ctor.isDefault then [(elements, hasGuard)] else []
  | _ => []

def specializeMatrix (ctor : Constructor) (matrix : CoverageMatrix) : CoverageMatrix :=
  matrix.flatMap fun row =>
    match row.columns with
    | [] => []
    | first :: rest => (specializeColumn ctor row.hasGuard first).map fun (args, hasGuard) =>
      ⟨args ++ rest, row.originalIndex, hasGuard⟩

mutual

def matchesColCtor (ctor : Constructor) : PatternColumn → Bool
  | .wildcard => true
  | .constructor name _ => name == ctor.name
  | .literal (.bool value) => ctor.name == boolName value
  | .tuple _ => ctor.name == "()"
  | .guarded inner => matchesColCtor ctor inner
  | .or alts => matchesAnyCol ctor alts
  | _ => ctor.isDefault

def matchesAnyCol (ctor : Constructor) : List PatternColumn → Bool
  | [] => false
  | col :: cols => matchesColCtor ctor col || matchesAnyCol ctor cols

end

def expandColCtor (ctor : Constructor) : PatternColumn → List PatternColumn
  | .wildcard => wildcards ctor
  | .constructor _ args => args
  | .literal (.bool _) => []
  | .tuple elements => elements
  | .guarded inner => expandColCtor ctor inner
  | _ => []

/-- The arguments that a column other than an or-pattern or a guard has for a constructor. -/
def plainArguments (ctor : Constructor) : PatternColumn → Option (List PatternColumn)
  | .wildcard => some (wildcards ctor)
  | .constructor name args => if name == ctor.name then some args else none
  | .literal (.bool value) => if ctor.name == boolName value then some [] else none
  | .tuple elements => if ctor.name == "()" then some elements else none
  | _ => none

def specializeFirst (ctor : Constructor) (hasGuard : Bool) : PatternColumn → Option (List PatternColumn × Bool)
  | .guarded inner => (plainArguments ctor inner).map (·, true)
  | .or alts => (alts.find? (matchesColCtor ctor)).map fun alt => (expandColCtor ctor alt, hasGuard)
  | col => (plainArguments ctor col).map (·, hasGuard)

def specializeFirstColumn (ctor : Constructor) (matrix : CoverageMatrix) : CoverageMatrix :=
  matrix.filterMap fun row =>
    match row.columns with
    | [] => none
    | first :: rest => (specializeFirst ctor row.hasGuard first).map fun (args, hasGuard) =>
      ⟨args ++ rest, row.originalIndex, hasGuard⟩

/-- The first answer other than `true` of a check made for each constructor. -/
def allConstructors (check : Constructor → Option Bool) : List Constructor → Option Bool
  | [] => some true
  | ctor :: ctors =>
    match check ctor with
    | some true => allConstructors check ctors
    | answer => answer

/-- The recursion over the arguments of a constructor; `none` where the fuel runs out. -/
def isSpecializedMatrixExhaustive (env : TypeEnv) : Nat → CoverageMatrix → List Ty → Option Bool
  | 0, _, _ => none
  | fuel + 1, matrix, argTypes =>
    match argTypes with
    | [] => some (matrix.any fun row => !row.hasGuard)
    | firstTy :: restTypes =>
      if matrix.isEmpty then some (matrix.any fun row => !row.hasGuard)
      else if matrix.any fun row => !row.hasGuard && row.columns.all (·.isWildcard) then some true
      else
        let firstCtors := getTypeConstructors env firstTy
        if firstCtors.isInfinite then
          if matrix.any fun row => !row.hasGuard && (row.columns.head?.map (·.isWildcard)).getD false then
            isSpecializedMatrixExhaustive env fuel
              ((matrix.filter fun row => (row.columns.head?.map (·.isWildcard)).getD false).map
                fun row => ⟨row.columns.drop 1, row.originalIndex, row.hasGuard⟩) restTypes
          else some false
        else
          allConstructors (fun subCtor => isSpecializedMatrixExhaustive env fuel
            (specializeFirstColumn subCtor matrix) (subCtor.argTypes ++ restTypes)) firstCtors.constructors

def isConstructorCovered (env : TypeEnv) (fuel : Nat) (matrix : CoverageMatrix) (ctor : Constructor) : Option Bool :=
  let specialized := specializeMatrix ctor matrix
  if specialized.hasWildcardRow then some true
  else if ctor.argTypes.isEmpty then some (specialized.any fun row => !row.hasGuard)
  else isSpecializedMatrixExhaustive env fuel specialized ctor.argTypes

inductive Witness where
  | constructor (name : String) (args : List Witness)
  | literal (lit : LiteralPattern)
  | wildcard
  | tuple (elements : List Witness)

mutual

def coversBoolValue (value : Bool) : PatternColumn → Bool
  | .wildcard => true
  | .literal (.bool other) => other == value
  | .or alternatives => anyCoversBool value alternatives
  | .guarded inner => coversBoolValue value inner
  | _ => false

def anyCoversBool (value : Bool) : List PatternColumn → Bool
  | [] => false
  | col :: cols => coversBoolValue value col || anyCoversBool value cols

end

mutual

def coversConstructor (name : String) : PatternColumn → Bool
  | .wildcard => true
  | .constructor ctorName _ => ctorName == name
  | .or alternatives => anyCoversConstructor name alternatives
  | .guarded inner => coversConstructor name inner
  | _ => false

def anyCoversConstructor (name : String) : List PatternColumn → Bool
  | [] => false
  | col :: cols => coversConstructor name col || anyCoversConstructor name cols

end

/-- The literals and the ranges that a search for an integer keeps clear of, with a flag for wildcards. -/
structure NumericCoverage where
  values : List Int
  ranges : List (Int × Int)
  hasWildcard : Bool

namespace NumericCoverage

def none : NumericCoverage := ⟨[], [], false⟩

def addValue (coverage : NumericCoverage) (value : Int) : NumericCoverage :=
  { coverage with values := value :: coverage.values }

/-- An open end is the least or the greatest `i128`. -/
def addRange (coverage : NumericCoverage) (start finish : Option Int) (inclusive : Bool) : NumericCoverage :=
  let stop := if inclusive then finish.getD (2 ^ 127 - 1) else (finish.map (· - 1)).getD (2 ^ 127 - 1)
  { coverage with ranges := (start.getD (-2 ^ 127), stop) :: coverage.ranges }

def taken (coverage : NumericCoverage) (value : Int) : Bool :=
  coverage.values.contains value || coverage.ranges.any fun (start, stop) => start ≤ value && value ≤ stop

end NumericCoverage

mutual

def collectNumericCoverage : PatternColumn → NumericCoverage → NumericCoverage
  | .wildcard, coverage => { coverage with hasWildcard := true }
  | .literal (.int value), coverage => coverage.addValue value
  | .range start finish inclusive, coverage => coverage.addRange start finish inclusive
  | .or alternatives, coverage => collectEachNumeric alternatives coverage
  | .and conjuncts, coverage => collectEachNumeric conjuncts coverage
  | _, coverage => coverage

def collectEachNumeric : List PatternColumn → NumericCoverage → NumericCoverage
  | [], coverage => coverage
  | col :: cols, coverage => collectEachNumeric cols (collectNumericCoverage col coverage)

end

mutual

def collectIntegerCoverageFast : PatternColumn → NumericCoverage → NumericCoverage
  | .literal (.int value), coverage => coverage.addValue value
  | .range start finish inclusive, coverage => coverage.addRange start finish inclusive
  | .or alternatives, coverage => collectEachFast alternatives coverage
  | _, coverage => coverage

def collectEachFast : List PatternColumn → NumericCoverage → NumericCoverage
  | [], coverage => coverage
  | col :: cols, coverage => collectEachFast cols (collectIntegerCoverageFast col coverage)

end

/-- The search from a candidate on, each with its negative partner, for a number of turns. -/
def findFree (taken : Int → Bool) : Nat → Int → Int
  | 0, _ => 999999
  | turns + 1, candidate =>
    if !taken candidate then candidate
    else if !taken (-(candidate + 1)) then -(candidate + 1)
    else findFree taken turns (candidate + 1)

def NumericCoverage.findUncoveredIntValue (coverage : NumericCoverage) : Int := findFree coverage.taken 102 0

def findUncoveredInteger (patterns : List PatternColumn) : Int :=
  (collectEachFast patterns .none).findUncoveredIntValue

def tupleElement (idx : Nat) : PatternColumn → Option PatternColumn
  | .tuple elements => elements[idx]?
  | .wildcard => some .wildcard
  | _ => none

def extractTupleElement (patterns : List PatternColumn) (idx : Nat) : List PatternColumn :=
  patterns.filterMap (tupleElement idx)

def constructorArgument (ctorName : String) (argIdx : Nat) : PatternColumn → Option PatternColumn
  | .constructor name args => if name == ctorName then args[argIdx]? else none
  | .wildcard => some .wildcard
  | _ => none

def extractArgMatrix (matrix : CoverageMatrix) (ctorName : String) (argIdx : Nat) : List PatternColumn :=
  matrix.filterMap fun row => row.columns.head?.bind (constructorArgument ctorName argIdx)

mutual

def generateUncoveredWitness (env : TypeEnv) : Nat → Ty → List PatternColumn → Option Witness
  | 0, _, _ => none
  | fuel + 1, ty, covered =>
    match ty with
    | .bool =>
      if !covered.any (coversBoolValue true) then some (.literal (.bool true))
      else if !covered.any (coversBoolValue false) then some (.literal (.bool false))
      else some .wildcard
    | .int => some (.literal (.int (findUncoveredInteger covered)))
    | .unit => some (.literal (.text "()"))
    | .tuple elements =>
      (elements.zipIdx.mapM fun (elemTy, idx) =>
        generateUncoveredWitness env fuel elemTy (extractTupleElement covered idx)).map .tuple
    | .variant variants =>
      match variants.find? fun (name, _) => !covered.any (coversConstructor name) with
      | some (name, variantTy) => some (.constructor name (if variantTy.isUnit then [] else [.wildcard]))
      | none => some .wildcard
    | .named name =>
      match (getTypeConstructors env (.named name)).constructors.find? fun ctor =>
          !covered.any (coversConstructor ctor.name) && !ctor.isDefault with
      | some ctor => generateWitnessForConstructor env fuel ctor []
      | none => some .wildcard
    | .never => some .wildcard

def generateWitnessForConstructor (env : TypeEnv) : Nat → Constructor → CoverageMatrix → Option Witness
  | 0, _, _ => none
  | fuel + 1, ctor, matrix =>
    if ctor.argTypes.isEmpty then some (.constructor ctor.name [])
    else
      (ctor.argTypes.zipIdx.mapM fun (argTy, idx) =>
        generateUncoveredWitness env fuel argTy (extractArgMatrix matrix ctor.name idx)).map
          (.constructor ctor.name)

end

def generateAnyWitness (env : TypeEnv) (fuel : Nat) (ty : Ty) : Option Witness :=
  match (getTypeConstructors env ty).constructors with
  | [] => some .wildcard
  | first :: _ => generateWitnessForConstructor env fuel first []

/-- The Boolean values that a column covers, added to those covered before. -/
structure BoolCoverage where
  coversTrue : Bool
  coversFalse : Bool

mutual

def checkBoolCoverage : PatternColumn → BoolCoverage → BoolCoverage
  | .wildcard, _ => ⟨true, true⟩
  | .literal (.bool true), coverage => { coverage with coversTrue := true }
  | .literal (.bool false), coverage => { coverage with coversFalse := true }
  | .constructor name _, coverage =>
    if name == "true" then { coverage with coversTrue := true }
    else if name == "false" then { coverage with coversFalse := true }
    else coverage
  | .or alternatives, coverage => checkEachBool alternatives coverage
  | .and conjuncts, coverage => checkEachBool conjuncts coverage
  | _, coverage => coverage

def checkEachBool : List PatternColumn → BoolCoverage → BoolCoverage
  | [], coverage => coverage
  | col :: cols, coverage => checkEachBool cols (checkBoolCoverage col coverage)

end

/-- The first columns of the rows that no guard holds back. -/
def CoverageMatrix.unguarded (matrix : CoverageMatrix) : List PatternColumn :=
  matrix.filterMap fun row => if row.hasGuard then none else row.columns.head?

def findUncoveredBool (matrix : CoverageMatrix) : List Witness :=
  let coverage := checkEachBool matrix.unguarded ⟨false, false⟩
  (if coverage.coversTrue then [] else [.literal (.bool true)]) ++
    if coverage.coversFalse then [] else [.literal (.bool false)]

def findUncoveredNumeric (matrix : CoverageMatrix) : List Witness :=
  let coverage := collectEachNumeric matrix.unguarded .none
  if coverage.hasWildcard then [] else [.literal (.int coverage.findUncoveredIntValue)]

/-- The witnesses for the constructors that are not covered. -/
def uncoveredConstructors (env : TypeEnv) (fuel : Nat) (matrix : CoverageMatrix) :
    List Constructor → Option (List Witness)
  | [] => some []
  | ctor :: ctors => do
    let covered ← isConstructorCovered env fuel matrix ctor
    if covered then uncoveredConstructors env fuel matrix ctors
    else
      let witness ← generateWitnessForConstructor env fuel ctor matrix
      let witnesses ← uncoveredConstructors env fuel matrix ctors
      some (witness :: witnesses)

def findUncoveredTuple (env : TypeEnv) (fuel : Nat) (matrix : CoverageMatrix) (elements : List Ty) :
    Option (List Witness) :=
  if elements.isEmpty then
    if matrix.any fun row => !row.hasGuard then some [] else some [.tuple []]
  else uncoveredConstructors env fuel matrix (getTypeConstructors env (.tuple elements)).constructors

def findUncoveredCases (env : TypeEnv) (fuel : Nat) (matrix : CoverageMatrix) (scrutineeTy : Ty) :
    Option (List Witness) :=
  if matrix.hasWildcardRow then some []
  else
    match scrutineeTy with
    | .bool => some (findUncoveredBool matrix)
    | .int => some (findUncoveredNumeric matrix)
    | .tuple elements => findUncoveredTuple env fuel matrix elements
    | ty => uncoveredConstructors env fuel matrix (getTypeConstructors env ty).constructors

structure ExhaustivenessResult where
  isExhaustive : Bool
  uncoveredWitnesses : List Witness

/-- With the default configuration: three witnesses at most and no solver for guards. -/
def checkExhaustiveness (env : TypeEnv) (fuel : Nat) (patterns : List Pattern) (scrutineeTy : Ty) :
    Option ExhaustivenessResult :=
  if patterns.isEmpty then
    if (getTypeConstructors env scrutineeTy).isEmpty then some ⟨true, []⟩
    else (generateAnyWitness env fuel scrutineeTy).map fun witness => ⟨false, [witness]⟩
  else
    (findUncoveredCases env fuel (buildMatrix patterns) scrutineeTy).map fun uncovered =>
      ⟨(uncovered.take 3).isEmpty, uncovered.take 3⟩

end Exhaustiveness
