import Verum.Exhaustiveness.Unmatched

open List

namespace Exhaustiveness

open Bool

def Unmatched (patterns : List Pattern) (value : Value) : Prop :=
  ∀ pattern ∈ patterns, pattern.matches true value = false

theorem Pattern.allLiterals_mem {patterns : List Pattern} {pat : Pattern} (mem : pat ∈ patterns) :
    ∀ lit ∈ pat.literals, lit ∈ Pattern.allLiterals patterns := by
  induction patterns with
  | nil => cases mem
  | cons fst patterns ih =>
    intro lit hin
    rcases mem_cons.mp mem with rfl | hl
    · exact mem_append_left _ hin
    · exact mem_append_right _ (ih hl lit hin)

theorem unmatched_of_uncovered {patterns : List Pattern} {v : Value}
    (honest : v.eachInt (Honest (Pattern.allLiterals patterns)))
    (uncovered : ∀ pat ∈ patterns, (patternToColumn pat).covers true v = false) :
    Unmatched patterns v := by
  intro pat mem
  by_contra matched
  rw [not_eq_false] at matched
  have covers := covers_of_matches pat (Pattern.allLiterals_mem mem) honest matched
  rw [uncovered pat mem] at covers
  cases covers

theorem honest_of_small (literals : List Int) : ∀ i, -102 ≤ i → i ≤ 999999 → Honest literals i :=
  fun _ low high _ => toI64_small low high

theorem honest_of_fresh (literals : List Int) : ∀ i, i ∉ literals → Honest literals i :=
  fun _ other hin => absurd hin other

/-- A witness that describes a value of the type that no pattern matches. -/
def Witness.Real (ty : Ty) (patterns : List Pattern) (witness : Witness) : Prop :=
  ∃ value, ty.admits value = true ∧ witness.describes value = true ∧ Unmatched patterns value

def BoolCoverage.get (coverage : BoolCoverage) (value : Bool) : Bool :=
  if value then coverage.coversTrue else coverage.coversFalse

mutual

theorem checkBoolCoverage_keeps (column : PatternColumn) {coverage : BoolCoverage} {v : Bool}
    (covered : coverage.get v = true) : (checkBoolCoverage column coverage).get v = true := by
  match column with
  | .wildcard => cases v <;> rfl
  | .literal (.bool true) => cases v <;> first | exact covered | rfl
  | .literal (.bool false) => cases v <;> first | exact covered | rfl
  | .literal (.int _) => exact covered
  | .literal (.text _) => exact covered
  | .constructor name _ =>
    unfold checkBoolCoverage
    split
    · cases v <;> first | exact covered | rfl
    · split
      · cases v <;> first | exact covered | rfl
      · exact covered
  | .or alternatives => exact checkEachBool_keeps alternatives covered
  | .and conjuncts => exact checkEachBool_keeps conjuncts covered
  | .guarded _ => exact covered
  | .tuple _ => exact covered
  | .range _ _ _ => exact covered

theorem checkEachBool_keeps (cols : List PatternColumn) {coverage : BoolCoverage} {v : Bool}
    (covered : coverage.get v = true) : (checkEachBool cols coverage).get v = true := by
  match cols with
  | [] => exact covered
  | col :: cols => exact checkEachBool_keeps cols (checkBoolCoverage_keeps col covered)

end

mutual

theorem checkBoolCoverage_covers (col : PatternColumn) {coverage : BoolCoverage} {v : Bool}
    (plain : col.plain = true) (covers : col.covers true (.bool v) = true) :
    (checkBoolCoverage col coverage).get v = true := by
  match col with
  | .wildcard => cases v <;> rfl
  | .literal (.bool other) =>
    have eq : other = v := beq_iff_eq.mp covers
    subst eq
    cases other <;> rfl
  | .literal (.int _) | .literal (.text _) | .constructor _ _ | .tuple _ => cases covers
  | .or alts => exact checkEachBool_covers alts plain covers
  | .range _ _ _ | .and _ | .guarded _ => cases plain

theorem checkEachBool_covers (cols : List PatternColumn) {coverage : BoolCoverage} {v : Bool}
    (plain : PatternColumn.allPlain cols = true)
    (covers : PatternColumn.coversAny true cols (.bool v) = true) :
    (checkEachBool cols coverage).get v = true := by
  match cols with
  | [] => cases covers
  | col :: cols =>
    have parts : (col.plain && PatternColumn.allPlain cols) = true := plain
    rw [and_eq_true] at parts
    unfold PatternColumn.coversAny at covers
    rw [or_eq_true] at covers
    rcases covers with here | hl
    · exact checkEachBool_keeps cols (checkBoolCoverage_covers col parts.1 here)
    · exact checkEachBool_covers cols parts.2 hl

end

mutual

theorem collectNumericCoverage_taken (col : PatternColumn) {coverage : NumericCoverage} {v : Int}
    (plain : col.plain = true) (free : (collectNumericCoverage col coverage).taken v = false) :
    coverage.taken v = false := by
  match col with
  | .wildcard | .literal (.bool _) | .literal (.text _) | .constructor _ _ | .tuple _ => exact free
  | .literal (.int other) =>
    rw [collectNumericCoverage, NumericCoverage.taken, or_eq_false_iff] at free
    rw [NumericCoverage.taken, or_eq_false_iff]
    have notMem : (other :: coverage.values).contains v = false := free.1
    rw [contains_cons, or_eq_false_iff] at notMem
    exact ⟨notMem.2, free.2⟩
  | .or alts => exact collectEachNumeric_taken alts plain free
  | .range _ _ _ | .and _ | .guarded _ => cases plain

theorem collectEachNumeric_taken (cols : List PatternColumn) {coverage : NumericCoverage} {v : Int}
    (plain : PatternColumn.allPlain cols = true)
    (free : (collectEachNumeric cols coverage).taken v = false) : coverage.taken v = false := by
  match cols with
  | [] => exact free
  | col :: cols =>
    have parts : (col.plain && PatternColumn.allPlain cols) = true := plain
    rw [and_eq_true] at parts
    exact collectNumericCoverage_taken col parts.1 (collectEachNumeric_taken cols parts.2 free)

end

mutual

theorem hasWildcard_of_covers (col : PatternColumn) {coverage : NumericCoverage} {v : Int}
    (plain : col.plain = true) (free : (collectNumericCoverage col coverage).taken v = false)
    (covers : col.covers true (.int v) = true) :
    (collectNumericCoverage col coverage).hasWildcard = true := by
  match col with
  | .wildcard => rfl
  | .literal (.int lit) =>
    have eq : lit = v := beq_iff_eq.mp covers
    subst eq
    rw [collectNumericCoverage, NumericCoverage.taken, or_eq_false_iff] at free
    have notMem : (lit :: coverage.values).contains lit = false := free.1
    rw [contains_cons, beq_self_eq_true, Bool.true_or] at notMem
    cases notMem
  | .literal (.bool _) | .literal (.text _) | .constructor _ _ | .tuple _ => cases covers
  | .or alts => exact hasWildcard_of_coversAny alts plain free covers
  | .range _ _ _ | .and _ | .guarded _ => cases plain

theorem hasWildcard_of_coversAny (cols : List PatternColumn) {coverage : NumericCoverage} {v : Int}
    (plain : PatternColumn.allPlain cols = true)
    (free : (collectEachNumeric cols coverage).taken v = false)
    (covers : PatternColumn.coversAny true cols (.int v) = true) :
    (collectEachNumeric cols coverage).hasWildcard = true := by
  match cols with
  | [] => cases covers
  | col :: cols =>
    have parts : (col.plain && PatternColumn.allPlain cols) = true := plain
    rw [and_eq_true] at parts
    unfold PatternColumn.coversAny at covers
    rw [or_eq_true] at covers
    rcases covers with here | hl
    · have freeHere := collectEachNumeric_taken cols parts.2 free
      exact collectEachNumeric_keeps cols (hasWildcard_of_covers col parts.1 freeHere here)
    · exact hasWildcard_of_coversAny cols parts.2 free hl

end

theorem unguarded_plain {patterns : List Pattern} (plain : ∀ pat ∈ patterns, pat.plain = true) :
    PatternColumn.allPlain (CoverageMatrix.unguarded (buildMatrix patterns)) = true := by
  have each : ∀ cols : List PatternColumn, (∀ col ∈ cols, col.plain = true) →
      PatternColumn.allPlain cols = true := by
    intro cols
    induction cols with
    | nil => exact fun _ => rfl
    | cons col cols ih =>
      intro all
      show (col.plain && PatternColumn.allPlain cols) = true
      rw [all col (.head _), ih fun c mem => all c (.tail _ mem)]
      rfl
  apply each
  intro col mem
  rcases mem_filterMap.mp mem with ⟨row, hin, hit⟩
  rcases mem_buildMatrix plain hin with ⟨pat, hw, idx, rfl⟩
  cases hit
  exact (Pattern.plain_column pat (plain pat hw)).1

theorem coversAny_unguarded {patterns : List Pattern} (plain : ∀ pat ∈ patterns, pat.plain = true)
    {pat : Pattern} (mem : pat ∈ patterns) {v : Value}
    (covers : (patternToColumn pat).covers true v = true) :
    PatternColumn.coversAny true (CoverageMatrix.unguarded (buildMatrix patterns)) v = true :=
  coversAny_mem.mpr ⟨_, mem_unguarded plain mem, covers⟩

theorem findUncoveredBool_real {patterns : List Pattern} (plain : ∀ pat ∈ patterns, pat.plain = true)
    {witness : Witness} (mem : witness ∈ findUncoveredBool (buildMatrix patterns)) :
    witness.Real .bool patterns := by
  let coverage := checkEachBool (CoverageMatrix.unguarded (buildMatrix patterns)) ⟨false, false⟩
  have real : ∀ {v : Bool}, coverage.get v = false →
      (Witness.literal (.bool v)).Real .bool patterns := by
    intro v missing
    refine ⟨.bool v, rfl, beq_self_eq_true v, unmatched_of_uncovered trivial ?_⟩
    intro pat hin
    by_contra covers
    rw [not_eq_false] at covers
    have covered : coverage.get v = true :=
      checkEachBool_covers _ (unguarded_plain plain) (coversAny_unguarded plain hin covers)
    rw [missing] at covered
    cases covered
  rcases mem_append.mp mem with fst | snd
  · split at fst
    · cases fst
    · next missing =>
      rw [mem_singleton.mp fst]
      rw [not_eq_true] at missing
      exact real missing
  · split at snd
    · cases snd
    · next missing =>
      rw [mem_singleton.mp snd]
      rw [not_eq_true] at missing
      exact real missing

theorem findUncoveredNumeric_real {patterns : List Pattern} (plain : ∀ pat ∈ patterns, pat.plain = true)
    (room : (collectEachNumeric (CoverageMatrix.unguarded (buildMatrix patterns)) .none).hasWildcard = true ∨
      FreeCandidate (collectEachNumeric (CoverageMatrix.unguarded (buildMatrix patterns)) .none).taken)
    {witness : Witness} (mem : witness ∈ findUncoveredNumeric (buildMatrix patterns)) :
    witness.Real .int patterns := by
  unfold findUncoveredNumeric at mem
  dsimp only at mem
  split at mem
  · cases mem
  · next bare =>
    rw [mem_singleton.mp mem]
    have free := (room.resolve_left bare).found
    have hr := findUncoveredIntValue_range
      (collectEachNumeric (CoverageMatrix.unguarded (buildMatrix patterns)) .none)
    refine ⟨.int _, rfl, beq_self_eq_true _, unmatched_of_uncovered (honest_of_small _ _ hr.1 hr.2) ?_⟩
    intro pat hin
    by_contra covers
    rw [not_eq_false] at covers
    exact bare (hasWildcard_of_coversAny _ (unguarded_plain plain) free (coversAny_unguarded plain hin covers))

mutual

/-- The values with `true`, `0` and the first variant throughout. -/
def Ty.firstChoice : Ty → Value → Bool
  | .bool, .bool value => value
  | .int, .int value => value == 0
  | .tuple elements, .tuple values => Ty.firstChoices elements values
  | .variant ((name, ty) :: _), .variant actual payload => actual == name && ty.admits payload
  | _, _ => false

def Ty.firstChoices : List Ty → List Value → Bool
  | [], [] => true
  | ty :: tys, value :: values => ty.firstChoice value && Ty.firstChoices tys values
  | _, _ => false

end

def CoveredAtOnce (patterns : List Pattern) (ctor : Constructor) : Prop :=
  (specializeMatrix ctor (buildMatrix patterns)).hasWildcardRow = true

/-- The rows left for the constructor have one column for its argument, with or-patterns that are kept. -/
def KeptFor (patterns : List Pattern) (ctor : Constructor) : Prop :=
  ∀ row ∈ specializeMatrix ctor (buildMatrix patterns), keptAll (fun _ => false) row.columns ctor.argTypes = true

/-- An or-pattern at the top with the constructor among its alternatives. -/
def PatternColumn.hides (name : String) : PatternColumn → Bool
  | .or alternatives => alternatives.any fun
    | .constructor other _ => other == name
    | _ => false
  | _ => false

/-- The inputs on which the gaps and the witnesses that are reported are real. -/
def WellReported (patterns : List Pattern) : Ty → Prop
  | .bool => True
  | .int =>
    (collectEachNumeric (CoverageMatrix.unguarded (buildMatrix patterns)) .none).hasWildcard = true ∨
      FreeCandidate (collectEachNumeric (CoverageMatrix.unguarded (buildMatrix patterns)) .none).taken
  | .tuple elements =>
    elements = [] ∨ CoveredAtOnce patterns (.withArgs "()" elements) ∨
      (KeptFor patterns (.withArgs "()" elements) ∧
        ∀ value, (Ty.tuple elements).admits value = true → ¬ Unmatched patterns value) ∨
      ∃ value, (Ty.tuple elements).admits value = true ∧ (Ty.tuple elements).firstChoice value = true ∧
        Unmatched patterns value
  | .variant variants =>
    ∀ v ∈ variants, v.2.isUnit = true ∨ CoveredAtOnce patterns (.ofVariant v) ∨
      KeptFor patterns (.ofVariant v) ∧
        ((∀ payload, v.2.admits payload = true → ¬ Unmatched patterns (.variant v.1 payload)) ∨
          (∀ pattern ∈ patterns, (patternToColumn pattern).hides v.1 = false) ∧
            Roomy v.2 (extractArgMatrix (buildMatrix patterns) v.1 0))
  | _ => False

theorem uncoveredConstructors_mem {env : TypeEnv} {fuel : Nat} {matrix : CoverageMatrix} {ctors : List Constructor}
    {witnesses : List Witness} (ran : uncoveredConstructors env fuel matrix ctors = some witnesses)
    {witness : Witness} (mem : witness ∈ witnesses) :
    ∃ ctor ∈ ctors, isConstructorCovered env fuel matrix ctor = some false ∧
      generateWitnessForConstructor env fuel ctor matrix = some witness := by
  induction ctors generalizing witnesses with
  | nil =>
    cases ran
    cases mem
  | cons ctor ctors ih =>
    unfold uncoveredConstructors at ran
    rcases Option.bind_eq_some_iff.mp ran with ⟨covered, checked, ran⟩
    split at ran
    · rcases ih ran mem with ⟨other, hin, hit⟩
      exact ⟨other, .tail _ hin, hit⟩
    · next open' =>
      rcases Option.bind_eq_some_iff.mp ran with ⟨fst, made, ran⟩
      rcases Option.bind_eq_some_iff.mp ran with ⟨rest, hl, ran⟩
      cases ran
      rcases mem_cons.mp mem with rfl | behind
      · rw [not_eq_true] at open'
        rw [open'] at checked
        exact ⟨ctor, .head _, checked, made⟩
      · rcases ih hl behind with ⟨other, hin, hit⟩
        exact ⟨other, .tail _ hin, hit⟩

theorem isConstructorCovered_once {env : TypeEnv} {fuel : Nat} {patterns : List Pattern} {ctor : Constructor}
    (once : CoveredAtOnce patterns ctor) :
    isConstructorCovered env fuel (buildMatrix patterns) ctor = some true := by
  unfold isConstructorCovered
  dsimp only
  exact if_pos once

theorem firstChoices_described {gen : Ty → List PatternColumn → Option Witness}
    (step : ∀ {ty : Ty}, ∀ {witness : Witness}, gen ty [] = some witness →
      ∀ {v : Value}, ty.firstChoice v = true → witness.describes v = true)
    {elems : List Ty} {idx : Nat} {witnesses : List Witness}
    (made : ((elems.zipIdx idx).mapM fun (ty, _) => gen ty []) = some witnesses) {vs : List Value}
    (chosen : Ty.firstChoices elems vs = true) : Witness.describesAll witnesses vs = true := by
  induction elems generalizing idx witnesses vs with
  | nil =>
    cases vs with
    | nil =>
      cases made
      rfl
    | cons v vs => cases chosen
  | cons ty elems ih =>
    cases vs with
    | nil => cases chosen
    | cons v vs =>
      rw [zipIdx_cons, mapM_cons] at made
      rcases Option.bind_eq_some_iff.mp made with ⟨witness, fst, made⟩
      rcases Option.bind_eq_some_iff.mp made with ⟨rest, hl, made⟩
      cases made
      unfold Ty.firstChoices at chosen
      rw [and_eq_true] at chosen
      unfold Witness.describesAll
      rw [step fst chosen.1, ih hl chosen.2]
      rfl

theorem firstChoice_described {env : TypeEnv} (fuel : Nat) {ty : Ty} {witness : Witness}
    (made : generateUncoveredWitness env fuel ty [] = some witness) {v : Value}
    (chosen : ty.firstChoice v = true) : witness.describes v = true := by
  induction fuel generalizing ty witness v with
  | zero => cases made
  | succ fuel ih =>
    cases ty with
    | unit | never | named name => cases chosen
    | bool =>
      cases v with
      | bool flag =>
        cases made
        rw [show flag = true from chosen]
        rfl
      | _ => cases chosen
    | int =>
      cases v with
      | int num =>
        cases made
        rw [beq_iff_eq.mp (show (num == 0) = true from chosen)]
        rfl
      | _ => cases chosen
    | tuple elems =>
      cases v with
      | tuple vs =>
        rw [generateUncoveredWitness] at made
        rcases Option.map_eq_some_iff.mp made with ⟨witnesses, hit, rfl⟩
        exact firstChoices_described ih hit chosen
      | _ => cases chosen
    | variant variants =>
      cases variants with
      | nil => cases chosen
      | cons fst variants =>
        cases v with
        | variant actual pl =>
          have parts : (actual == fst.1 && fst.2.admits pl) = true := chosen
          rw [and_eq_true] at parts
          cases made
          show (fst.1 == actual && _) = true
          rw [beq_iff_eq.mp parts.1, beq_self_eq_true, Bool.true_and]
          cases unit : fst.2.isUnit with
          | true =>
            have none : pl = .tuple [] := Ty.admits_unit unit parts.2
            subst none
            rfl
          | false => rfl
        | _ => cases chosen

theorem extractArgMatrix_tuple {patterns : List Pattern} (plain : ∀ pat ∈ patterns, pat.plain = true)
    (bare : CoverageMatrix.hasWildcardRow (buildMatrix patterns) = false) (idx : Nat) :
    extractArgMatrix (buildMatrix patterns) "()" idx = [] := by
  apply filterMap_eq_nil_iff.mpr
  intro row mem
  rcases mem_buildMatrix plain mem with ⟨pat, hw, i, rfl⟩
  have plainColumn := (Pattern.plain_column pat (plain pat hw)).1
  have front := any_eq_false.mp bare _ mem
  show constructorArgument "()" idx (patternToColumn pat) = none
  cases shape : patternToColumn pat with
  | wildcard =>
    rw [shape] at front
    exact absurd rfl front
  | constructor name args =>
    rw [shape] at plainColumn
    have parts : (name != "()" && PatternColumn.allPlain args) = true := plainColumn
    rw [and_eq_true] at parts
    show (if name == "()" then args[idx]? else none) = none
    rw [if_neg fun eq => by simp [beq_iff_eq.mp eq] at parts]
  | _ => rfl

theorem tuple_real {env : TypeEnv} {fuel : Nat} {elems : List Ty} (wf : (Ty.tuple elems).Formed)
    (several : elems ≠ []) {patterns : List Pattern} (plain : ∀ pat ∈ patterns, pat.plain = true)
    (bare : CoverageMatrix.hasWildcardRow (buildMatrix patterns) = false)
    (well : WellReported patterns (.tuple elems))
    (gap : isConstructorCovered env fuel (buildMatrix patterns) (.withArgs "()" elems) = some false)
    {witness : Witness}
    (made : generateWitnessForConstructor env fuel (.withArgs "()" elems) (buildMatrix patterns) = some witness) :
    witness.Real (.tuple elems) patterns := by
  have mem : Constructor.withArgs "()" elems ∈ (getTypeConstructors env (.tuple elems)).constructors :=
    mem_singleton.mpr rfl
  rcases well with none | once | ⟨hk, matched⟩ | ⟨v, hf, chosen, unmatched⟩
  · exact absurd none several
  · rw [isConstructorCovered_once once] at gap
    cases gap
  · rcases uncovered_constructor wf rfl mem plain (Pattern.allLiterals patterns) (.inr hk) gap with
      ⟨args, hf, ints, uncovered⟩
    have admitted := Ty.build_admits wf mem rfl hf
    have honest := Value.eachInt_mono (honest_of_fresh (Pattern.allLiterals patterns))
      ((Ty.tuple elems).build (.withArgs "()" elems) args) (Ty.build_eachInt ints)
    exact absurd (unmatched_of_uncovered honest uncovered) (matched _ admitted)
  · refine ⟨v, hf, ?_, unmatched⟩
    cases fuel with
    | zero => cases made
    | succ fuel =>
      rw [generateWitnessForConstructor] at made
      split at made
      · next none => exact absurd (isEmpty_iff.mp none) several
      · rcases Option.map_eq_some_iff.mp made with ⟨witnesses, hit, rfl⟩
        simp only [Constructor.withArgs, extractArgMatrix_tuple plain bare] at hit
        cases v with
        | tuple vs => exact firstChoices_described (firstChoice_described fuel) hit chosen
        | _ => cases hf

theorem extractArgMatrix_kept {patterns : List Pattern} (plain : ∀ pat ∈ patterns, pat.plain = true)
    {v : String × Ty} (pl : v.2.isUnit = false) (hk : KeptFor patterns (.ofVariant v)) :
    ∀ col ∈ extractArgMatrix (buildMatrix patterns) v.1 0, kept (fun _ => false) col v.2 = true := by
  intro col mem
  rcases mem_filterMap.mp mem with ⟨row, hin, hit⟩
  rcases mem_buildMatrix plain hin with ⟨pat, hw, idx, rfl⟩
  have hit : constructorArgument v.1 0 (patternToColumn pat) = some col := hit
  cases shape : patternToColumn pat with
  | wildcard =>
    rw [shape] at hit
    cases hit
    exact kept_wildcard v.2
  | constructor name args =>
    rw [shape] at hit
    have picked : (if name == v.1 then args[0]? else none) = some col := hit
    split at picked
    · next eq =>
      have left : (args, false) ∈ specializeColumn (.ofVariant v) false (patternToColumn pat) := by
        rw [shape]
        show (args, false) ∈ if name == (Constructor.ofVariant v).name then [(args, false)] else []
        rw [Constructor.ofVariant_name, if_pos eq]
        exact mem_singleton.mpr rfl
      rcases mem_specializeMatrix plain hw left with ⟨idx, row⟩
      have keepsArgs := hk _ row
      rw [Constructor.ofVariant_payload pl] at keepsArgs
      cases args with
      | nil => cases picked
      | cons fst args =>
        cases picked
        have parts : (kept (fun _ => false) col v.2 && keptAll (fun _ => false) args []) = true := keepsArgs
        rw [and_eq_true] at parts
        exact parts.1
    · cases picked
  | _ =>
    rw [shape] at hit
    cases hit

theorem payload_uncovered {patterns : List Pattern}
    (plain : ∀ pat ∈ patterns, pat.plain = true) {variants : List (String × Ty)}
    (wf : (Ty.variant variants).Formed) {v : String × Ty} (inside : v ∈ variants) (pl : v.2.isUnit = false)
    (keeps : KeptFor patterns (.ofVariant v)) {pat : Pattern} (within : pat ∈ patterns)
    (open' : (patternToColumn pat).hides v.1 = false) {value other : Value}
    (uncovered : (patternToColumn pat).covers true (.variant v.1 value) = false)
    (fewer : ∀ col ∈ extractArgMatrix (buildMatrix patterns) v.1 0, col.covers true other = true →
      col.covers true value = true) :
    (patternToColumn pat).covers true (.variant v.1 other) = false := by
  by_contra covers
  rw [not_eq_false] at covers
  have plainColumn := (Pattern.plain_column pat (plain pat within)).1
  have mem : Constructor.ofVariant v ∈ (getTypeConstructors (fun _ => none) (.variant variants)).constructors :=
    mem_map.mpr ⟨v, inside, rfl⟩
  cases shape : patternToColumn pat with
  | wildcard =>
    rw [shape] at uncovered
    simp [PatternColumn.covers] at uncovered
  | range _ _ _ | and _ | guarded _ =>
    rw [shape] at plainColumn
    cases plainColumn
  | literal lit =>
    rw [shape] at covers
    cases lit <;> cases covers
  | tuple _ =>
    rw [shape] at covers
    cases covers
  | constructor name args =>
    rw [shape] at covers uncovered
    unfold PatternColumn.covers at covers uncovered
    rw [and_eq_true] at covers
    have left : (args, false) ∈ specializeColumn (.ofVariant v) false (patternToColumn pat) := by
      rw [shape]
      show (args, false) ∈ if name == (Constructor.ofVariant v).name then [(args, false)] else []
      rw [Constructor.ofVariant_name, if_pos covers.1]
      exact mem_singleton.mpr rfl
    rcases mem_specializeMatrix plain within left with ⟨idx, row⟩
    have length := keptAll_length (keeps _ row)
    rw [Constructor.ofVariant_payload pl] at length
    rcases length_eq_one_iff.mp (show args.length = 1 from length) with ⟨col, rfl⟩
    have among : col ∈ extractArgMatrix (buildMatrix patterns) v.1 0 := by
      rcases buildMatrix_mem plain within with ⟨at', built⟩
      refine mem_filterMap.mpr ⟨_, built, ?_⟩
      show constructorArgument v.1 0 (patternToColumn pat) = some col
      rw [shape]
      show (if name == v.1 then [col][0]? else none) = some col
      rw [if_pos covers.1]
      rfl
    have here : (col.covers true other && true) = true := covers.2
    rw [Bool.and_true] at here
    have missed : (name == v.1 && (col.covers true value && true)) = false := uncovered
    rw [covers.1, fewer col among here] at missed
    cases missed
  | or alts =>
    rw [shape] at covers uncovered plainColumn open'
    rcases coversAny_mem.mp covers with ⟨alt, among, covered⟩
    have plainAlt := PatternColumn.allPlain_mem plainColumn among
    have missed : alt.covers true (.variant v.1 value) = false :=
      eq_false_iff.mpr fun here => by
        rw [show PatternColumn.covers true (.or alts) (.variant v.1 value) = true from
          coversAny_mem.mpr ⟨alt, among, here⟩] at uncovered
        cases uncovered
    cases alt with
    | wildcard => simp [PatternColumn.covers] at missed
    | range _ _ _ | and _ | guarded _ => cases plainAlt
    | literal lit => cases lit <;> cases covered
    | tuple _ => cases covered
    | constructor name args =>
      unfold PatternColumn.covers at covered
      rw [and_eq_true] at covered
      exact absurd covered.1 (any_eq_false.mp open' _ among)
    | or nested =>
      -- such an alternative leaves a row without columns
      have made : Ty.build (.variant variants) (.ofVariant v) [other] = .variant v.1 other := by
        show Value.variant (Constructor.ofVariant v).name other = _
        rw [Constructor.ofVariant_name]
      have matching : matchesConstructor (.ofVariant v) (.or nested) = true :=
        matchesConstructor_of_covers wf rfl mem _ plainAlt (by rw [made]; exact covered)
      have left : ([], false) ∈ specializeColumn (.ofVariant v) false (patternToColumn pat) := by
        rw [shape]
        exact mem_map.mpr ⟨.or nested, mem_filter.mpr ⟨among, matching⟩, rfl⟩
      rcases mem_specializeMatrix plain within left with ⟨idx, row⟩
      have length := keptAll_length (keeps _ row)
      rw [Constructor.ofVariant_payload pl] at length
      cases length

section

variable {env : TypeEnv} {fuel : Nat} {variants : List (String × Ty)} {patterns : List Pattern} {v : String × Ty}
  {witness : Witness}

theorem unit_real (wf : (Ty.variant variants).Formed) (plain : ∀ pat ∈ patterns, pat.plain = true)
    (hin : v ∈ variants) (unit : v.2.isUnit = true)
    (gap : isConstructorCovered env fuel (buildMatrix patterns) (.ofVariant v) = some false)
    (made : generateWitnessForConstructor env fuel (.ofVariant v) (buildMatrix patterns) = some witness) :
    witness.Real (.variant variants) patterns := by
  have mem : Constructor.ofVariant v ∈ (getTypeConstructors env (.variant variants)).constructors :=
    mem_map.mpr ⟨v, hin, rfl⟩
  have none : (Constructor.ofVariant v).argTypes = [] := by
    rw [Constructor.ofVariant_unit unit]
    rfl
  rcases uncovered_constructor wf rfl mem plain (Pattern.allLiterals patterns) (.inl none) gap with
    ⟨args, hf, ints, missed⟩
  rw [none] at hf
  have noArgs : args = [] := length_eq_zero_iff.mp (Ty.admitsAll_length hf)
  subst noArgs
  have built : Ty.build (.variant variants) (.ofVariant v) [] = .variant v.1 (.tuple []) := by
    show Value.variant (Constructor.ofVariant v).name (.tuple []) = _
    rw [Constructor.ofVariant_name]
  rw [built] at missed
  refine ⟨.variant v.1 (.tuple []), ?_, ?_, unmatched_of_uncovered trivial missed⟩
  · exact Ty.admitsVariant_of_mem hin (Ty.isUnit_admits unit rfl)
  · cases fuel with
    | zero => cases made
    | succ fuel =>
      rw [generateWitnessForConstructor, Constructor.ofVariant_unit unit] at made
      cases made
      show (v.1 == v.1 && true) = true
      rw [beq_self_eq_true]
      rfl

theorem payload_real (wf : (Ty.variant variants).Formed) (plain : ∀ pat ∈ patterns, pat.plain = true)
    (hin : v ∈ variants) (pl : v.2.isUnit = false) (hk : KeptFor patterns (.ofVariant v))
    (well : (∀ value, v.2.admits value = true → ¬ Unmatched patterns (.variant v.1 value)) ∨
      (∀ pat ∈ patterns, (patternToColumn pat).hides v.1 = false) ∧
        Roomy v.2 (extractArgMatrix (buildMatrix patterns) v.1 0))
    (gap : isConstructorCovered env fuel (buildMatrix patterns) (.ofVariant v) = some false)
    (made : generateWitnessForConstructor env fuel (.ofVariant v) (buildMatrix patterns) = some witness) :
    witness.Real (.variant variants) patterns := by
  have mem : Constructor.ofVariant v ∈ (getTypeConstructors env (.variant variants)).constructors :=
    mem_map.mpr ⟨v, hin, rfl⟩
  rcases uncovered_constructor wf rfl mem plain (Pattern.allLiterals patterns) (.inr hk) gap with
    ⟨args, hf, ints, missed⟩
  rw [Constructor.ofVariant_payload pl] at hf
  have length : args.length = 1 := Ty.admitsAll_length hf
  rcases length_eq_one_iff.mp length with ⟨value, rfl⟩
  have built : Ty.build (.variant variants) (.ofVariant v) [value] = .variant v.1 value := by
    show Value.variant (Constructor.ofVariant v).name value = _
    rw [Constructor.ofVariant_name]
  rw [built] at missed
  have fitsHere : (v.2.admits value && true) = true := hf
  rw [Bool.and_true] at fitsHere
  have honest := Value.eachInt_mono (honest_of_fresh (Pattern.allLiterals patterns)) value ints.1
  rcases well with matched | ⟨shown, room⟩
  · have honestBuilt : (Value.variant v.1 value).eachInt (Honest (Pattern.allLiterals patterns)) := honest
    exact absurd (unmatched_of_uncovered honestBuilt missed) (matched value fitsHere)
  cases fuel with
  | zero => cases made
  | succ fuel =>
    rw [generateWitnessForConstructor, Constructor.ofVariant_payload pl] at made
    simp only [Constructor.withArgs] at made
    rcases Option.map_eq_some_iff.mp made with ⟨witnesses, hit, rfl⟩
    rcases Option.bind_eq_some_iff.mp hit with ⟨inner, fst, hit⟩
    cases hit
    have formedPayload : v.2.Formed := by
      cases wf with
      | variant _ _ each => exact each v hin pl
    rcases generateUncoveredWitness_improves (honest_of_small (Pattern.allLiterals patterns)) fuel formedPayload
      (extractArgMatrix_kept plain pl hk) room fst fitsHere honest with
      ⟨other, fitsOther, describes, honestOther, fewer⟩
    refine ⟨.variant v.1 other, Ty.admitsVariant_of_mem hin fitsOther, ?_, ?_⟩
    · show (v.1 == v.1 && (inner.describes other && true)) = true
      rw [beq_self_eq_true, describes]
      rfl
    · have honestBuilt : (Value.variant v.1 other).eachInt (Honest (Pattern.allLiterals patterns)) := honestOther
      apply unmatched_of_uncovered honestBuilt
      intro pat hw
      exact payload_uncovered plain wf hin pl hk hw (shown pat hw)
        (missed pat hw) fewer

theorem variant_real (wf : (Ty.variant variants).Formed) (plain : ∀ pat ∈ patterns, pat.plain = true)
    (well : WellReported patterns (.variant variants)) (hin : v ∈ variants)
    (gap : isConstructorCovered env fuel (buildMatrix patterns) (.ofVariant v) = some false)
    (made : generateWitnessForConstructor env fuel (.ofVariant v) (buildMatrix patterns) = some witness) :
    witness.Real (.variant variants) patterns := by
  cases unit : v.2.isUnit with
  | true => exact unit_real wf plain hin unit gap made
  | false =>
    have pl : v.2.isUnit ≠ true := fun yes => by rw [unit] at yes; cases yes
    rcases (well v hin).resolve_left pl with once | ⟨hk, either⟩
    · rw [isConstructorCovered_once once] at gap
      cases gap
    · exact payload_real wf plain hin unit hk either gap made

end

section

variable {env : TypeEnv} {fuel : Nat} {ty : Ty} {patterns : List Pattern}

theorem findUncoveredTuple_real {elems : List Ty} (wf : (Ty.tuple elems).Formed) (some : patterns ≠ [])
    (plain : ∀ pat ∈ patterns, pat.plain = true)
    (bare : CoverageMatrix.hasWildcardRow (buildMatrix patterns) = false)
    (well : WellReported patterns (.tuple elems)) {witnesses : List Witness}
    (ran : findUncoveredTuple env fuel (buildMatrix patterns) elems = .some witnesses) :
    ∀ witness ∈ witnesses, witness.Real (.tuple elems) patterns := by
  intro witness mem
  unfold findUncoveredTuple at ran
  split at ran
  · -- a row without a guard covers the unit
    rcases exists_mem_of_ne_nil patterns some with ⟨pat, hw⟩
    rcases buildMatrix_mem plain hw with ⟨idx, hin⟩
    have open' : (buildMatrix patterns).any (fun row => !row.hasGuard) = true :=
      any_eq_true.mpr ⟨_, hin, rfl⟩
    rw [if_pos open'] at ran
    cases ran
    cases mem
  · next several =>
    rcases uncoveredConstructors_mem ran mem with ⟨ctor, hin, gap, made⟩
    cases mem_singleton.mp hin
    exact tuple_real wf (fun none => several (isEmpty_iff.mpr none)) plain bare well gap made

theorem findUncoveredCases_real (wf : ty.Formed) (some : patterns ≠ [])
    (plain : ∀ pat ∈ patterns, pat.plain = true) (well : WellReported patterns ty) {witnesses : List Witness}
    (ran : findUncoveredCases env fuel (buildMatrix patterns) ty = .some witnesses) :
    ∀ witness ∈ witnesses, witness.Real ty patterns := by
  intro witness mem
  unfold findUncoveredCases at ran
  split at ran
  · cases ran
    cases mem
  · next bare =>
    rw [not_eq_true] at bare
    cases wf with
    | bool =>
      cases ran
      exact findUncoveredBool_real plain mem
    | int =>
      cases ran
      exact findUncoveredNumeric_real plain well mem
    | tuple several each =>
      exact findUncoveredTuple_real (.tuple several each) some plain bare well ran witness mem
    | variant ne nd each =>
      rcases uncoveredConstructors_mem ran mem with ⟨ctor, hin, gap, made⟩
      rcases mem_map.mp hin with ⟨v, among, rfl⟩
      exact variant_real (.variant ne nd each) plain well among gap made

end

def maybe (ty : Ty) : Ty := .variant [("None", .unit), ("Some", ty)]

theorem maybe_admits {ty : Ty} {value : Value} (hf : (maybe ty).admits value = true) :
    value = .variant "None" (.tuple []) ∨ ∃ pl, ty.admits pl = true ∧ value = .variant "Some" pl := by
  cases value with
  | variant name pl =>
    rcases Ty.admitsVariant_mem hf with ⟨v, mem, rfl, fitsPayload⟩
    rcases mem_cons.mp mem with rfl | mem
    · left
      rw [Ty.admits_unit rfl fitsPayload]
    · cases mem_singleton.mp mem
      exact .inr ⟨pl, fitsPayload, rfl⟩
  | _ => cases hf

/-- The arms `None` and `Some(Some(true) | Some(false) | None)`. -/
def eachPayload : List Pattern :=
  [.variant "None" [], .variant "Some" [.or [.variant "Some" [.literal (.bool true)],
    .variant "Some" [.literal (.bool false)], .variant "None" []]]]

def bothTrue : List Pattern := [.tuple [.literal (.bool true), .literal (.bool true)]]

end Exhaustiveness
