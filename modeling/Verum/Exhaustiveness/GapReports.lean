import Mathlib.Data.Fintype.EquivFin
import Verum.Exhaustiveness.Gaps

open List

namespace Exhaustiveness

mutual

def Pattern.literals : Pattern → List Int
  | .literal (.int value) => [value]
  | .tuple elements => Pattern.allLiterals elements
  | .variant _ args => Pattern.allLiterals args
  | .or alternatives => Pattern.allLiterals alternatives
  | .and conjuncts => Pattern.allLiterals conjuncts
  | .guard pattern => pattern.literals
  | _ => []

def Pattern.allLiterals : List Pattern → List Int
  | [] => []
  | pattern :: patterns => pattern.literals ++ Pattern.allLiterals patterns

end

mutual

def PatternColumn.literals : PatternColumn → List Int
  | .literal (.int value) => [value]
  | .tuple elements => PatternColumn.allLiterals elements
  | .constructor _ args => PatternColumn.allLiterals args
  | .or alternatives => PatternColumn.allLiterals alternatives
  | .and conjuncts => PatternColumn.allLiterals conjuncts
  | .guarded inner => inner.literals
  | _ => []

def PatternColumn.allLiterals : List PatternColumn → List Int
  | [] => []
  | column :: columns => column.literals ++ PatternColumn.allLiterals columns

end

section

variable {avoid : Int → Bool} {hf : Int}

mutual

theorem kept_fresh (col : PatternColumn) {ty : Ty} (hk : kept avoid col ty = true)
    (other : hf ∉ col.literals) : kept (· == hf) col ty = true := by
  match col with
  | .wildcard => exact kept_wildcard ty
  | .literal (.bool v) =>
    cases ty with
    | bool => rfl
    | _ => cases hk
  | .literal (.text _) | .range _ _ _ | .and _ | .guarded _ => cases ty <;> cases hk
  | .literal (.int v) =>
    cases ty with
    | int =>
      show (!(v == hf)) = true
      rw [Bool.not_eq_true', beq_eq_false_iff_ne]
      exact fun eq => other (mem_singleton.mpr eq.symm)
    | _ => cases hk
  | .tuple cols =>
    cases ty with
    | tuple elems => exact keptAll_fresh cols hk other
    | _ => cases hk
  | .constructor name cols =>
    cases ty with
    | variant variants =>
      unfold kept at hk ⊢
      split
      · next inner ty hit =>
        rw [hit] at hk
        exact keptAll_fresh cols hk other
      · rfl
    | _ => cases hk
  | .or alts =>
    unfold kept at hk ⊢
    rw [Bool.and_eq_true] at hk ⊢
    exact ⟨keptEach_fresh alts hk.1 other, hk.2⟩

theorem keptAll_fresh (cols : List PatternColumn) {tys : List Ty} (hk : keptAll avoid cols tys = true)
    (other : hf ∉ PatternColumn.allLiterals cols) : keptAll (· == hf) cols tys = true := by
  match cols with
  | [] =>
    cases tys with
    | nil => rfl
    | cons ty tys => cases hk
  | col :: cols =>
    cases tys with
    | nil => cases hk
    | cons ty tys =>
      unfold keptAll at hk ⊢
      rw [Bool.and_eq_true] at hk ⊢
      have parts := mem_append.not.mp other
      rw [not_or] at parts
      exact ⟨kept_fresh col hk.1 parts.1, keptAll_fresh cols hk.2 parts.2⟩

theorem keptEach_fresh (cols : List PatternColumn) {ty : Ty} (hk : keptEach avoid cols ty = true)
    (other : hf ∉ PatternColumn.allLiterals cols) : keptEach (· == hf) cols ty = true := by
  match cols with
  | [] => rfl
  | col :: cols =>
    unfold keptEach at hk ⊢
    rw [Bool.and_eq_true] at hk ⊢
    have parts := mem_append.not.mp other
    rw [not_or] at parts
    exact ⟨kept_fresh col hk.1 parts.1, keptEach_fresh cols hk.2 parts.2⟩

end

end

theorem patternsToColumns_length (pats : List Pattern) :
    (patternsToColumns pats).length = pats.length := by
  induction pats with
  | nil => rfl
  | cons pat pats ih =>
    show (patternsToColumns pats).length + 1 = _
    rw [ih]
    rfl

/-- Every integer in a value is unlike its counterparts among some literals, or no cast changes it. -/
def Honest (literals : List Int) (value : Int) : Prop := value ∈ literals → toI64 value = value

theorem payloadFields_eachInt {P : Int → Prop} {arity : Nat} {pl : Value} {fs : List Value}
    (each : pl.eachInt P) (hit : payloadFields arity pl = some fs) : Value.eachIntAll P fs := by
  unfold payloadFields at hit
  split at hit
  · cases hit
    exact ⟨each, trivial⟩
  · split at hit
    · split at hit
      · cases hit
        exact each
      · cases hit
    · cases hit

mutual

theorem covers_of_matches {literals : List Int} (pat : Pattern) {v : Value}
    (among : ∀ lit ∈ pat.literals, lit ∈ literals) (honest : v.eachInt (Honest literals))
    (matched : pat.matches true v = true) : (patternToColumn pat).covers true v = true := by
  match pat with
  | .wildcard => rfl
  | .literal (.bool _) | .literal (.text _) => exact matched
  | .literal (.int expected) =>
    cases v with
    | int actual =>
      have eq : expected = actual := beq_iff_eq.mp matched
      subst eq
      have kept := honest (among expected (mem_singleton.mpr rfl))
      show (toI64 expected == expected) = true
      rw [kept]
      exact beq_self_eq_true expected
    | _ => cases matched
  | .range start finish inclusive =>
    cases v with
    | int actual => exact matched
    | _ => cases matched
  | .tuple elems =>
    cases v with
    | tuple vs => exact coversAll_of_matches elems among honest matched
    | _ => cases matched
  | .variant name args =>
    cases v with
    | variant actual pl =>
      unfold Pattern.matches at matched
      show (name == actual && match payloadFields (patternsToColumns args).length pl with
        | some fs => PatternColumn.coversAll true (patternsToColumns args) fs
        | none => false) = true
      rw [patternsToColumns_length]
      rw [Bool.and_eq_true] at matched ⊢
      refine ⟨matched.1, ?_⟩
      have inner := matched.2
      have each : pl.eachInt (Honest literals) := honest
      generalize hit : payloadFields args.length pl = picked at inner ⊢
      cases picked with
      | some fs => exact coversAll_of_matches args among (payloadFields_eachInt each hit) inner
      | none => cases inner
    | _ => cases matched
  | .or alts => exact coversAny_of_matches alts among honest matched
  | .and conjuncts => exact coversEvery_of_matches conjuncts among honest matched
  | .guard inner => exact covers_of_matches inner among honest matched

theorem coversAll_of_matches {literals : List Int} (pats : List Pattern) {vs : List Value}
    (among : ∀ lit ∈ Pattern.allLiterals pats, lit ∈ literals)
    (honest : Value.eachIntAll (Honest literals) vs) (matched : Pattern.matchesAll true pats vs = true) :
    PatternColumn.coversAll true (patternsToColumns pats) vs = true := by
  match pats, vs with
  | [], [] => rfl
  | [], _ :: _ | _ :: _, [] => cases matched
  | pat :: pats, v :: vs =>
    unfold Pattern.matchesAll at matched
    rw [Bool.and_eq_true] at matched
    show ((patternToColumn pat).covers true v &&
      PatternColumn.coversAll true (patternsToColumns pats) vs) = true
    rw [covers_of_matches pat (fun l hin => among l (mem_append_left _ hin)) honest.1 matched.1,
      coversAll_of_matches pats (fun l hin => among l (mem_append_right _ hin)) honest.2 matched.2]
    rfl

theorem coversAny_of_matches {literals : List Int} (pats : List Pattern) {v : Value}
    (among : ∀ lit ∈ Pattern.allLiterals pats, lit ∈ literals)
    (honest : v.eachInt (Honest literals)) (matched : Pattern.matchesAny true pats v = true) :
    PatternColumn.coversAny true (patternsToColumns pats) v = true := by
  match pats with
  | [] => cases matched
  | pat :: pats =>
    unfold Pattern.matchesAny at matched
    rw [Bool.or_eq_true] at matched
    show ((patternToColumn pat).covers true v ||
      PatternColumn.coversAny true (patternsToColumns pats) v) = true
    rw [Bool.or_eq_true]
    rcases matched with here | hl
    · exact .inl (covers_of_matches pat (fun l hin => among l (mem_append_left _ hin)) honest here)
    · exact .inr (coversAny_of_matches pats (fun l hin => among l (mem_append_right _ hin)) honest hl)

theorem coversEvery_of_matches {literals : List Int} (pats : List Pattern) {v : Value}
    (among : ∀ lit ∈ Pattern.allLiterals pats, lit ∈ literals)
    (honest : v.eachInt (Honest literals)) (matched : Pattern.matchesEvery true pats v = true) :
    PatternColumn.coversEvery true (patternsToColumns pats) v = true := by
  match pats with
  | [] => rfl
  | pat :: pats =>
    unfold Pattern.matchesEvery at matched
    rw [Bool.and_eq_true] at matched
    show ((patternToColumn pat).covers true v &&
      PatternColumn.coversEvery true (patternsToColumns pats) v) = true
    rw [covers_of_matches pat (fun l hin => among l (mem_append_left _ hin)) honest matched.1,
      coversEvery_of_matches pats (fun l hin => among l (mem_append_right _ hin)) honest matched.2]
    rfl

end

mutual

/-- The values that a witness describes, its wildcards standing for any. -/
def Witness.describes : Witness → Value → Bool
  | .wildcard, _ => true
  | .literal lit, value => lit.matches value
  | .tuple elements, .tuple values => Witness.describesAll elements values
  | .constructor name args, .variant actual payload =>
    name == actual && match payloadFields args.length payload with
      | some fields => Witness.describesAll args fields
      | none => false
  | .constructor name args, .tuple values => name == "()" && Witness.describesAll args values
  | .constructor name args, .bool value => name == boolName value && args.isEmpty
  | _, _ => false

def Witness.describesAll : List Witness → List Value → Bool
  | [], [] => true
  | witness :: witnesses, value :: values => witness.describes value && Witness.describesAll witnesses values
  | _, _ => false

end

def FreeCandidate (taken : Int → Bool) : Prop :=
  (∃ k : Nat, k < 102 ∧ (taken k = false ∨ taken (-(k + 1)) = false)) ∨ taken 999999 = false

theorem findFree_free {taken : Int → Bool} (turns : Nat) {candidate : Nat}
    (free : (∃ k : Nat, candidate ≤ k ∧ k < candidate + turns ∧ (taken k = false ∨ taken (-(k + 1)) = false)) ∨
      taken 999999 = false) :
    taken (findFree taken turns candidate) = false := by
  induction turns generalizing candidate with
  | zero =>
    rcases free with ⟨k, above, hlt, -⟩ | last
    · omega
    · exact last
  | succ turns ih =>
    unfold findFree
    split
    · next here => exact Bool.not_eq_true' _ ▸ here
    · next here =>
      split
      · next there => exact Bool.not_eq_true' _ ▸ there
      · next there =>
        rw [show (candidate : Int) + 1 = ((candidate + 1 : Nat) : Int) by omega]
        apply ih
        rcases free with ⟨k, above, hlt, hit⟩ | last
        · refine .inl ⟨k, ?_, by omega, hit⟩
          have further : candidate ≠ k := by
            rintro rfl
            rcases hit with fst | snd
            · exact here (by rw [fst]; rfl)
            · exact there (by rw [snd]; rfl)
          omega
        · exact .inr last

theorem findFree_range (taken : Int → Bool) (turns : Nat) {candidate : Nat} (small : candidate + turns ≤ 102) :
    -102 ≤ findFree taken turns candidate ∧ findFree taken turns candidate ≤ 999999 := by
  induction turns generalizing candidate with
  | zero =>
    show (-102 : Int) ≤ 999999 ∧ (999999 : Int) ≤ 999999
    omega
  | succ turns ih =>
    unfold findFree
    split
    · omega
    · split
      · omega
      · rw [show (candidate : Int) + 1 = ((candidate + 1 : Nat) : Int) by omega]
        exact ih (by omega)

theorem FreeCandidate.found {coverage : NumericCoverage} (free : FreeCandidate coverage.taken) :
    coverage.taken coverage.findUncoveredIntValue = false := by
  show coverage.taken (findFree coverage.taken 102 ((0 : Nat) : Int)) = false
  apply findFree_free
  rcases free with ⟨k, hlt, hit⟩ | last
  · exact .inl ⟨k, Nat.zero_le _, by omega, hit⟩
  · exact .inr last

theorem findUncoveredIntValue_range (coverage : NumericCoverage) :
    -102 ≤ coverage.findUncoveredIntValue ∧ coverage.findUncoveredIntValue ≤ 999999 :=
  findFree_range coverage.taken 102 (Nat.le_refl 102)

theorem toI64_small {v : Int} (low : -102 ≤ v) (high : v ≤ 999999) : toI64 v = v := by
  unfold toI64
  rw [Int.bmod_eq_of_le] <;> omega

mutual

theorem collectIntegerCoverageFast_taken (col : PatternColumn) {coverage : NumericCoverage} {v : Int}
    (free : (collectIntegerCoverageFast col coverage).taken v = false) : coverage.taken v = false := by
  match col with
  | .literal (.int other) =>
    rw [collectIntegerCoverageFast, NumericCoverage.taken, Bool.or_eq_false_iff] at free
    rw [NumericCoverage.taken, Bool.or_eq_false_iff]
    have notMem : (other :: coverage.values).contains v = false := free.1
    rw [contains_cons, Bool.or_eq_false_iff] at notMem
    exact ⟨notMem.2, free.2⟩
  | .range start finish inclusive =>
    rw [collectIntegerCoverageFast, NumericCoverage.taken, Bool.or_eq_false_iff] at free
    rw [NumericCoverage.taken, Bool.or_eq_false_iff]
    refine ⟨free.1, ?_⟩
    have outside := free.2
    unfold NumericCoverage.addRange at outside
    rw [any_cons, Bool.or_eq_false_iff] at outside
    exact outside.2
  | .or alts => exact collectEachFast_taken alts free
  | .literal (.bool _) | .literal (.text _) | .wildcard | .and _ | .guarded _ | .tuple _ | .constructor _ _ =>
    exact free

theorem collectEachFast_taken (cols : List PatternColumn) {coverage : NumericCoverage} {v : Int}
    (free : (collectEachFast cols coverage).taken v = false) : coverage.taken v = false := by
  match cols with
  | [] => exact free
  | col :: cols =>
    exact collectIntegerCoverageFast_taken col (collectEachFast_taken cols free)

end

section

variable {avoid : Int → Bool}

mutual

theorem covers_all_of_free (col : PatternColumn) {coverage : NumericCoverage} {v : Int}
    (hk : kept avoid col .int = true)
    (free : (collectIntegerCoverageFast col coverage).taken v = false)
    (covers : col.covers true (.int v) = true) (other : Value) : col.covers true other = true := by
  match col with
  | .wildcard => simp [PatternColumn.covers]
  | .literal (.int lit) =>
    have eq : lit = v := beq_iff_eq.mp covers
    subst eq
    rw [collectIntegerCoverageFast, NumericCoverage.taken, Bool.or_eq_false_iff] at free
    have notMem : (lit :: coverage.values).contains lit = false := free.1
    rw [contains_cons, beq_self_eq_true, Bool.true_or] at notMem
    cases notMem
  | .literal (.bool _) | .literal (.text _) | .range _ _ _ | .and _ | .guarded _ | .tuple _ | .constructor _ _ =>
    cases hk
  | .or alts =>
    unfold kept at hk
    rw [Bool.and_eq_true] at hk
    show PatternColumn.covers true (.or alts) other = true
    unfold PatternColumn.covers
    exact coversAny_all_of_free alts hk.1 free covers other

theorem coversAny_all_of_free (cols : List PatternColumn) {coverage : NumericCoverage} {v : Int}
    (hk : keptEach avoid cols .int = true) (free : (collectEachFast cols coverage).taken v = false)
    (covers : PatternColumn.coversAny true cols (.int v) = true) (other : Value) :
    PatternColumn.coversAny true cols other = true := by
  match cols with
  | [] => cases covers
  | col :: cols =>
    unfold keptEach at hk
    unfold PatternColumn.coversAny at covers ⊢
    rw [Bool.and_eq_true] at hk
    rw [Bool.or_eq_true] at covers ⊢
    rcases covers with here | hl
    · exact .inl (covers_all_of_free col hk.1 (collectEachFast_taken cols free) here other)
    · exact .inr (coversAny_all_of_free cols hk.2 free hl other)

end

theorem collectEachFast_mem {cols : List PatternColumn} {coverage : NumericCoverage} {v : Int}
    (free : (collectEachFast cols coverage).taken v = false) {col : PatternColumn}
    (mem : col ∈ cols) : ∃ pre, (collectIntegerCoverageFast col pre).taken v = false := by
  induction cols generalizing coverage with
  | nil => cases mem
  | cons fst cols ih =>
    rcases mem_cons.mp mem with rfl | hl
    · exact ⟨coverage, collectEachFast_taken cols free⟩
    · exact ih free hl

mutual

theorem covers_bool (col : PatternColumn) {v : Bool} (hk : kept avoid col .bool = true)
    (covers : col.covers true (.bool v) = true) : coversBoolValue v col = true := by
  match col with
  | .wildcard => rfl
  | .literal (.bool other) => exact covers
  | .literal (.int _) | .literal (.text _) | .range _ _ _ | .and _ | .guarded _ | .tuple _ | .constructor _ _ =>
    cases hk
  | .or alts =>
    unfold kept at hk
    rw [Bool.and_eq_true] at hk
    exact coversAny_bool alts hk.1 covers

theorem coversAny_bool (cols : List PatternColumn) {v : Bool} (hk : keptEach avoid cols .bool = true)
    (covers : PatternColumn.coversAny true cols (.bool v) = true) : anyCoversBool v cols = true := by
  match cols with
  | [] => cases covers
  | col :: cols =>
    unfold keptEach at hk
    unfold PatternColumn.coversAny at covers
    unfold anyCoversBool
    rw [Bool.and_eq_true] at hk
    rw [Bool.or_eq_true] at covers ⊢
    rcases covers with here | hl
    · exact .inl (covers_bool col hk.1 here)
    · exact .inr (coversAny_bool cols hk.2 hl)

end

mutual

theorem covers_variant (col : PatternColumn) {variants : List (String × Ty)} {name : String} {pl : Value}
    (hk : kept avoid col (.variant variants) = true)
    (covers : col.covers true (.variant name pl) = true) : coversConstructor name col = true := by
  match col with
  | .wildcard => rfl
  | .literal (.bool _) | .literal (.int _) | .literal (.text _) | .range _ _ _ | .and _ | .guarded _ | .tuple _ =>
    cases hk
  | .constructor other _ =>
    unfold PatternColumn.covers at covers
    rw [Bool.and_eq_true] at covers
    exact covers.1
  | .or alts =>
    unfold kept at hk
    rw [Bool.and_eq_true] at hk
    exact coversAny_variant alts hk.1 covers

theorem coversAny_variant (cols : List PatternColumn) {variants : List (String × Ty)} {name : String}
    {pl : Value} (hk : keptEach avoid cols (.variant variants) = true)
    (covers : PatternColumn.coversAny true cols (.variant name pl) = true) :
    anyCoversConstructor name cols = true := by
  match cols with
  | [] => cases covers
  | col :: cols =>
    unfold keptEach at hk
    unfold PatternColumn.coversAny at covers
    unfold anyCoversConstructor
    rw [Bool.and_eq_true] at hk
    rw [Bool.or_eq_true] at covers ⊢
    rcases covers with here | hl
    · exact .inl (covers_variant col hk.1 here)
    · exact .inr (coversAny_variant cols hk.2 hl)

end

end

mutual

/-- Where the search for a witness comes to an integer, it has a candidate that the columns leave free. -/
def Roomy : Ty → List PatternColumn → Prop
  | .int, columns => FreeCandidate (collectEachFast columns .none).taken
  | .tuple elements, columns => RoomyEach elements columns 0
  | _, _ => True

def RoomyEach : List Ty → List PatternColumn → Nat → Prop
  | [], _, _ => True
  | ty :: tys, columns, idx => Roomy ty (extractTupleElement columns idx) ∧ RoomyEach tys columns (idx + 1)

end

/-- A value that a witness describes and that no column covers unless it covers a given one. -/
def Improves (P : Int → Prop) (ty : Ty) (covered : List PatternColumn) (witness : Witness) (value : Value) : Prop :=
  ∃ other, ty.admits other = true ∧ witness.describes other = true ∧ other.eachInt P ∧
    ∀ column ∈ covered, column.covers true other = true → column.covers true value = true

section

variable {avoid : Int → Bool} {P : Int → Prop}

theorem extractTupleElement_kept {elems : List Ty} {ty : Ty} {covered : List PatternColumn} {idx : Nat}
    (hk : ∀ cols, .tuple cols ∈ covered → keptAll avoid (cols.drop idx) (ty :: elems) = true) :
    ∀ col ∈ extractTupleElement covered idx, kept avoid col ty = true := by
  intro col mem
  rcases mem_filterMap.mp mem with ⟨src, hin, hit⟩
  cases src with
  | wildcard =>
    cases hit
    exact kept_wildcard ty
  | tuple cols =>
    have here := hk cols hin
    have at' : cols[idx]? = some col := hit
    rcases List.getElem?_eq_some_iff.mp at' with ⟨hb, eq⟩
    rw [drop_eq_getElem_cons hb, eq] at here
    unfold keptAll at here
    rw [Bool.and_eq_true] at here
    exact here.1
  | _ => cases hit

theorem tuple_improves {gen : Ty → List PatternColumn → Option Witness} {covered : List PatternColumn}
    (step : ∀ {ty : Ty}, ty.Formed → ∀ {cols : List PatternColumn},
      (∀ col ∈ cols, kept avoid col ty = true) → Roomy ty cols →
      ∀ {witness : Witness}, gen ty cols = some witness →
      ∀ {v : Value}, ty.admits v = true → v.eachInt P → Improves P ty cols witness v)
    {elems : List Ty} {idx : Nat} (wf : ∀ ty ∈ elems, ty.Formed)
    (hk : ∀ cols, .tuple cols ∈ covered → keptAll avoid (cols.drop idx) elems = true)
    (room : RoomyEach elems covered idx) {witnesses : List Witness}
    (made : ((elems.zipIdx idx).mapM fun (ty, i) => gen ty (extractTupleElement covered i)) = some witnesses)
    {vs : List Value} (hf : Ty.admitsAll elems vs = true) (ints : Value.eachIntAll P vs) :
    ∃ others, Ty.admitsAll elems others = true ∧ Witness.describesAll witnesses others = true ∧
      Value.eachIntAll P others ∧ ∀ cols, .tuple cols ∈ covered →
        PatternColumn.coversAll true (cols.drop idx) others = true →
        PatternColumn.coversAll true (cols.drop idx) vs = true := by
  induction elems generalizing idx witnesses vs with
  | nil =>
    have none : vs = [] := eq_nil_of_length_eq_zero (Ty.admitsAll_length hf)
    subst none
    cases made
    exact ⟨[], rfl, rfl, trivial, fun _ _ covers => covers⟩
  | cons ty elems ih =>
    cases vs with
    | nil => cases hf
    | cons v vs =>
      rw [zipIdx_cons, mapM_cons] at made
      rcases Option.bind_eq_some_iff.mp made with ⟨witness, fst, made⟩
      rcases Option.bind_eq_some_iff.mp made with ⟨rest, hl, made⟩
      cases made
      unfold Ty.admitsAll at hf
      rw [Bool.and_eq_true] at hf
      have keepsRest : ∀ cols, .tuple cols ∈ covered →
        keptAll avoid (cols.drop (idx + 1)) elems = true := by
        intro cols hin
        have here := hk cols hin
        cases shape : cols.drop idx with
        | nil =>
          rw [shape] at here
          cases here
        | cons col others =>
          have tail : cols.drop (idx + 1) = others := by
            rw [← tail_drop, shape]
            rfl
          rw [shape] at here
          unfold keptAll at here
          rw [Bool.and_eq_true] at here
          rw [tail]
          exact here.2
      rcases step (wf ty mem_cons_self) (extractTupleElement_kept hk) room.1 fst hf.1 ints.1 with
        ⟨other, fitsOther, describes, intsOther, covers⟩
      rcases ih (fun ty mem => wf ty (.tail _ mem)) keepsRest room.2 hl hf.2 ints.2 with
        ⟨others, fitsOthers, describesAll, intsOthers, coversRest⟩
      refine ⟨other :: others, ?_, ?_, ⟨intsOther, intsOthers⟩, ?_⟩
      · unfold Ty.admitsAll
        rw [fitsOther, fitsOthers]
        rfl
      · unfold Witness.describesAll
        rw [describes, describesAll]
        rfl
      · intro cols hin coversAll
        have here := hk cols hin
        cases shape : cols.drop idx with
        | nil =>
          rw [shape] at here
          cases here
        | cons col rest =>
          have tail : cols.drop (idx + 1) = rest := by
            rw [← tail_drop, shape]
            rfl
          have among : col ∈ extractTupleElement covered idx := by
            apply mem_filterMap.mpr
            refine ⟨.tuple cols, hin, ?_⟩
            have top := congrArg List.head? shape
            rw [List.head?_drop] at top
            exact top
          rw [shape] at coversAll
          unfold PatternColumn.coversAll at coversAll ⊢
          rw [Bool.and_eq_true] at coversAll ⊢
          have behind := coversRest cols hin
          rw [tail] at behind
          exact ⟨covers col among coversAll.1, behind coversAll.2⟩

theorem covers_or_tuple {alts : List PatternColumn} {elems : List Ty} (several : elems.length ≠ 1)
    (wf : ∀ ty ∈ elems, ty.Formed) (hk : kept avoid (.or alts) (.tuple elems) = true)
    {value other : Value} (hf : (Ty.tuple elems).admits value = true)
    (fitsOther : (Ty.tuple elems).admits other = true)
    (covers : (PatternColumn.or alts).covers true other = true) :
    (PatternColumn.or alts).covers true value = true := by
  have tuples : ∀ {v : Value}, (Ty.tuple elems).admits v = true →
      ∃ vs, v = .tuple vs ∧ Ty.admitsAll elems vs = true := by
    intro v fitsV
    cases v with
    | tuple vs => exact ⟨vs, rfl, fitsV⟩
    | _ => cases fitsV
  rcases tuples hf with ⟨vs, rfl, fitsAll⟩
  rcases tuples fitsOther with ⟨others, rfl, fitsOthers⟩
  unfold kept at hk
  rw [Bool.and_eq_true] at hk
  rcases coversAny_mem.mp covers with ⟨alt, hin, covered⟩
  have ctorMember : Constructor.withArgs "()" elems ∈
      (getTypeConstructors (fun _ => none) (.tuple elems)).constructors := mem_singleton.mpr rfl
  have matching : matchesColCtor (.withArgs "()" elems) alt = true :=
    matches_of_covers (.tuple several wf) ctorMember alt (keptEach_mem hk.1 hin) covered
  by_cases none : elems = []
  · subst none
    rw [eq_nil_of_length_eq_zero (Ty.admitsAll_length fitsAll)]
    rw [eq_nil_of_length_eq_zero (Ty.admitsAll_length fitsOthers)] at covers
    exact covers
  · rcases orKept_finds (.tuple several wf) ctorMember hk.2 none hin matching with ⟨fst, hit, -⟩
    have wild : (elems.isEmpty || (alts.find? (matchesColCtor (.withArgs "()" elems))).all
        (·.isWildcard)) = true := hk.2
    rw [hit, Bool.or_eq_true] at wild
    rcases wild with empty | top
    · exact absurd (isEmpty_iff.mp empty) none
    · have among := mem_of_find?_eq_some hit
      apply coversAny_mem.mpr
      refine ⟨fst, among, ?_⟩
      cases fst with
      | wildcard => simp [PatternColumn.covers]
      | _ => cases top

theorem find_uncovered {variants : List (String × Ty)} {covered : List PatternColumn} {v : String × Ty}
    (hit : (variants.find? fun (name, _) => !covered.any (coversConstructor name)) = some v) :
    v ∈ variants ∧ ∀ col ∈ covered, coversConstructor v.1 col = false := by
  refine ⟨mem_of_find?_eq_some hit, ?_⟩
  have free : (!covered.any (coversConstructor v.1)) = true := by
    have this := List.find?_some hit
    exact this
  rw [Bool.not_eq_true'] at free
  intro col mem
  exact Bool.eq_false_iff.mpr (any_eq_false.mp free col mem)

theorem generateUncoveredWitness_improves {env : TypeEnv} (small : ∀ i, -102 ≤ i → i ≤ 999999 → P i) (fuel : Nat)
    {ty : Ty} (wf : ty.Formed) {covered : List PatternColumn}
    (hk : ∀ col ∈ covered, kept avoid col ty = true) (room : Roomy ty covered) {witness : Witness}
    (made : generateUncoveredWitness env fuel ty covered = some witness) {v : Value}
    (hf : ty.admits v = true) (ints : v.eachInt P) : Improves P ty covered witness v := by
  induction fuel generalizing ty covered witness v with
  | zero => cases made
  | succ fuel ih =>
    cases wf with
    | bool =>
      have eq : ∀ {flag : Bool}, covered.any (coversBoolValue flag) = false →
          Improves P .bool covered (.literal (.bool flag)) v := by
        intro flag free
        refine ⟨.bool flag, rfl, beq_self_eq_true flag, trivial, ?_⟩
        intro col mem covers
        exact absurd (covers_bool col (hk col mem) covers) (any_eq_false.mp free col mem)
      rw [generateUncoveredWitness] at made
      split at made
      · next free =>
        cases made
        exact eq (Bool.not_eq_true' _ ▸ free)
      · split at made
        · next free =>
          cases made
          exact eq (Bool.not_eq_true' _ ▸ free)
        · cases made
          exact ⟨v, hf, rfl, ints, fun _ _ covers => covers⟩
    | int =>
      rw [generateUncoveredWitness] at made
      cases made
      have hr := findUncoveredIntValue_range (collectEachFast covered .none)
      refine ⟨.int (findUncoveredInteger covered), rfl, beq_self_eq_true _, small _ hr.1 hr.2, ?_⟩
      intro col mem covers
      rcases collectEachFast_mem (FreeCandidate.found room) mem with ⟨pre, free⟩
      exact covers_all_of_free col (hk col mem) free covers v
    | @tuple elems several each =>
      rw [generateUncoveredWitness] at made
      rcases Option.map_eq_some_iff.mp made with ⟨witnesses, hit, rfl⟩
      cases v with
      | tuple vs =>
        have keepsTuple : ∀ cols, .tuple cols ∈ covered → keptAll avoid (cols.drop 0) elems = true :=
          fun cols hin => hk _ hin
        rcases tuple_improves ih each keepsTuple room hit hf ints with
          ⟨others, fitsOthers, describes, intsOthers, covers⟩
        refine ⟨.tuple others, fitsOthers, describes, intsOthers, ?_⟩
        intro col mem coversOther
        cases col with
        | wildcard => simp [PatternColumn.covers]
        | tuple cols => exact covers cols mem coversOther
        | or alts =>
          have fitsOther : (Ty.tuple elems).admits (.tuple others) = true := fitsOthers
          exact covers_or_tuple several each (hk _ mem) hf fitsOther coversOther
        | literal lit => cases lit <;> cases hk _ mem
        | _ => cases hk _ mem
      | _ => cases hf
    | @variant variants some nd each =>
      rw [generateUncoveredWitness] at made
      dsimp only at made
      split at made
      · next name ty hit =>
        cases made
        rcases find_uncovered hit with ⟨mem, free⟩
        have none : ∀ pl, ∀ col ∈ covered, col.covers true (.variant name pl) = true →
            col.covers true v = true := by
          intro pl col hin covers
          have covered := covers_variant col (hk col hin) covers
          rw [free col hin] at covered
          cases covered
        cases unit : ty.isUnit with
        | true =>
          refine ⟨.variant name (.tuple []), Ty.admitsVariant_of_mem mem (Ty.isUnit_admits unit rfl), ?_,
            trivial, none _⟩
          rw [if_pos rfl]
          show (name == name && true) = true
          rw [beq_self_eq_true]
          rfl
        | false =>
          rcases (each _ mem unit).inhabited 0 with ⟨pl, fitsPayload, intsPayload⟩
          refine ⟨.variant name pl, Ty.admitsVariant_of_mem mem fitsPayload, ?_, ?_, none _⟩
          · rw [if_neg Bool.false_ne_true]
            show (name == name && true) = true
            rw [beq_self_eq_true]
            rfl
          · apply pl.eachInt_mono _ intsPayload
            rintro i rfl
            exact small 0 (by omega) (by omega)
      · cases made
        exact ⟨v, hf, rfl, ints, fun _ _ covers => covers⟩

end

end Exhaustiveness
