import Mathlib.Data.List.Nodup
import Verum.Exhaustiveness.PatternMatrix

open List

namespace Exhaustiveness

mutual

def Ty.admits : Ty → Value → Bool
  | .unit, .tuple [] => true
  | .bool, .bool _ => true
  | .int, .int _ => true
  | .tuple elements, .tuple values => Ty.admitsAll elements values
  | .variant variants, .variant name payload => Ty.admitsVariant variants name payload
  | _, _ => false

def Ty.admitsAll : List Ty → List Value → Bool
  | [], [] => true
  | ty :: tys, value :: values => ty.admits value && Ty.admitsAll tys values
  | _, _ => false

def Ty.admitsVariant : List (String × Ty) → String → Value → Bool
  | [], _, _ => false
  | (tag, ty) :: variants, name, payload =>
    (tag == name && ty.admits payload) || Ty.admitsVariant variants name payload

end

/-- The types over `Bool`, `Int`, tuples and variants that are not empty; a tuple has no field or several. -/
inductive Ty.Formed : Ty → Prop
  | bool : Ty.Formed .bool
  | int : Ty.Formed .int
  | tuple {elements : List Ty} (several : elements.length ≠ 1) (each : ∀ ty ∈ elements, Ty.Formed ty) :
      Ty.Formed (.tuple elements)
  | variant {variants : List (String × Ty)} (some : variants ≠ []) (distinct : (variants.map (·.1)).Nodup)
      (each : ∀ v ∈ variants, v.2.isUnit = false → Ty.Formed v.2) : Ty.Formed (.variant variants)

def PatternColumn.isOr : PatternColumn → Bool
  | .or _ => true
  | _ => false

/-- Nothing is lost where only the first alternative that matches a constructor is kept. -/
def keepsFirst (ctor : Constructor) (alternatives : List PatternColumn) : Bool :=
  match alternatives.filter (matchesColCtor ctor) with
  | [] => true
  | first :: others => !first.isOr && (first.isWildcard || others.isEmpty)

/-- The or-patterns of a type below the top that the recursion over a matrix treats well. -/
def orKept : Ty → List PatternColumn → Bool
  | .bool, _ => true
  | .int, alternatives => !(collectEachNumeric alternatives .none).hasWildcard
  | .tuple elements, alternatives =>
    elements.isEmpty || (alternatives.find? (matchesColCtor (.withArgs "()" elements))).all (·.isWildcard)
  | .variant variants, alternatives => variants.all fun v => v.2.isUnit || keepsFirst (.ofVariant v) alternatives
  | _, _ => false

mutual

/-- The columns of a type in which the or-patterns are kept; a constructor's payload is one pattern.
The integers that a predicate holds of are not among the literals. -/
def kept (avoid : Int → Bool) : PatternColumn → Ty → Bool
  | .wildcard, _ => true
  | .literal (.bool _), .bool => true
  | .literal (.int value), .int => !avoid value
  | .tuple columns, .tuple elements => keptAll avoid columns elements
  | .constructor name args, .variant variants =>
    match variants.find? (·.1 == name) with
    | some (_, ty) => keptAll avoid args (if ty.isUnit then [] else [ty])
    | none => true
  | .or alternatives, ty => keptEach avoid alternatives ty && orKept ty alternatives
  | _, _ => false

def keptAll (avoid : Int → Bool) : List PatternColumn → List Ty → Bool
  | [], [] => true
  | column :: columns, ty :: tys => kept avoid column ty && keptAll avoid columns tys
  | _, _ => false

def keptEach (avoid : Int → Bool) : List PatternColumn → Ty → Bool
  | [], _ => true
  | column :: columns, ty => kept avoid column ty && keptEach avoid columns ty

end

def Ty.build : Ty → Constructor → List Value → Value
  | .bool, ctor, _ => .bool (ctor.name == "true")
  | .tuple _, _, args => .tuple args
  | .variant _, ctor, [payload] => .variant ctor.name payload
  | .variant _, ctor, _ => .variant ctor.name (.tuple [])
  | _, _, _ => .tuple []

section

variable {env : TypeEnv} {ty : Ty} {ctor : Constructor} {args : List Value} {avoid : Int → Bool}

theorem Ty.admitsVariant_of_mem {variants : List (String × Ty)} {v : String × Ty} (mem : v ∈ variants)
    {pl : Value} (hf : v.2.admits pl = true) : Ty.admitsVariant variants v.1 pl = true := by
  induction variants with
  | nil => cases mem
  | cons fst variants ih =>
    unfold Ty.admitsVariant
    rcases mem_cons.mp mem with rfl | hl
    · simp [hf]
    · simp [ih hl]

theorem Ty.admitsVariant_mem {variants : List (String × Ty)} {name : String} {pl : Value}
    (hf : Ty.admitsVariant variants name pl = true) :
    ∃ v ∈ variants, v.1 = name ∧ v.2.admits pl = true := by
  induction variants with
  | nil => cases hf
  | cons fst variants ih =>
    unfold Ty.admitsVariant at hf
    rw [Bool.or_eq_true, Bool.and_eq_true, beq_iff_eq] at hf
    rcases hf with ⟨eq, here⟩ | hl
    · exact ⟨fst, .head _, eq, here⟩
    · rcases ih hl with ⟨v, mem, eq, here⟩
      exact ⟨v, .tail _ mem, eq, here⟩

theorem Ty.admitsAll_length {tys : List Ty} {vs : List Value} (hf : Ty.admitsAll tys vs = true) :
    vs.length = tys.length := by
  induction tys generalizing vs with
  | nil =>
    cases vs with
    | nil => rfl
    | cons v vs => cases hf
  | cons ty tys ih =>
    cases vs with
    | nil => cases hf
    | cons v vs =>
      unfold Ty.admitsAll at hf
      rw [Bool.and_eq_true] at hf
      rw [length_cons, length_cons, ih hf.2]

theorem Constructor.ofVariant_unit {v : String × Ty} (unit : v.2.isUnit = true) :
    Constructor.ofVariant v = .nullary v.1 := by
  show (if v.2.isUnit then Constructor.nullary v.1 else .withArgs v.1 [v.2]) = _
  rw [if_pos unit]

theorem Constructor.ofVariant_payload {v : String × Ty} (pl : v.2.isUnit = false) :
    Constructor.ofVariant v = .withArgs v.1 [v.2] := by
  show (if v.2.isUnit then Constructor.nullary v.1 else .withArgs v.1 [v.2]) = _
  rw [pl]
  rfl

theorem Constructor.ofVariant_name (v : String × Ty) : (Constructor.ofVariant v).name = v.1 := by
  cases unit : v.2.isUnit with
  | true => rw [ofVariant_unit unit]; rfl
  | false => rw [ofVariant_payload unit]; rfl

theorem Constructor.ofVariant_argTypes (v : String × Ty) :
    (Constructor.ofVariant v).argTypes = if v.2.isUnit then [] else [v.2] := by
  cases unit : v.2.isUnit with
  | true => rw [ofVariant_unit unit]; rfl
  | false => rw [ofVariant_payload unit]; rfl

theorem Ty.isUnit_admits {pl : Value} (unit : ty.isUnit = true) (hf : pl = .tuple []) :
    ty.admits pl = true := by
  subst hf
  cases ty with
  | unit => rfl
  | _ => cases unit

theorem Ty.admits_unit {pl : Value} (unit : ty.isUnit = true) (hf : ty.admits pl = true) :
    pl = .tuple [] := by
  cases ty with
  | unit =>
    cases pl with
    | tuple vs =>
      cases vs with
      | nil => rfl
      | cons v vs => cases hf
    | _ => cases hf
  | _ => cases unit

theorem Ty.build_admits (wf : ty.Formed) (mem : ctor ∈ (getTypeConstructors env ty).constructors)
    (finite : (getTypeConstructors env ty).isInfinite = false) (hf : Ty.admitsAll ctor.argTypes args = true) :
    ty.admits (ty.build ctor args) = true := by
  cases wf with
  | bool => rfl
  | int => cases finite
  | tuple several each =>
    rw [mem_singleton.mp mem] at hf
    exact hf
  | variant some nd each =>
    rcases mem_map.mp mem with ⟨v, hin, rfl⟩
    rw [Constructor.ofVariant_argTypes] at hf
    cases unit : v.2.isUnit with
    | true =>
      rw [unit, if_pos rfl] at hf
      have none : args = [] := eq_nil_of_length_eq_zero (Ty.admitsAll_length hf)
      subst none
      show Ty.admitsVariant _ (Constructor.ofVariant v).name (.tuple []) = true
      rw [Constructor.ofVariant_name]
      exact Ty.admitsVariant_of_mem hin (Ty.isUnit_admits unit rfl)
    | false =>
      rw [unit, if_neg Bool.false_ne_true] at hf
      rcases length_eq_one_iff.mp (Ty.admitsAll_length hf) with ⟨pl, rfl⟩
      show Ty.admitsVariant _ (Constructor.ofVariant v).name pl = true
      rw [Constructor.ofVariant_name]
      unfold Ty.admitsAll at hf
      rw [Bool.and_eq_true] at hf
      exact Ty.admitsVariant_of_mem hin hf.1

theorem Ty.build_variant {variants : List (String × Ty)} :
    ∃ pl, (Ty.variant variants).build ctor args = .variant ctor.name pl := by
  match args with
  | [] | _ :: _ :: _ => exact ⟨_, rfl⟩
  | [pl] => exact ⟨pl, rfl⟩

theorem keptAll_length {cols : List PatternColumn} {tys : List Ty} (hk : keptAll avoid cols tys = true) :
    cols.length = tys.length := by
  induction cols generalizing tys with
  | nil =>
    cases tys with
    | nil => rfl
    | cons ty tys => cases hk
  | cons col cols ih =>
    cases tys with
    | nil => cases hk
    | cons ty tys =>
      unfold keptAll at hk
      rw [Bool.and_eq_true] at hk
      rw [length_cons, length_cons, ih hk.2]

theorem kept_wildcard (ty : Ty) : kept avoid .wildcard ty = true := by simp [kept]

theorem keptAll_wildcards (tys : List Ty) : keptAll avoid (List.replicate tys.length .wildcard) tys = true := by
  induction tys with
  | nil => rfl
  | cons ty tys ih =>
    show (kept avoid .wildcard ty && keptAll avoid (List.replicate tys.length .wildcard) tys) = true
    rw [ih, kept_wildcard]
    rfl

theorem coversAll_wildcards (vs : List Value) :
    PatternColumn.coversAll true (List.replicate vs.length .wildcard) vs = true := by
  induction vs with
  | nil => rfl
  | cons v vs ih =>
    show (PatternColumn.covers true .wildcard v &&
      PatternColumn.coversAll true (List.replicate vs.length .wildcard) vs) = true
    rw [ih]
    simp [PatternColumn.covers]

theorem keptAll_append {front back : List PatternColumn} {frontTys backTys : List Ty}
    (fst : keptAll avoid front frontTys = true) (snd : keptAll avoid back backTys = true) :
    keptAll avoid (front ++ back) (frontTys ++ backTys) = true := by
  induction front generalizing frontTys with
  | nil =>
    cases frontTys with
    | nil => exact snd
    | cons ty tys => cases fst
  | cons col front ih =>
    cases frontTys with
    | nil => cases fst
    | cons ty tys =>
      unfold keptAll at fst
      rw [Bool.and_eq_true] at fst
      show (kept avoid col ty && keptAll avoid (front ++ back) (tys ++ backTys)) = true
      rw [fst.1, ih fst.2]
      rfl

theorem coversAll_append {front back : List PatternColumn} {vs others : List Value}
    (fst : PatternColumn.coversAll true front vs = true)
    (snd : PatternColumn.coversAll true back others = true) :
    PatternColumn.coversAll true (front ++ back) (vs ++ others) = true := by
  induction front generalizing vs with
  | nil =>
    cases vs with
    | nil => exact snd
    | cons v vs => cases fst
  | cons col front ih =>
    cases vs with
    | nil => cases fst
    | cons v vs =>
      unfold PatternColumn.coversAll at fst
      rw [Bool.and_eq_true] at fst
      show (col.covers true v && PatternColumn.coversAll true (front ++ back) (vs ++ others)) = true
      rw [fst.1, ih fst.2]
      rfl

mutual

theorem matches_of_covers (wf : ty.Formed) (mem : ctor ∈ (getTypeConstructors env ty).constructors)
    (col : PatternColumn) (hk : kept avoid col ty = true)
    (covers : col.covers true (ty.build ctor args) = true) : matchesColCtor ctor col = true := by
  match col with
  | .wildcard => rfl
  | .literal (.bool v) =>
    cases wf with
    | bool =>
      have made : v = (ctor.name == "true") := beq_iff_eq.mp covers
      rcases mem_pair.mp mem with rfl | rfl <;> subst made <;> rfl
    | int | tuple several each | variant some nd each => cases hk
  | .literal (.int v) =>
    cases wf with
    | bool | tuple several each | variant some nd each => cases hk
    | int => cases covers
  | .literal (.text _) | .range _ _ _ | .and _ | .guarded _ => cases wf <;> cases hk
  | .tuple cols =>
    cases wf with
    | bool | int | variant some nd each => cases hk
    | tuple several each =>
      rw [mem_singleton.mp mem]
      rfl
  | .constructor name cols =>
    cases wf with
    | bool | int | tuple several each => cases hk
    | variant some nd each =>
      obtain ⟨pl, made⟩ : ∃ pl, (Ty.variant _).build ctor args = .variant ctor.name pl :=
        Ty.build_variant
      rw [made] at covers
      unfold PatternColumn.covers at covers
      rw [Bool.and_eq_true] at covers
      exact covers.1
  | .or alts =>
    have each : keptEach avoid alts ty = true := by
      unfold kept at hk
      rw [Bool.and_eq_true] at hk
      exact hk.1
    exact matchesAny_of_covers wf mem alts each covers

theorem matchesAny_of_covers (wf : ty.Formed) (mem : ctor ∈ (getTypeConstructors env ty).constructors)
    (cols : List PatternColumn) (hk : keptEach avoid cols ty = true)
    (covers : PatternColumn.coversAny true cols (ty.build ctor args) = true) :
    matchesAnyCol ctor cols = true := by
  match cols with
  | [] => cases covers
  | col :: cols =>
    unfold keptEach at hk
    unfold PatternColumn.coversAny at covers
    unfold matchesAnyCol
    rw [Bool.and_eq_true] at hk
    rw [Bool.or_eq_true] at covers ⊢
    rcases covers with here | hl
    · exact .inl (matches_of_covers wf mem col hk.1 here)
    · exact .inr (matchesAny_of_covers wf mem cols hk.2 hl)

end

theorem find_variant {variants : List (String × Ty)} (nd : (variants.map (·.1)).Nodup) {v : String × Ty}
    (mem : v ∈ variants) : variants.find? (·.1 == v.1) = some v := by
  cases hit : variants.find? (·.1 == v.1) with
  | none =>
    have other := List.find?_eq_none.mp hit v mem
    simp at other
  | some w =>
    have picked : (w.1 == v.1) = true := by
      have this := List.find?_some hit
      exact this
    have eq : w.1 = v.1 := beq_iff_eq.mp picked
    rw [inj_on_of_nodup_map nd (mem_of_find?_eq_some hit) mem eq]

theorem plainArguments_eq {col : PatternColumn} {expanded : List PatternColumn}
    (args : plainArguments ctor col = some expanded) :
    matchesColCtor ctor col = true ∧ expandColCtor ctor col = expanded := by
  cases col with
  | wildcard => exact ⟨rfl, Option.some.inj args⟩
  | constructor name cols =>
    have step : (if name == ctor.name then some cols else none) = some expanded := args
    split at step
    · next eq => exact ⟨eq, Option.some.inj step⟩
    · cases step
  | literal lit =>
    cases lit with
    | bool v =>
      have step : (if ctor.name == boolName v then some [] else none) = some expanded := args
      split at step
      · next eq => exact ⟨eq, Option.some.inj step⟩
      · cases step
    | int v | text v => cases args
  | tuple cols =>
    have step : (if ctor.name == "()" then some cols else none) = some expanded := args
    split at step
    · next eq => exact ⟨eq, Option.some.inj step⟩
    · cases step
  | _ => cases args

theorem expand_kept (wf : ty.Formed) (mem : ctor ∈ (getTypeConstructors env ty).constructors)
    (finite : (getTypeConstructors env ty).isInfinite = false) {column : PatternColumn}
    (plain : column.isOr = false) (keeps : kept avoid column ty = true)
    (matching : matchesColCtor ctor column = true) :
    plainArguments ctor column = some (expandColCtor ctor column) ∧
      keptAll avoid (expandColCtor ctor column) ctor.argTypes = true := by
  cases column with
  | wildcard => exact ⟨rfl, keptAll_wildcards _⟩
  | literal lit =>
    cases lit with
    | bool value =>
      cases wf with
      | bool =>
        have nullary : ctor.argTypes = [] := by
          rcases mem_pair.mp mem with rfl | rfl <;> rfl
        rw [nullary]
        exact ⟨if_pos matching, rfl⟩
      | int | tuple several each | variant some distinct each => cases keeps
    | int value => cases wf <;> first | cases keeps | cases finite
    | text value => cases wf <;> cases keeps
  | range start finish inclusive | and conjuncts | guarded inner => cases wf <;> cases keeps
  | or alternatives => cases plain
  | tuple columns =>
    cases wf with
    | bool | int | variant some distinct each => cases keeps
    | tuple several each =>
      rw [mem_singleton.mp mem]
      exact ⟨rfl, keeps⟩
  | constructor name columns =>
    cases wf with
    | bool | int | tuple several each => cases keeps
    | variant some distinct each =>
      rcases mem_map.mp mem with ⟨v, inside, rfl⟩
      have same : name = v.1 := by
        rw [← Constructor.ofVariant_name v]
        exact beq_iff_eq.mp matching
      unfold kept at keeps
      rw [same, find_variant distinct inside] at keeps
      rw [Constructor.ofVariant_argTypes]
      exact ⟨if_pos matching, keeps⟩

theorem expand_covers (wf : ty.Formed) (mem : ctor ∈ (getTypeConstructors env ty).constructors)
    (finite : (getTypeConstructors env ty).isInfinite = false) (fits : Ty.admitsAll ctor.argTypes args = true)
    {col : PatternColumn} (plain : col.isOr = false)
    (keeps : kept avoid col ty = true) (covers : col.covers true (ty.build ctor args) = true) :
    PatternColumn.coversAll true (expandColCtor ctor col) args = true := by
  have lengths := keptAll_length
    (expand_kept wf mem finite plain keeps (matches_of_covers wf mem col keeps covers)).2
  rw [← Ty.admitsAll_length fits] at lengths
  cases col with
  | wildcard =>
    show PatternColumn.coversAll true (List.replicate ctor.argTypes.length .wildcard) args = true
    rw [← Ty.admitsAll_length fits]
    exact coversAll_wildcards args
  | literal lit =>
    have empty : args = [] := by
      cases lit <;> exact eq_nil_of_length_eq_zero lengths.symm
    subst empty
    cases lit <;> rfl
  | range start finish inclusive | and conjuncts | guarded inner => cases wf <;> cases keeps
  | or alts => cases plain
  | tuple cols =>
    cases wf with
    | bool | int | variant some distinct each => cases keeps
    | tuple several each => exact covers
  | constructor name cols =>
    cases wf with
    | bool | int | tuple several each => cases keeps
    | variant some distinct each =>
      rcases mem_map.mp mem with ⟨v, inside, rfl⟩
      rw [Constructor.ofVariant_argTypes] at fits
      have sameLength : cols.length = args.length := lengths
      show PatternColumn.coversAll true cols args = true
      match args with
      | [] =>
        rw [eq_nil_of_length_eq_zero sameLength]
        rfl
      | [pl] =>
        unfold Ty.build PatternColumn.covers at covers
        rw [Bool.and_eq_true, sameLength] at covers
        exact covers.2
      | _ :: _ :: _ =>
        have short := Ty.admitsAll_length fits
        split at short <;> simp at short

theorem orKept_finds {alts : List PatternColumn} {alt : PatternColumn} (wf : ty.Formed)
    (mem : ctor ∈ (getTypeConstructors env ty).constructors) (hk : orKept ty alts = true)
    (several : ctor.argTypes ≠ []) (hin : alt ∈ alts) (matching : matchesColCtor ctor alt = true) :
    ∃ fst, alts.find? (matchesColCtor ctor) = some fst ∧
      (fst.isWildcard = true ∨ fst = alt ∧ alt.isOr = false) := by
  cases hit : alts.find? (matchesColCtor ctor) with
  | none =>
    have other := List.find?_eq_none.mp hit alt hin
    exact absurd matching other
  | some fst =>
    refine ⟨fst, rfl, ?_⟩
    cases wf with
    | bool => rcases mem_pair.mp mem with rfl | rfl <;> exact absurd rfl several
    | int =>
      rw [mem_singleton.mp mem] at several
      exact absurd rfl several
    | @tuple elems _ _ =>
      have eq := mem_singleton.mp mem
      subst eq
      have wild : (elems.isEmpty || (alts.find? (matchesColCtor (.withArgs "()" elems))).all
          (·.isWildcard)) = true := hk
      rw [hit, Bool.or_eq_true] at wild
      rcases wild with empty | top
      · exact absurd (isEmpty_iff.mp empty) several
      · exact .inl top
    | variant _ _ _ =>
      rcases mem_map.mp mem with ⟨v, hw, rfl⟩
      have keepsV := all_eq_true.mp hk v hw
      rw [Constructor.ofVariant_argTypes] at several
      cases unit : v.2.isUnit with
      | true =>
        rw [unit, if_pos rfl] at several
        exact absurd rfl several
      | false =>
        rw [unit, Bool.false_or] at keepsV
        have head := List.head?_filter (p := matchesColCtor (.ofVariant v)) (l := alts)
        rw [hit] at head
        cases matched : alts.filter (matchesColCtor (.ofVariant v)) with
        | nil =>
          rw [matched] at head
          cases head
        | cons top others =>
          rw [matched] at head
          cases head
          unfold keepsFirst at keepsV
          rw [matched] at keepsV
          rw [Bool.and_eq_true, Bool.or_eq_true, Bool.not_eq_true'] at keepsV
          rcases keepsV.2 with fst | only
          · exact .inl fst
          · have among : alt ∈ alts.filter (matchesColCtor (.ofVariant v)) :=
              mem_filter.mpr ⟨hin, matching⟩
            rw [matched, isEmpty_iff.mp only] at among
            have eq := mem_singleton.mp among
            subst eq
            exact .inr ⟨rfl, keepsV.1⟩

theorem keptEach_mem {alts : List PatternColumn} (hk : keptEach avoid alts ty = true)
    {alt : PatternColumn} (hin : alt ∈ alts) : kept avoid alt ty = true := by
  induction alts with
  | nil => cases hin
  | cons fst alts ih =>
    unfold keptEach at hk
    rw [Bool.and_eq_true] at hk
    rcases mem_cons.mp hin with rfl | hl
    · exact hk.1
    · exact ih hk.2 hl

theorem coversAny_mem {alts : List PatternColumn} {v : Value} :
    PatternColumn.coversAny true alts v = true ↔ ∃ alt ∈ alts, alt.covers true v = true := by
  induction alts with
  | nil => exact ⟨nofun, nofun⟩
  | cons fst alts ih =>
    unfold PatternColumn.coversAny
    rw [Bool.or_eq_true, ih, exists_mem_cons_iff]

theorem expand_nullary (wf : ty.Formed) (mem : ctor ∈ (getTypeConstructors env ty).constructors)
    (nullary : ctor.argTypes = []) {col : PatternColumn} (keeps : kept avoid col ty = true)
    (matching : matchesColCtor ctor col = true) : expandColCtor ctor col = [] := by
  cases col with
  | wildcard =>
    show List.replicate ctor.argTypes.length _ = []
    rw [nullary]
    rfl
  | literal lit => cases lit <;> rfl
  | range start finish inclusive | and conjuncts | or alts => rfl
  | guarded inner => cases wf <;> cases keeps
  | tuple cols =>
    cases wf with
    | bool | int | variant some distinct each => cases keeps
    | @tuple elems several each =>
      rw [mem_singleton.mp mem] at nullary
      have empty : elems = [] := nullary
      have lengths := keptAll_length (show keptAll avoid cols elems = true from keeps)
      rw [empty] at lengths
      exact eq_nil_of_length_eq_zero lengths
  | constructor name cols =>
    cases wf with
    | bool | int | tuple several each => cases keeps
    | variant some distinct each =>
      rcases mem_map.mp mem with ⟨v, inside, rfl⟩
      have same : name = v.1 := by
        rw [← Constructor.ofVariant_name v]
        exact beq_iff_eq.mp matching
      unfold kept at keeps
      rw [same, find_variant distinct inside] at keeps
      rw [Constructor.ofVariant_argTypes] at nullary
      have lengths := keptAll_length (show keptAll avoid cols (if v.2.isUnit then [] else [v.2]) = true from keeps)
      rw [nullary] at lengths
      exact eq_nil_of_length_eq_zero lengths

theorem specializeFirst_covers (wf : ty.Formed) (mem : ctor ∈ (getTypeConstructors env ty).constructors)
    (finite : (getTypeConstructors env ty).isInfinite = false) (hf : Ty.admitsAll ctor.argTypes args = true)
    {col : PatternColumn} (hk : kept avoid col ty = true)
    (covers : col.covers true (ty.build ctor args) = true) :
    ∃ expanded, specializeFirst ctor false col = some (expanded, false) ∧
      keptAll avoid expanded ctor.argTypes = true ∧ PatternColumn.coversAll true expanded args = true := by
  cases plain : col.isOr with
  | false =>
    have matching := matches_of_covers wf mem col hk covers
    rcases expand_kept wf mem finite plain hk matching with ⟨arguments, inner⟩
    have covered := expand_covers wf mem finite hf plain hk covers
    have step : specializeFirst ctor false col = (plainArguments ctor col).map (·, false) := by
      cases col with
      | or alts => cases plain
      | guarded inner => cases wf <;> cases hk
      | _ => rfl
    refine ⟨_, ?_, inner, covered⟩
    rw [step, arguments]
    rfl
  | true =>
    cases col with
    | or alts =>
      unfold kept at hk
      rw [Bool.and_eq_true] at hk
      rcases coversAny_mem.mp covers with ⟨alt, hin, covered⟩
      have keepsAlt := keptEach_mem hk.1 hin
      have matching := matches_of_covers wf mem alt keepsAlt covered
      by_cases nullary : ctor.argTypes = []
      · cases hit : alts.find? (matchesColCtor ctor) with
        | none => exact absurd matching (List.find?_eq_none.mp hit alt hin)
        | some fst =>
          have matchingFirst : matchesColCtor ctor fst = true := by
            have this := List.find?_some hit
            exact this
          have empty := expand_nullary wf mem nullary
            (keptEach_mem hk.1 (mem_of_find?_eq_some hit)) matchingFirst
          rw [nullary] at hf ⊢
          have none : args = [] := eq_nil_of_length_eq_zero (Ty.admitsAll_length hf)
          subst none
          refine ⟨[], ?_, rfl, rfl⟩
          show (alts.find? (matchesColCtor ctor)).map (fun alt => (expandColCtor ctor alt, false)) = _
          rw [hit, ← empty]
          rfl
      · rcases orKept_finds wf mem hk.2 nullary hin matching with ⟨fst, hit, way⟩
        refine ⟨expandColCtor ctor fst, ?_, ?_⟩
        · show (alts.find? (matchesColCtor ctor)).map (fun alt => (expandColCtor ctor alt, false)) = _
          rw [hit]
          rfl
        · rcases way with wild | ⟨rfl, single⟩
          · cases fst with
            | wildcard =>
              have keepsWild : kept avoid .wildcard ty = true := kept_wildcard ty
              exact ⟨keptAll_wildcards _, expand_covers wf mem finite hf rfl keepsWild rfl⟩
            | _ => cases wild
          · exact ⟨(expand_kept wf mem finite single keepsAlt matching).2,
              expand_covers wf mem finite hf single keepsAlt covered⟩
    | _ => cases plain

theorem specializeFirst_kept (wf : ty.Formed) (mem : ctor ∈ (getTypeConstructors env ty).constructors)
    (finite : (getTypeConstructors env ty).isInfinite = false) {col : PatternColumn}
    (hk : kept avoid col ty = true) {expanded : List PatternColumn} {guarded : Bool}
    (step : specializeFirst ctor false col = some (expanded, guarded)) :
    guarded = false ∧ keptAll avoid expanded ctor.argTypes = true := by
  cases plain : col.isOr with
  | false =>
    have eq : specializeFirst ctor false col = (plainArguments ctor col).map (·, false) := by
      cases col with
      | or alts => cases plain
      | guarded inner => cases wf <;> cases hk
      | _ => rfl
    rw [eq] at step
    rcases Option.map_eq_some_iff.mp step with ⟨args, hit, pair⟩
    cases pair
    rcases plainArguments_eq hit with ⟨matching, rfl⟩
    exact ⟨rfl, (expand_kept wf mem finite plain hk matching).2⟩
  | true =>
    cases col with
    | or alts =>
      unfold kept at hk
      rw [Bool.and_eq_true] at hk
      rcases Option.map_eq_some_iff.mp step with ⟨fst, hit, pair⟩
      cases pair
      refine ⟨rfl, ?_⟩
      have hin := mem_of_find?_eq_some hit
      have keepsFirst := keptEach_mem hk.1 hin
      have matching : matchesColCtor ctor fst = true := by
        have this := List.find?_some hit
        exact this
      by_cases nullary : ctor.argTypes = []
      · rw [expand_nullary wf mem nullary keepsFirst matching, nullary]
        rfl
      · rcases orKept_finds wf mem hk.2 nullary hin matching with ⟨other, again, way⟩
        rw [hit] at again
        cases again
        rcases way with wild | ⟨-, single⟩
        · cases fst with
          | wildcard => exact keptAll_wildcards _
          | _ => cases wild
        · exact (expand_kept wf mem finite single keepsFirst matching).2
    | _ => cases plain

end

mutual

def Value.eachInt (P : Int → Prop) : Value → Prop
  | .int value => P value
  | .tuple elements => Value.eachIntAll P elements
  | .variant _ payload => payload.eachInt P
  | _ => True

def Value.eachIntAll (P : Int → Prop) : List Value → Prop
  | [] => True
  | value :: values => value.eachInt P ∧ Value.eachIntAll P values

end

mutual

theorem Value.eachInt_mono {P Q : Int → Prop} (wider : ∀ i, P i → Q i) (v : Value) (each : v.eachInt P) :
    v.eachInt Q := by
  match v with
  | .int v => exact wider v each
  | .bool _ | .text _ => trivial
  | .tuple elems => exact Value.eachIntAll_mono wider elems each
  | .variant _ pl => exact Value.eachInt_mono wider pl each

theorem Value.eachIntAll_mono {P Q : Int → Prop} (wider : ∀ i, P i → Q i) (vs : List Value)
    (each : Value.eachIntAll P vs) : Value.eachIntAll Q vs := by
  match vs with
  | [] => trivial
  | v :: vs => exact ⟨Value.eachInt_mono wider v each.1, Value.eachIntAll_mono wider vs each.2⟩

end

section

variable {env : TypeEnv} {ty : Ty} {ctor : Constructor} {P : Int → Prop} {fresh : Int}

theorem Value.eachIntAll_append {front back : List Value} :
    Value.eachIntAll P (front ++ back) ↔ Value.eachIntAll P front ∧ Value.eachIntAll P back := by
  induction front with
  | nil => exact ⟨fun each => ⟨trivial, each⟩, fun each => each.2⟩
  | cons v front ih =>
    show v.eachInt P ∧ Value.eachIntAll P (front ++ back) ↔ (v.eachInt P ∧ Value.eachIntAll P front) ∧ _
    rw [ih, and_assoc]

theorem Ty.build_eachInt {args : List Value} (each : Value.eachIntAll P args) : (ty.build ctor args).eachInt P := by
  cases ty with
  | tuple elems => exact each
  | variant variants =>
    match args with
    | [] | _ :: _ :: _ => trivial
    | [pl] => exact each.1
  | _ => trivial

theorem Ty.inhabitedAll {tys : List Ty}
    (each : ∀ ty ∈ tys, ∃ v, ty.admits v = true ∧ v.eachInt (· = fresh)) :
    ∃ vs, Ty.admitsAll tys vs = true ∧ Value.eachIntAll (· = fresh) vs := by
  induction tys with
  | nil => exact ⟨[], rfl, trivial⟩
  | cons ty tys ih =>
    rcases each ty (.head _) with ⟨v, hf, ints⟩
    rcases ih fun ty mem => each ty (.tail _ mem) with ⟨vs, fitsAll, intsAll⟩
    refine ⟨v :: vs, ?_, ints, intsAll⟩
    unfold Ty.admitsAll
    rw [hf, fitsAll]
    rfl

theorem Ty.Formed.inhabited (wf : ty.Formed) (fresh : Int) :
    ∃ value, ty.admits value = true ∧ value.eachInt (· = fresh) := by
  induction wf with
  | bool => exact ⟨.bool true, rfl, trivial⟩
  | int => exact ⟨.int fresh, rfl, rfl⟩
  | tuple _ _ ih =>
    rcases Ty.inhabitedAll ih with ⟨vs, hf, ints⟩
    exact ⟨.tuple vs, hf, ints⟩
  | @variant variants some _ _ ih =>
    rcases exists_mem_of_ne_nil _ some with ⟨v, mem⟩
    cases unit : v.2.isUnit with
    | true => exact ⟨.variant v.1 (.tuple []), Ty.admitsVariant_of_mem mem (Ty.isUnit_admits unit rfl), trivial⟩
    | false =>
      rcases ih v mem unit with ⟨pl, hf, ints⟩
      exact ⟨.variant v.1 pl, Ty.admitsVariant_of_mem mem hf, ints⟩

theorem Ty.Formed.argTypes (wf : ty.Formed) (mem : ctor ∈ (getTypeConstructors env ty).constructors) :
    ∀ arg ∈ ctor.argTypes, arg.Formed := by
  cases wf with
  | bool => rcases mem_pair.mp mem with rfl | rfl <;> exact nofun
  | int =>
    rw [mem_singleton.mp mem]
    exact nofun
  | tuple _ each =>
    rw [mem_singleton.mp mem]
    exact each
  | variant _ _ each =>
    rcases mem_map.mp mem with ⟨v, hin, rfl⟩
    rw [Constructor.ofVariant_argTypes]
    cases unit : v.2.isUnit with
    | true => exact nofun
    | false =>
      intro arg here
      rw [mem_singleton.mp here]
      exact each v hin unit

mutual

theorem collectNumericCoverage_keeps (col : PatternColumn) {coverage : NumericCoverage}
    (wild : coverage.hasWildcard = true) : (collectNumericCoverage col coverage).hasWildcard = true := by
  match col with
  | .wildcard => rfl
  | .literal (.int _) | .literal (.bool _) | .literal (.text _) | .range _ _ _ | .guarded _ | .tuple _
  | .constructor _ _ => exact wild
  | .or alts | .and alts => exact collectEachNumeric_keeps alts wild

theorem collectEachNumeric_keeps (cols : List PatternColumn) {coverage : NumericCoverage}
    (wild : coverage.hasWildcard = true) : (collectEachNumeric cols coverage).hasWildcard = true := by
  match cols with
  | [] => exact wild
  | col :: cols => exact collectEachNumeric_keeps cols (collectNumericCoverage_keeps col wild)

end

mutual

theorem covers_fresh (col : PatternColumn) {coverage : NumericCoverage}
    (hk : kept (· == fresh) col .int = true)
    (bare : (collectNumericCoverage col coverage).hasWildcard = false) :
    col.covers true (.int fresh) = false := by
  match col with
  | .wildcard => cases bare
  | .literal (.int v) =>
    have other : (!(v == fresh)) = true := hk
    show (v == fresh) = false
    rw [Bool.not_eq_true'] at other
    exact other
  | .literal (.bool _) | .literal (.text _) | .range _ _ _ | .and _ | .guarded _ | .tuple _ | .constructor _ _ =>
    cases hk
  | .or alts =>
    unfold kept at hk
    rw [Bool.and_eq_true] at hk
    exact coversAny_fresh alts hk.1 bare

theorem coversAny_fresh (cols : List PatternColumn) {coverage : NumericCoverage}
    (hk : keptEach (· == fresh) cols .int = true)
    (bare : (collectEachNumeric cols coverage).hasWildcard = false) :
    PatternColumn.coversAny true cols (.int fresh) = false := by
  match cols with
  | [] => rfl
  | col :: cols =>
    unfold keptEach at hk
    rw [Bool.and_eq_true] at hk
    have fst : (collectNumericCoverage col coverage).hasWildcard = false := by
      by_contra wild
      rw [Bool.not_eq_false] at wild
      have still := collectEachNumeric_keeps cols wild
      rw [show (collectEachNumeric cols (collectNumericCoverage col coverage)).hasWildcard = false from bare] at still
      cases still
    unfold PatternColumn.coversAny
    rw [covers_fresh col hk.1 fst, coversAny_fresh cols hk.2 bare]
    rfl

end

theorem covers_fresh_of_kept {col : PatternColumn} (hk : kept (· == fresh) col .int = true)
    (bare : col.isWildcard = false) : col.covers true (.int fresh) = false := by
  cases col with
  | wildcard => cases bare
  | or alts =>
    have parts := hk
    unfold kept at parts
    rw [Bool.and_eq_true] at parts
    have wild : (!(collectEachNumeric alts .none).hasWildcard) = true := parts.2
    rw [Bool.not_eq_true'] at wild
    exact coversAny_fresh alts parts.1 wild
  | literal lit =>
    cases lit with
    | int v =>
      have none : (collectNumericCoverage (.literal (.int v)) .none).hasWildcard = false := rfl
      exact covers_fresh (.literal (.int v)) hk none
    | bool v | text v => cases hk
  | _ => cases hk

theorem allConstructors_false {check : Constructor → Option Bool} {ctors : List Constructor}
    (stopped : allConstructors check ctors = some false) : ∃ ctor ∈ ctors, check ctor = some false := by
  induction ctors with
  | nil => cases stopped
  | cons fst ctors ih =>
    unfold allConstructors at stopped
    cases answer : check fst with
    | none =>
      rw [answer] at stopped
      cases stopped
    | some covered =>
      rw [answer] at stopped
      cases covered with
      | true =>
        rcases ih stopped with ⟨ctor, mem, uncovered⟩
        exact ⟨ctor, .tail _ mem, uncovered⟩
      | false => exact ⟨fst, .head _, answer⟩

/-- The rows that the recursion works on: no guards, and columns that are kept. -/
def KeptRow (fresh : Int) (tys : List Ty) (row : PatternRow) : Prop :=
  row.hasGuard = false ∧ keptAll (· == fresh) row.columns tys = true

theorem KeptRow.cons {tys : List Ty} {row : PatternRow} (hk : KeptRow fresh (ty :: tys) row) :
    ∃ fst rest, row.columns = fst :: rest ∧ kept (· == fresh) fst ty = true ∧
      keptAll (· == fresh) rest tys = true := by
  rcases hk with ⟨-, cols⟩
  cases shape : row.columns with
  | nil =>
    rw [shape] at cols
    cases cols
  | cons fst rest =>
    rw [shape] at cols
    unfold keptAll at cols
    rw [Bool.and_eq_true] at cols
    exact ⟨fst, rest, rfl, cols.1, cols.2⟩

theorem not_any_unguarded {rows : List PatternRow} {tys : List Ty} (hk : ∀ row ∈ rows, KeptRow fresh tys row)
    (none : (rows.any fun row => !row.hasGuard) = false) : rows = [] := by
  cases rows with
  | nil => rfl
  | cons row rows =>
    have guarded := any_eq_false.mp none row (.head _)
    rw [(hk row mem_cons_self).1] at guarded
    exact absurd rfl guarded

theorem keptRow_wildcards {tys : List Ty} {rows : List PatternRow}
    (hk : ∀ row ∈ rows, KeptRow fresh (ty :: tys) row) :
    ∀ row ∈ (rows.filter fun row => (row.columns.head?.map (·.isWildcard)).getD false).map
      fun row => (⟨row.columns.drop 1, row.originalIndex, row.hasGuard⟩ : PatternRow), KeptRow fresh tys row := by
  intro row mem
  rcases mem_map.mp mem with ⟨src, hin, rfl⟩
  have keepsSource := hk src (mem_filter.mp hin).1
  rcases keepsSource.cons with ⟨fst, rest, shape, -, keepsRest⟩
  refine ⟨keepsSource.1, ?_⟩
  show keptAll (· == fresh) (src.columns.drop 1) tys = true
  rw [shape]
  exact keepsRest

theorem keptRow_specialize {tys : List Ty} {rows : List PatternRow} (wf : ty.Formed)
    (mem : ctor ∈ (getTypeConstructors env ty).constructors)
    (finite : (getTypeConstructors env ty).isInfinite = false)
    (hk : ∀ row ∈ rows, KeptRow fresh (ty :: tys) row) :
    ∀ row ∈ specializeFirstColumn ctor rows, KeptRow fresh (ctor.argTypes ++ tys) row := by
  intro row hin
  rcases mem_filterMap.mp hin with ⟨src, hw, step⟩
  have keepsSource := hk src hw
  rcases keepsSource.cons with ⟨fst, rest, shape, keepsFirst, keepsRest⟩
  rw [shape, keepsSource.1] at step
  rcases Option.map_eq_some_iff.mp step with ⟨⟨expanded, guarded⟩, hit, rfl⟩
  rcases specializeFirst_kept wf mem finite keepsFirst hit with ⟨rfl, keepsExpanded⟩
  exact ⟨rfl, keptAll_append keepsExpanded keepsRest⟩

theorem Ty.admitsAll_append {front back : List Ty} {vs : List Value}
    (hf : Ty.admitsAll (front ++ back) vs = true) :
    ∃ fst snd, vs = fst ++ snd ∧ Ty.admitsAll front fst = true ∧ Ty.admitsAll back snd = true := by
  induction front generalizing vs with
  | nil => exact ⟨[], vs, rfl, rfl, hf⟩
  | cons ty front ih =>
    cases vs with
    | nil => cases hf
    | cons v vs =>
      have parts : (ty.admits v && Ty.admitsAll (front ++ back) vs) = true := hf
      rw [Bool.and_eq_true] at parts
      rcases ih parts.2 with ⟨fst, snd, rfl, fitsFirst, fitsSecond⟩
      refine ⟨v :: fst, snd, rfl, ?_, fitsSecond⟩
      unfold Ty.admitsAll
      rw [parts.1, fitsFirst]
      rfl

theorem uncovered_values (fresh : Int) (fuel : Nat) {rows : List PatternRow} {tys : List Ty}
    (wf : ∀ ty ∈ tys, ty.Formed) (hk : ∀ row ∈ rows, KeptRow fresh tys row)
    (gap : isSpecializedMatrixExhaustive env fuel rows tys = some false) :
    ∃ vs, Ty.admitsAll tys vs = true ∧ Value.eachIntAll (· = fresh) vs ∧
      ∀ row ∈ rows, PatternColumn.coversAll true row.columns vs = false := by
  induction fuel generalizing rows tys with
  | zero => cases gap
  | succ fuel ih =>
    have noRows : rows = [] → ∃ vs, Ty.admitsAll tys vs = true ∧ Value.eachIntAll (· = fresh) vs ∧
        ∀ row ∈ rows, PatternColumn.coversAll true row.columns vs = false := by
      intro empty
      rcases Ty.inhabitedAll fun ty mem => (wf ty mem).inhabited fresh with ⟨vs, hf, ints⟩
      rw [empty]
      exact ⟨vs, hf, ints, nofun⟩
    cases tys with
    | nil => exact noRows (not_any_unguarded hk (Option.some.inj gap))
    | cons ty tys =>
      have formedTy := wf ty (.head _)
      have formedTys : ∀ ty ∈ tys, ty.Formed := fun ty mem => wf ty (.tail _ mem)
      rw [isSpecializedMatrixExhaustive] at gap
      split at gap
      · exact noRows (not_any_unguarded hk (Option.some.inj gap))
      · split at gap
        · cases gap
        · dsimp only at gap
          split at gap
          · next infinite =>
            cases formedTy with
            | bool | tuple _ _ | variant _ _ _ => cases infinite
            | int =>
              -- an integer that is no literal leaves only the rows with a wildcard in front
              have beside : ∀ row ∈ rows, ∀ vs, (row.columns.head?.map (·.isWildcard)).getD false = false →
                  PatternColumn.coversAll true row.columns (.int fresh :: vs) = false := by
                intro row mem vs bare
                rcases (hk row mem).cons with ⟨fst, rest, shape, keepsFirst, -⟩
                rw [shape] at bare ⊢
                unfold PatternColumn.coversAll
                rw [covers_fresh_of_kept keepsFirst bare]
                rfl
              split at gap
              · rcases ih formedTys (keptRow_wildcards hk) gap with ⟨vs, hf, ints, uncovered⟩
                refine ⟨.int fresh :: vs, ?_, ⟨rfl, ints⟩, ?_⟩
                · unfold Ty.admitsAll
                  rw [hf]
                  rfl
                · intro row mem
                  cases wild : (row.columns.head?.map (·.isWildcard)).getD false with
                  | false => exact beside row mem vs wild
                  | true =>
                    rcases (hk row mem).cons with ⟨fst, rest, shape, -, -⟩
                    have hl := uncovered _ (mem_map.mpr ⟨row, mem_filter.mpr ⟨mem, wild⟩, rfl⟩)
                    rw [shape] at hl ⊢
                    unfold PatternColumn.coversAll
                    rw [show PatternColumn.coversAll true rest vs = false from hl, Bool.and_false]
              · next none =>
                rcases Ty.inhabitedAll fun ty mem => (formedTys ty mem).inhabited fresh with
                  ⟨vs, hf, ints⟩
                refine ⟨.int fresh :: vs, ?_, ⟨rfl, ints⟩, ?_⟩
                · unfold Ty.admitsAll
                  rw [hf]
                  rfl
                · intro row mem
                  apply beside row mem vs
                  rw [Bool.not_eq_true] at none
                  have this := any_eq_false.mp none row mem
                  rw [(hk row mem).1] at this
                  exact Bool.not_eq_true _ ▸ this
          · next finite =>
            rw [Bool.not_eq_true] at finite
            rcases allConstructors_false gap with ⟨ctor, mem, gap⟩
            have formedArgs : ∀ arg ∈ ctor.argTypes ++ tys, arg.Formed := by
              intro arg hin
              rcases mem_append.mp hin with fst | hl
              · exact formedTy.argTypes mem arg fst
              · exact formedTys arg hl
            rcases ih formedArgs (keptRow_specialize formedTy mem finite hk) gap with
              ⟨vs, hf, ints, uncovered⟩
            rcases Ty.admitsAll_append hf with ⟨args, rest, rfl, fitsArgs, fitsRest⟩
            rw [Value.eachIntAll_append] at ints
            refine ⟨ty.build ctor args :: rest, ?_, ⟨Ty.build_eachInt ints.1, ints.2⟩, ?_⟩
            · unfold Ty.admitsAll
              rw [Ty.build_admits formedTy mem finite fitsArgs, fitsRest]
              rfl
            · intro row hin
              by_contra covered
              rcases (hk row hin).cons with ⟨fst, others, shape, keepsFirst, keepsRest⟩
              rw [Bool.not_eq_false, shape] at covered
              unfold PatternColumn.coversAll at covered
              rw [Bool.and_eq_true] at covered
              rcases specializeFirst_covers formedTy mem finite fitsArgs keepsFirst covered.1 with
                ⟨expanded, step, -, coversArgs⟩
              have left : PatternRow.mk (expanded ++ others) row.originalIndex false ∈
                  specializeFirstColumn ctor rows := by
                apply mem_filterMap.mpr
                refine ⟨row, hin, ?_⟩
                rw [shape, (hk row hin).1]
                dsimp only
                rw [step]
                rfl
              have missed := uncovered _ left
              rw [show PatternColumn.coversAll true (expanded ++ others) (args ++ rest) = true from
                coversAll_append coversArgs covered.2] at missed
              cases missed

end

end Exhaustiveness
