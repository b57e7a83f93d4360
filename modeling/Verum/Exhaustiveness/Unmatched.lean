import Verum.Exhaustiveness.GapReports

open List

namespace Exhaustiveness

mutual

/-- The patterns without guards, conjunctions and ranges; a constructor's name is an identifier. -/
def Pattern.plain : Pattern → Bool
  | .wildcard => true
  | .literal _ => true
  | .tuple elements => Pattern.allPlain elements
  | .variant name args => name != "()" && Pattern.allPlain args
  | .or alternatives => Pattern.allPlain alternatives
  | _ => false

def Pattern.allPlain : List Pattern → Bool
  | [] => true
  | pattern :: patterns => pattern.plain && Pattern.allPlain patterns

end

mutual

def PatternColumn.plain : PatternColumn → Bool
  | .wildcard => true
  | .literal _ => true
  | .tuple elements => PatternColumn.allPlain elements
  | .constructor name args => name != "()" && PatternColumn.allPlain args
  | .or alternatives => PatternColumn.allPlain alternatives
  | _ => false

def PatternColumn.allPlain : List PatternColumn → Bool
  | [] => true
  | column :: columns => column.plain && PatternColumn.allPlain columns

end

mutual

theorem Pattern.plain_column (pattern : Pattern) (plain : pattern.plain = true) :
    (patternToColumn pattern).plain = true ∧ pattern.hasGuard = false := by
  match pattern with
  | .wildcard | .literal _ => exact ⟨rfl, rfl⟩
  | .tuple elems | .or elems => exact Pattern.allPlain_columns elems plain
  | .variant name args =>
    have parts : (name != "()" && Pattern.allPlain args) = true := plain
    rw [Bool.and_eq_true] at parts
    rcases Pattern.allPlain_columns args parts.2 with ⟨cols, guards⟩
    refine ⟨?_, guards⟩
    show (name != "()" && PatternColumn.allPlain (patternsToColumns args)) = true
    rw [parts.1, cols]
    rfl
  | .range _ _ _ | .and _ | .guard _ => cases plain

theorem Pattern.allPlain_columns (patterns : List Pattern) (plain : Pattern.allPlain patterns = true) :
    PatternColumn.allPlain (patternsToColumns patterns) = true ∧ Pattern.anyHasGuard patterns = false := by
  match patterns with
  | [] => exact ⟨rfl, rfl⟩
  | pattern :: patterns =>
    have parts : (pattern.plain && Pattern.allPlain patterns) = true := plain
    rw [Bool.and_eq_true] at parts
    have here := Pattern.plain_column pattern parts.1
    have hl := Pattern.allPlain_columns patterns parts.2
    constructor
    · show ((patternToColumn pattern).plain && PatternColumn.allPlain (patternsToColumns patterns)) = true
      rw [here.1, hl.1]
      rfl
    · show (pattern.hasGuard || Pattern.anyHasGuard patterns) = false
      rw [here.2, hl.2]
      rfl

end

variable {pattern : Pattern} {patterns : List Pattern} {row : PatternRow} {ctor : Constructor}
  {expanded : List PatternColumn} {column : PatternColumn}

theorem patternRow_plain (plain : pattern.plain = true) (idx : Nat) :
    patternRow idx pattern = ⟨[patternToColumn pattern], idx, false⟩ := by
  have guards := (Pattern.plain_column pattern plain).2
  cases pattern with
  | guard inner => cases plain
  | _ =>
    show PatternRow.mk _ idx _ = _
    rw [guards]

theorem mem_buildMatrix (plain : ∀ pattern ∈ patterns, pattern.plain = true) : row ∈ buildMatrix patterns →
      ∃ pattern ∈ patterns, ∃ idx, row = ⟨[patternToColumn pattern], idx, false⟩ := by
  intro mem
  rcases mem_map.mp mem with ⟨⟨pattern, idx⟩, hin, rfl⟩
  have hw := fst_mem_of_mem_zipIdx hin
  exact ⟨pattern, hw, idx, patternRow_plain (plain pattern hw) idx⟩

theorem buildMatrix_mem (plain : ∀ pattern ∈ patterns, pattern.plain = true) (mem : pattern ∈ patterns) :
    ∃ idx, PatternRow.mk [patternToColumn pattern] idx false ∈ buildMatrix patterns := by
  rcases getElem_of_mem mem with ⟨idx, hb, eq⟩
  refine ⟨idx, mem_map.mpr ⟨(pattern, idx), ?_, patternRow_plain (plain pattern mem) idx⟩⟩
  rw [mem_zipIdx_iff_getElem?, ← eq]
  exact List.getElem?_eq_getElem hb

theorem mem_unguarded (plain : ∀ pattern ∈ patterns, pattern.plain = true) (mem : pattern ∈ patterns) :
    patternToColumn pattern ∈ CoverageMatrix.unguarded (buildMatrix patterns) := by
  rcases buildMatrix_mem plain mem with ⟨idx, hin⟩
  exact mem_filterMap.mpr ⟨_, hin, rfl⟩

theorem mem_specializeMatrix (plain : ∀ pattern ∈ patterns, pattern.plain = true) (mem : pattern ∈ patterns)
    (hit : (expanded, false) ∈ specializeColumn ctor false (patternToColumn pattern)) :
    ∃ idx, PatternRow.mk expanded idx false ∈ specializeMatrix ctor (buildMatrix patterns) := by
  rcases buildMatrix_mem plain mem with ⟨idx, hin⟩
  refine ⟨idx, mem_flatMap.mpr ⟨_, hin, mem_map.mpr ⟨_, hit, ?_⟩⟩⟩
  show PatternRow.mk (expanded ++ []) idx false = _
  rw [append_nil]

theorem specializeMatrix_mem (plain : ∀ pattern ∈ patterns, pattern.plain = true)
    (mem : row ∈ specializeMatrix ctor (buildMatrix patterns)) :
    ∃ pattern ∈ patterns, (row.columns, row.hasGuard) ∈ specializeColumn ctor false (patternToColumn pattern) := by
  rcases mem_flatMap.mp mem with ⟨src, hin, step⟩
  rcases mem_buildMatrix plain hin with ⟨pattern, hw, idx, rfl⟩
  rcases mem_map.mp step with ⟨⟨expanded, guarded⟩, hit, rfl⟩
  refine ⟨pattern, hw, ?_⟩
  show (expanded ++ [], guarded) ∈ _
  rw [append_nil]
  exact hit

theorem specializeColumn_unguarded (plain : column.plain = true) {guarded : Bool}
    (hit : (expanded, guarded) ∈ specializeColumn ctor false column) : guarded = false := by
  cases column with
  | wildcard =>
    cases mem_singleton.mp hit
    rfl
  | constructor name args =>
    have step : (expanded, guarded) ∈ if name == ctor.name then [(args, false)] else [] := hit
    split at step
    · cases mem_singleton.mp step
      rfl
    · cases step
  | literal lit =>
    cases lit with
    | bool v =>
      have step : (expanded, guarded) ∈ if ctor.name == boolName v || ctor.isDefault then [([], false)] else [] :=
        hit
      split at step
      · cases mem_singleton.mp step
        rfl
      · cases step
    | int _ | text _ => cases hit
  | tuple elems =>
    have step : (expanded, guarded) ∈ if ctor.name == "()" || ctor.isDefault then [(elems, false)] else [] := hit
    split at step
    · cases mem_singleton.mp step
      rfl
    · cases step
  | or alts =>
    rcases mem_map.mp hit with ⟨alt, -, same⟩
    cases same
    rfl
  | range _ _ _ | and _ | guarded _ => cases plain

theorem PatternColumn.allPlain_mem {cols : List PatternColumn} (plain : PatternColumn.allPlain cols = true)
    (mem : column ∈ cols) : column.plain = true := by
  induction cols with
  | nil => cases mem
  | cons fst cols ih =>
    have parts : (fst.plain && PatternColumn.allPlain cols) = true := plain
    rw [Bool.and_eq_true] at parts
    rcases mem_cons.mp mem with rfl | hl
    · exact parts.1
    · exact ih parts.2 hl

section

variable {env : TypeEnv} {ty : Ty} {ctor : Constructor} {args : List Value}

def Ty.structured : Ty → Bool
  | .tuple _ => true
  | .variant _ => true
  | _ => false

mutual

theorem matchesConstructor_of_covers (wf : ty.Formed) (structured : ty.structured = true)
    (mem : ctor ∈ (getTypeConstructors env ty).constructors) (column : PatternColumn)
    (plain : column.plain = true) (covers : column.covers true (ty.build ctor args) = true) :
    matchesConstructor ctor column = true := by
  match column with
  | .wildcard => rfl
  | .range _ _ _ | .and _ | .guarded _ => cases plain
  | .literal lit =>
    cases wf with
    | bool | int => cases structured
    | tuple _ _ => cases lit <;> cases covers
    | variant _ _ _ =>
      rcases Ty.build_variant with ⟨pl, made⟩
      rw [made] at covers
      cases lit <;> cases covers
  | .tuple _ =>
    cases wf with
    | bool | int => cases structured
    | tuple _ _ =>
      rw [mem_singleton.mp mem]
      rfl
    | variant _ _ _ =>
      rcases Ty.build_variant with ⟨pl, made⟩
      rw [made] at covers
      cases covers
  | .constructor name _ =>
    cases wf with
    | bool | int => cases structured
    | tuple _ _ => cases covers
    | variant _ _ _ =>
      rcases Ty.build_variant with ⟨pl, made⟩
      rw [made] at covers
      unfold PatternColumn.covers at covers
      rw [Bool.and_eq_true] at covers
      unfold matchesConstructor
      rw [covers.1]
      rfl
  | .or alts => exact matchesAny_of_coversAny wf structured mem alts plain covers

theorem matchesAny_of_coversAny (wf : ty.Formed) (structured : ty.structured = true)
    (mem : ctor ∈ (getTypeConstructors env ty).constructors) (cols : List PatternColumn)
    (plain : PatternColumn.allPlain cols = true)
    (covers : PatternColumn.coversAny true cols (ty.build ctor args) = true) : matchesAny ctor cols = true := by
  match cols with
  | [] => cases covers
  | column :: cols =>
    have parts : (column.plain && PatternColumn.allPlain cols) = true := plain
    rw [Bool.and_eq_true] at parts
    unfold PatternColumn.coversAny at covers
    unfold matchesAny
    rw [Bool.or_eq_true] at covers ⊢
    rcases covers with here | hl
    · exact .inl (matchesConstructor_of_covers wf structured mem column parts.1 here)
    · exact .inr (matchesAny_of_coversAny wf structured mem cols parts.2 hl)

end

variable {column : PatternColumn}

theorem expandAlternative_covers (wf : ty.Formed) (structured : ty.structured = true)
    (mem : ctor ∈ (getTypeConstructors env ty).constructors) (fits : Ty.admitsAll ctor.argTypes args = true)
    (plain : column.plain = true) (covers : column.covers true (ty.build ctor args) = true)
    (lengths : (expandAlternative ctor column).length = ctor.argTypes.length) :
    PatternColumn.coversAll true (expandAlternative ctor column) args = true := by
  rw [← Ty.admitsAll_length fits] at lengths
  cases column with
  | wildcard =>
    show PatternColumn.coversAll true (List.replicate ctor.argTypes.length .wildcard) args = true
    rw [← Ty.admitsAll_length fits]
    exact coversAll_wildcards args
  | range _ _ _ | and _ | guarded _ => cases plain
  | or _ =>
    rw [eq_nil_of_length_eq_zero lengths.symm]
    rfl
  | literal lit =>
    have empty : args = [] := by
      cases lit <;> exact eq_nil_of_length_eq_zero lengths.symm
    subst empty
    cases lit <;> rfl
  | tuple cols =>
    cases wf with
    | bool | int => cases structured
    | tuple _ _ => exact covers
    | variant _ _ _ =>
      rcases Ty.build_variant with ⟨pl, made⟩
      rw [made] at covers
      cases covers
  | constructor name cols =>
    have sameLength : cols.length = args.length := lengths
    cases wf with
    | bool | int => cases structured
    | tuple _ _ => cases covers
    | variant _ _ _ =>
      rcases mem_map.mp mem with ⟨v, inside, rfl⟩
      rw [Constructor.ofVariant_argTypes] at fits
      show PatternColumn.coversAll true cols args = true
      match args with
      | [] =>
        rw [eq_nil_of_length_eq_zero sameLength]
        rfl
      | [pl] =>
        unfold Ty.build PatternColumn.covers at covers
        rw [Bool.and_eq_true, sameLength] at covers
        exact covers.2
      | _ :: _ :: _ =>
        have short := Ty.admitsAll_length fits
        split at short <;> simp at short

theorem specializeColumn_covers (wf : ty.Formed) (structured : ty.structured = true)
    (mem : ctor ∈ (getTypeConstructors env ty).constructors) (fits : Ty.admitsAll ctor.argTypes args = true)
    (plain : column.plain = true) (covers : column.covers true (ty.build ctor args) = true) :
    ∃ expanded, (expanded, false) ∈ specializeColumn ctor false column ∧
      (expanded.length = ctor.argTypes.length → PatternColumn.coversAll true expanded args = true) := by
  have matching := matchesConstructor_of_covers wf structured mem column plain covers
  have named : ctor.isDefault = false := by
    cases wf with
    | bool | int => cases structured
    | tuple _ _ =>
      rw [mem_singleton.mp mem]
      rfl
    | variant _ _ _ =>
      rcases mem_map.mp mem with ⟨v, -, rfl⟩
      cases unit : v.2.isUnit with
      | true =>
        rw [Constructor.ofVariant_unit unit]
        rfl
      | false =>
        rw [Constructor.ofVariant_payload unit]
        rfl
  have expands := fun c (plainC : PatternColumn.plain c = true) coversC =>
    expandAlternative_covers wf structured mem fits plainC coversC
  cases column with
  | range _ _ _ | and _ | guarded _ => cases plain
  | wildcard => exact ⟨_, mem_singleton.mpr rfl, expands _ plain covers⟩
  | constructor name cols =>
    have same : (name == ctor.name) = true := by
      unfold matchesConstructor at matching
      rw [named, Bool.or_false] at matching
      exact matching
    refine ⟨cols, ?_, expands _ plain covers⟩
    show (cols, false) ∈ if name == ctor.name then [(cols, false)] else []
    rw [if_pos same]
    exact mem_singleton.mpr rfl
  | literal lit =>
    cases lit with
    | bool value =>
      refine ⟨[], ?_, expands _ plain covers⟩
      have same : (ctor.name == boolName value || ctor.isDefault) = true := matching
      show ([], false) ∈ if ctor.name == boolName value || ctor.isDefault then [([], false)] else []
      rw [if_pos same]
      exact mem_singleton.mpr rfl
    | int _ | text _ =>
      have other : ctor.isDefault = true := matching
      rw [named] at other
      cases other
  | tuple elems =>
    refine ⟨elems, ?_, expands _ plain covers⟩
    have same : (ctor.name == "()" || ctor.isDefault) = true := matching
    show (elems, false) ∈ if ctor.name == "()" || ctor.isDefault then [(elems, false)] else []
    rw [if_pos same]
    exact mem_singleton.mpr rfl
  | or alts =>
    rcases coversAny_mem.mp covers with ⟨alt, inside, covered⟩
    have plainAlt := PatternColumn.allPlain_mem plain inside
    have matchingAlt := matchesConstructor_of_covers wf structured mem alt plainAlt covered
    exact ⟨_, mem_map.mpr ⟨alt, mem_filter.mpr ⟨inside, matchingAlt⟩, rfl⟩, expands _ plainAlt covered⟩

theorem exists_fresh (literals : List Int) : ∃ hf, hf ∉ literals := by
  rcases Infinite.exists_notMem_finset literals.toFinset with ⟨hf, other⟩
  exact ⟨hf, fun hin => other (mem_toFinset.mpr hin)⟩

theorem columnLiterals_mem {rows : List PatternRow} {row : PatternRow} (mem : row ∈ rows) {hf : Int}
    (other : hf ∉ rows.flatMap fun row => PatternColumn.allLiterals row.columns) :
    hf ∉ PatternColumn.allLiterals row.columns :=
  fun hin => other (mem_flatMap.mpr ⟨row, mem, hin⟩)

theorem uncovered_constructor (wf : ty.Formed) (structured : ty.structured = true)
    (mem : ctor ∈ (getTypeConstructors env ty).constructors) {patterns : List Pattern}
    (plain : ∀ pattern ∈ patterns, pattern.plain = true) (literals : List Int)
    (hk : ctor.argTypes = [] ∨ ∀ row ∈ specializeMatrix ctor (buildMatrix patterns),
      keptAll (fun _ => false) row.columns ctor.argTypes = true)
    {fuel : Nat} (gap : isConstructorCovered env fuel (buildMatrix patterns) ctor = some false) :
    ∃ args, Ty.admitsAll ctor.argTypes args = true ∧ Value.eachIntAll (· ∉ literals) args ∧
      ∀ pattern ∈ patterns, (patternToColumn pattern).covers true (ty.build ctor args) = false := by
  have unguarded : ∀ row ∈ specializeMatrix ctor (buildMatrix patterns), row.hasGuard = false := by
    intro row hin
    rcases specializeMatrix_mem plain hin with ⟨pattern, hw, hit⟩
    exact specializeColumn_unguarded (Pattern.plain_column pattern (plain pattern hw)).1 hit
  unfold isConstructorCovered at gap
  dsimp only at gap
  split at gap
  · cases gap
  · split at gap
    · next nullary =>
      have none := isEmpty_iff.mp nullary
      have missing := Option.some.inj gap
      refine ⟨[], by rw [none]; rfl, trivial, ?_⟩
      intro pattern hw
      by_contra covers
      rw [Bool.not_eq_false] at covers
      rcases specializeColumn_covers wf structured mem (by rw [none]; rfl)
        (Pattern.plain_column pattern (plain pattern hw)).1 covers with ⟨expanded, hit, -⟩
      rcases mem_specializeMatrix plain hw hit with ⟨idx, hin⟩
      exact any_eq_false.mp missing _ hin rfl
    · next several =>
      have keepsAll := hk.resolve_left fun none => several (isEmpty_iff.mpr none)
      rcases exists_fresh (literals ++ (specializeMatrix ctor (buildMatrix patterns)).flatMap
        fun row => PatternColumn.allLiterals row.columns) with ⟨fresh, other⟩
      rw [mem_append, not_or] at other
      have keepsRows : ∀ row ∈ specializeMatrix ctor (buildMatrix patterns), KeptRow fresh ctor.argTypes row :=
        fun row hin => ⟨unguarded row hin,
          keptAll_fresh row.columns (keepsAll row hin) (columnLiterals_mem hin other.2)⟩
      rcases uncovered_values fresh fuel (wf.argTypes mem) keepsRows gap with ⟨args, hf, ints, missed⟩
      refine ⟨args, hf, Value.eachIntAll_mono (fun i eq => eq ▸ other.1) args ints, ?_⟩
      intro pattern hw
      by_contra covers
      rw [Bool.not_eq_false] at covers
      rcases specializeColumn_covers wf structured mem hf
        (Pattern.plain_column pattern (plain pattern hw)).1 covers with ⟨expanded, hit, coversArgs⟩
      rcases mem_specializeMatrix plain hw hit with ⟨idx, hin⟩
      have uncovered := missed _ hin
      rw [coversArgs (keptAll_length (keepsAll _ hin))] at uncovered
      cases uncovered

end

end Exhaustiveness
