import Verum.Exhaustiveness.RangeCoverage

namespace Exhaustiveness

/-- Two patterns, by index, with the interval both match. -/
structure RangeOverlap where
  firstPatternIndex : Nat
  secondPatternIndex : Nat
  overlap : Interval
  isRedundant : Bool

structure RangeOverlapAnalysis where
  overlaps : List RangeOverlap
  redundantPatterns : List Nat
  uncoveredRanges : List Interval

def comparePair (first : Nat × Interval) (analysis : RangeOverlapAnalysis) (second : Nat × Interval) :
    RangeOverlapAnalysis :=
  match first.2.intersect second.2 with
  | some overlap =>
    let isRedundant := second.2.start ≥ first.2.start && second.2.finish ≤ first.2.finish
    { analysis with
      overlaps := analysis.overlaps ++ [⟨first.1, second.1, overlap, isRedundant⟩]
      redundantPatterns :=
        if isRedundant && !analysis.redundantPatterns.contains second.1 then
          analysis.redundantPatterns ++ [second.1]
        else analysis.redundantPatterns }
  | none => analysis

def comparePairs (analysis : RangeOverlapAnalysis) : List (Nat × Interval) → RangeOverlapAnalysis
  | [] => analysis
  | first :: rest => comparePairs (rest.foldl (comparePair first) analysis) rest

def analyzeRangeOverlaps (ranges : List (Nat × Interval)) : RangeOverlapAnalysis :=
  comparePairs ⟨[], [], []⟩ ranges

/-- `i64::MIN`. -/
def minI64 : Int := -2 ^ 63

/-- `i64::MAX`. -/
def maxI64 : Int := 2 ^ 63 - 1

/-- The interval of a range column; the flag of the range is not read. -/
def columnInterval : PatternColumn → Option Interval
  | .range start finish _ => some ⟨start.getD minI64, finish.getD maxI64⟩
  | _ => none

def rangesInMatrix (rows : List PatternRow) : List (Nat × Interval) :=
  rows.zipIdx.flatMap fun (row, index) =>
    row.columns.filterMap fun column => (columnInterval column).map fun interval => (index, interval)

def analyzeRangePatternsInMatrix (rows : List PatternRow) : Option RangeOverlapAnalysis :=
  let ranges := rangesInMatrix rows
  if ranges.isEmpty then none else some (analyzeRangeOverlaps ranges)

inductive ExhaustivenessWarningCode where
  | allGuarded
  | rangeOverlap
  | redundantRange
  deriving DecidableEq

/-- The values that a warning's message shows. -/
inductive WarningMessage where
  | allGuarded
  | rangeOverlap (firstIndex secondIndex : Nat) (overlapStart overlapEnd : Int)
  | redundantRange (redundantIndex coveringIndex : Nat)
  deriving DecidableEq

structure ExhaustivenessWarning where
  code : ExhaustivenessWarningCode
  message : WarningMessage
  patternIndex : Option Nat
  deriving DecidableEq

namespace ExhaustivenessWarning

def allGuarded : ExhaustivenessWarning := ⟨.allGuarded, .allGuarded, none⟩

def rangeOverlap (firstIndex secondIndex : Nat) (overlapStart overlapEnd : Int) : ExhaustivenessWarning :=
  ⟨.rangeOverlap, .rangeOverlap firstIndex secondIndex overlapStart overlapEnd, some secondIndex⟩

def redundantRange (redundantIndex coveringIndex : Nat) : ExhaustivenessWarning :=
  ⟨.redundantRange, .redundantRange redundantIndex coveringIndex, some redundantIndex⟩

end ExhaustivenessWarning

def RangeOverlap.warning (overlap : RangeOverlap) : ExhaustivenessWarning :=
  if overlap.isRedundant then .redundantRange overlap.secondPatternIndex overlap.firstPatternIndex
  else .rangeOverlap overlap.firstPatternIndex overlap.secondPatternIndex
    overlap.overlap.start overlap.overlap.finish

/-- The range overlaps and the warnings of `check_exhaustiveness`. -/
structure OverlapReport where
  rangeOverlaps : Option RangeOverlapAnalysis
  warnings : List ExhaustivenessWarning

def checkExhaustivenessWarnings (warnAllGuarded : Bool) (patterns : List Pattern) : OverlapReport :=
  if patterns.isEmpty then ⟨none, []⟩
  else
    let rows := buildMatrix patterns
    let allGuarded := rows.all (·.hasGuard)
    let rangeAnalysis := analyzeRangePatternsInMatrix rows
    ⟨rangeAnalysis,
      (if allGuarded && !rows.isEmpty && warnAllGuarded then [ExhaustivenessWarning.allGuarded] else []) ++
      match rangeAnalysis with
      | some analysis => analysis.overlaps.map RangeOverlap.warning
      | none => []⟩

def pairOverlap (first second : Nat × Interval) : Option RangeOverlap :=
  (first.2.intersect second.2).map fun overlap =>
    ⟨first.1, second.1, overlap,
      second.2.start ≥ first.2.start && second.2.finish ≤ first.2.finish⟩

theorem comparePair_overlaps (first second : Nat × Interval) (analysis : RangeOverlapAnalysis) :
    (comparePair first analysis second).overlaps =
      analysis.overlaps ++ (pairOverlap first second).toList := by
  unfold comparePair pairOverlap
  cases first.2.intersect second.2 with
  | none => simp
  | some overlap => rfl

variable {analysis : RangeOverlapAnalysis} {overlap : RangeOverlap}

theorem mem_comparePair_foldl {first : Nat × Interval} {rest : List (Nat × Interval)} :
    overlap ∈ (rest.foldl (comparePair first) analysis).overlaps ↔
      overlap ∈ analysis.overlaps ∨ ∃ second ∈ rest, pairOverlap first second = some overlap := by
  induction rest generalizing analysis with
  | nil => simp
  | cons second rest ih =>
    rw [List.foldl_cons, ih, comparePair_overlaps, List.mem_append, Option.mem_toList,
      List.exists_mem_cons_iff, or_assoc]

theorem mem_comparePairs {ranges : List (Nat × Interval)} :
    overlap ∈ (comparePairs analysis ranges).overlaps ↔ overlap ∈ analysis.overlaps ∨
      ∃ (i j : Nat) (first second : Nat × Interval), i < j ∧ ranges[i]? = some first ∧ ranges[j]? = some second ∧
        pairOverlap first second = some overlap := by
  induction ranges generalizing analysis with
  | nil => simp [comparePairs]
  | cons first rest ih =>
    rw [comparePairs, ih, mem_comparePair_foldl, or_assoc]
    apply or_congr_right
    constructor
    · rintro (⟨second, mem, pair⟩ | ⟨i, j, x, y, pre, atI, atJ, pair⟩)
      · obtain ⟨j, atJ⟩ := List.mem_iff_getElem?.mp mem
        exact ⟨0, j + 1, first, second, by omega, rfl, atJ, pair⟩
      · exact ⟨i + 1, j + 1, x, y, by omega, atI, atJ, pair⟩
    · rintro ⟨i, j, x, y, pre, atI, atJ, pair⟩
      cases j with
      | zero => omega
      | succ j =>
        rw [List.getElem?_cons_succ] at atJ
        cases i with
        | zero =>
          rw [List.getElem?_cons_zero, Option.some_inj] at atI
          exact .inl ⟨y, List.mem_of_getElem? atJ, atI ▸ pair⟩
        | succ i => exact .inr ⟨i, j, x, y, by omega, atI, atJ, pair⟩

namespace RangeBounds

def pattern (range : RangeBounds) : Pattern := .range range.start range.finish range.inclusive

def closed (range : RangeBounds) : Interval := ⟨range.start.getD minI64, range.finish.getD maxI64⟩

def HalfOpen (range : RangeBounds) : Prop := range.inclusive = false ∧ range.finish.isSome

instance (range : RangeBounds) : Decidable range.HalfOpen := inferInstanceAs (Decidable (_ ∧ _))

/-- The range matches a value of `i64`. -/
def Matches (range : RangeBounds) (value : Int) : Prop :=
  (minI64 ≤ value ∧ value ≤ maxI64) ∧ range.admits value = true

end RangeBounds

theorem rangesInMatrix_eq (ranges : List RangeBounds) (i : Nat) :
    (rangesInMatrix (buildMatrix (ranges.map RangeBounds.pattern)))[i]? =
      ranges[i]?.map fun hr => (i, hr.closed) := by
  have row : ∀ (idx : Nat) (hr : RangeBounds), patternRow idx hr.pattern =
      ⟨[.range hr.start hr.finish hr.inclusive], idx, false⟩ := fun _ _ => rfl
  have rows : (buildMatrix (ranges.map RangeBounds.pattern)).zipIdx = ranges.zipIdx.map fun (hr, idx) =>
      (⟨[.range hr.start hr.finish hr.inclusive], idx, false⟩, idx) := by
    apply List.ext_getElem?
    intro i
    simp only [buildMatrix, List.getElem?_zipIdx, List.getElem?_map, Option.map_map]
    cases ranges[i]? with
    | none => rfl
    | some hr => simp [row]
  have single : rangesInMatrix (buildMatrix (ranges.map RangeBounds.pattern)) =
      ranges.zipIdx.map fun (hr, idx) => (idx, hr.closed) := by
    rw [rangesInMatrix, rows, List.flatMap_map, List.map_eq_flatMap]
    rfl
  rw [single, List.getElem?_map, List.getElem?_zipIdx, Option.map_map]
  cases ranges[i]? with
  | none => rfl
  | some hr => simp

/-- The analysis that `check_exhaustiveness` reports for a list of ranges. -/
def overlapsOf (ranges : List RangeBounds) : List RangeOverlap :=
  match (checkExhaustivenessWarnings true (ranges.map RangeBounds.pattern)).rangeOverlaps with
  | some analysis => analysis.overlaps
  | none => []

def warningsOf (ranges : List RangeBounds) : List ExhaustivenessWarning :=
  (checkExhaustivenessWarnings true (ranges.map RangeBounds.pattern)).warnings

theorem mem_overlapsOf {ranges : List RangeBounds} :
    overlap ∈ overlapsOf ranges ↔ ∃ (i j : Nat) (first second : RangeBounds), i < j ∧
      ranges[i]? = some first ∧ ranges[j]? = some second ∧
      pairOverlap (i, first.closed) (j, second.closed) = some overlap := by
  cases ranges with
  | nil => simp [overlapsOf, checkExhaustivenessWarnings]
  | cons hr rest =>
    have start := rangesInMatrix_eq (hr :: rest)
    have listed : (rangesInMatrix (buildMatrix ((hr :: rest).map RangeBounds.pattern))).isEmpty = false := by
      cases hit : rangesInMatrix (buildMatrix ((hr :: rest).map RangeBounds.pattern)) with
      | nil =>
        have := start 0
        rw [hit] at this
        simp at this
      | cons _ _ => rfl
    have analysis : overlapsOf (hr :: rest) =
        (analyzeRangeOverlaps (rangesInMatrix (buildMatrix ((hr :: rest).map RangeBounds.pattern)))).overlaps := by
      have some : analyzeRangePatternsInMatrix (buildMatrix ((hr :: rest).map RangeBounds.pattern)) =
          some (analyzeRangeOverlaps
            (rangesInMatrix (buildMatrix ((hr :: rest).map RangeBounds.pattern)))) := by
        simp only [analyzeRangePatternsInMatrix, listed]
        rfl
      rw [overlapsOf, checkExhaustivenessWarnings, if_neg (by simp)]
      simp only [some]
    rw [analysis, analyzeRangeOverlaps, mem_comparePairs]
    simp only [List.not_mem_nil, false_or, start, Option.map_eq_some_iff]
    constructor
    · rintro ⟨i, j, _, _, pre, ⟨first, atI, rfl⟩, ⟨second, atJ, rfl⟩, pair⟩
      exact ⟨i, j, first, second, pre, atI, atJ, pair⟩
    · rintro ⟨i, j, first, second, pre, atI, atJ, pair⟩
      exact ⟨i, j, _, _, pre, ⟨first, atI, rfl⟩, ⟨second, atJ, rfl⟩, pair⟩

theorem warningsOf_eq (ranges : List RangeBounds) :
    warningsOf ranges = (overlapsOf ranges).map RangeOverlap.warning := by
  cases ranges with
  | nil => rfl
  | cons hr rest =>
    have unguarded : (buildMatrix ((hr :: rest).map RangeBounds.pattern)).all (·.hasGuard) = false := rfl
    rw [warningsOf, overlapsOf, checkExhaustivenessWarnings, if_neg (by simp)]
    simp only [unguarded]
    simp only [Bool.false_and, Bool.false_eq_true, if_false, List.nil_append]
    split <;> rfl

/-- A warning about the pair of patterns `i` and `j`. -/
def Reported (ranges : List RangeBounds) (i j : Nat) : Prop :=
  ∃ warning ∈ warningsOf ranges, warning = .redundantRange j i ∨
    ∃ overlapStart overlapEnd, warning = .rangeOverlap i j overlapStart overlapEnd

def ReportedRedundant (ranges : List RangeBounds) (i j : Nat) : Prop :=
  ExhaustivenessWarning.redundantRange j i ∈ warningsOf ranges

/-- The warnings about a pair of ranges tell of exactly the values of `i64` both match. -/
structure PairExact (ranges : List RangeBounds) (i j : Nat) (first second : RangeBounds) : Prop where
  reported : Reported ranges i j ↔ ∃ value, first.Matches value ∧ second.Matches value
  redundant : ReportedRedundant ranges i j ↔ ∀ value, second.Matches value → first.Matches value
  overlap : ∀ overlap ∈ overlapsOf ranges, overlap.firstPatternIndex = i → overlap.secondPatternIndex = j →
    ∀ value, overlap.overlap.contains value = true ↔ first.Matches value ∧ second.Matches value
  shown : ∀ overlapStart overlapEnd,
    ExhaustivenessWarning.rangeOverlap i j overlapStart overlapEnd ∈ warningsOf ranges →
      ∀ value, overlapStart ≤ value ∧ value ≤ overlapEnd ↔ first.Matches value ∧ second.Matches value

def Meet (first second : RangeBounds) : Prop :=
  max first.closed.start second.closed.start ≤ min first.closed.finish second.closed.finish

instance (first second : RangeBounds) : Decidable (Meet first second) :=
  inferInstanceAs (Decidable (_ ≤ _))

def Within (first second : RangeBounds) : Prop :=
  first.closed.start ≤ second.closed.start ∧ second.closed.finish ≤ first.closed.finish

section Pair

variable {ranges : List RangeBounds} {i j : Nat} {first second : RangeBounds}

theorem pairOverlap_eq : pairOverlap (i, first.closed) (j, second.closed) =
    if Meet first second then
      some ⟨i, j, ⟨max first.closed.start second.closed.start, min first.closed.finish second.closed.finish⟩,
        decide (second.closed.start ≥ first.closed.start) &&
          decide (second.closed.finish ≤ first.closed.finish)⟩
    else none := by
  unfold pairOverlap Interval.intersect
  dsimp only
  by_cases meet : Meet first second
  · rw [if_pos meet, if_pos (show _ ≤ _ from meet)]
    rfl
  · rw [if_neg meet, if_neg (show ¬ _ ≤ _ from meet)]
    rfl

theorem mem_overlapsOf_pair (pre : i < j) (atI : ranges[i]? = some first)
    (atJ : ranges[j]? = some second) (overlap : RangeOverlap) :
    overlap ∈ overlapsOf ranges ∧ overlap.firstPatternIndex = i ∧ overlap.secondPatternIndex = j ↔
      pairOverlap (i, first.closed) (j, second.closed) = some overlap := by
  have indexes : ∀ {i j : Nat} {x y : Interval}, pairOverlap (i, x) (j, y) = some overlap →
      overlap.firstPatternIndex = i ∧ overlap.secondPatternIndex = j := by
    intro i j x y pair
    obtain ⟨_, _, rfl⟩ := Option.map_eq_some_iff.mp pair
    exact ⟨rfl, rfl⟩
  constructor
  · intro ⟨mem, left, right⟩
    obtain ⟨i', j', x, y, _, atI', atJ', pair⟩ := mem_overlapsOf.mp mem
    have ⟨left', right'⟩ := indexes pair
    obtain rfl : i' = i := left'.symm.trans left
    obtain rfl : j' = j := right'.symm.trans right
    obtain rfl := Option.some_inj.mp (atI.symm.trans atI')
    obtain rfl := Option.some_inj.mp (atJ.symm.trans atJ')
    exact pair
  · intro pair
    exact ⟨mem_overlapsOf.mpr ⟨i, j, first, second, pre, atI, atJ, pair⟩, indexes pair⟩

theorem reported_iff (pre : i < j) (atI : ranges[i]? = some first) (atJ : ranges[j]? = some second) :
    Reported ranges i j ↔ Meet first second := by
  have pairs := mem_overlapsOf_pair pre atI atJ
  rw [pairOverlap_eq] at pairs
  unfold Reported
  rw [warningsOf_eq]
  constructor
  · rintro ⟨warning, mem, shape⟩
    obtain ⟨overlap, hit, rfl⟩ := List.mem_map.mp mem
    have indexes : overlap.firstPatternIndex = i ∧ overlap.secondPatternIndex = j := by
      unfold RangeOverlap.warning at shape
      rcases shape with shape | ⟨_, _, shape⟩ <;> split at shape <;> cases shape <;> exact ⟨rfl, rfl⟩
    have hit := (pairs _).mp ⟨hit, indexes⟩
    split at hit
    · assumption
    · cases hit
  · intro meet
    rw [if_pos meet] at pairs
    have hit := (pairs _).mpr rfl
    refine ⟨_, List.mem_map.mpr ⟨_, hit.1, rfl⟩, ?_⟩
    unfold RangeOverlap.warning
    split
    · exact .inl rfl
    · exact .inr ⟨_, _, rfl⟩

theorem reportedRedundant_iff (pre : i < j) (atI : ranges[i]? = some first)
    (atJ : ranges[j]? = some second) :
    ReportedRedundant ranges i j ↔ Meet first second ∧ Within first second := by
  have pairs := mem_overlapsOf_pair pre atI atJ
  rw [pairOverlap_eq] at pairs
  unfold ReportedRedundant
  rw [warningsOf_eq, List.mem_map]
  constructor
  · rintro ⟨overlap, mem, shape⟩
    unfold RangeOverlap.warning at shape
    split at shape
    · rename_i redundant
      cases shape
      have hit := (pairs _).mp ⟨mem, rfl, rfl⟩
      split at hit
      · rename_i meet
        refine ⟨meet, ?_⟩
        rw [← Option.some_inj.mp hit] at redundant
        simpa [Within] using redundant
      · cases hit
    · cases shape
  · intro ⟨meet, hw⟩
    rw [if_pos meet] at pairs
    refine ⟨_, ((pairs _).mpr rfl).1, ?_⟩
    rw [RangeOverlap.warning, if_pos (by simpa [Within] using hw)]

/-- The least value of `i64` that the bounds of a range allow, and the greatest. -/
def RangeBounds.least (range : RangeBounds) : Int := max range.closed.start minI64

def RangeBounds.greatest (range : RangeBounds) : Int :=
  min (if range.HalfOpen then range.closed.finish - 1 else range.closed.finish) maxI64

variable {value : Int}

theorem RangeBounds.matches_iff {range : RangeBounds} :
    range.Matches value ↔ range.least ≤ value ∧ value ≤ range.greatest := by
  obtain ⟨start, finish, inclusive⟩ := range
  unfold Matches least greatest HalfOpen closed admits inRange
  cases start <;> cases finish <;> cases inclusive <;> simp <;> omega

/-- What the flag of the ranges, which the analysis drops, does not change: where the closed
intervals meet, their common part lies within `i64` and ends before every end left out, and the
second is covered in its own reading whenever it is in the exact one. -/
structure Closed (first second : RangeBounds) : Prop where
  low : minI64 ≤ max first.closed.start second.closed.start
  high : min first.closed.finish second.closed.finish ≤ maxI64
  open_first : first.HalfOpen → second.closed.finish < first.closed.finish
  open_second : second.HalfOpen → first.closed.finish < second.closed.finish
  covered : first.closed.start ≤ second.closed.start ∨ first.closed.start = minI64 →
    second.closed.finish ≤ first.closed.finish ∨ first.closed.finish = maxI64 ∨
      second.HalfOpen ∧ second.closed.finish = first.closed.finish + 1 →
    Within first second

theorem meet_of_matches (left : first.Matches value) (right : second.Matches value) : Meet first second := by
  rw [RangeBounds.matches_iff] at left right
  unfold RangeBounds.least RangeBounds.greatest at left right
  unfold Meet
  split at left <;> split at right <;> omega

theorem closed_common (hc : Closed first second) (value : Int) :
    first.Matches value ∧ second.Matches value ↔
      max first.closed.start second.closed.start ≤ value ∧
        value ≤ min first.closed.finish second.closed.finish := by
  obtain ⟨low, high, openFirst, openSecond, -⟩ := hc
  rw [RangeBounds.matches_iff, RangeBounds.matches_iff]
  unfold RangeBounds.least RangeBounds.greatest
  simp only [max_le_iff, le_min_iff]
  by_cases half : first.HalfOpen <;> by_cases half' : second.HalfOpen <;>
    simp only [half, half', if_true, if_false, true_imp_iff] at openFirst openSecond ⊢ <;> omega

theorem covered_of_matches (meet : Meet first second) (hc : Closed first second)
    (all : ∀ value, second.Matches value → first.Matches value) : Within first second := by
  have common := closed_common hc
  obtain ⟨low, high, openFirst, openSecond, covered⟩ := hc
  unfold Meet at meet
  have hin := ((common _).mpr ⟨le_refl _, meet⟩).2
  rw [RangeBounds.matches_iff] at hin
  -- the least and the greatest value of the second range are its own
  have nonempty := hin.1.trans hin.2
  have least := all second.least (RangeBounds.matches_iff.mpr ⟨le_refl _, nonempty⟩)
  have greatest := all second.greatest (RangeBounds.matches_iff.mpr ⟨nonempty, le_refl _⟩)
  have starts := (RangeBounds.matches_iff.mp least).1
  have ends := (RangeBounds.matches_iff.mp greatest).2
  clear hin all common least greatest
  unfold RangeBounds.least at starts
  unfold RangeBounds.greatest at ends
  apply covered
  · rw [max_le_iff, le_max_iff] at starts
    rw [le_max_iff] at low
    clear ends openFirst openSecond high meet nonempty
    omega
  · clear starts low covered nonempty
    by_cases half : first.HalfOpen <;> by_cases half' : second.HalfOpen <;>
      simp only [half, half', if_true, if_false, true_imp_iff, true_and, false_and, or_false]
        at openFirst openSecond ends ⊢ <;> omega

theorem matches_of_covered (openFirst : first.HalfOpen → second.closed.finish < first.closed.finish)
    (starts : first.closed.start ≤ second.closed.start ∨ first.closed.start = minI64)
    (ends : second.closed.finish ≤ first.closed.finish ∨ first.closed.finish = maxI64 ∨
      second.HalfOpen ∧ second.closed.finish = first.closed.finish + 1) (value : Int)
    (hin : second.Matches value) : first.Matches value := by
  rw [RangeBounds.matches_iff] at hin ⊢
  unfold RangeBounds.least RangeBounds.greatest at *
  simp only [max_le_iff, le_min_iff] at hin ⊢
  by_cases half : first.HalfOpen <;> by_cases half' : second.HalfOpen <;>
    simp only [half, half', if_true, if_false, true_imp_iff, true_and, false_and, or_false]
      at openFirst hin ends ⊢ <;> omega

theorem closed_of_exact (meet : Meet first second)
    (common : ∀ value, max first.closed.start second.closed.start ≤ value ∧
      value ≤ min first.closed.finish second.closed.finish ↔ first.Matches value ∧ second.Matches value)
    (covered : (∀ value, second.Matches value → first.Matches value) → Within first second) :
    Closed first second := by
  unfold Meet at meet
  have left := (common _).mp ⟨le_refl _, meet⟩
  have right := (common _).mp ⟨meet, le_refl _⟩
  rw [RangeBounds.matches_iff, RangeBounds.matches_iff] at left right
  have openEnd {range : RangeBounds} {low : Int} (half : range.HalfOpen) (le : low ≤ range.greatest) :
      low < range.closed.finish := by
    rw [RangeBounds.greatest, if_pos half, le_min_iff] at le
    omega
  have openFirst : first.HalfOpen → second.closed.finish < first.closed.finish := fun half =>
    (min_lt_iff.mp (openEnd half right.1.2)).resolve_left (lt_irrefl _)
  refine ⟨(le_max_right _ _).trans left.1.1, right.1.2.trans (min_le_right _ _), openFirst, fun half => ?_, ?_⟩
  · exact (min_lt_iff.mp (openEnd half right.2.2)).resolve_right (lt_irrefl _)
  · exact fun starts ends => covered (matches_of_covered openFirst starts ends)

/-- For every list of ranges and every pair of them, the warnings are exact if and only if the closed
intervals do not meet and the second range matches something, or they meet and the flags play no role. -/
theorem range_overlap_exact (before : i < j) (atI : ranges[i]? = some first)
    (atJ : ranges[j]? = some second) :
    PairExact ranges i j first second ↔
      (¬ Meet first second ∧ ∃ value, second.Matches value) ∨
        (Meet first second ∧ Closed first second) := by
  have pairs := mem_overlapsOf_pair before atI atJ
  rw [pairOverlap_eq] at pairs
  have reported := reported_iff before atI atJ
  have redundant := reportedRedundant_iff before atI atJ
  constructor
  · intro exact
    by_cases meet : Meet first second
    · rw [if_pos meet] at pairs
      have found := (pairs _).mpr rfl
      refine .inr ⟨meet, closed_of_exact meet (fun value => ?_) fun all => ?_⟩
      · rw [← exact.overlap _ found.1 rfl rfl value, Interval.contains_iff]
      · exact (redundant.mp (exact.redundant.mpr all)).2
    · refine .inl ⟨meet, ?_⟩
      by_contra void
      exact meet (redundant.mp (exact.redundant.mpr fun value inside => absurd ⟨value, inside⟩ void)).1
  · rintro (⟨apart, value, inside⟩ | ⟨meet, closed⟩)
    · rw [if_neg apart] at pairs
      refine ⟨?_, ?_, ?_, ?_⟩
      · rw [reported]
        exact ⟨fun meet => absurd meet apart, fun ⟨_, left, right⟩ => meet_of_matches left right⟩
      · rw [redundant]
        exact ⟨fun ⟨meet, _⟩ => absurd meet apart,
          fun all => absurd (meet_of_matches (all value inside) inside) apart⟩
      · intro overlap member left right
        cases (pairs _).mp ⟨member, left, right⟩
      · intro overlapStart overlapEnd member
        exact absurd (reported.mp ⟨_, member, .inr ⟨_, _, rfl⟩⟩) apart
    · rw [if_pos meet] at pairs
      have common := closed_common closed
      have exact : ∀ overlap ∈ overlapsOf ranges, overlap.firstPatternIndex = i →
          overlap.secondPatternIndex = j → ∀ value, overlap.overlap.contains value = true ↔
            first.Matches value ∧ second.Matches value := by
        intro overlap member left right value
        have found := Option.some_inj.mp ((pairs _).mp ⟨member, left, right⟩)
        rw [common, ← found, Interval.contains_iff]
      refine ⟨?_, ?_, exact, ?_⟩
      · rw [reported]
        exact ⟨fun _ => ⟨_, (common _).mpr ⟨le_refl _, meet⟩⟩, fun _ => meet⟩
      · rw [redundant]
        refine ⟨fun ⟨_, starts, ends⟩ => ?_, fun all => ⟨meet, covered_of_matches meet closed all⟩⟩
        exact matches_of_covered closed.open_first (.inl starts) (.inl ends)
      · intro overlapStart overlapEnd member value
        rw [warningsOf_eq] at member
        obtain ⟨overlap, found, shape⟩ := List.mem_map.mp member
        unfold RangeOverlap.warning at shape
        split at shape <;> cases shape
        rw [← exact overlap found rfl rfl value, Interval.contains_iff]

theorem range_overlap_exact_pair :
    PairExact [⟨some 0, some 5, true⟩, ⟨some 3, none, true⟩] 0 1 ⟨some 0, some 5, true⟩ ⟨some 3, none, true⟩ := by
  apply (range_overlap_exact (by decide) rfl rfl).mpr
  refine .inr ⟨by decide, by decide, by decide, by decide, by decide, ?_⟩
  intro _ ends
  exact absurd ends (by decide)

/-- `0..5` and `5..10` match no common value, and the warning says that both match 5. -/
theorem touching_ranges_reported :
    ¬ PairExact [⟨some 0, some 5, false⟩, ⟨some 5, some 10, false⟩] 0 1
      ⟨some 0, some 5, false⟩ ⟨some 5, some 10, false⟩ := by
  intro exact
  obtain ⟨value, left, right⟩ := exact.reported.mp ((reported_iff (by decide) rfl rfl).mpr (by decide))
  rw [RangeBounds.matches_iff] at left right
  have := le_trans right.1 left.2
  revert this
  decide

end Pair

end Exhaustiveness
