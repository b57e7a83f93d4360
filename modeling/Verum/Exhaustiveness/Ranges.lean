import Mathlib.Data.List.Basic
import Mathlib.Order.Bounds.Basic
import Verum.Exhaustiveness.Pattern

open List

namespace Exhaustiveness

/-- `i128::MIN`. -/
def minI128 : Int := -2 ^ 127

/-- `i128::MAX`. -/
def maxI128 : Int := 2 ^ 127 - 1

/-- What an `i128` keeps of a sum or a difference. -/
def wrapI128 (value : Int) : Int := value.bmod (2 ^ 128)

/-- Both bounds belong to the interval. -/
structure Interval where
  start : Int
  finish : Int
  deriving DecidableEq

namespace Interval

def isEmpty (interval : Interval) : Bool := interval.start > interval.finish

def contains (interval : Interval) (value : Int) : Bool :=
  value ≥ interval.start && value ≤ interval.finish

def overlaps (interval other : Interval) : Bool :=
  interval.start ≤ other.finish && other.start ≤ interval.finish

def adjacent (interval other : Interval) : Bool :=
  wrapI128 (interval.finish + 1) == other.start || wrapI128 (other.finish + 1) == interval.start

def merge (interval other : Interval) : Option Interval :=
  if interval.overlaps other || interval.adjacent other then
    some ⟨min interval.start other.start, max interval.finish other.finish⟩
  else none

def subtract (interval other : Interval) : List Interval :=
  if !interval.overlaps other then [interval]
  else
    (if interval.start < other.start then [⟨interval.start, wrapI128 (other.start - 1)⟩] else []) ++
    (if interval.finish > other.finish then [⟨wrapI128 (other.finish + 1), interval.finish⟩] else [])

def intersect (interval other : Interval) : Option Interval :=
  let start := max interval.start other.start
  let finish := min interval.finish other.finish
  if start ≤ finish then some ⟨start, finish⟩ else none

end Interval

structure IntervalSet where
  intervals : List Interval

namespace IntervalSet

def empty : IntervalSet := ⟨[]⟩

def singleton (interval : Interval) : IntervalSet := ⟨[interval]⟩

/-- The loop over a list of intervals that stops at the first one `interval` merges with. -/
def mergeInto (interval : Interval) : List Interval → Option (List Interval)
  | [] => none
  | current :: rest =>
    match current.merge interval with
    | some merged => some (merged :: rest)
    | none => (mergeInto interval rest).map (current :: ·)

/-- The pass over the stored intervals: the list to merge grows, the others remain. -/
def absorb (toMerge : List Interval) : List Interval → List Interval × List Interval
  | [] => (toMerge, [])
  | existing :: rest =>
    match mergeInto existing toMerge with
    | some merged => absorb merged rest
    | none =>
      let (merged, remaining) := absorb toMerge rest
      (merged, existing :: remaining)

def combine (result : List Interval) : List Interval → List Interval
  | [] => result
  | interval :: rest =>
    match mergeInto interval result with
    | some merged => combine merged rest
    | none => combine (result ++ [interval]) rest

def add (set : IntervalSet) (interval : Interval) : IntervalSet :=
  if interval.isEmpty then set
  else
    let (toMerge, remaining) := absorb [interval] set.intervals
    ⟨(combine [] toMerge ++ remaining).mergeSort fun a b => decide (a.start ≤ b.start)⟩

def subtract (set : IntervalSet) (interval : Interval) : IntervalSet :=
  ⟨set.intervals.flatMap fun existing =>
    (existing.subtract interval).filter fun remaining => !remaining.isEmpty⟩

def isEmpty (set : IntervalSet) : Bool := set.intervals.isEmpty

def contains (set : IntervalSet) (value : Int) : Bool := set.intervals.any (·.contains value)

def complement (set : IntervalSet) (bounds : Interval) : IntervalSet :=
  set.intervals.foldl subtract (singleton bounds)

def firstUncovered (set : IntervalSet) (bounds : Interval) : Option Int :=
  (set.complement bounds).intervals.head?.map (·.start)

end IntervalSet

/-- A range pattern's bounds and whether the second belongs to it. -/
structure RangeBounds where
  start : Option Int
  finish : Option Int
  inclusive : Bool

def RangeBounds.within (range : RangeBounds) (bounds : Interval) : Interval :=
  let s := range.start.getD bounds.start
  let e := if range.inclusive then range.finish.getD bounds.finish
    else (range.finish.map fun e => wrapI128 (e - 1)).getD bounds.finish
  ⟨s, e⟩

def rangesCoverType (ranges : List RangeBounds) (typeBounds : Interval) : Bool × Option Int :=
  let covered := ranges.foldl (fun covered range =>
    let interval := range.within typeBounds
    if interval.start ≤ interval.finish then covered.add interval else covered) IntervalSet.empty
  let uncovered := covered.firstUncovered typeBounds
  (uncovered.isNone, uncovered)

theorem wrapI128_of_mem {value : Int} (low : minI128 ≤ value) (high : value ≤ maxI128) :
    wrapI128 value = value := by
  unfold wrapI128 minI128 maxI128 at *
  apply Int.bmod_eq_of_le <;> omega

namespace Interval

/-- The bounds lie strictly between `i128::MIN` and `i128::MAX`. -/
def Inner (interval : Interval) : Prop :=
  (minI128 < interval.start ∧ interval.start < maxI128) ∧
    minI128 < interval.finish ∧ interval.finish < maxI128

def Covers (outer inner : Interval) : Prop := outer.start ≤ inner.start ∧ inner.finish ≤ outer.finish

def Touches (interval other : Interval) : Prop :=
  interval.start ≤ other.finish + 1 ∧ other.start ≤ interval.finish + 1

/-- An interval as the set stores it. -/
structure Solid (interval : Interval) : Prop where
  inner : interval.Inner
  proper : interval.start ≤ interval.finish

variable {interval other piece : Interval} {value : Int}

@[simp] theorem contains_iff :
    interval.contains value = true ↔ interval.start ≤ value ∧ value ≤ interval.finish := by
  simp [contains]

@[simp] theorem isEmpty_iff : interval.isEmpty = true ↔ interval.finish < interval.start := by simp [isEmpty]

theorem solid_of_inner (inner : interval.Inner) (proper : interval.isEmpty = false) : interval.Solid := by
  rw [Bool.eq_false_iff, ne_eq, isEmpty_iff] at proper
  exact ⟨inner, by omega⟩

theorem Solid.isEmpty_eq (solid : interval.Solid) : interval.isEmpty = false := by
  have := solid.proper
  rw [Bool.eq_false_iff, ne_eq, isEmpty_iff]
  omega

theorem Solid.contains_start (solid : interval.Solid) :
    interval.contains interval.start = true := contains_iff.mpr ⟨le_refl _, solid.proper⟩

theorem overlaps_iff :
    interval.overlaps other = true ↔ interval.start ≤ other.finish ∧ other.start ≤ interval.finish := by
  simp [overlaps]

theorem Inner.wrap_succ (inner : interval.Inner) : wrapI128 (interval.finish + 1) = interval.finish + 1 := by
  obtain ⟨-, low, high⟩ := inner
  apply wrapI128_of_mem <;> omega

theorem Inner.wrap_pred (inner : interval.Inner) : wrapI128 (interval.start - 1) = interval.start - 1 := by
  obtain ⟨⟨low, high⟩, -⟩ := inner
  apply wrapI128_of_mem <;> omega

theorem merge_eq (solid : interval.Solid) (solid' : other.Solid) :
    interval.merge other = if interval.start ≤ other.finish + 1 ∧ other.start ≤ interval.finish + 1
      then some ⟨min interval.start other.start, max interval.finish other.finish⟩ else none := by
  have proper := solid.proper
  have proper' := solid'.proper
  unfold merge adjacent overlaps
  rw [solid.inner.wrap_succ, solid'.inner.wrap_succ]
  congr 1
  simp only [Bool.or_eq_true, Bool.and_eq_true, decide_eq_true_eq, beq_iff_eq, eq_iff_iff]
  omega

theorem Solid.hull (solid : interval.Solid) (solid' : other.Solid) :
    (⟨min interval.start other.start, max interval.finish other.finish⟩ : Interval).Solid := by
  obtain ⟨⟨⟨_, _⟩, _, _⟩, _⟩ := solid
  obtain ⟨⟨⟨_, _⟩, _, _⟩, _⟩ := solid'
  refine ⟨⟨⟨?_, ?_⟩, ?_, ?_⟩, ?_⟩ <;> dsimp only <;> omega

theorem hull_contains (touch : interval.Touches other) :
    (⟨min interval.start other.start, max interval.finish other.finish⟩ : Interval).contains value = true →
      interval.contains value = true ∨ other.contains value = true := by
  obtain ⟨_, _⟩ := touch
  simp only [contains_iff]
  omega

/-- Taking `other` away from an interval keeps its order and cuts exactly the common values, unless
`other` is inverted by more than one and sits inside. -/
def Cuts (interval other : Interval) : Prop :=
  other.start ≤ other.finish + 1 ∨ ¬ (interval.start ≤ other.finish ∧ other.start ≤ interval.finish)

def pieces (interval other : Interval) : List Interval :=
  (interval.subtract other).filter fun remaining => !remaining.isEmpty

theorem mem_pieces (inner : other.Inner) : piece ∈ interval.pieces other ↔ piece.start ≤ piece.finish ∧
      if interval.start ≤ other.finish ∧ other.start ≤ interval.finish then
        (interval.start < other.start ∧ piece = ⟨interval.start, other.start - 1⟩) ∨
        (interval.finish > other.finish ∧ piece = ⟨other.finish + 1, interval.finish⟩)
      else piece = interval := by
  unfold pieces subtract
  rw [inner.wrap_succ, inner.wrap_pred, mem_filter]
  have ne : (!piece.isEmpty) = true ↔ piece.start ≤ piece.finish := by
    rw [Bool.not_eq_true', Bool.eq_false_iff, ne_eq, isEmpty_iff]
    omega
  rw [ne, and_comm]
  by_cases meet : interval.overlaps other = true
  · rw [if_pos (overlaps_iff.mp meet), meet]
    by_cases pre : interval.start < other.start <;> by_cases after : interval.finish > other.finish <;>
      simp [pre, after]
  · rw [if_neg (mt overlaps_iff.mpr meet), if_pos (by simpa using meet), mem_singleton]

theorem pieces_ordered (inner : other.Inner) (cuts : interval.Cuts other) :
    (interval.pieces other).Pairwise fun a b => a.finish < b.start := by
  unfold pieces
  apply List.Pairwise.filter
  unfold subtract
  rw [inner.wrap_succ, inner.wrap_pred]
  by_cases meet : interval.overlaps other = true
  · rw [meet]
    have := cuts.resolve_right (not_not.mpr (overlaps_iff.mp meet))
    by_cases pre : interval.start < other.start <;> by_cases after : interval.finish > other.finish <;>
      simp [pre, after]
    omega
  · rw [if_pos (by simpa using meet)]
    exact pairwise_singleton _ _

theorem Solid.pieces_solid (solid : interval.Solid) (inner : other.Inner) (mem : piece ∈ interval.pieces other) :
    piece.Solid ∧ interval.Covers piece := by
  rw [mem_pieces inner] at mem
  obtain ⟨proper, shape⟩ := mem
  obtain ⟨⟨⟨_, _⟩, _, _⟩, _⟩ := solid
  obtain ⟨⟨_, _⟩, _, _⟩ := inner
  split at shape
  · rcases shape with ⟨_, rfl⟩ | ⟨_, rfl⟩
    · exact ⟨⟨⟨⟨by assumption, by assumption⟩, by dsimp only at *; omega, by dsimp only at *; omega⟩, proper⟩,
        by unfold Covers; dsimp only at *; omega⟩
    · exact ⟨⟨⟨⟨by dsimp only at *; omega, by dsimp only at *; omega⟩, by assumption, by assumption⟩, proper⟩,
        by unfold Covers; dsimp only at *; omega⟩
  · subst shape
    exact ⟨⟨⟨⟨by assumption, by assumption⟩, by assumption, by assumption⟩, proper⟩, le_refl _, le_refl _⟩

theorem pieces_contain (inner : other.Inner) (cuts : interval.Cuts other)
    (proper : interval.start ≤ interval.finish ∨ other.start ≤ other.finish) (value : Int) :
    (∃ piece ∈ interval.pieces other, piece.contains value = true) ↔
      interval.contains value = true ∧ other.contains value = false := by
  simp only [mem_pieces inner, Bool.eq_false_iff, ne_eq, contains_iff]
  unfold Cuts at cuts
  by_cases meet : interval.start ≤ other.finish ∧ other.start ≤ interval.finish
  · simp only [if_pos meet]
    constructor
    · rintro ⟨piece, ⟨_, ⟨_, rfl⟩ | ⟨_, rfl⟩⟩, _⟩ <;> dsimp only at * <;> omega
    · intro hin
      by_cases pre : value < other.start
      · exact ⟨⟨interval.start, other.start - 1⟩, ⟨by dsimp only; omega, .inl ⟨by omega, rfl⟩⟩,
          by dsimp only; omega⟩
      · exact ⟨⟨other.finish + 1, interval.finish⟩, ⟨by dsimp only; omega, .inr ⟨by omega, rfl⟩⟩,
          by dsimp only; omega⟩
  · simp only [if_neg meet]
    constructor
    · rintro ⟨piece, ⟨_, rfl⟩, _⟩
      omega
    · intro hin
      exact ⟨interval, ⟨by omega, rfl⟩, hin.1⟩

end Interval

namespace IntervalSet

open Interval

/-- The stored list is sorted by start, and its intervals are nonempty and pairwise disjoint. -/
structure Normal (set : IntervalSet) : Prop where
  sorted : set.intervals.Pairwise fun a b => a.start ≤ b.start
  nonempty : ∀ interval ∈ set.intervals, interval.isEmpty = false
  disjoint : set.intervals.Pairwise fun a b =>
    ∀ value, ¬ (a.contains value = true ∧ b.contains value = true)

/-- The same with the bounds that keep the arithmetic exact. -/
structure Stored (set : IntervalSet) : Prop where
  solid : ∀ interval ∈ set.intervals, interval.Solid
  ordered : set.intervals.Pairwise fun a b => a.finish < b.start

variable {set : IntervalSet} {intervals : List Interval}

theorem contains_iff {value : Int} :
    set.contains value = true ↔ ∃ interval ∈ set.intervals, interval.contains value = true := by
  simp only [contains, any_eq_true]

theorem Stored.normal (stored : set.Stored) : set.Normal where
  sorted := stored.ordered.imp_of_mem fun {a b} first _ pre => by
    have := (stored.solid a first).proper
    omega
  nonempty interval mem := (stored.solid interval mem).isEmpty_eq
  disjoint := stored.ordered.imp fun {a b} pre value ⟨left, right⟩ => by
    rw [Interval.contains_iff] at left right
    omega

theorem stored_empty : empty.Stored :=
  ⟨fun _ mem => absurd mem not_mem_nil, List.Pairwise.nil⟩

theorem stored_singleton {interval : Interval} (solid : interval.Solid) :
    (singleton interval).Stored :=
  ⟨fun _ mem => mem_singleton.mp mem ▸ solid, pairwise_singleton _ _⟩

theorem absorb_eq (solids : ∀ x ∈ intervals, x.Solid) (ord : intervals.Pairwise fun a b => a.finish < b.start) :
    ∀ interval : Interval, interval.Solid → ∃ grown remaining,
      absorb [interval] intervals = ([grown], remaining) ∧ grown.Solid ∧ grown.Covers interval ∧
      remaining.Sublist intervals ∧ (∀ x ∈ remaining, ¬ x.Touches interval) ∧
      (∀ x ∈ intervals, x ∈ remaining ∨ grown.Covers x) ∧
      (∀ x ∈ remaining, ∀ value, ¬ (grown.contains value = true ∧ x.contains value = true)) ∧
      ∀ value, grown.contains value = true →
        interval.contains value = true ∨ ∃ x ∈ intervals, x.contains value = true := by
  induction intervals with
  | nil =>
    intro interval solid
    exact ⟨interval, [], rfl, solid, ⟨le_refl _, le_refl _⟩, List.Sublist.refl _, by simp, by simp,
      by simp, fun _ hin => .inl hin⟩
  | cons x rest ih =>
    intro interval solid
    have solidX := solids x (.head _)
    have ⟨pre, ord⟩ := pairwise_cons.mp ord
    have ih := ih (fun y mem => solids y (mem_cons_of_mem x mem)) ord
    rw [absorb, mergeInto, mergeInto, merge_eq solid solidX]
    by_cases touch : interval.start ≤ x.finish + 1 ∧ x.start ≤ interval.finish + 1
    · rw [if_pos touch]
      obtain ⟨grown, remaining, run, solidG, covers, sub, ne, kept, disjoint, only⟩ :=
        ih _ (solid.hull solidX)
      have hull : grown.Covers interval ∧ grown.Covers x := by
        unfold Covers at *
        dsimp only at covers
        omega
      refine ⟨grown, remaining, run, solidG, hull.1, sub.cons x, ?_, ?_, disjoint, ?_⟩
      · intro y mem near
        apply ne y mem
        unfold Touches at *
        dsimp only
        omega
      · intro y mem
        rcases mem_cons.mp mem with rfl | mem
        · exact .inr hull.2
        · exact kept y mem
      · intro value hin
        rcases only value hin with hin | ⟨y, mem, hin⟩
        · rcases hull_contains touch hin with hin | hin
          · exact .inl hin
          · exact .inr ⟨x, .head _, hin⟩
        · exact .inr ⟨y, mem_cons_of_mem x mem, hin⟩
    · rw [if_neg touch]
      obtain ⟨grown, remaining, run, solidG, covers, sub, ne, kept, disjoint, only⟩ := ih _ solid
      refine ⟨grown, x :: remaining, by simp [run], solidG, covers, sub.cons_cons x, ?_, ?_, ?_, ?_⟩
      · intro y mem
        rcases mem_cons.mp mem with rfl | mem
        · intro near
          exact touch ⟨near.2, near.1⟩
        · exact ne y mem
      · intro y mem
        rcases mem_cons.mp mem with rfl | mem
        · exact .inl (.head _)
        · exact (kept y mem).imp (mem_cons_of_mem x) id
      · intro y mem
        rcases mem_cons.mp mem with rfl | mem
        · -- what `grown` hh came from the new interval or from hl ones
          rintro value ⟨hin, insideY⟩
          have := solid.proper
          rcases only value hin with hin | ⟨z, mem, hin⟩
          · rw [Interval.contains_iff] at hin insideY
            omega
          · have := pre z mem
            rw [Interval.contains_iff] at hin insideY
            omega
        · exact disjoint y mem
      · intro value hin
        exact (only value hin).imp id fun ⟨y, mem, hin⟩ =>
          ⟨y, mem_cons_of_mem x mem, hin⟩

theorem stored_sort (solids : ∀ x ∈ intervals, x.Solid)
    (disjoint : intervals.Pairwise fun a b => ∀ value, ¬ (a.contains value = true ∧ b.contains value = true)) :
    (⟨intervals.mergeSort fun a b => decide (a.start ≤ b.start)⟩ : IntervalSet).Stored := by
  have perm := mergeSort_perm intervals fun a b => decide (a.start ≤ b.start)
  have sorted : (intervals.mergeSort fun a b => decide (a.start ≤ b.start)).Pairwise
      fun a b => decide (a.start ≤ b.start) = true := by
    apply pairwise_mergeSort
    · intro a b c
      simp only [decide_eq_true_eq]
      omega
    · intro a b
      simp only [Bool.or_eq_true, decide_eq_true_eq]
      omega
  have ne := perm.symm.pairwise disjoint fun {a b} ne value both => ne value ⟨both.2, both.1⟩
  have solids : ∀ x ∈ intervals.mergeSort fun a b => decide (a.start ≤ b.start), x.Solid :=
    fun x mem => solids x (perm.mem_iff.mp mem)
  refine ⟨solids, (sorted.and ne).imp_of_mem ?_⟩
  intro a b memberA memberB ⟨fst, ne⟩
  have solidB := (solids b memberB).proper
  by_contra meet
  apply ne b.start
  simp only [decide_eq_true_eq, Interval.contains_iff] at *
  omega

end IntervalSet

end Exhaustiveness
