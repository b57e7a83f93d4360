import Verum.Exhaustiveness.Ranges

namespace Exhaustiveness

open Interval

namespace IntervalSet

/-- Adding an interval makes the union, and replaces the new interval and every stored one that
overlaps or adjoins it by one interval; what is kept stands apart from the new interval. -/
def AddExact (set : IntervalSet) (interval : Interval) : Prop :=
  (∀ value, (set.add interval).contains value = true ↔
    set.contains value = true ∨ interval.contains value = true) ∧
  (interval.isEmpty = false → ∃ grown, grown.Covers interval ∧
    (∀ x, x ∈ (set.add interval).intervals ↔ x = grown ∨ x ∈ set.intervals ∧ ¬ grown.Covers x) ∧
    ∀ x ∈ set.intervals, grown.Covers x ∨ ¬ x.Touches interval)

def SubtractExact (set : IntervalSet) (interval : Interval) : Prop :=
  ∀ value, (set.subtract interval).contains value = true ↔
    set.contains value = true ∧ interval.contains value = false

theorem add_of_nonempty {set : IntervalSet} {iv : Interval} (proper : iv.isEmpty = false) :
    set.add iv = ⟨(combine [] (absorb [iv] set.intervals).1 ++
      (absorb [iv] set.intervals).2).mergeSort fun a b => decide (a.start ≤ b.start)⟩ := by
  rw [add, proper]
  rfl

theorem Stored.add {set : IntervalSet} (stored : set.Stored) {iv : Interval}
    (inner : iv.Inner) : (set.add iv).Stored ∧ set.AddExact iv := by
  cases proper : iv.isEmpty with
  | true =>
    have eq : set.add iv = set := by rw [IntervalSet.add, proper, if_pos rfl]
    refine ⟨by rwa [eq], fun v => ?_, fun impossible => absurd (proper.symm.trans impossible) (by simp)⟩
    rw [Interval.isEmpty_iff] at proper
    rw [eq, Interval.contains_iff]
    exact ⟨.inl, fun hin => hin.resolve_right (by omega)⟩
  | false =>
    obtain ⟨grown, remaining, run, solid, covers, sub, ne, kept, disjoint, only⟩ :=
      absorb_eq stored.solid stored.ordered iv (solid_of_inner inner proper)
    have eq : set.add iv =
        ⟨(grown :: remaining).mergeSort fun a b => decide (a.start ≤ b.start)⟩ := by
      rw [add_of_nonempty proper, run]
      rfl
    have normal := stored.normal
    have ms : ∀ x, x ∈ (set.add iv).intervals ↔ x = grown ∨ x ∈ remaining := fun x => by
      rw [eq, (List.mergeSort_perm _ _).mem_iff, List.mem_cons]
    have outside : ∀ x ∈ remaining, ¬ grown.Covers x := fun x member covered =>
      disjoint x member x.start ⟨Interval.contains_iff.mpr ⟨covered.1,
        le_trans (stored.solid x (sub.mem member)).proper covered.2⟩,
        (stored.solid x (sub.mem member)).contains_start⟩
    refine ⟨?_, fun v => ?_, fun _ => ⟨grown, covers, fun x => ?_, fun x member => ?_⟩⟩
    · rw [eq]
      apply stored_sort
      · intro x member
        rcases List.mem_cons.mp member with rfl | member
        · exact solid
        · exact stored.solid x (sub.mem member)
      · exact List.pairwise_cons.mpr ⟨fun x member => disjoint x member, normal.disjoint.sublist sub⟩
    · rw [contains_iff, contains_iff]
      constructor
      · rintro ⟨x, member, hin⟩
        rcases (ms x).mp member with rfl | member
        · exact (only v hin).symm
        · exact .inl ⟨x, sub.mem member, hin⟩
      · rintro (⟨x, member, hin⟩ | hin)
        · rcases kept x member with member | covered
          · exact ⟨x, (ms x).mpr (.inr member), hin⟩
          · refine ⟨grown, (ms grown).mpr (.inl rfl), ?_⟩
            unfold Covers at covered
            rw [Interval.contains_iff] at hin ⊢
            omega
        · refine ⟨grown, (ms grown).mpr (.inl rfl), ?_⟩
          unfold Covers at covers
          rw [Interval.contains_iff] at hin ⊢
          omega
    · rw [ms]
      apply or_congr_right
      constructor
      · intro member
        exact ⟨sub.mem member, outside x member⟩
      · intro ⟨member, free⟩
        exact (kept x member).resolve_right free
    · exact (kept x member).symm.imp id (ne x)

theorem mem_subtract {set : IntervalSet} {iv piece : Interval} :
    piece ∈ (set.subtract iv).intervals ↔ ∃ x ∈ set.intervals, piece ∈ x.pieces iv :=
  List.mem_flatMap

/-- An inverted interval must not sit inside a stored one, unless its bounds are neighbours. -/
def Harmless (set : IntervalSet) (interval : Interval) : Prop :=
  interval.start ≤ interval.finish + 1 ∨
    ∀ x ∈ set.intervals, ¬ (x.start ≤ interval.finish ∧ interval.start ≤ x.finish)

theorem Harmless.cuts {set : IntervalSet} {iv x : Interval} (harmless : set.Harmless iv)
    (mem : x ∈ set.intervals) : x.Cuts iv := harmless.imp id fun outside => outside x mem

theorem Stored.subtract {set : IntervalSet} (stored : set.Stored) {iv : Interval}
    (inner : iv.Inner) (harmless : set.Harmless iv) :
    (set.subtract iv).Stored ∧ set.SubtractExact iv := by
  refine ⟨⟨fun piece mem => ?_, ?_⟩, fun v => ?_⟩
  · obtain ⟨x, mem, piece⟩ := mem_subtract.mp mem
    exact ((stored.solid x mem).pieces_solid inner piece).1
  · apply List.pairwise_flatMap.mpr
    constructor
    · intro x mem
      exact pieces_ordered inner (harmless.cuts mem)
    · apply stored.ordered.imp_of_mem
      intro x y memberX memberY pre a memberA b memberB
      have ⟨_, _, inX⟩ := (stored.solid x memberX).pieces_solid inner memberA
      have ⟨_, inY, _⟩ := (stored.solid y memberY).pieces_solid inner memberB
      omega
  · rw [contains_iff, contains_iff]
    have piecewise := fun x (mem : x ∈ set.intervals) => pieces_contain inner (harmless.cuts mem)
      (.inl (stored.solid x mem).proper) v
    constructor
    · rintro ⟨piece, mem, hin⟩
      obtain ⟨x, mem, part⟩ := mem_subtract.mp mem
      have := (piecewise x mem).mp ⟨piece, part, hin⟩
      exact ⟨⟨x, mem, this.1⟩, this.2⟩
    · rintro ⟨⟨x, mem, hin⟩, free⟩
      obtain ⟨piece, part, hin⟩ := (piecewise x mem).mpr ⟨hin, free⟩
      exact ⟨piece, mem_subtract.mpr ⟨x, mem, part⟩, hin⟩

theorem harmless_of_normal {set : IntervalSet} {iv : Interval} (inner : iv.Inner)
    (normal : (set.subtract iv).Normal) : set.Harmless iv := by
  by_contra harm
  simp only [Harmless, not_or, not_forall, not_not, not_le] at harm
  obtain ⟨inverted, x, mem, around⟩ := harm
  have disjoint := (List.pairwise_flatMap.mp normal.disjoint).1 x mem
  have parts : x.pieces iv = [⟨x.start, iv.start - 1⟩, ⟨iv.finish + 1, x.finish⟩] := by
    unfold pieces Interval.subtract
    have pre : x.start < iv.start := by omega
    have after : iv.finish < x.finish := by omega
    rw [overlaps_iff.mpr around, inner.wrap_succ, inner.wrap_pred, if_neg (by simp), if_pos pre,
      if_pos after]
    simp only [List.cons_append, List.nil_append, List.filter_cons, Interval.isEmpty]
    rw [if_pos (by simp; omega), if_pos (by simp; omega), List.filter_nil]
  rw [show (x.subtract iv).filter (fun remaining => !remaining.isEmpty) = _ from parts,
    List.pairwise_pair] at disjoint
  apply disjoint (iv.finish + 1)
  simp only [Interval.contains_iff]
  omega

/-- A call on a set. -/
inductive Call where
  | add (interval : Interval)
  | subtract (interval : Interval)

def Call.interval : Call → Interval
  | add interval => interval
  | subtract interval => interval

def perform (set : IntervalSet) : Call → IntervalSet
  | .add interval => set.add interval
  | .subtract interval => set.subtract interval

def performAll (set : IntervalSet) (calls : List Call) : IntervalSet := calls.foldl perform set

/-- A call leaves a normal list that holds exactly the union or the difference. -/
def CallExact (set : IntervalSet) : Call → Prop
  | .add interval => (set.add interval).Normal ∧ set.AddExact interval
  | .subtract interval => (set.subtract interval).Normal ∧ set.SubtractExact interval

def CallHarmless (set : IntervalSet) : Call → Prop
  | .add _ => True
  | .subtract interval => set.Harmless interval

/-- A property of every call of a run, at the set the calls before it leave. -/
def Along (property : IntervalSet → Call → Prop) : IntervalSet → List Call → Prop
  | _, [] => True
  | set, call :: calls => property set call ∧ Along property (set.perform call) calls

theorem Stored.perform {set : IntervalSet} (stored : set.Stored) {call : Call}
    (inner : call.interval.Inner) :
    (set.CallExact call ↔ set.CallHarmless call) ∧
      (set.CallHarmless call → (set.perform call).Stored) := by
  cases call with
  | add iv =>
    have ⟨next, exact⟩ := stored.add inner
    exact ⟨⟨fun _ => trivial, fun _ => ⟨next.normal, exact⟩⟩, fun _ => next⟩
  | subtract iv =>
    refine ⟨⟨fun exact => harmless_of_normal inner exact.1, fun harmless => ?_⟩, fun harmless => ?_⟩
    · have ⟨next, exact⟩ := stored.subtract inner harmless
      exact ⟨next.normal, exact⟩
    · exact (stored.subtract inner harmless).1

theorem Stored.along {set : IntervalSet} (stored : set.Stored) {calls : List Call}
    (inner : ∀ call ∈ calls, call.interval.Inner) :
    Along CallExact set calls ↔ Along CallHarmless set calls := by
  induction calls generalizing set with
  | nil => exact Iff.rfl
  | cons call calls ih =>
    have ⟨step, next⟩ := stored.perform (inner call List.mem_cons_self)
    have ih := fun harmless => ih (next harmless) fun other mem => inner other (.tail _ mem)
    constructor
    · intro ⟨exact, rest⟩
      exact ⟨step.mp exact, (ih (step.mp exact)).mp rest⟩
    · intro ⟨harmless, rest⟩
      exact ⟨step.mpr harmless, (ih harmless).mpr rest⟩

theorem Stored.performAll {set : IntervalSet} (stored : set.Stored) {calls : List Call}
    (inner : ∀ call ∈ calls, call.interval.Inner) (harmless : Along CallHarmless set calls) :
    (set.performAll calls).Stored := by
  induction calls generalizing set with
  | nil => exact stored
  | cons call calls ih =>
    have next := (stored.perform (inner call List.mem_cons_self)).2 harmless.1
    exact ih next (fun other mem => inner other (.tail _ mem)) harmless.2

def ComplementExact (set : IntervalSet) (bounds : Interval) : Prop :=
  ∀ value, (set.complement bounds).contains value = true ↔
    bounds.contains value = true ∧ set.contains value = false

def FirstUncoveredExact (set : IntervalSet) (bounds : Interval) : Prop :=
  ∀ value, set.firstUncovered bounds = some value ↔
    IsLeast {value | bounds.contains value = true ∧ set.contains value = false} value

theorem foldl_subtract_contains {ivs : List Interval} (solids : ∀ x ∈ ivs, x.Solid)
    (set : IntervalSet) (v : Int) :
    (ivs.foldl subtract set).contains v = true ↔
      set.contains v = true ∧ ∀ x ∈ ivs, x.contains v = false := by
  induction ivs generalizing set with
  | nil => simp
  | cons x rest ih =>
    have solid := solids x (.head _)
    have proper := solid.proper
    have step : (set.subtract x).contains v = true ↔
        set.contains v = true ∧ x.contains v = false := by
      rw [contains_iff, contains_iff]
      simp only [mem_subtract]
      have piecewise := fun y : Interval =>
        @pieces_contain y x solid.inner (.inl (by omega)) (.inr proper) v
      constructor
      · rintro ⟨piece, ⟨y, mem, part⟩, hin⟩
        have := (piecewise y).mp ⟨piece, part, hin⟩
        exact ⟨⟨y, mem, this.1⟩, this.2⟩
      · rintro ⟨⟨y, mem, hin⟩, free⟩
        obtain ⟨piece, part, hin⟩ := (piecewise y).mpr ⟨hin, free⟩
        exact ⟨piece, ⟨y, mem, part⟩, hin⟩
    rw [List.foldl_cons, ih (fun y mem => solids y (.tail _ mem)), step, List.forall_mem_cons,
      and_assoc]

theorem foldl_subtract_stored {ivs : List Interval} (solids : ∀ x ∈ ivs, x.Solid)
    {set : IntervalSet} (stored : set.Stored) : (ivs.foldl subtract set).Stored := by
  induction ivs generalizing set with
  | nil => exact stored
  | cons x rest ih =>
    have solid := solids x (.head _)
    have proper := solid.proper
    exact ih (fun y mem => solids y (.tail _ mem))
      (stored.subtract solid.inner (.inl (by omega))).1

theorem not_contains_iff {set : IntervalSet} {v : Int} :
    set.contains v = false ↔ ∀ x ∈ set.intervals, x.contains v = false := by
  simp only [contains, List.any_eq_false, Bool.not_eq_true]

theorem Stored.complement_exact {set : IntervalSet} (stored : set.Stored) (bounds : Interval) :
    set.ComplementExact bounds := by
  intro v
  rw [complement, foldl_subtract_contains stored.solid, not_contains_iff]
  simp [contains, singleton]

theorem Stored.complement {set : IntervalSet} (stored : set.Stored) {bounds : Interval}
    (solid : bounds.Solid) : (set.complement bounds).Stored :=
  foldl_subtract_stored stored.solid (stored_singleton solid)

theorem Stored.head_least {set : IntervalSet} (stored : set.Stored) (v : Int) :
    set.intervals.head?.map (·.start) = some v ↔ IsLeast {v | set.contains v = true} v := by
  cases listed : set.intervals with
  | nil =>
    refine ⟨fun impossible => by simp at impossible, fun ⟨hin, _⟩ => ?_⟩
    rw [Set.mem_setOf_eq, contains_iff, listed] at hin
    simp at hin
  | cons fst rest =>
    have solid := stored.solid fst (by simp [listed])
    have least : IsLeast {v | set.contains v = true} fst.start := by
      refine ⟨contains_iff.mpr ⟨fst, by simp [listed], solid.contains_start⟩, fun other hin => ?_⟩
      obtain ⟨x, mem, hin⟩ := contains_iff.mp hin
      have sorted := stored.normal.sorted
      rw [listed] at mem sorted
      rw [Interval.contains_iff] at hin
      rcases List.mem_cons.mp mem with rfl | mem
      · exact hin.1
      · exact le_trans (List.rel_of_pairwise_cons sorted mem) hin.1
    rw [List.head?_cons, Option.map_some, Option.some_inj]
    constructor
    · rintro rfl
      exact least
    · exact least.unique

theorem pieces_of_empty {bounds x : Interval} (proper : x.Solid) (void : bounds.isEmpty = true) :
    bounds.pieces x = [] := by
  have := proper.proper
  rw [Interval.isEmpty_iff] at void
  apply List.eq_nil_iff_forall_not_mem.mpr
  intro piece mem
  rw [mem_pieces proper.inner] at mem
  obtain ⟨_, shape⟩ := mem
  split at shape
  · rcases shape with ⟨_, rfl⟩ | ⟨_, rfl⟩ <;> dsimp only at * <;> omega
  · subst shape
    omega

theorem foldl_subtract_nil (ivs : List Interval) : ivs.foldl subtract ⟨[]⟩ = ⟨[]⟩ := by
  induction ivs with
  | nil => rfl
  | cons x rest ih => exact ih

theorem Stored.first_uncovered_exact {set : IntervalSet} (stored : set.Stored) {bounds : Interval}
    (inner : bounds.Inner) :
    set.FirstUncoveredExact bounds ↔ bounds.isEmpty = false ∨ set.isEmpty = false := by
  have exact := stored.complement_exact bounds
  unfold ComplementExact at exact
  cases proper : bounds.isEmpty with
  | false =>
    refine ⟨fun _ => .inl rfl, fun _ v => ?_⟩
    rw [firstUncovered, (stored.complement (solid_of_inner inner proper)).head_least]
    simp only [exact]
  | true =>
    have nothing : ∀ v, ¬ IsLeast {v | bounds.contains v = true ∧
        set.contains v = false} v := by
      intro v ⟨⟨hin, _⟩, _⟩
      rw [Interval.isEmpty_iff] at proper
      rw [Interval.contains_iff] at hin
      omega
    cases listed : set.intervals with
    | nil =>
      refine ⟨fun least => ?_, fun either => by simp [isEmpty, listed] at either⟩
      apply absurd ((least bounds.start).mp _) (nothing bounds.start)
      rw [firstUncovered, IntervalSet.complement, listed]
      rfl
    | cons x rest =>
      refine ⟨fun _ => .inr (by simp [isEmpty, listed]), fun _ v => ?_⟩
      have step : (singleton bounds).subtract x = ⟨[]⟩ := by
        have := pieces_of_empty (stored.solid x (by simp [listed])) proper
        unfold pieces at this
        simp [IntervalSet.subtract, singleton, this]
      rw [firstUncovered, IntervalSet.complement, listed, List.foldl_cons, step, foldl_subtract_nil]
      exact ⟨fun impossible => by simp at impossible, fun least => absurd least (nothing v)⟩

theorem firstUncovered_eq_none {set : IntervalSet} (stored : set.Stored) {bounds : Interval}
    (none : set.firstUncovered bounds = none) {v : Int} (hin : bounds.contains v = true) :
    set.contains v = true := by
  have void : (set.complement bounds).intervals = [] := by
    simpa [firstUncovered] using none
  by_contra free
  have := (stored.complement_exact bounds v).mpr ⟨hin, by simpa using free⟩
  rw [contains_iff, void] at this
  simp at this

end IntervalSet

namespace RangeBounds

def admits (range : RangeBounds) (value : Int) : Bool :=
  inRange range.start range.finish range.inclusive value

/-- The written bounds lie strictly between `i128::MIN` and `i128::MAX`. -/
def Inner (range : RangeBounds) : Prop :=
  (∀ s ∈ range.start, minI128 < s ∧ s < maxI128) ∧ ∀ e ∈ range.finish, minI128 < e ∧ e < maxI128

theorem Inner.within_finish {hr : RangeBounds} (inner : hr.Inner) {bounds : Interval} :
    (hr.within bounds).finish = (match hr.finish with
      | some e => if hr.inclusive then e else e - 1
      | none => bounds.finish) := by
  obtain ⟨start, finish, inclusive⟩ := hr
  cases finish with
  | none => cases inclusive <;> rfl
  | some e =>
    cases inclusive with
    | true => rfl
    | false =>
      have ⟨low, high⟩ := inner.2 e rfl
      exact wrapI128_of_mem (by omega) (by omega)

theorem Inner.within_solid {range : RangeBounds} (inner : range.Inner) {bounds : Interval}
    (edge : bounds.Inner) (proper : (range.within bounds).start ≤ (range.within bounds).finish) :
    (range.within bounds).Solid := by
  have start : minI128 < (range.within bounds).start ∧ (range.within bounds).start < maxI128 := by
    cases written : range.start with
    | none => simpa [within, written] using edge.1
    | some s => simpa [within, written] using inner.1 s written
  have finish : (range.within bounds).finish < maxI128 := by
    rw [inner.within_finish]
    cases written : range.finish with
    | none => exact edge.2.2
    | some e =>
      have := inner.2 e written
      dsimp only
      split <;> omega
  exact ⟨⟨start, by omega, finish⟩, proper⟩

theorem Inner.within_contains {range : RangeBounds} (inner : range.Inner) {bounds : Interval}
    {v : Int} (inside : bounds.contains v = true) :
    (range.within bounds).contains v = range.admits v := by
  rw [Interval.contains_iff] at inside
  have start : (range.within bounds).start ≤ v ↔ ∀ s ∈ range.start, s ≤ v := by
    cases written : range.start <;> simp [within, written]
    exact inside.1
  have finish : v ≤ (range.within bounds).finish ↔
      ∀ e ∈ range.finish, if range.inclusive then v ≤ e else v < e := by
    rw [inner.within_finish]
    cases written : range.finish with
    | none => simpa using inside.2
    | some e => cases range.inclusive <;> simp <;> omega
  rw [Bool.eq_iff_iff, Interval.contains_iff, start, finish, RangeBounds.admits, inRange]
  cases range.start <;> cases range.finish <;> cases range.inclusive <;> simp

end RangeBounds

def coveredBy (bounds : Interval) (ranges : List RangeBounds) (covered : IntervalSet) : IntervalSet :=
  ranges.foldl (fun covered range =>
    let interval := range.within bounds
    if interval.start ≤ interval.finish then covered.add interval else covered) covered

theorem coveredBy_exact {bounds : Interval} (edge : bounds.Inner) {ranges : List RangeBounds}
    (inner : ∀ hr ∈ ranges, hr.Inner) {covered : IntervalSet} (stored : covered.Stored) :
    (coveredBy bounds ranges covered).Stored ∧
      ∀ v, (coveredBy bounds ranges covered).contains v = true ↔
        covered.contains v = true ∨ ∃ hr ∈ ranges, (hr.within bounds).contains v = true := by
  induction ranges generalizing covered with
  | nil => exact ⟨stored, fun v => by simp [coveredBy]⟩
  | cons hr ranges ih =>
    have ih := fun {covered : IntervalSet} (stored : covered.Stored) =>
      ih (fun other mem => inner other (.tail _ mem)) stored
    by_cases proper : (hr.within bounds).start ≤ (hr.within bounds).finish
    · have solid := (inner hr List.mem_cons_self).within_solid edge proper
      have ⟨next, exact⟩ := stored.add solid.inner
      have step : coveredBy bounds (hr :: ranges) covered =
          coveredBy bounds ranges (covered.add (hr.within bounds)) := by
        simp only [coveredBy, List.foldl_cons, if_pos proper]
      refine ⟨step ▸ (ih next).1, fun v => ?_⟩
      rw [step, (ih next).2 v, exact.1, or_assoc, List.exists_mem_cons_iff]
    · have step : coveredBy bounds (hr :: ranges) covered = coveredBy bounds ranges covered := by
        simp only [coveredBy, List.foldl_cons, if_neg proper]
      refine ⟨step ▸ (ih stored).1, fun v => ?_⟩
      rw [step, (ih stored).2 v, List.exists_mem_cons_iff]
      apply or_congr_right
      rw [Interval.contains_iff]
      exact ⟨.inr, fun either => either.resolve_left (by omega)⟩

/-- The answer says whether every value of the type is covered, and names the least one that is not. -/
def CoverExact (ranges : List RangeBounds) (bounds : Interval) : Prop :=
  (rangesCoverType ranges bounds = (true, none) ↔
    ∀ value, bounds.contains value = true → ∃ range ∈ ranges, range.admits value = true) ∧
  ∀ value, rangesCoverType ranges bounds = (false, some value) ↔
    IsLeast {value | bounds.contains value = true ∧ ∀ range ∈ ranges, range.admits value = false} value

theorem cover_exact {bounds : Interval} (edge : bounds.Inner) {ranges : List RangeBounds}
    (inner : ∀ hr ∈ ranges, hr.Inner) :
    CoverExact ranges bounds ↔
      bounds.isEmpty = false ∨ ∃ hr ∈ ranges, (hr.within bounds).isEmpty = false := by
  obtain ⟨stored, exact⟩ := coveredBy_exact edge inner IntervalSet.stored_empty
  generalize held : coveredBy bounds ranges IntervalSet.empty = covered at stored exact
  have answer : rangesCoverType ranges bounds =
      ((covered.firstUncovered bounds).isNone, covered.firstUncovered bounds) := by
    rw [← held]
    rfl
  have hin : ∀ v, bounds.contains v = true →
      (covered.contains v = true ↔ ∃ hr ∈ ranges, hr.admits v = true) := by
    intro v hin
    rw [exact v]
    have void : IntervalSet.empty.contains v = false := rfl
    simp only [void, Bool.false_eq_true, false_or]
    constructor <;> rintro ⟨hr, mem, hh⟩ <;> refine ⟨hr, mem, ?_⟩
    · rwa [(inner hr mem).within_contains hin] at hh
    · rwa [(inner hr mem).within_contains hin]
  have left : {v | bounds.contains v = true ∧ covered.contains v = false} =
      {v | bounds.contains v = true ∧ ∀ hr ∈ ranges, hr.admits v = false} := by
    ext v
    apply and_congr_right
    intro edge
    rw [← Bool.not_eq_true, hin v edge]
    simp
  have some_void : covered.isEmpty = false ↔
      ∃ hr ∈ ranges, (hr.within bounds).isEmpty = false := by
    constructor
    · intro some
      obtain ⟨x, mem⟩ := List.exists_mem_of_ne_nil covered.intervals
        (by simpa [IntervalSet.isEmpty] using some)
      have solid := stored.solid x mem
      have := (exact x.start).mp (IntervalSet.contains_iff.mpr ⟨x, mem, solid.contains_start⟩)
      obtain ⟨hr, mem, hh⟩ := this.resolve_left (by simp [IntervalSet.contains, IntervalSet.empty])
      refine ⟨hr, mem, ?_⟩
      rw [Interval.contains_iff] at hh
      rw [Bool.eq_false_iff, ne_eq, Interval.isEmpty_iff]
      omega
    · rintro ⟨hr, mem, proper⟩
      have := (exact (hr.within bounds).start).mpr (.inr ⟨hr, mem, by
        rw [Bool.eq_false_iff, ne_eq, Interval.isEmpty_iff] at proper
        rw [Interval.contains_iff]
        omega⟩)
      obtain ⟨x, mem, _⟩ := IntervalSet.contains_iff.mp this
      rw [IntervalSet.isEmpty, List.isEmpty_eq_false_iff]
      exact List.ne_nil_of_mem mem
  rw [← some_void, ← stored.first_uncovered_exact edge]
  unfold CoverExact IntervalSet.FirstUncoveredExact
  rw [answer, left]
  constructor
  · rintro ⟨_, least⟩ v
    rw [← least v]
    cases covered.firstUncovered bounds <;> simp
  · intro least
    refine ⟨?_, fun v => ?_⟩
    · cases hit : covered.firstUncovered bounds with
      | none =>
        refine ⟨fun _ v edge => (hin v edge).mp
          (IntervalSet.firstUncovered_eq_none stored hit edge), fun _ => rfl⟩
      | some v =>
        refine ⟨fun impossible => by simp at impossible, fun all => ?_⟩
        obtain ⟨⟨edge, free⟩, _⟩ := (least v).mp hit
        obtain ⟨hr, mem, hh⟩ := all v edge
        rw [free hr mem] at hh
        cases hh
    · rw [← least v]
      cases covered.firstUncovered bounds <;> simp

/-- A run from the empty set is exact at every call if and only if it never takes an inverted
interval away from around it; the sets it reaches then answer exactly, an empty set asked about an
empty interval apart. -/
theorem interval_set_exact (calls : List IntervalSet.Call) (bounds : Interval)
    (ranges : List RangeBounds) (innerCalls : ∀ call ∈ calls, call.interval.Inner)
    (innerBounds : bounds.Inner) (innerRanges : ∀ range ∈ ranges, range.Inner) :
    (IntervalSet.Along IntervalSet.CallExact IntervalSet.empty calls ↔
      IntervalSet.Along IntervalSet.CallHarmless IntervalSet.empty calls) ∧
    (IntervalSet.Along IntervalSet.CallHarmless IntervalSet.empty calls →
      (IntervalSet.empty.performAll calls).Normal ∧
      (IntervalSet.empty.performAll calls).ComplementExact bounds ∧
      ((IntervalSet.empty.performAll calls).FirstUncoveredExact bounds ↔
        bounds.isEmpty = false ∨ (IntervalSet.empty.performAll calls).isEmpty = false)) ∧
    (CoverExact ranges bounds ↔
      bounds.isEmpty = false ∨ ∃ range ∈ ranges, (range.within bounds).isEmpty = false) := by
  refine ⟨IntervalSet.stored_empty.along innerCalls, fun harmless => ?_, cover_exact innerBounds innerRanges⟩
  have stored := IntervalSet.stored_empty.performAll innerCalls harmless
  exact ⟨stored.normal, stored.complement_exact bounds, stored.first_uncovered_exact innerBounds⟩

theorem interval_set_exact_three_calls :
    (IntervalSet.empty.performAll [.add ⟨0, 10⟩, .subtract ⟨4, 6⟩, .add ⟨11, 12⟩]).Normal :=
  ((interval_set_exact [.add ⟨0, 10⟩, .subtract ⟨4, 6⟩, .add ⟨11, 12⟩] ⟨0, 20⟩ []
    (by simp [IntervalSet.Call.interval, Interval.Inner, minI128, maxI128])
    (by simp [Interval.Inner, minI128, maxI128]) (by simp)).2.1
      ⟨trivial, .inl (by decide), trivial, trivial⟩).1

/-- Taking `[7, 3]` away from `[0, 10]` leaves `[0, 6]` and `[4, 10]`. -/
theorem interval_set_overlapping : ¬ ∀ calls : List IntervalSet.Call,
    (∀ call ∈ calls, call.interval.Inner) →
      IntervalSet.Along IntervalSet.CallExact IntervalSet.empty calls := by
  intro exact
  have run := exact [.add ⟨0, 10⟩, .subtract ⟨7, 3⟩]
    (by simp [IntervalSet.Call.interval, Interval.Inner, minI128, maxI128])
  have stored : (IntervalSet.empty.add ⟨0, 10⟩).intervals = [⟨0, 10⟩] := by
    simp [IntervalSet.add, IntervalSet.empty, Interval.isEmpty, IntervalSet.absorb, IntervalSet.combine,
      IntervalSet.mergeInto]
  have apart := run.2.1.1.disjoint
  have left : ((IntervalSet.empty.add ⟨0, 10⟩).subtract ⟨7, 3⟩).intervals = [⟨0, 6⟩, ⟨4, 10⟩] := by
    rw [IntervalSet.subtract, stored]
    decide
  rw [IntervalSet.perform, left, List.pairwise_pair] at apart
  exact apart 5 (by decide)

end Exhaustiveness
