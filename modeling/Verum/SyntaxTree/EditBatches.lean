import Verum.SyntaxTree.Incremental

open List

namespace SyntaxTree

/-- The edits recorded since the last parse, in original-text coordinates. -/
structure ChangeTracker where
  pendingEdits : List TextEdit
  version : Nat

namespace ChangeTracker

def new : ChangeTracker := ⟨[], 0⟩

def recordEdit (tracker : ChangeTracker) (edit : TextEdit) : ChangeTracker :=
  ⟨tracker.pendingEdits ++ [edit], tracker.version + 1⟩

def joinEdits (edit current : TextEdit) : TextEdit :=
  ⟨⟨edit.range.start, max current.range.stop edit.range.stop⟩, edit.newText ++ current.newText⟩

/-- The loop over the sorted edits, with the list `merged` in the order it is pushed. -/
def mergeLoop (current : TextEdit) : List TextEdit → List TextEdit
  | [] => [current]
  | edit :: rest =>
    if current.range.start ≤ edit.range.stop then mergeLoop (joinEdits edit current) rest
    else current :: mergeLoop edit rest

def mergeEdits (tracker : ChangeTracker) : ChangeTracker :=
  if tracker.pendingEdits.length < 2 then tracker
  else
    match tracker.pendingEdits.mergeSort fun e f => decide (f.range.start ≤ e.range.start) with
    | [] => tracker
    | current :: rest => { tracker with pendingEdits := (mergeLoop current rest).reverse }

/-- The pending edits from the last to the first; `none` is a slice off a character boundary. -/
def applyAll (tracker : ChangeTracker) (source : Text) : Option Text :=
  tracker.pendingEdits.reverse.foldlM (fun source edit => edit.apply source) source

def contiguous : List TextEdit → Bool
  | edit :: next :: rest => !(edit.range.stop < next.range.start) && contiguous (next :: rest)
  | _ => true

def compose (tracker : ChangeTracker) : Option TextEdit :=
  match tracker.pendingEdits with
  | [] => none
  | [edit] => some edit
  | pending => do
    let edits := pending.mergeSort fun e f => decide (e.range.start ≤ f.range.start)
    let first ← edits.head?
    let last ← edits.getLast?
    if contiguous edits then
      some ⟨⟨first.range.start, last.range.stop⟩, edits.flatMap (·.newText)⟩
    else none

end ChangeTracker

/-- The texts written at a position: insertions in recording order, then a replacement that
starts there. -/
def writtenAt (edits : List TextEdit) (pos : Nat) : Text :=
  (edits.filter fun e => e.range.start = pos ∧ e.range.stop = pos).flatMap (·.newText) ++
    (edits.filter fun e => e.range.start = pos ∧ pos < e.range.stop).flatMap (·.newText)

def replacedAt (edits : List TextEdit) (pos : Nat) : Bool :=
  edits.any fun e => e.range.start ≤ pos ∧ pos < e.range.stop

/-- What replacing all ranges at once makes of the text from byte `pos` on. -/
def simultaneous (edits : List TextEdit) : Nat → Text → Text
  | pos, [] => writtenAt edits pos
  | pos, char :: text =>
    writtenAt edits pos ++ (if replacedAt edits pos then [] else [char]) ++
      simultaneous edits (pos + char.utf8Size) text

namespace TextRange

def Fits (range : TextRange) (source : Text) : Prop :=
  range.start ≤ range.stop ∧ IsCharBoundary source range.start ∧ IsCharBoundary source range.stop

def Disjoint (range other : TextRange) : Prop := range.stop ≤ other.start ∨ other.stop ≤ range.start

variable {range : TextRange}

theorem Fits.parts {source : Text} (fits : range.Fits source) :
    ∃ front mid back, source = front ++ mid ++ back ∧ byteLength front = range.start ∧
      byteLength front + byteLength mid = range.stop := by
  obtain ⟨ord, ⟨front, rest, split, atStart⟩, ⟨upTo, back, split', atStop⟩⟩ := fits
  obtain ⟨mid, rfl, rfl⟩ := prefix_of_byteLength_le (split.symm.trans split') (by omega)
  exact ⟨front, mid, back, split', atStart, by rw [← atStop, byteLength_append]⟩

theorem fits_of_parts (front mid back : Text) (atStart : byteLength front = range.start)
    (atStop : byteLength front + byteLength mid = range.stop) : range.Fits (front ++ mid ++ back) :=
  ⟨by omega, ⟨front, mid ++ back, by simp, atStart⟩,
    ⟨front ++ mid, back, rfl, by rw [byteLength_append, atStop]⟩⟩

theorem Fits.of_prefix {front back : Text} (fits : range.Fits (front ++ back))
    (pre : range.stop ≤ byteLength front) (other : Text) : range.Fits (front ++ other) := by
  obtain ⟨x, y, z, split, atStart, atStop⟩ := fits.parts
  obtain ⟨rest, rfl, -⟩ := prefix_of_byteLength_le split.symm (by rw [byteLength_append]; omega)
  have := fits_of_parts x y (rest ++ other) atStart atStop
  simpa using this

end TextRange

namespace TextEdit

theorem apply_parts (edit : TextEdit) (front mid back : Text)
    (atStart : byteLength front = edit.range.start)
    (atStop : byteLength front + byteLength mid = edit.range.stop) :
    edit.apply (front ++ mid ++ back) = some (front ++ edit.newText ++ back) := by
  have least : min edit.range.start (byteLength (front ++ mid ++ back)) = byteLength front := by
    rw [byteLength_append, byteLength_append]
    omega
  have fits : edit.range.stop ≤ byteLength (front ++ mid ++ back) := by
    rw [byteLength_append, byteLength_append]
    omega
  have fst : splitBytes (byteLength front) (front ++ mid ++ back) = some (front, mid ++ back) := by
    rw [append_assoc, splitBytes_append]
  have snd : splitBytes edit.range.stop (front ++ mid ++ back) = some (front ++ mid, back) := by
    rw [← atStop, ← byteLength_append, splitBytes_append]
  unfold apply
  rw [least, fst]
  simp only [Option.bind_eq_bind, Option.bind_some, if_pos fits, snd]

theorem apply_joinEdits (edit current : TextEdit) {source : Text} (fits : edit.range.Fits source)
    (fits' : current.range.Fits source) (adjacent : edit.range.stop = current.range.start) :
    (ChangeTracker.joinEdits edit current).apply source = (current.apply source).bind edit.apply := by
  obtain ⟨front, mid, back, rfl, atStart, atStop⟩ := fits.parts
  obtain ⟨x, y, z, split, atStart', atStop'⟩ := fits'.parts
  obtain ⟨empty, xEq, backEq⟩ := prefix_of_byteLength_le (split.trans (by rw [append_assoc]))
    (show byteLength (front ++ mid) ≤ byteLength x by rw [byteLength_append]; omega)
  have void : empty = [] := by
    have length := congrArg byteLength xEq
    rw [byteLength_append, byteLength_append] at length
    cases empty with
    | nil => rfl
    | cons char rest =>
      have := char.utf8Size_pos
      rw [byteLength_cons] at length
      omega
  subst void
  rw [append_nil] at xEq
  subst xEq
  rw [nil_append] at backEq
  subst backEq
  have hl := apply_parts current (front ++ mid) y z atStart' atStop'
  have earlier := apply_parts edit front mid (current.newText ++ z) atStart atStop
  have ord := fits'.1
  have joined := apply_parts (ChangeTracker.joinEdits edit current) front (mid ++ y) z atStart (by
      rw [byteLength_append] at atStop' ⊢
      rw [ChangeTracker.joinEdits]
      dsimp only
      omega)
  simp only [append_assoc] at hl earlier joined ⊢
  rw [hl, Option.bind_some, earlier, joined, ChangeTracker.joinEdits, append_assoc]

end TextEdit

section Simultaneous

variable {edits : List TextEdit}
variable {pos : Nat} {edit : TextEdit}

theorem writtenAt_of_later (hl : ∀ e ∈ edits, pos < e.range.start) : writtenAt edits pos = [] := by
  have none : ∀ test : TextEdit → Bool, (∀ e, test e = true → e.range.start = pos) → edits.filter test = [] := by
    intro test only
    apply filter_eq_nil_iff.mpr
    intro e mem hh
    have := hl e mem
    have := only e hh
    omega
  have inserted := none (fun e => e.range.start = pos ∧ e.range.stop = pos) fun e hh =>
    (of_decide_eq_true hh).1
  have replaced := none (fun e => e.range.start = pos ∧ pos < e.range.stop) fun e hh =>
    (of_decide_eq_true hh).1
  rw [writtenAt, inserted, replaced]
  rfl

theorem replacedAt_of_later (hl : ∀ e ∈ edits, pos < e.range.start) : replacedAt edits pos = false := by
  apply any_eq_false.mpr
  intro e mem
  have := hl e mem
  simp only [decide_eq_true_eq]
  omega

theorem simultaneous_front (front back : Text) (pos : Nat)
    (hl : ∀ e ∈ edits, pos + byteLength front ≤ e.range.start) :
    simultaneous edits pos (front ++ back) = front ++ simultaneous edits (pos + byteLength front) back := by
  induction front generalizing pos with
  | nil => rfl
  | cons char front ih =>
    have size := char.utf8Size_pos
    have later' : ∀ e ∈ edits, pos < e.range.start := fun e mem => by
      have := hl e mem
      rw [byteLength_cons] at this
      omega
    rw [cons_append, simultaneous, writtenAt_of_later later', replacedAt_of_later later', byteLength_cons,
      ih (pos + char.utf8Size) (fun e mem => by have := hl e mem; rw [byteLength_cons] at this; omega),
      Nat.add_assoc]
    rfl

theorem writtenAt_past (past : edit.range.start < pos) : writtenAt (edit :: edits) pos = writtenAt edits pos := by
  have away : ¬ (edit.range.start = pos ∧ edit.range.stop = pos) := by omega
  have away' : ¬ (edit.range.start = pos ∧ pos < edit.range.stop) := by omega
  rw [writtenAt, filter_cons_of_neg (by simpa using away), filter_cons_of_neg (by simpa using away'),
    writtenAt]

theorem replacedAt_past (past : edit.range.stop ≤ pos) : replacedAt (edit :: edits) pos = replacedAt edits pos := by
  have away : ¬ (edit.range.start ≤ pos ∧ pos < edit.range.stop) := by omega
  rw [replacedAt, any_cons, decide_eq_false away, Bool.false_or, replacedAt]

theorem simultaneous_past (past : edit.range.stop ≤ pos) (after : edit.range.start < pos) (back : Text) :
    simultaneous (edit :: edits) pos back = simultaneous edits pos back := by
  induction back generalizing pos with
  | nil => exact writtenAt_past after
  | cons char back ih =>
    rw [simultaneous, simultaneous, writtenAt_past after, replacedAt_past past,
      @ih (pos + char.utf8Size) (by omega) (by omega)]

theorem simultaneous_covered (hl : ∀ e ∈ edits, edit.range.stop ≤ e.range.start) (mid back : Text)
    (pos : Nat) (after : edit.range.start < pos) (atStop : pos + byteLength mid = edit.range.stop) :
    simultaneous (edit :: edits) pos (mid ++ back) = simultaneous edits edit.range.stop back := by
  induction mid generalizing pos with
  | nil =>
    rw [byteLength_nil, Nat.add_zero] at atStop
    subst atStop
    exact simultaneous_past Nat.le.refl after back
  | cons char mid ih =>
    have size := char.utf8Size_pos
    rw [byteLength_cons] at atStop
    have covered : replacedAt (edit :: edits) pos = true := by
      rw [replacedAt, any_cons, decide_eq_true (by omega), Bool.true_or]
    have nothing : writtenAt edits pos = [] := writtenAt_of_later fun e mem => by
      have := hl e mem
      omega
    rw [cons_append, simultaneous, writtenAt_past after, nothing, covered, if_pos rfl,
      ih (pos + char.utf8Size) (by omega) (by omega)]
    rfl

theorem simultaneous_edit (hl : ∀ e ∈ edits, edit.range.stop ≤ e.range.start) (mid back : Text)
    (atStop : edit.range.start + byteLength mid = edit.range.stop) :
    simultaneous (edit :: edits) edit.range.start (mid ++ back) =
      edit.newText ++ simultaneous edits edit.range.stop back := by
  cases mid with
  | nil =>
    rw [byteLength_nil, Nat.add_zero] at atStop
    have written : writtenAt (edit :: edits) edit.range.start =
        edit.newText ++ writtenAt edits edit.range.start := by
      rw [writtenAt, filter_cons_of_pos (by simp [atStop]), filter_cons_of_neg (by simp [atStop]),
        flatMap_cons, append_assoc, writtenAt]
    have past : replacedAt (edit :: edits) edit.range.start = replacedAt edits edit.range.start :=
      replacedAt_past (by omega)
    cases back with
    | nil => rw [append_nil, simultaneous, written, ← atStop, simultaneous]
    | cons char back =>
      have size := char.utf8Size_pos
      rw [nil_append, simultaneous, written, past, simultaneous_past (by omega) (by omega), ← atStop,
        simultaneous, append_assoc, append_assoc, append_assoc]
  | cons char mid =>
    have size := char.utf8Size_pos
    rw [byteLength_cons] at atStop
    have nothing : writtenAt edits edit.range.start = [] := writtenAt_of_later fun e mem => by
      have := hl e mem
      omega
    have written : writtenAt (edit :: edits) edit.range.start = edit.newText := by
      rw [writtenAt, append_eq_nil_iff] at nothing
      have ne : ¬ edit.range.stop = edit.range.start := by omega
      rw [writtenAt, filter_cons_of_neg (by simp [ne]), nothing.1,
        filter_cons_of_pos (by simp; omega), flatMap_cons, nothing.2, append_nil, nil_append]
    have covered : replacedAt (edit :: edits) edit.range.start = true := by
      rw [replacedAt, any_cons, decide_eq_true (by omega), Bool.true_or]
    rw [cons_append, simultaneous, written, covered, if_pos rfl, append_nil,
      simultaneous_covered hl mid back _ (by omega) (by omega)]

end Simultaneous

/-- Edits in the order of the text, none reaching into the next. -/
def Ascends (edits : List TextEdit) : Prop := edits.Pairwise fun e f => e.range.stop ≤ f.range.start

def applyReversed (edits : List TextEdit) (source : Text) : Option Text :=
  edits.reverse.foldlM (fun source edit => edit.apply source) source

theorem applyReversed_cons (edit : TextEdit) (edits : List TextEdit) (source : Text) :
    applyReversed (edit :: edits) source = (applyReversed edits source).bind edit.apply := by
  rw [applyReversed, reverse_cons, foldlM_append]
  simp only [foldlM_cons, foldlM_nil, bind_pure]
  rfl

variable {edits : List TextEdit} {source : Text} {current edit : TextEdit}

theorem applyReversed_simultaneous (ascends : Ascends edits) (front back : Text)
    (fits : ∀ e ∈ edits, e.range.Fits (front ++ back)) (hl : ∀ e ∈ edits, byteLength front ≤ e.range.start) :
    applyReversed edits (front ++ back) = some (front ++ simultaneous edits (byteLength front) back) := by
  induction edits generalizing front back with
  | nil =>
    have same : simultaneous [] (byteLength front) (back ++ []) = _ :=
      simultaneous_front back [] (byteLength front) (by simp)
    rw [append_nil] at same
    rw [same]
    simp [applyReversed, simultaneous, writtenAt]
  | cons edit edits ih =>
    have ⟨after, ascends⟩ := pairwise_cons.mp ascends
    obtain ⟨x, mid, rest, split, atStart, atStop⟩ := (fits edit mem_cons_self).parts
    have fst := hl edit (.head _)
    obtain ⟨skipped, rfl, backEq⟩ := prefix_of_byteLength_le (split.trans (append_assoc x mid rest))
      (by omega)
    subst backEq
    have whole : front ++ (skipped ++ (mid ++ rest)) = (front ++ skipped ++ mid) ++ rest := by simp
    have done := ih ascends (front ++ skipped ++ mid) rest
      (fun e mem => whole ▸ fits e (mem_cons_of_mem edit mem))
      (fun e mem => by have := after e mem; rw [byteLength_append, atStop]; exact this)
    rw [applyReversed_cons, whole, done, Option.bind_some, TextEdit.apply_parts _ _ _ _ atStart atStop]
    rw [byteLength_append] at atStart
    rw [simultaneous_front skipped (mid ++ rest) (byteLength front), atStart,
      simultaneous_edit after mid rest (by rw [← atStop, byteLength_append, atStart]),
      show byteLength (front ++ skipped ++ mid) = edit.range.stop by rw [← atStop, byteLength_append]]
    · simp
    · intro e mem
      rcases mem_cons.mp mem with rfl | mem
      · omega
      · have := after e mem
        have := (fits edit mem_cons_self).1
        omega

theorem applyReversed_perform (ascends : Ascends edits) (hf : ∀ e ∈ edits, e.range.Fits source) :
    applyReversed edits source = some (simultaneous edits 0 source) := by
  have done := applyReversed_simultaneous ascends [] source hf (fun _ _ => Nat.zero_le _)
  simpa using done

theorem fits_apply {range : TextRange} {next : Text} (fits : current.range.Fits source)
    (other : range.Fits source) (pre : range.stop ≤ current.range.start)
    (done : current.apply source = some next) : range.Fits next := by
  obtain ⟨front, mid, back, rfl, atStart, atStop⟩ := fits.parts
  rw [TextEdit.apply_parts _ _ _ _ atStart atStop, Option.some_inj] at done
  subst done
  rw [append_assoc] at other ⊢
  exact other.of_prefix (by omega) _

theorem apply_fits (fits : edit.range.Fits source) : ∃ next, edit.apply source = some next := by
  obtain ⟨front, mid, back, rfl, atStart, atStop⟩ := fits.parts
  exact ⟨_, TextEdit.apply_parts _ _ _ _ atStart atStop⟩

theorem fits_joinEdits (edit current : TextEdit) (hf : edit.range.Fits source)
    (fits' : current.range.Fits source) (pre : edit.range.stop ≤ current.range.start) :
    (ChangeTracker.joinEdits edit current).range.Fits source := by
  have ord := hf.1
  have ordered' := fits'.1
  have stop : max current.range.stop edit.range.stop = current.range.stop := by omega
  unfold ChangeTracker.joinEdits
  rw [stop]
  exact ⟨by dsimp only; omega, hf.2.1, fits'.2.2⟩

theorem mergeLoop_perform {rest : List TextEdit}
    (descends : (current :: rest).Pairwise fun e f => f.range.stop ≤ e.range.start)
    (hf : ∀ e ∈ current :: rest, e.range.Fits source) :
    (ChangeTracker.mergeLoop current rest).foldlM (fun source edit => edit.apply source) source =
      (current :: rest).foldlM (fun source edit => edit.apply source) source := by
  induction rest generalizing current source with
  | nil => rfl
  | cons edit rest ih =>
    have ⟨hlt, descends⟩ := pairwise_cons.mp descends
    have ⟨below', descends'⟩ := pairwise_cons.mp descends
    have pre := hlt edit (.head _)
    have fitsCurrent := hf current (.head _)
    have fitsEdit := hf edit (mem_cons_of_mem current mem_cons_self)
    rw [ChangeTracker.mergeLoop]
    by_cases adjacent : current.range.start ≤ edit.range.stop
    · rw [if_pos adjacent, ih]
      · rw [foldlM_cons, TextEdit.apply_joinEdits edit current fitsEdit fitsCurrent (by omega), foldlM_cons]
        cases current.apply source <;> rfl
      · exact pairwise_cons.mpr ⟨fun e mem => below' e mem, descends'⟩
      · intro e mem
        rcases mem_cons.mp mem with rfl | mem
        · exact fits_joinEdits edit current fitsEdit fitsCurrent pre
        · exact hf e (mem_cons_of_mem current (mem_cons_of_mem edit mem))
    · rw [if_neg adjacent]
      obtain ⟨next, done⟩ := apply_fits fitsCurrent
      rw [foldlM_cons, foldlM_cons, done]
      apply ih descends
      intro e mem
      exact fits_apply fitsCurrent (hf e (mem_cons_of_mem current mem)) (hlt e mem) done

theorem composed_perform (ascends : Ascends (edit :: edits))
    (touching : ChangeTracker.contiguous (edit :: edits) = true) {last : TextEdit}
    (ends : (edit :: edits).getLast? = some last) (hf : ∀ e ∈ edit :: edits, e.range.Fits source) :
    (⟨⟨edit.range.start, last.range.stop⟩, (edit :: edits).flatMap (·.newText)⟩ : TextEdit).apply source =
        applyReversed (edit :: edits) source ∧
      (⟨edit.range.start, last.range.stop⟩ : TextRange).Fits source := by
  induction edits generalizing edit with
  | nil =>
    rw [List.getLast?_singleton, Option.some_inj] at ends
    subst ends
    rw [applyReversed_cons]
    simpa [applyReversed] using hf edit (.head _)
  | cons next edits ih =>
    have ⟨after, ascends⟩ := pairwise_cons.mp ascends
    rw [ChangeTracker.contiguous, Bool.and_eq_true, Bool.not_eq_true', decide_eq_false_iff_not] at touching
    have adjacent : edit.range.stop = next.range.start := by
      have := after next (.head _)
      omega
    have fitsEdit := hf edit (.head _)
    obtain ⟨eq, fitsRest⟩ := ih ascends touching.2 (by rwa [List.getLast?_cons_cons] at ends)
      (fun e mem => hf e (mem_cons_of_mem edit mem))
    have joined := TextEdit.apply_joinEdits edit
      ⟨⟨next.range.start, last.range.stop⟩, (next :: edits).flatMap (·.newText)⟩
      fitsEdit fitsRest adjacent
    have fitsJoined := fits_joinEdits edit
      ⟨⟨next.range.start, last.range.stop⟩, (next :: edits).flatMap (·.newText)⟩
      fitsEdit fitsRest (by dsimp only; omega)
    have stop : max last.range.stop edit.range.stop = last.range.stop := by
      have := fitsRest.1
      dsimp only at this
      omega
    unfold ChangeTracker.joinEdits at joined fitsJoined
    rw [stop] at joined fitsJoined
    rw [applyReversed_cons, ← eq]
    exact ⟨joined, fitsJoined⟩

end SyntaxTree
