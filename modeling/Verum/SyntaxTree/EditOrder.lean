import Mathlib.Data.List.Sort
import Verum.SyntaxTree.EditBatches

open List

namespace SyntaxTree

namespace ChangeTracker

def record (edits : List TextEdit) : ChangeTracker := edits.foldl recordEdit new

theorem record_pendingEdits (edits : List TextEdit) : (record edits).pendingEdits = edits := by
  have from_tracker : ∀ tracker : ChangeTracker,
      (edits.foldl recordEdit tracker).pendingEdits = tracker.pendingEdits ++ edits := by
    induction edits with
    | nil => simp
    | cons edit edits ih =>
      intro tracker
      rw [foldl_cons, ih, recordEdit, append_assoc]
      rfl
  exact from_tracker new

theorem applyAll_eq (tracker : ChangeTracker) : tracker.applyAll = applyReversed tracker.pendingEdits := rfl

end ChangeTracker

open ChangeTracker

/-- Batching does not change the document. -/
structure BatchExact (edits : List TextEdit) (source : Text) : Prop where
  all : (record edits).applyAll source = some (simultaneous edits 0 source)
  merged : (record edits).mergeEdits.applyAll source = (record edits).applyAll source
  composed : ∀ edit, (record edits).compose = some edit →
    edit.apply source = some (simultaneous edits 0 source)

/-- The order in which the edits were recorded is the strict order of their starts. -/
def RecordedAscending (ranges : List TextRange) : Prop := ranges.Pairwise fun r s => r.start < s.start

section Ascending

variable {edits : List TextEdit} {source : Text}

theorem ascends_of_recorded (ascending : RecordedAscending (edits.map (·.range)))
    (disjoint : (edits.map (·.range)).Pairwise TextRange.Disjoint)
    (hf : ∀ e ∈ edits, e.range.Fits source) : Ascends edits := by
  have ord := pairwise_map.mp ascending
  have ne := pairwise_map.mp disjoint
  apply (ord.and ne).imp_of_mem
  intro e f _ memberF ⟨before, ne⟩
  have := (hf f memberF).1
  unfold TextRange.Disjoint at ne
  omega

theorem mergeSort_descending (ascending : RecordedAscending (edits.map (·.range))) :
    (edits.mergeSort fun e f => decide (f.range.start ≤ e.range.start)) = edits.reverse := by
  have ord := pairwise_map.mp ascending
  have sorted : edits.reverse.Pairwise fun e f => decide (f.range.start ≤ e.range.start) = true := by
    apply pairwise_reverse.mpr
    exact ord.imp fun before => decide_eq_true (by omega)
  have nd : (edits.map (·.range.start)).Nodup :=
    pairwise_map.mpr (ord.imp fun before => Nat.ne_of_lt before)
  have descending : (edits.mergeSort fun e f => decide (f.range.start ≤ e.range.start)).Pairwise
      fun e f => decide (f.range.start ≤ e.range.start) = true := by
    apply pairwise_mergeSort
    · intro a b c
      simp only [decide_eq_true_eq]
      omega
    · intro a b
      simp only [Bool.or_eq_true, decide_eq_true_eq]
      omega
  have perm := (mergeSort_perm edits fun e f => decide (f.range.start ≤ e.range.start)).trans
    (reverse_perm edits).symm
  apply perm.eq_of_pairwise _ descending sorted
  intro e f memberE memberF down up
  rw [decide_eq_true_eq] at down up
  exact inj_on_of_nodup_map nd (mem_mergeSort.mp memberE) (mem_reverse.mp memberF)
    (by omega)

theorem mergeEdits_perform (ascending : RecordedAscending (edits.map (·.range))) (ascends : Ascends edits)
    (hf : ∀ e ∈ edits, e.range.Fits source) :
    (record edits).mergeEdits.applyAll source = applyReversed edits source := by
  have pending := record_pendingEdits edits
  rw [mergeEdits]
  split
  · rw [applyAll_eq, pending]
  · rw [pending, mergeSort_descending ascending]
    have descends : edits.reverse.Pairwise fun e f => f.range.stop ≤ e.range.start :=
      pairwise_reverse.mpr ascends
    rw [applyReversed]
    cases reversed : edits.reverse with
    | nil => rw [applyAll_eq, applyReversed, pending, reversed]
    | cons cur rest =>
      rw [reversed] at descends
      rw [applyAll_eq, applyReversed, reverse_reverse]
      exact mergeLoop_perform descends fun e mem =>
        hf e (mem_reverse.mp (reversed ▸ mem))

theorem compose_perform (ascending : RecordedAscending (edits.map (·.range))) (ascends : Ascends edits)
    (hf : ∀ e ∈ edits, e.range.Fits source) {edit : TextEdit}
    (composed : (record edits).compose = some edit) : edit.apply source = applyReversed edits source := by
  have sorted : (edits.mergeSort fun e f => decide (e.range.start ≤ f.range.start)) = edits :=
    mergeSort_of_pairwise
      ((pairwise_map.mp ascending).imp fun before => decide_eq_true (Nat.le_of_lt before))
  rw [compose, record_pendingEdits] at composed
  split at composed
  · cases composed
  · cases composed
    rw [applyReversed_cons]
    simp [applyReversed]
  · rename_i several
    rw [sorted] at composed
    cases edits with
    | nil => cases composed
    | cons fst rest =>
      obtain ⟨last, ends⟩ : ∃ last, (fst :: rest).getLast? = some last := ⟨_, List.getLast?_cons⟩
      simp only [List.head?_cons, ends, Option.bind_eq_bind, Option.bind_some] at composed
      split at composed
      · rename_i touching
        rw [Option.some_inj] at composed
        subst composed
        exact (composed_perform ascends touching ends hf).1
      · cases composed

theorem batch_of_recorded (ascending : RecordedAscending (edits.map (·.range)))
    (disjoint : (edits.map (·.range)).Pairwise TextRange.Disjoint)
    (hf : ∀ e ∈ edits, e.range.Fits source) : BatchExact edits source := by
  have ascends := ascends_of_recorded ascending disjoint hf
  have done := applyReversed_perform ascends hf
  have all : (record edits).applyAll source = applyReversed edits source := by
    rw [applyAll_eq, record_pendingEdits]
  refine ⟨all.trans done, ?_, fun edit composed => ?_⟩
  · rw [all, mergeEdits_perform ascending ascends hf]
  · rw [compose_perform ascending ascends hf composed, done]

end Ascending

theorem pairwise_or_neighbours {α : Type} {R : α → α → Prop} (list : List α)
    (trans : ∀ r s t, s ∈ list → R r s → R s t → R r t) :
    list.Pairwise R ∨ ∃ before r s after, list = before ++ r :: s :: after ∧ ¬ R r s := by
  induction list with
  | nil => exact .inl List.Pairwise.nil
  | cons r rest ih =>
    rcases ih fun r s t mem => trans r s t (.tail _ mem) with
      pairwise | ⟨before, x, y, after, rfl, unrelated⟩
    · cases rest with
      | nil => exact .inl (pairwise_singleton R r)
      | cons s after =>
        by_cases related : R r s
        · refine .inl (pairwise_cons.mpr ⟨fun t mem => ?_, pairwise⟩)
          rcases mem_cons.mp mem with rfl | mem
          · exact related
          · exact trans r s t (by simp) related (rel_of_pairwise_cons pairwise mem)
        · exact .inr ⟨[], r, s, after, rfl, related⟩
    · exact .inr ⟨r :: before, x, y, after, rfl, unrelated⟩

/-- A replacement of letters `a` by as many. -/
def plain (range : TextRange) : TextEdit := ⟨range, List.replicate (range.stop - range.start) 'a'⟩

section Plain

theorem byteLength_letters (count : Nat) : byteLength (List.replicate count 'a') = count := by
  rw [byteLength_replicate, show Char.utf8Size 'a' = 1 from rfl, Nat.mul_one]

variable {count : Nat}

theorem letters_parts {start stop : Nat} (ord : start ≤ stop) (hb : stop ≤ count) (tail : Text) :
    List.replicate count 'a' ++ tail = List.replicate start 'a' ++ List.replicate (stop - start) 'a' ++
      (List.replicate (count - stop) 'a' ++ tail) := by
  rw [replicate_append_replicate, ← append_assoc, replicate_append_replicate,
    show start + (stop - start) + (count - stop) = count by omega]

theorem apply_letters (edit : TextEdit) (count : Nat) (ord : edit.range.start ≤ edit.range.stop)
    (hb : edit.range.stop ≤ count) (tail : Text) :
    edit.apply (List.replicate count 'a' ++ tail) =
      some (List.replicate edit.range.start 'a' ++ edit.newText ++
        (List.replicate (count - edit.range.stop) 'a' ++ tail)) := by
  rw [letters_parts ord hb]
  exact TextEdit.apply_parts _ _ _ _ (byteLength_letters _) (by rw [byteLength_letters, byteLength_letters]; omega)

theorem apply_plain {edit : TextEdit} (ord : edit.range.start ≤ edit.range.stop)
    (hb : edit.range.stop ≤ count)
    (eq : edit.newText = List.replicate (edit.range.stop - edit.range.start) 'a') (tail : Text) :
    edit.apply (List.replicate count 'a' ++ tail) = some (List.replicate count 'a' ++ tail) := by
  rw [apply_letters edit count ord hb, eq, ← letters_parts ord hb]

theorem fits_letters {hr : TextRange} (ord : hr.start ≤ hr.stop) (hb : hr.stop ≤ count) :
    hr.Fits (List.replicate count 'a') := by
  have parts := letters_parts ord hb []
  rw [append_nil, append_nil] at parts
  rw [parts]
  exact TextRange.fits_of_parts _ _ _ (byteLength_letters _)
    (by rw [byteLength_letters, byteLength_letters]; omega)

theorem applyReversed_append (front back : List TextEdit) (source : Text) :
    applyReversed (front ++ back) source = (applyReversed back source).bind (applyReversed front) := by
  rw [applyReversed, reverse_append, foldlM_append]
  rfl

theorem applyReversed_plain (ranges : List TextRange) (count : Nat)
    (ord : ∀ r ∈ ranges, r.start ≤ r.stop) (hb : ∀ r ∈ ranges, r.stop ≤ count) (tail : Text) :
    applyReversed (ranges.map plain) (List.replicate count 'a' ++ tail) =
      some (List.replicate count 'a' ++ tail) := by
  induction ranges with
  | nil => rfl
  | cons r ranges ih =>
    rw [map_cons, applyReversed_cons, ih (fun s mem => ord s (.tail r mem))
      (fun s mem => hb s (.tail r mem)), Option.bind_some]
    exact apply_plain (ord r mem_cons_self) (hb r mem_cons_self) rfl tail

theorem splitBytes_inside (front back : Text) : splitBytes (byteLength front + 1) (front ++ 'é' :: back) = none := by
  induction front with
  | nil => rfl
  | cons char front ih =>
    have size := char.utf8Size_pos
    rw [cons_append, splitBytes, byteLength_cons, if_neg (by omega), if_pos (by omega),
      show char.utf8Size + byteLength front + 1 - char.utf8Size = byteLength front + 1 by omega, ih]
    rfl

theorem apply_inside (edit : TextEdit) (front back : Text) (inside : edit.range.stop = byteLength front + 1) :
    edit.apply (front ++ 'é' :: back) = none := by
  have bound : edit.range.stop ≤ byteLength (front ++ 'é' :: back) := by
    have := Char.utf8Size_pos 'é'
    rw [byteLength_append, byteLength_cons, inside]
    omega
  unfold TextEdit.apply
  cases splitBytes (min edit.range.start (byteLength (front ++ 'é' :: back))) (front ++ 'é' :: back) with
  | none => rfl
  | some split =>
    simp only [Option.bind_eq_bind, Option.bind_some, if_pos bound]
    rw [inside, splitBytes_inside]
    rfl

end Plain

variable {before after : List TextRange} {r s : TextRange} {count : Nat}

theorem applyAll_panics (ord : ∀ x ∈ before ++ r :: s :: after, x.start ≤ x.stop)
    (hb : ∀ x ∈ before ++ r :: s :: after, x.stop ≤ count) (crossed : s.start < r.stop) :
    applyReversed (before.map plain ++ plain r ::
      ⟨s, List.replicate (r.stop - s.start - 1) 'a' ++ ['é']⟩ :: after.map plain)
        (List.replicate count 'a') = none := by
  have identity := applyReversed_plain after count
    (fun x mem => ord x (by simp [mem])) (fun x mem => hb x (by simp [mem])) []
  rw [append_nil] at identity
  have snd := apply_letters ⟨s, List.replicate (r.stop - s.start - 1) 'a' ++ ['é']⟩ count
    (ord s (by simp)) (hb s (by simp)) []
  rw [append_nil, append_nil] at snd
  have fst : (plain r).apply (List.replicate s.start 'a' ++ (List.replicate (r.stop - s.start - 1) 'a' ++ ['é']) ++
      List.replicate (count - s.stop) 'a') = none := by
    have hin := apply_inside (plain r)
      (List.replicate s.start 'a' ++ List.replicate (r.stop - s.start - 1) 'a')
      (List.replicate (count - s.stop) 'a') (by
        rw [byteLength_append, byteLength_letters, byteLength_letters, plain]
        dsimp only
        omega)
    simpa only [append_assoc, cons_append, nil_append] using hin
  rw [applyReversed_append, applyReversed_cons, applyReversed_cons, identity, Option.bind_some, snd,
    Option.bind_some, fst]
  rfl

/-- In descending order an edit ends before the one in front of it starts, or both stand at one
position where the one in front inserts. -/
def Descends (e f : TextEdit) : Prop :=
  f.range.stop ≤ e.range.start ∨ e.range.start = e.range.stop ∧ f.range.start = e.range.start

structure IsPlain (edit : TextEdit) (count : Nat) : Prop where
  ordered : edit.range.start ≤ edit.range.stop
  bound : edit.range.stop ≤ count
  letters : edit.newText = List.replicate (edit.range.stop - edit.range.start) 'a'

section Merged

variable {count : Nat}
variable {cur edit longer : TextEdit} {rest between after : List TextEdit} {pos : Nat}

theorem descends_joinEdits {hl : TextEdit} (down : Descends cur hl) (down' : Descends edit hl)
    (ord : edit.range.start ≤ edit.range.stop) (meets : cur.range.start ≤ edit.range.stop) :
    Descends (joinEdits edit cur) hl := by
  unfold Descends joinEdits at *
  dsimp only
  omega

theorem plain_joinEdits (down : Descends cur edit) (meets : cur.range.start ≤ edit.range.stop)
    (plainC : IsPlain cur count) (plainE : IsPlain edit count) : IsPlain (joinEdits edit cur) count := by
  obtain ⟨orderedC, boundC, lettersC⟩ := plainC
  obtain ⟨orderedE, boundE, lettersE⟩ := plainE
  unfold Descends at down
  unfold joinEdits
  refine ⟨by dsimp only; omega, by dsimp only; omega, ?_⟩
  rw [lettersC, lettersE, replicate_append_replicate]
  dsimp only
  congr 1
  omega

theorem mergeLoop_plain (descends : (cur :: rest).Pairwise Descends)
    (plains : ∀ e ∈ cur :: rest, IsPlain e count) (tail : Text) :
    (mergeLoop cur rest).foldlM (fun source edit => edit.apply source)
      (List.replicate count 'a' ++ tail) = some (List.replicate count 'a' ++ tail) := by
  induction rest generalizing cur with
  | nil =>
    have plainC := plains cur (.head _)
    rw [mergeLoop, foldlM_cons, apply_plain plainC.ordered plainC.bound plainC.letters]
    rfl
  | cons edit rest ih =>
    obtain ⟨hlt, descends⟩ := pairwise_cons.mp descends
    obtain ⟨below', descends'⟩ := pairwise_cons.mp descends
    have plainC := plains cur (.head _)
    have plainE := plains edit (.tail cur mem_cons_self)
    have down := hlt edit (.head _)
    rw [mergeLoop]
    by_cases meets : cur.range.start ≤ edit.range.stop
    · rw [if_pos meets]
      apply ih
      · exact pairwise_cons.mpr ⟨fun e mem => descends_joinEdits (hlt e (.tail edit mem))
          (below' e mem) plainE.ordered meets, descends'⟩
      · intro e mem
        rcases mem_cons.mp mem with rfl | mem
        · exact plain_joinEdits down meets plainC plainE
        · exact plains e (.tail cur (.tail edit mem))
    · rw [if_neg meets, foldlM_cons, apply_plain plainC.ordered plainC.bound plainC.letters]
      exact ih descends fun e mem => plains e (.tail cur mem)

theorem mergeLoop_after (written : Text) (descends : (cur :: rest).Pairwise Descends)
    (plains : ∀ e ∈ rest, IsPlain e count) (ord : cur.range.start ≤ cur.range.stop)
    (hb : cur.range.stop ≤ count) (reaches : cur.range.start ≤ pos)
    (text : cur.newText = List.replicate (pos - cur.range.start + 1) 'a' ++ written) :
    ∃ others, (mergeLoop cur rest).foldlM (fun source edit => edit.apply source)
      (List.replicate count 'a') = some (List.replicate (pos + 1) 'a' ++ others) := by
  have applied : cur.apply (List.replicate count 'a') = some (List.replicate (pos + 1) 'a' ++
      (written ++ List.replicate (count - cur.range.stop) 'a')) := by
    have done := apply_letters cur count ord hb []
    rw [append_nil, append_nil, text, ← append_assoc, replicate_append_replicate,
      append_assoc] at done
    rw [done, show cur.range.start + (pos - cur.range.start + 1) = pos + 1 by omega]
  induction rest generalizing cur written with
  | nil =>
    refine ⟨written ++ List.replicate (count - cur.range.stop) 'a', ?_⟩
    rw [mergeLoop, foldlM_cons, applied]
    rfl
  | cons edit rest ih =>
    obtain ⟨hlt, descends⟩ := pairwise_cons.mp descends
    obtain ⟨below', descends'⟩ := pairwise_cons.mp descends
    have plainE := plains edit (.head _)
    have down := hlt edit (.head _)
    have orderedE := plainE.ordered
    have boundE := plainE.bound
    rw [mergeLoop]
    by_cases meets : cur.range.start ≤ edit.range.stop
    · rw [if_pos meets]
      have down' := down
      unfold Descends at down'
      have longer : ∃ written', edit.newText ++ cur.newText =
          List.replicate (pos - edit.range.start + 1) 'a' ++ written' := by
        refine ⟨List.replicate (edit.range.stop - edit.range.start + (pos - cur.range.start + 1) -
          (pos - edit.range.start + 1)) 'a' ++ written, ?_⟩
        rw [text, plainE.letters, ← append_assoc, ← append_assoc, replicate_append_replicate,
          replicate_append_replicate]
        congr 2
        omega
      obtain ⟨written', longer⟩ := longer
      have shape : (joinEdits edit cur).range.start ≤ (joinEdits edit cur).range.stop ∧
          (joinEdits edit cur).range.stop ≤ count ∧ (joinEdits edit cur).range.start ≤ pos := by
        unfold joinEdits
        dsimp only
        omega
      apply ih written' _ (fun e mem => plains e (.tail edit mem)) shape.1 shape.2.1 shape.2.2 longer
      · have done := apply_letters (joinEdits edit cur) count shape.1 shape.2.1 []
        rw [append_nil, append_nil, show (joinEdits edit cur).newText = _ from longer,
          ← append_assoc, replicate_append_replicate, append_assoc] at done
        rw [done, show (joinEdits edit cur).range.start + (pos - edit.range.start + 1) = pos + 1 by
          unfold joinEdits at *; dsimp only at *; omega]
      · exact pairwise_cons.mpr ⟨fun e mem => descends_joinEdits (hlt e (.tail edit mem))
          (below' e mem) orderedE meets, descends'⟩
    · rw [if_neg meets, foldlM_cons, applied]
      refine ⟨_, mergeLoop_plain descends (fun e mem => ?_) _⟩
      have plain := plains e mem
      refine ⟨plain.ordered, ?_, plain.letters⟩
      -- what follows an edit that does not reach the one before ends before it as well
      rcases mem_cons.mp mem with rfl | mem
      · omega
      · have next := below' e mem
        have next' := hlt e (.tail edit mem)
        have := plain.ordered
        unfold Descends at next next'
        omega

theorem mergeLoop_at (cur : TextEdit) (descends : (cur :: (between ++ longer :: after)).Pairwise Descends)
    (plains : ∀ e ∈ between ++ after, IsPlain e count) (starts : ∀ e ∈ between, e.range.start = pos)
    (start : cur.range.start = pos) (ord : cur.range.start ≤ cur.range.stop)
    (hb : cur.range.stop ≤ count) (startL : longer.range.start = pos)
    (orderedL : longer.range.start ≤ longer.range.stop) (boundL : longer.range.stop ≤ count)
    (text : longer.newText = List.replicate (longer.range.stop - longer.range.start + 1) 'a') :
    ∃ others, (mergeLoop cur (between ++ longer :: after)).foldlM (fun source edit => edit.apply source)
      (List.replicate count 'a') = some (List.replicate (pos + 1) 'a' ++ others) := by
  induction between generalizing cur with
  | nil =>
    obtain ⟨hlt, descends⟩ := pairwise_cons.mp descends
    obtain ⟨below', descends'⟩ := pairwise_cons.mp descends
    have down := hlt longer (.head _)
    have meets : cur.range.start ≤ longer.range.stop := by omega
    rw [nil_append, mergeLoop, if_pos meets]
    apply mergeLoop_after (List.replicate (longer.range.stop - longer.range.start) 'a' ++
      cur.newText) _ (fun e mem => plains e mem)
    · unfold joinEdits
      dsimp only
      omega
    · unfold joinEdits
      dsimp only
      omega
    · exact Nat.le_of_eq startL
    · rw [joinEdits, text, Nat.add_comm _ 1, replicate_add, append_assoc]
      dsimp only
      rw [startL, Nat.sub_self]
    · exact pairwise_cons.mpr ⟨fun e mem => descends_joinEdits (hlt e (.tail longer mem))
        (below' e mem) orderedL meets, descends'⟩
  | cons edit between ih =>
    obtain ⟨hlt, descends⟩ := pairwise_cons.mp descends
    obtain ⟨below', descends'⟩ := pairwise_cons.mp descends
    have plainE := plains edit (.head _)
    have down := hlt edit (.head _)
    have startE := starts edit (.head _)
    have meets : cur.range.start ≤ edit.range.stop := by
      have := plainE.ordered
      omega
    rw [cons_append, mergeLoop, if_pos meets]
    have := plainE.ordered
    have := plainE.bound
    apply ih (joinEdits edit cur) _ (fun e mem => plains e (.tail edit mem))
      (fun e mem => starts e (.tail edit mem))
    · exact startE
    · unfold joinEdits
      dsimp only
      omega
    · unfold joinEdits
      dsimp only
      omega
    · exact pairwise_cons.mpr ⟨fun e mem => descends_joinEdits (hlt e (.tail edit mem))
        (below' e mem) plainE.ordered meets, descends'⟩

theorem mergeLoop_before {before : List TextEdit} {insertion : TextEdit}
    (descends : (cur :: (before ++ insertion :: (between ++ longer :: after))).Pairwise Descends)
    (plains : ∀ e ∈ cur :: (before ++ (between ++ after)), IsPlain e count)
    (starts : ∀ e ∈ between, e.range.start = pos) (start : insertion.range.start = pos)
    (ord : insertion.range.start ≤ insertion.range.stop) (hb : insertion.range.stop ≤ count)
    (startL : longer.range.start = pos) (orderedL : longer.range.start ≤ longer.range.stop)
    (boundL : longer.range.stop ≤ count)
    (text : longer.newText = List.replicate (longer.range.stop - longer.range.start + 1) 'a') :
    ∃ others, (mergeLoop cur (before ++ insertion :: (between ++ longer :: after))).foldlM
      (fun source edit => edit.apply source) (List.replicate count 'a') =
        some (List.replicate (pos + 1) 'a' ++ others) := by
  induction before generalizing cur with
  | nil =>
    obtain ⟨hlt, descends⟩ := pairwise_cons.mp descends
    obtain ⟨below', descends'⟩ := pairwise_cons.mp descends
    have plainC := plains cur (.head _)
    have orderedC := plainC.ordered
    have boundC := plainC.bound
    have down := hlt insertion (.head _)
    have rest : ∀ e ∈ between ++ after, IsPlain e count := fun e mem => plains e (.tail cur mem)
    rw [nil_append, mergeLoop]
    by_cases meets : cur.range.start ≤ insertion.range.stop
    · rw [if_pos meets]
      apply mergeLoop_at (joinEdits insertion cur) _ rest starts start _ _ startL orderedL boundL text
      · exact pairwise_cons.mpr ⟨fun e mem => descends_joinEdits (hlt e (.tail insertion mem))
          (below' e mem) ord meets, descends'⟩
      · unfold joinEdits
        dsimp only
        omega
      · unfold joinEdits
        dsimp only
        omega
    · have identity := apply_plain orderedC boundC plainC.letters []
      rw [append_nil] at identity
      rw [if_neg meets, foldlM_cons, identity]
      exact mergeLoop_at insertion descends rest starts start ord hb startL orderedL boundL text
  | cons edit before ih =>
    obtain ⟨hlt, descends⟩ := pairwise_cons.mp descends
    obtain ⟨below', descends'⟩ := pairwise_cons.mp descends
    have plainC := plains cur (.head _)
    have plainE := plains edit (.tail cur mem_cons_self)
    have down := hlt edit (.head _)
    rw [cons_append, mergeLoop]
    by_cases meets : cur.range.start ≤ edit.range.stop
    · rw [if_pos meets]
      apply ih
      · exact pairwise_cons.mpr ⟨fun e mem => descends_joinEdits (hlt e (.tail edit mem))
          (below' e mem) plainE.ordered meets, descends'⟩
      · intro e mem
        rcases mem_cons.mp mem with rfl | mem
        · exact plain_joinEdits down meets plainC plainE
        · exact plains e (.tail cur (.tail edit mem))
    · have identity := apply_plain plainC.ordered plainC.bound plainC.letters []
      rw [append_nil] at identity
      rw [if_neg meets, foldlM_cons, identity]
      exact ih descends fun e mem => plains e (.tail cur mem)

end Merged

theorem plain_isPlain {hr : TextRange} (ord : hr.start ≤ hr.stop) (hb : hr.stop ≤ count) :
    IsPlain (plain hr) count := ⟨ord, hb, rfl⟩

theorem descends_mergeSort {edits : List TextEdit}
    (disjoint : edits.Pairwise fun e f => e.range.Disjoint f.range) :
    (edits.mergeSort fun e f => decide (f.range.start ≤ e.range.start)).Pairwise
      fun e f => f.range.start ≤ e.range.start ∧ e.range.Disjoint f.range := by
  have perm := mergeSort_perm edits fun e f => decide (f.range.start ≤ e.range.start)
  have ne := perm.symm.pairwise disjoint fun {e f} ne => Or.symm ne
  have sorted : (edits.mergeSort fun e f => decide (f.range.start ≤ e.range.start)).Pairwise
      fun e f => decide (f.range.start ≤ e.range.start) = true := by
    apply pairwise_mergeSort
    · intro a b c
      simp only [decide_eq_true_eq]
      omega
    · intro a b
      simp only [Bool.or_eq_true, decide_eq_true_eq]
      omega
  exact (sorted.imp of_decide_eq_true).and ne

theorem mergeEdits_swaps (ord : ∀ x ∈ before ++ r :: s :: after, x.start ≤ x.stop)
    (hb : ∀ x ∈ before ++ r :: s :: after, x.stop ≤ count)
    (disjoint : (before ++ r :: s :: after).Pairwise TextRange.Disjoint) (empty : r.start = r.stop)
    (eq : s.start = r.start) : ∃ others, (record (before.map plain ++ ⟨r, ['b']⟩ ::
      ⟨s, List.replicate (s.stop - s.start + 1) 'a'⟩ :: after.map plain)).mergeEdits.applyAll
        (List.replicate count 'a') = some (List.replicate (r.start + 1) 'a' ++ others) := by
  generalize edits_eq : before.map plain ++ (⟨r, ['b']⟩ : TextEdit) ::
    ⟨s, List.replicate (s.stop - s.start + 1) 'a'⟩ :: after.map plain = edits
  have ranges : edits.map (·.range) = before ++ r :: s :: after := by
    have plains : ∀ list : List TextRange, (list.map plain).map (·.range) = list := fun list => by
      rw [map_map]
      exact map_id list
    rw [← edits_eq, map_append, map_cons, map_cons, plains, plains]
  have ne : edits.Pairwise fun e f => e.range.Disjoint f.range := by
    rw [← pairwise_map, ranges]
    exact disjoint
  have orderedE : ∀ e ∈ edits, e.range.start ≤ e.range.stop ∧ e.range.stop ≤ count := fun e mem => by
    have := ranges ▸ mem_map_of_mem mem
    exact ⟨ord _ this, hb _ this⟩
  have several : ¬ (record edits).pendingEdits.length < 2 := by
    rw [record_pendingEdits, ← edits_eq]
    simp only [length_append, length_cons]
    omega
  have sorted := descends_mergeSort ne
  have perm := mergeSort_perm edits fun e f => decide (f.range.start ≤ e.range.start)
  have inOrder : [⟨r, ['b']⟩, ⟨s, List.replicate (s.stop - s.start + 1) 'a'⟩].Sublist
      (edits.mergeSort fun e f => decide (f.range.start ≤ e.range.start)) := by
    apply pair_sublist_mergeSort
    · intro a b c
      simp only [decide_eq_true_eq]
      omega
    · intro a b
      simp only [Bool.or_eq_true, decide_eq_true_eq]
      omega
    · exact decide_eq_true (Nat.le_of_eq eq)
    · rw [← edits_eq]
      exact (((nil_sublist _).cons_cons _).cons_cons _).trans (sublist_append_right _ _)
  obtain ⟨left, right, split, memberL, memberR⟩ := cons_sublist_iff.mp inOrder
  obtain ⟨front, mid, rfl⟩ := mem_iff_append.mp memberL
  obtain ⟨middle', back, rfl⟩ := mem_iff_append.mp (singleton_sublist.mp memberR)
  have whole : (edits.mergeSort fun e f => decide (f.range.start ≤ e.range.start)) =
      front ++ ⟨r, ['b']⟩ :: ((mid ++ middle') ++ ⟨s, List.replicate (s.stop - s.start + 1) 'a'⟩ :: back) := by
    rw [split]
    simp
  generalize mid ++ middle' = between at whole
  rw [whole] at sorted perm
  have descends : (front ++ (⟨r, ['b']⟩ : TextEdit) :: (between ++
      ⟨s, List.replicate (s.stop - s.start + 1) 'a'⟩ :: back)).Pairwise Descends := by
    apply sorted.imp_of_mem
    intro e f memberE memberF ⟨down, ne⟩
    have := orderedE e (perm.mem_iff.mp memberE)
    have := orderedE f (perm.mem_iff.mp memberF)
    unfold TextRange.Disjoint at ne
    unfold Descends
    omega
  have plains : ∀ e ∈ front ++ (between ++ back), IsPlain e count := by
    have cancelled : (front ++ (between ++ back)).Perm (before.map plain ++ after.map plain) := by
      have left := (perm_middle (a := (⟨r, ['b']⟩ : TextEdit))).symm.trans perm
      rw [← edits_eq, ← append_assoc] at left
      have left := (left.trans perm_middle).cons_inv
      have left := (perm_middle.symm.trans left).trans perm_middle
      rw [← append_assoc]
      exact left.cons_inv
    intro e mem
    rcases mem_append.mp (cancelled.mem_iff.mp mem) with mem | mem
    · obtain ⟨x, listed, rfl⟩ := mem_map.mp mem
      have listed := mem_append_left (r :: s :: after) listed
      exact plain_isPlain (ord x listed) (hb x listed)
    · obtain ⟨x, listed, rfl⟩ := mem_map.mp mem
      have listed := mem_append_right before (mem_cons_of_mem r (mem_cons_of_mem s listed))
      exact plain_isPlain (ord x listed) (hb x listed)
  have starts : ∀ e ∈ between, e.range.start = r.start := by
    intro e mem
    have sorted := (pairwise_append.mp sorted).2.1
    have ⟨hlt, sorted⟩ := pairwise_cons.mp sorted
    have upper := (hlt e (mem_append_left _ mem)).1
    have lower := ((pairwise_append.mp sorted).2.2 e mem _ mem_cons_self).1
    dsimp only at upper lower
    omega
  have orderedR := ord r (by simp)
  have boundR := hb r (by simp)
  have orderedS := ord s (by simp)
  have boundS := hb s (by simp)
  rw [mergeEdits, if_neg several, record_pendingEdits, whole]
  cases front with
  | nil =>
    rw [applyAll_eq, applyReversed]
    dsimp only [nil_append]
    rw [reverse_reverse]
    exact mergeLoop_at _ descends plains starts rfl orderedR boundR eq orderedS boundS rfl
  | cons fst front =>
    rw [applyAll_eq, applyReversed]
    dsimp only [cons_append]
    rw [reverse_reverse]
    exact mergeLoop_before descends plains starts rfl orderedR boundR eq orderedS boundS rfl

theorem exists_bound (ranges : List TextRange) : ∃ count, ∀ r ∈ ranges, r.stop ≤ count := by
  induction ranges with
  | nil => exact ⟨0, by simp⟩
  | cons r ranges ih =>
    obtain ⟨count, hb⟩ := ih
    refine ⟨max r.stop count, fun s mem => ?_⟩
    rcases mem_cons.mp mem with rfl | mem
    · omega
    · have := hb s mem
      omega

theorem applyReversed_insertion (ord : ∀ x ∈ before ++ r :: s :: after, x.start ≤ x.stop)
    (hb : ∀ x ∈ before ++ r :: s :: after, x.stop ≤ count) (earlier : ∀ x ∈ before, x.stop ≤ r.start)
    (empty : r.start = r.stop) : ∃ others, applyReversed (before.map plain ++ ⟨r, ['b']⟩ ::
      ⟨s, List.replicate (s.stop - s.start + 1) 'a'⟩ :: after.map plain) (List.replicate count 'a') =
        some (List.replicate r.start 'a' ++ 'b' :: others) := by
  have orderedS := ord s (by simp)
  have boundS := hb s (by simp)
  have boundR := hb r (by simp)
  have identity := applyReversed_plain after count (fun x mem => ord x (by simp [mem]))
    (fun x mem => hb x (by simp [mem])) []
  rw [append_nil] at identity
  have snd := apply_letters ⟨s, List.replicate (s.stop - s.start + 1) 'a'⟩ count orderedS boundS []
  rw [append_nil, append_nil, replicate_append_replicate, replicate_append_replicate] at snd
  dsimp only at snd
  rw [show s.start + (s.stop - s.start + 1) + (count - s.stop) = count + 1 by omega] at snd
  have fst := apply_letters ⟨r, ['b']⟩ (count + 1) (Nat.le_of_eq empty) (Nat.le_succ_of_le boundR) []
  rw [append_nil, append_nil, append_assoc] at fst
  have front := applyReversed_plain before r.start (fun x mem => ord x (by simp [mem])) earlier
    (['b'] ++ List.replicate (count + 1 - r.stop) 'a')
  refine ⟨List.replicate (count + 1 - r.stop) 'a', ?_⟩
  rw [applyReversed_append, applyReversed_cons, applyReversed_cons, identity, Option.bind_some, snd,
    Option.bind_some, fst, Option.bind_some, front]
  rfl

/-- Whatever the text and the replacements, batching is right if and only if the edits were recorded
in the strict order of their starts. -/
theorem batch_exact_iff (ranges : List TextRange) (ordered : ∀ r ∈ ranges, r.start ≤ r.stop)
    (disjoint : ranges.Pairwise TextRange.Disjoint) :
    (∀ (source : Text) (edits : List TextEdit), edits.map (·.range) = ranges →
      (∀ r ∈ ranges, r.Fits source) → BatchExact edits source) ↔ RecordedAscending ranges := by
  constructor
  · intro exact
    have plains : ∀ list : List TextRange, (list.map plain).map (·.range) = list := fun list => by
      rw [map_map]
      exact map_id list
    obtain ⟨count, bound⟩ := exists_bound ranges
    have fits : ∀ r ∈ ranges, r.Fits (List.replicate count 'a') :=
      fun r member => fits_letters (ordered r member) (bound r member)
    have ascends : ranges.Pairwise fun r s => r.stop ≤ s.start := by
      rcases pairwise_or_neighbours (R := fun r s : TextRange => r.stop ≤ s.start) ranges
        (fun r s t member first second => le_trans (le_trans first (ordered s member)) second) with
        pairwise | ⟨before, r, s, after, rfl, crossed⟩
      · exact pairwise
      · have apart := (pairwise_cons.mp (pairwise_append.mp disjoint).2.1).1 s (.head _)
        have crossed : s.start < r.stop := by omega
        have all := (exact (List.replicate count 'a') (before.map plain ++ plain r ::
          ⟨s, List.replicate (r.stop - s.start - 1) 'a' ++ ['é']⟩ :: after.map plain)
          (by rw [map_append, map_cons, map_cons, plains, plains]; rfl) fits).all
        rw [applyAll_eq, record_pendingEdits, applyAll_panics ordered bound crossed] at all
        cases all
    rcases pairwise_or_neighbours (R := fun r s : TextRange => r.start < s.start) ranges
      (fun r s t _ first second => lt_trans first second) with pairwise | ⟨before, r, s, after, rfl, level⟩
    · exact pairwise
    · have after' := (pairwise_append.mp ascends).2.1
      have next := (pairwise_cons.mp after').1 s (.head _)
      have orderedR := ordered r (by simp)
      obtain ⟨others, merged⟩ := mergeEdits_swaps ordered bound disjoint (by omega) (by omega)
      have batch := exact (List.replicate count 'a') (before.map plain ++ ⟨r, ['b']⟩ ::
        ⟨s, List.replicate (s.stop - s.start + 1) 'a'⟩ :: after.map plain)
        (by rw [map_append, map_cons, map_cons, plains, plains]) fits
      obtain ⟨others', asRecorded⟩ := applyReversed_insertion ordered bound
        (fun x member => (pairwise_append.mp ascends).2.2 x member r mem_cons_self) (by omega)
      have same := merged.symm.trans batch.merged
      rw [applyAll_eq, record_pendingEdits, asRecorded, Option.some_inj, replicate_add,
        append_assoc, append_right_inj] at same
      simp at same
  · intro ascending source edits same fits
    subst same
    exact batch_of_recorded ascending disjoint fun e member => fits e.range (mem_map_of_mem member)

theorem batch_exact_two_edits :
    BatchExact [⟨⟨0, 1⟩, ['x', 'y']⟩, ⟨⟨2, 3⟩, []⟩] ['a', 'b', 'c', 'd'] := by
  apply (batch_exact_iff [⟨0, 1⟩, ⟨2, 3⟩] (by simp) (by simp [TextRange.Disjoint])).mpr
  · simp [RecordedAscending]
  · rfl
  · intro r member
    rcases mem_cons.mp member with rfl | member
    · exact TextRange.fits_of_parts [] ['a'] ['b', 'c', 'd'] rfl rfl
    · rw [mem_singleton] at member
      subst member
      exact TextRange.fits_of_parts ['a', 'b'] ['c'] ['d'] rfl rfl

/-- A replacement of the third letter and then an insertion at the start of `abcd`: the insertion is
made first and moves the second letter under the replacement. -/
theorem batch_of_descending :
    ¬ BatchExact [⟨⟨2, 3⟩, ['X']⟩, ⟨⟨0, 0⟩, ['Y']⟩] ['a', 'b', 'c', 'd'] := by
  intro exact
  have all := exact.all
  rw [applyAll_eq, record_pendingEdits] at all
  exact absurd all (by decide)

end SyntaxTree
