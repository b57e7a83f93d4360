import Verum.Collections.SortedMap

open List

variable {α : Type*}

/-- Segments with a separator between each two of them; without segments, the separators. -/
def weave : List (List α) → List α → List α
  | [], separators => separators
  | segment :: _, [] => segment
  | segment :: segments, separator :: separators => segment ++ separator :: weave segments separators

namespace Weave

/-- The part before a segment: pairs of a segment and the separator after it. -/
def before (segments : List (List α)) (separators : List α) : List α :=
  (List.zipWith (fun segment separator => segment ++ [separator]) segments separators).flatten

/-- The part after a segment: pairs of a separator and the segment after it. -/
def after : List (List α) → List α → List α
  | segment :: segments, separator :: separators => separator :: weave (segment :: segments) separators
  | _, _ => []

variable {segments segments' : List (List α)} {separators separators' : List α} {segment segment' : List α}
  {separator : α}

theorem weave_cons (balanced : segments.length = separators.length) :
    weave (segment :: segments) separators = segment ++ after segments separators := by
  cases separators with
  | nil =>
    rw [eq_nil_of_length_eq_zero balanced]
    exact (append_nil segment).symm
  | cons separator separators =>
    cases segments with
    | nil => cases balanced
    | cons segment' segments => rfl

@[simp] theorem after_nil : after [] ([] : List α) = [] := rfl

theorem after_cons (balanced : segments.length = separators.length) :
    after (segment :: segments) (separator :: separators) = separator :: (segment ++ after segments separators) := by
  rw [after, weave_cons balanced]

theorem weave_split (balanced : segments.length = separators.length)
    (balanced' : segments'.length = separators'.length) :
    weave (segments ++ segment :: segments') (separators ++ separators') =
      before segments separators ++ (segment ++ after segments' separators') := by
  induction segments generalizing separators with
  | nil =>
    rw [eq_nil_of_length_eq_zero balanced.symm]
    exact weave_cons balanced'
  | cons first segments ih =>
    cases separators with
    | nil => cases balanced
    | cons separator separators =>
      rw [cons_append, cons_append, weave, ih (Nat.succ.inj balanced)]
      simp [before]

theorem sublist_weave : separators.Sublist (weave segments separators) := by
  induction separators generalizing segments with
  | nil => exact nil_sublist _
  | cons first separators ih =>
    cases segments with
    | nil => exact List.Sublist.refl _
    | cons segment segments =>
      rw [weave]
      exact (ih.cons_cons first).trans (sublist_append_right segment _)

theorem mem_weave {x : α} (mem : x ∈ separators) : x ∈ weave segments separators := sublist_weave.subset mem

section Bounds

variable {K V : Type*} [LinearOrder K] {es : List (K × V)} {cs : List (List (K × V))}

theorem before_forall (balanced : cs.length = es.length) {p : K → Prop} (down : ∀ x y, x < y → p y → p x)
    (ascending : Entries.Ascending (before cs es)) (separated : ∀ e ∈ es, p e.1) :
    ∀ x ∈ before cs es, p x.1 := by
  induction cs generalizing es with
  | nil => exact fun x mem => absurd mem (not_mem_nil)
  | cons c cs ih =>
    cases es with
    | nil => cases balanced
    | cons e es =>
      have unfolded : before (c :: cs) (e :: es) = c ++ (e :: before cs es) := by simp [before]
      rw [unfolded] at ascending ⊢
      obtain ⟨-, later, apart⟩ := pairwise_append.mp ascending
      have isE : p e.1 := separated e (.head _)
      intro x mem
      rcases mem_append.mp mem with inC | mem
      · exact down _ _ (apart x inC e mem_cons_self) isE
      · rcases mem_cons.mp mem with rfl | mem
        · exact isE
        · exact ih (Nat.succ.inj balanced) (pairwise_cons.mp later).2
            (fun e mem => separated e (.tail _ mem)) x mem

theorem after_forall {p : K → Prop} (up : ∀ x y, x < y → p x → p y) (ascending : Entries.Ascending (after cs es))
    (separated : ∀ e ∈ es.head?, p e.1) : ∀ x ∈ after cs es, p x.1 := by
  cases cs with
  | nil => exact fun x mem => absurd mem (not_mem_nil)
  | cons c cs =>
    cases es with
    | nil => exact fun x mem => absurd mem (not_mem_nil)
    | cons e es =>
      have isE : p e.1 := separated e rfl
      intro x mem
      rcases mem_cons.mp mem with rfl | mem
      · exact isE
      · exact up _ _ ((pairwise_cons.mp ascending).1 x mem) isE

end Bounds

end Weave
