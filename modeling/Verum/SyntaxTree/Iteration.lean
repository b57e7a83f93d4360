import Mathlib.Data.List.Basic

namespace Iteration

variable {σ α : Type}

/-- An item that an iterator returns at some call; a turn of its loop may return nothing. -/
inductive Issues (turn : σ → Option (Option α × σ)) : σ → α → Prop
  | now {state state' : σ} {item : α} (step : turn state = some (some item, state')) : Issues turn state item
  | later {state state' : σ} {returned : Option α} {item : α} (step : turn state = some (returned, state'))
      (rest : Issues turn state' item) : Issues turn state item

/-- All that an iterator returns until its end. -/
inductive Yields (turn : σ → Option (Option α × σ)) : σ → List α → Prop
  | done {state : σ} (stop : turn state = none) : Yields turn state []
  | item {state state' : σ} {item : α} {items : List α} (step : turn state = some (some item, state'))
      (rest : Yields turn state' items) : Yields turn state (item :: items)
  | quiet {state state' : σ} {items : List α} (step : turn state = some (none, state'))
      (rest : Yields turn state' items) : Yields turn state items

/-- The items met on the way from a start to the end. -/
inductive Visits (next : α → Option α → Prop) : Option α → List α → Prop
  | done : Visits next none []
  | item {item : α} {following : Option α} {items : List α} (step : next item following)
      (rest : Visits next following items) : Visits next (some item) (item :: items)

theorem Issues.keeps {turn : σ → Option (Option α × σ)} (keep : σ → Prop) (good : α → Prop)
    (kept : ∀ {st state' : σ} {ret : Option α}, keep st → turn st = some (ret, state') →
      keep state' ∧ ∀ item, ret = some item → good item)
    {st : σ} {item : α} (start : keep st) (issues : Issues turn st item) : good item := by
  induction issues with
  | now step => exact (kept start step).2 _ rfl
  | later step _ ih => exact ih (kept start step).1

namespace Visits

variable {next : α → Option α → Prop} {start : Option α} {items : List α}

theorem start_eq (visits : Visits next start items) : start = items.head? := by
  cases visits with
  | done | item => rfl

theorem rest {item : α} {front back : List α} (visits : Visits next start (front ++ item :: back)) :
    Visits next (some item) (item :: back) := by
  induction front generalizing start with
  | nil =>
    have eq := visits.start_eq
    rw [List.nil_append] at visits eq
    rw [eq] at visits
    exact visits
  | cons fst front ih =>
    cases visits with
    | item _ hl => exact ih hl

theorem unique (once : ∀ item fst snd, next item fst → next item snd → fst = snd)
    {others : List α} (visits : Visits next start items) (again : Visits next start others) : items = others := by
  induction visits generalizing others with
  | done =>
    cases again
    rfl
  | item step _ ih =>
    cases again with
    | item step' rest' =>
      have eq := once _ _ _ step step'
      subst eq
      rw [ih rest']

theorem nodup (once : ∀ item fst snd, next item fst → next item snd → fst = snd)
    (visits : Visits next start items) : items.Nodup := by
  induction visits with
  | done => exact List.nodup_nil
  | @item fst following items step hl ih =>
    apply List.nodup_cons.mpr
    constructor
    · intro again
      rcases List.append_of_mem again with ⟨front, back, rfl⟩
      -- the walk from the second meeting is the whole walk and a part of it
      have whole : Visits next (some fst) (fst :: (front ++ fst :: back)) := .item step hl
      have eq := unique once whole hl.rest
      have lengths := congrArg List.length eq
      simp only [List.length_cons, List.length_append] at lengths
      omega
    · exact ih

end Visits

end Iteration
