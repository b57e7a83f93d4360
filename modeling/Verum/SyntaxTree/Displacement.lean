import Verum.SyntaxTree.Event

open List

namespace SyntaxTree

variable {Kind : Type}

def starts : List (Event Kind) → Nat
  | [] => 0
  | .start _ _ :: rest => starts rest + 1
  | _ :: rest => starts rest

def finishes : List (Event Kind) → Nat
  | [] => 0
  | .finish :: rest => finishes rest + 1
  | _ :: rest => finishes rest

/-- The number of nodes started before the `bound`th finish. -/
def startCount : Nat → List (Event Kind) → Nat
  | 0, _ | _, [] => 0
  | bound + 1, .start _ _ :: rest => startCount (bound + 1) rest + 1
  | bound + 1, .finish :: rest => startCount bound rest
  | bound + 1, _ :: rest => startCount (bound + 1) rest

def callStarts : Nat → List (SinkCall Kind) → Nat
  | 0, _ | _, [] => 0
  | bound + 1, .startNode _ :: rest => callStarts (bound + 1) rest + 1
  | bound + 1, .finishNode :: rest => callStarts bound rest
  | bound + 1, _ :: rest => callStarts (bound + 1) rest

section Counts

@[simp] theorem startCount_zero (events : List (Event Kind)) : startCount 0 events = 0 := by
  cases events <;> rfl

@[simp] theorem startCount_nil (hb : Nat) : startCount hb ([] : List (Event Kind)) = 0 := by
  cases hb <;> rfl

@[simp] theorem callStarts_zero (calls : List (SinkCall Kind)) : callStarts 0 calls = 0 := by
  cases calls <;> rfl

@[simp] theorem callStarts_nil (hb : Nat) : callStarts hb ([] : List (SinkCall Kind)) = 0 := by
  cases hb <;> rfl

theorem startCount_split (pre after : List (Event Kind)) :
    startCount (finishes pre + 1) (pre ++ .finish :: after) = starts pre := by
  induction pre with
  | nil => simp [finishes, starts, startCount]
  | cons event rest ih => cases event <;> simp [finishes, starts, startCount, ih]

theorem startCount_filter (bound : Nat) (events : List (Event Kind)) :
    startCount bound (events.filter fun event => !event.isTombstone) = startCount bound events := by
  induction events generalizing bound with
  | nil => rfl
  | cons event rest ih =>
    cases bound with
    | zero => simp
    | succ bound =>
      cases event with
      | start kind link => exact congrArg (· + 1) (ih (bound + 1))
      | finish => exact ih bound
      | token kind n | error message | tombstone => exact ih (bound + 1)

theorem callStarts_tokens (hb : Nat) {calls rest : List (SinkCall Kind)}
    (tokens : ∀ call ∈ calls, ∃ kind text, call = .token kind text) :
    callStarts hb (calls ++ rest) = callStarts hb rest := by
  induction calls with
  | nil => rfl
  | cons call calls ih =>
    rw [forall_mem_cons] at tokens
    obtain ⟨⟨kind, text, eq⟩, others⟩ := tokens
    subst eq
    cases hb with
    | zero => simp
    | succ hb => exact ih others

theorem tokenCalls_tokens (kind : Kind) (n : Nat) (tokens : List (TokenSource Kind)) :
    ∀ call ∈ tokenCalls kind n tokens, ∃ kind text, call = .token kind text := by
  intro call mem
  simp only [tokenCalls, mem_flatten, mem_map] at mem
  obtain ⟨_, ⟨token, _, rfl⟩, hin⟩ := mem
  simp only [TokenSource.calls, mem_append, mem_map, mem_singleton] at hin
  rcases hin with (⟨trivia, _, rfl⟩ | rfl) | ⟨trivia, _, rfl⟩
  · exact ⟨_, _, rfl⟩
  · exact ⟨_, _, rfl⟩
  · exact ⟨_, _, rfl⟩

theorem callStarts_deliver (hb : Nat) (events : List (Event Kind)) (tokens : List (TokenSource Kind)) :
    callStarts hb (deliver events tokens) = startCount hb events := by
  induction events generalizing hb tokens with
  | nil => simp [deliver]
  | cons event rest ih =>
    cases hb with
    | zero => simp
    | succ hb =>
      cases event with
      | token kind n =>
        rw [deliver, callStarts_tokens _ (tokenCalls_tokens kind n tokens), ih]
        rfl
      | _ => simp [deliver, callStarts, startCount, ih]

theorem callStarts_feed_le [DecidableEq Kind] (tombstone : Kind) (bound : Nat) (events : List (Event Kind))
    (tokens : List (TokenSource Kind)) :
    callStarts bound (feed tombstone events tokens) ≤ startCount bound events := by
  induction events generalizing bound tokens with
  | nil => simp [feed]
  | cons event rest ih =>
    cases bound with
    | zero => simp
    | succ bound =>
      cases event with
      | start kind link =>
        rw [feed]
        split
        · simp only [callStarts, startCount]
          exact Nat.succ_le_succ (ih _ _)
        · exact Nat.le_succ_of_le (ih _ _)
      | token kind n =>
        rw [feed, callStarts_tokens _ (tokenCalls_tokens kind n tokens)]
        exact ih _ _
      | finish | error message | tombstone => exact ih _ _

end Counts

section Displace

/-- `process` takes a linked start away from its place. -/
def Event.displace : Event Kind → Event Kind
  | .start _ (some _) => .tombstone
  | event => event

def Event.Linked (event : Event Kind) : Prop := ∃ kind parentPos, event = .start kind (some parentPos)

/-- A linked node has been finished before the node that precedes it was started. -/
def LinksClosed (events : List (Event Kind)) : Prop :=
  ∀ (index : Nat) (kind : Kind) (parentPos : Nat), events[index]? = some (.start kind (some parentPos)) →
    ∃ closing, index < closing ∧ closing < parentPos ∧ events[closing]? = some .finish

theorem starts_displace_le (events : List (Event Kind)) :
    starts (events.map Event.displace) ≤ starts events := by
  induction events with
  | nil => exact Nat.le_refl _
  | cons event rest ih =>
    match event with
    | .start _ none => exact Nat.succ_le_succ ih
    | .start _ (some _) => exact Nat.le_succ_of_le ih
    | .finish | .token _ _ | .error _ | .tombstone => exact ih

variable {events raw : List (Event Kind)} {closing : Nat}

theorem starts_displace_lt (linked : ∃ event ∈ events, event.Linked) :
    starts (events.map Event.displace) < starts events := by
  induction events with
  | nil =>
    obtain ⟨_, mem, _⟩ := linked
    cases mem
  | cons event rest ih =>
    obtain ⟨hit, mem, here⟩ := linked
    rcases mem_cons.mp mem with eq | mem
    · obtain ⟨kind, parentPos, shape⟩ := here
      rw [← eq, shape]
      exact Nat.lt_succ_of_le (starts_displace_le rest)
    · have fewer := ih ⟨hit, mem, here⟩
      match event with
      | .start _ none => exact Nat.succ_lt_succ fewer
      | .start _ (some _) => exact Nat.lt_succ_of_lt fewer
      | .finish | .token _ _ | .error _ | .tombstone => exact fewer

theorem finishes_displace (events : List (Event Kind)) :
    finishes (events.map Event.displace) = finishes events := by
  induction events with
  | nil => rfl
  | cons event rest ih =>
    match event with
    | .finish => exact congrArg (· + 1) ih
    | .start _ none | .start _ (some _) | .token _ _ | .error _ | .tombstone => exact ih

/-- The part of a list that the rounds from `bound` on leave in place, up to the displaced starts. -/
def Displaced (raw : List (Event Kind)) (closing bound : Nat) (events : List (Event Kind)) : Prop :=
  ∀ index : Nat, index < bound ∨ index ≤ closing →
    events[index]? = raw[index]?.map fun event => if bound ≤ index then event.displace else event

theorem reorderEventsAt_displaced {hb : Nat} (links : LinksClosed raw)
    (beyond : ∀ (idx : Nat) (kind : Kind) (parentPos : Nat), idx ≤ closing → raw[idx]? = some (.start kind (some parentPos)) →
      closing < parentPos) (displaced : Displaced raw closing (hb + 1) events) :
    Displaced raw closing hb (reorderEventsAt events hb) := by
  have here : events[hb]? = raw[hb]? := by
    rw [displaced hb (.inl (Nat.lt_succ_self hb))]
    have low : ¬ hb + 1 ≤ hb := by omega
    cases raw[hb]? <;> simp only [Option.map_none, Option.map_some, low, if_false]
  -- Outside of `bound` the two descriptions agree.
  have elsewhere {idx : Nat} (ne : idx ≠ hb) (hin : idx < hb ∨ idx ≤ closing) :
      events[idx]? = raw[idx]?.map fun event => if hb ≤ idx then event.displace else event := by
    rw [displaced idx (by omega)]
    by_cases hlt : hb ≤ idx
    · simp only [hlt, if_true, show hb + 1 ≤ idx by omega]
    · simp only [hlt, if_false, show ¬ hb + 1 ≤ idx by omega]
  intro idx hin
  rw [reorderEventsAt]
  split
  · next kind parentPos hit =>
    rw [here] at hit
    obtain ⟨finish, after, pre, _⟩ := links hb kind parentPos hit
    have far : idx ≤ closing → hb ≤ closing → closing < parentPos :=
      fun _ low => beyond hb kind parentPos low hit
    have near : idx < parentPos := by
      rcases hin with low | low
      · omega
      · by_cases covered : hb ≤ closing
        · have := far low covered
          omega
        · omega
    have taken : (events.set hb .tombstone)[idx]? =
        raw[idx]?.map fun event => if hb ≤ idx then event.displace else event := by
      by_cases eq : idx = hb
      · subst eq
        have has : idx < events.length := by
          have some := here.trans hit
          exact (List.getElem?_eq_some_iff.mp some).1
        rw [List.getElem?_set_self has, hit]
        simp [Event.displace]
      · rw [List.getElem?_set_ne (Ne.symm eq)]
        exact elsewhere eq hin
    dsimp only
    split
    · rw [List.getElem?_insertIdx_of_lt (by omega), List.getElem?_set_ne (by omega)]
      exact taken
    · exact taken
  · next unlinked =>
    by_cases eq : idx = hb
    · subst eq
      rw [here]
      cases hit : raw[idx]? with
      | none => rfl
      | some event =>
        match event with
        | .start kind (some parentPos) => exact absurd (here.trans hit) (unlinked kind parentPos)
        | .start _ none => simp [Event.displace]
        | .finish | .token _ _ | .error _ | .tombstone => simp [Event.displace]
    · exact elsewhere eq hin

theorem reorderEvents_displaced (links : LinksClosed raw)
    (beyond : ∀ (idx : Nat) (kind : Kind) (parentPos : Nat), idx ≤ closing → raw[idx]? = some (.start kind (some parentPos)) →
      closing < parentPos) (hin : closing < raw.length) :
    Displaced raw closing 0 ((List.range raw.length).reverse.foldl reorderEventsAt raw) := by
  have rounds (hb : Nat) (events : List (Event Kind)) (displaced : Displaced raw closing hb events) :
      Displaced raw closing 0 ((List.range hb).reverse.foldl reorderEventsAt events) := by
    induction hb generalizing events with
    | zero => exact displaced
    | succ hb ih =>
      rw [range_succ, reverse_append, reverse_singleton, singleton_append, foldl_cons]
      exact ih _ (reorderEventsAt_displaced links beyond displaced)
  apply rounds
  intro idx covered
  have low : ¬ raw.length ≤ idx := by omega
  cases raw[idx]? <;> simp [low]

theorem startCount_reorderEvents_lt (links : LinksClosed raw) (linked : ∃ event ∈ raw, event.Linked) :
    ∃ hb, startCount hb (reorderEvents raw) < startCount hb raw := by
  classical
  have fst : ∃ (idx : Nat) (kind : Kind) (parentPos : Nat), raw[idx]? = some (Event.start kind (some parentPos)) := by
    obtain ⟨_, mem, kind, parentPos, rfl⟩ := linked
    obtain ⟨idx, hit⟩ := mem_iff_getElem?.mp mem
    exact ⟨idx, kind, parentPos, hit⟩
  obtain ⟨kind, parentPos, hit⟩ := Nat.find_spec fst
  have least (idx : Nat) (kind : Kind) (parentPos : Nat)
      (hit : raw[idx]? = some (.start kind (some parentPos))) : Nat.find fst ≤ idx :=
    Nat.find_min' fst ⟨kind, parentPos, hit⟩
  generalize Nat.find fst = origin at hit least
  obtain ⟨finish, after, _, finished⟩ := links origin kind parentPos hit
  have hc : ∃ closing : Nat, origin < closing ∧ raw[closing]? = some .finish := ⟨finish, after, finished⟩
  obtain ⟨hl, closes⟩ := Nat.find_spec hc
  have soonest (closing : Nat) (ends : origin < closing ∧ raw[closing]? = some .finish) :
      Nat.find hc ≤ closing := Nat.find_min' hc ends
  generalize Nat.find hc = closing at hl closes soonest
  have beyond : ∀ (idx : Nat) (kind : Kind) (parentPos : Nat), idx ≤ closing →
      raw[idx]? = some (.start kind (some parentPos)) → closing < parentPos := by
    intro idx kind parentPos _ placed
    obtain ⟨ending, above, hlt, ended⟩ := links idx kind parentPos placed
    have low := least idx kind parentPos placed
    have high := soonest ending ⟨by omega, ended⟩
    omega
  have hin := (List.getElem?_eq_some_iff.mp closes).1
  have displaced := reorderEvents_displaced links beyond hin
  generalize reordered : (List.range raw.length).reverse.foldl reorderEventsAt raw = events at displaced
  have finishing : events[closing]? = some .finish := by
    rw [displaced closing (.inr (Nat.le_refl _)), closes]
    simp [Event.displace]
  have split {list : List (Event Kind)} (ends : list[closing]? = some .finish) :
      startCount (finishes (list.take closing) + 1) list = starts (list.take closing) := by
    obtain ⟨bounded, eq⟩ := List.getElem?_eq_some_iff.mp ends
    have parts : list = list.take closing ++ .finish :: list.drop (closing + 1) := by
      rw [← eq, ← drop_eq_getElem_cons bounded, take_append_drop]
    nth_rewrite 2 [parts]
    exact startCount_split _ _
  have prefixes : events.take closing = (raw.take closing).map Event.displace := by
    apply ext_getElem?
    intro idx
    by_cases low : idx < closing
    · rw [List.getElem?_take_of_lt low, displaced idx (.inr (by omega)), List.getElem?_map,
        List.getElem?_take_of_lt low]
      simp
    · simp [low]
  refine ⟨finishes (raw.take closing) + 1, ?_⟩
  rw [reorderEvents, startCount_filter, reordered, split closes]
  have counts := split finishing
  rw [prefixes, finishes_displace] at counts
  rw [counts]
  apply starts_displace_lt
  refine ⟨.start kind (some parentPos), ?_, kind, parentPos, rfl⟩
  apply mem_iff_getElem?.mpr
  exact ⟨origin, by rw [List.getElem?_take_of_lt hl]; exact hit⟩

end Displace

end SyntaxTree
