import Mathlib.Data.Finset.Card

open List

namespace DepthFirst

variable {α σ : Type}

/-- A depth-first visit that runs `finish` on each node on the way out. -/
def visit [DecidableEq α] (next : α → List α) (finish : σ → α → σ) : Nat → α → Finset α × σ → Finset α × σ
  | 0, _, state => state
  | fuel + 1, id, state =>
    if id ∈ state.1 then state
    else
      let explored := (next id).foldl (fun state target => visit next finish fuel target state) (insert id state.1, state.2)
      (explored.1, finish explored.2 id)

def push (finished : List α) (id : α) : List α := finished ++ [id]

def assignNumber [DecidableEq α] (state : (α → Option Nat) × Nat) (id : α) : (α → Option Nat) × Nat :=
  (Function.update state.1 id (some state.2), state.2 + 1)

/-- Every node of the list is a root or has a node after it that leads to it. -/
def Parented (next : α → List α) (isRoot : α → Prop) : List α → Prop
  | [] => True
  | id :: later => (isRoot id ∨ ∃ parent ∈ later, id ∈ next parent) ∧ Parented next isRoot later

/-- What a visit adds: the nodes it finished, in order. -/
structure Adds (next : α → List α) (isRoot : α → Prop) (visited after : Finset α) (added : List α) : Prop where
  visited_iff : ∀ id, id ∈ after ↔ id ∈ visited ∨ id ∈ added
  fresh : ∀ id ∈ added, id ∉ visited
  nodup : added.Nodup
  closed : ∀ id ∈ added, ∀ target ∈ next id, target ∈ after
  parented : Parented next isRoot added

section Lists

variable {next : α → List α} {isRoot other : α → Prop}

theorem Parented.append {fst snd : List α} (earlier : Parented next isRoot fst)
    (hl : Parented next isRoot snd) : Parented next isRoot (fst ++ snd) := by
  induction fst with
  | nil => exact hl
  | cons head fst ih =>
    refine ⟨?_, ih earlier.2⟩
    rcases earlier.1 with root | ⟨par, after, leads⟩
    · exact .inl root
    · exact .inr ⟨par, mem_append_left _ after, leads⟩

variable {list : List α}

theorem Parented.mono (parented : Parented next isRoot list) (weaker : ∀ id, isRoot id → other id) :
    Parented next other list := by
  induction list with
  | nil => trivial
  | cons head list ih => exact ⟨parented.1.imp_left (weaker head), ih parented.2⟩

theorem Parented.enter {id : α} (parented : Parented next (· ∈ next id) list) :
    Parented next (· = id) (list ++ [id]) := by
  induction list with
  | nil => exact ⟨.inl rfl, trivial⟩
  | cons head list ih =>
    refine ⟨.inr ?_, ih parented.2⟩
    rcases parented.1 with root | ⟨par, after, leads⟩
    · exact ⟨id, by simp, root⟩
    · exact ⟨par, mem_append_left _ after, leads⟩

theorem Parented.idxOf [DecidableEq α] (parented : Parented next isRoot list) (nodup : list.Nodup) {id : α}
    (has : id ∈ list) : isRoot id ∨ ∃ par ∈ list, id ∈ next par ∧ list.idxOf id < list.idxOf par := by
  induction list with
  | nil => exact absurd has not_mem_nil
  | cons head list ih =>
    rw [nodup_cons] at nodup
    by_cases eq : id = head
    · subst eq
      rcases parented.1 with root | ⟨par, after, leads⟩
      · exact .inl root
      · have ne : id ≠ par := fun equal => nodup.1 (equal ▸ after)
        refine .inr ⟨par, .tail _ after, leads, ?_⟩
        rw [idxOf_cons_self, idxOf_cons_ne _ ne]
        exact Nat.succ_pos _
    · have hl := (mem_cons.mp has).resolve_left eq
      rcases ih parented.2 nodup.2 hl with root | ⟨par, after, leads, pre⟩
      · exact .inl root
      · have ne : head ≠ par := fun equal => nodup.1 (equal ▸ after)
        refine .inr ⟨par, .tail _ after, leads, ?_⟩
        rw [idxOf_cons_ne _ (Ne.symm eq), idxOf_cons_ne _ ne]
        exact Nat.succ_lt_succ pre

theorem Parented.reachable {isRoot : α → Prop} (parented : Parented next isRoot list) :
    ∀ id ∈ list, ∃ root, isRoot root ∧ Relation.ReflTransGen (fun src tgt => tgt ∈ next src) root id := by
  induction list with
  | nil => simp
  | cons head list ih =>
    intro id mem
    rcases mem_cons.mp mem with rfl | hl
    · rcases parented.1 with root | ⟨par, after, leads⟩
      · exact ⟨id, root, .refl⟩
      · obtain ⟨root, isRoot, reach⟩ := ih parented.2 par after
        exact ⟨root, isRoot, reach.tail leads⟩
    · exact ih parented.2 id hl

theorem foldl_push (list finished : List α) : list.foldl push finished = finished ++ list := by
  induction list generalizing finished with
  | nil => simp
  | cons head list ih => simp [ih, push]

end Lists

section Visits

variable {next : α → List α}

theorem Adds.refl (isRoot : α → Prop) (visited : Finset α) : Adds next isRoot visited visited [] where
  visited_iff := by simp
  fresh := by simp
  nodup := nodup_nil
  closed := by simp
  parented := trivial

variable {isRoot : α → Prop} {after space : Finset α} {added : List α} {fuel : Nat} {root : α}

theorem Adds.append {fst snd third : Finset α} {early late : List α}
    (earlier : Adds next isRoot fst snd early) (hl : Adds next isRoot snd third late) :
    Adds next isRoot fst third (early ++ late) where
  visited_iff id := by
    rw [hl.visited_iff, earlier.visited_iff, mem_append, or_assoc]
  fresh id mem := by
    rcases mem_append.mp mem with inEarly | inLate
    · exact earlier.fresh id inEarly
    · intro old
      exact hl.fresh id inLate ((earlier.visited_iff id).mpr (.inl old))
  nodup := by
    refine nodup_append.mpr ⟨earlier.nodup, hl.nodup, ?_⟩
    intro id inEarly other inLate same
    exact hl.fresh other inLate ((earlier.visited_iff other).mpr (.inr (same ▸ inEarly)))
  closed id mem tgt leads := by
    rcases mem_append.mp mem with inEarly | inLate
    · exact (hl.visited_iff tgt).mpr (.inl (earlier.closed id inEarly tgt leads))
    · exact hl.closed id inLate tgt leads
  parented := earlier.parented.append hl.parented

theorem Adds.mono {other : α → Prop} {pre : Finset α} (adds : Adds next isRoot pre after added)
    (weaker : ∀ id, isRoot id → other id) : Adds next other pre after added :=
  { adds with parented := adds.parented.mono weaker }

variable [DecidableEq α]

theorem Adds.enter {visited : Finset α} {id : α} (unseen : id ∉ visited)
    (adds : Adds next (· ∈ next id) (insert id visited) after added)
    (targets : ∀ tgt ∈ next id, tgt ∈ after) : Adds next (· = id) visited after (added ++ [id]) where
  visited_iff other := by
    rw [adds.visited_iff, Finset.mem_insert, mem_append, mem_singleton]
    tauto
  fresh other mem old := by
    rcases mem_append.mp mem with inner | self
    · exact adds.fresh other inner (Finset.mem_insert_of_mem old)
    · rw [mem_singleton.mp self] at old
      exact unseen old
  nodup := by
    refine nodup_append.mpr ⟨adds.nodup, nodup_singleton id, ?_⟩
    intro other inner self isSelf same
    rw [same, mem_singleton.mp isSelf] at inner
    exact adds.fresh id inner (Finset.mem_insert_self _ _)
  closed other mem tgt leads := by
    rcases mem_append.mp mem with inner | self
    · exact adds.closed other inner tgt leads
    · rw [mem_singleton.mp self] at leads
      exact targets tgt leads
  parented := adds.parented.enter

def Visits (next : α → List α) (space : Finset α) (fuel : Nat) (id : α) (visited : Finset α) : Prop :=
  ∃ after added, Adds next (· = id) visited after added ∧ after ⊆ space ∧ id ∈ after ∧
    ∀ {σ : Type} (finish : σ → α → σ) (state : σ),
      visit next finish fuel id (visited, state) = (after, added.foldl finish state)

theorem visits_foldl
    (visits : ∀ id ∈ space, ∀ visited ⊆ space, (space \ visited).card < fuel → Visits next space fuel id visited)
    (targets : List α) (inSpace : ∀ id ∈ targets, id ∈ space) (visited : Finset α) (hin : visited ⊆ space)
    (he : (space \ visited).card < fuel) :
    ∃ after added, Adds next (· ∈ targets) visited after added ∧ after ⊆ space ∧ (∀ id ∈ targets, id ∈ after) ∧
      ∀ {σ : Type} (finish : σ → α → σ) (st : σ),
        targets.foldl (fun st tgt => visit next finish fuel tgt st) (visited, st) =
          (after, added.foldl finish st) := by
  induction targets generalizing visited with
  | nil => exact ⟨visited, [], .refl _ _, hin, by simp, fun _ _ => rfl⟩
  | cons head targets ih =>
    obtain ⟨mid, early, adds, middleInside, has, runs⟩ :=
      visits head (inSpace head (by simp)) visited hin he
    have grows : visited ⊆ mid := fun id old => (adds.visited_iff id).mpr (.inl old)
    have smaller : (space \ mid).card < fuel :=
      (Finset.card_le_card (Finset.sdiff_subset_sdiff (Finset.Subset.refl _) grows)).trans_lt he
    obtain ⟨after, late, laterAdds, afterInside, laterPresent, laterRuns⟩ :=
      ih (fun id mem => inSpace id (.tail _ mem)) mid middleInside smaller
    refine ⟨after, early ++ late, (adds.mono ?_).append (laterAdds.mono ?_), afterInside, ?_, ?_⟩
    · intro id eq
      rw [eq]
      exact .head _
    · intro id mem
      exact .tail _ mem
    · intro id mem
      rcases mem_cons.mp mem with rfl | hl
      · exact (laterAdds.visited_iff id).mpr (.inl has)
      · exact laterPresent id hl
    · intro σ finish st
      rw [foldl_cons, runs finish st, laterRuns finish, foldl_append]

theorem visits_of_card_lt (hc : ∀ id ∈ space, ∀ tgt ∈ next id, tgt ∈ space) (fuel : Nat) :
    ∀ id ∈ space, ∀ visited ⊆ space, (space \ visited).card < fuel →
      Visits next space fuel id visited := by
  induction fuel with
  | zero =>
    intro id _ visited _ he
    exact absurd he (Nat.not_lt_zero _)
  | succ fuel ih =>
    intro id inSpace visited hin he
    by_cases seen : id ∈ visited
    · refine ⟨visited, [], .refl _ _, hin, seen, ?_⟩
      intro σ finish st
      rw [visit, if_pos seen]
      rfl
    · have enteredInside : insert id visited ⊆ space := Finset.insert_subset inSpace hin
      have fewer : (space \ insert id visited).card < fuel := by
        have strict : (space \ insert id visited).card < (space \ visited).card := by
          apply Finset.card_lt_card
          refine ⟨Finset.sdiff_subset_sdiff (Finset.Subset.refl _) (Finset.subset_insert _ _), ?_⟩
          intro back
          have mem := back (Finset.mem_sdiff.mpr ⟨inSpace, seen⟩)
          exact (Finset.mem_sdiff.mp mem).2 (Finset.mem_insert_self _ _)
        omega
      obtain ⟨after, added, adds, afterInside, targets, runs⟩ :=
        visits_foldl ih (next id) (hc id inSpace) (insert id visited) enteredInside fewer
      refine ⟨after, added ++ [id], adds.enter seen targets, afterInside, ?_, ?_⟩
      · exact (adds.visited_iff id).mpr (.inl (Finset.mem_insert_self _ _))
      · intro σ finish st
        rw [visit, if_neg seen, runs finish st, foldl_append]
        rfl

theorem foldl_assignNumber (list : List α) (nodup : list.Nodup) (nums : α → Option Nat) (counter : Nat) (id : α) :
    (list.foldl assignNumber (nums, counter)).1 id =
      if id ∈ list then some (counter + list.idxOf id) else nums id := by
  induction list generalizing nums counter with
  | nil => simp
  | cons head list ih =>
    rw [nodup_cons] at nodup
    rw [foldl_cons, assignNumber, ih nodup.2]
    by_cases eq : id = head
    · subst eq
      simp [nodup.1]
    · by_cases hl : id ∈ list
      · rw [if_pos hl, if_pos (.tail _ hl), idxOf_cons_ne _ (Ne.symm eq)]
        congr 1
        omega
      · rw [if_neg hl, if_neg (by simp [eq, hl]), Function.update_of_ne eq]

/-- The nodes finished by a search from `root`, in a space the search cannot leave. -/
structure Finishes (next : α → List α) (root : α) (finished : List α) : Prop where
  nodup : finished.Nodup
  mem_iff : ∀ id, id ∈ finished ↔ Relation.ReflTransGen (fun source target => target ∈ next source) root id
  parent : ∀ id ∈ finished, id ≠ root →
    ∃ parent ∈ finished, id ∈ next parent ∧ finished.idxOf id < finished.idxOf parent

theorem exists_finishes (hc : ∀ id ∈ space, ∀ tgt ∈ next id, tgt ∈ space) (inSpace : root ∈ space)
    (he : space.card < fuel) : ∃ finished, Finishes next root finished ∧
      ∀ {σ : Type} (finish : σ → α → σ) (st : σ),
        (visit next finish fuel root (∅, st)).2 = finished.foldl finish st := by
  obtain ⟨after, added, adds, _, has, runs⟩ := visits_of_card_lt hc fuel root inSpace ∅
    (Finset.empty_subset _) (by rwa [Finset.sdiff_empty])
  have visited_iff : ∀ id, id ∈ after ↔ id ∈ added := by
    intro id
    rw [adds.visited_iff]
    simp
  refine ⟨added, ⟨adds.nodup, ?_, ?_⟩, ?_⟩
  · intro id
    constructor
    · intro mem
      obtain ⟨start, isRoot, reach⟩ := adds.parented.reachable id mem
      rwa [isRoot] at reach
    · intro reach
      induction reach with
      | refl => exact (visited_iff root).mp has
      | tail _ leads ih => exact (visited_iff _).mp (adds.closed _ ih _ leads)
  · intro id mem other
    exact (adds.parented.idxOf adds.nodup mem).resolve_left other
  · intro σ finish st
    rw [runs finish st]

theorem Finishes.idxOf_lt_root {finished : List α} (finishes : Finishes next root finished) {id : α}
    (has : id ∈ finished) (other : id ≠ root) : finished.idxOf id < finished.idxOf root := by
  induction hb : finished.length - finished.idxOf id using Nat.strong_induction_on generalizing id with
  | _ measure ih =>
    obtain ⟨par, parentPresent, _, pre⟩ := finishes.parent id has other
    by_cases atRoot : par = root
    · rwa [atRoot] at pre
    · have parentBound := idxOf_lt_length_of_mem parentPresent
      have hl := ih _ (by omega) parentPresent atRoot rfl
      omega

end Visits

end DepthFirst
