import Verum.Collections.BTreeQueries

open List

namespace Collections

/-- The keys that bound a range, where there are any, and whether they belong to it. -/
structure RangeBounds (K : Type) where
  startBound : Option K
  endBound : Option K
  startIsInclusive : Bool
  endIsInclusive : Bool

structure BTreeMapRange (K V : Type) where
  iter : List (BTreeNode K V × Nat)
  start : Option K
  startInclusive : Bool
  endKey : Option K
  endInclusive : Bool
  pastStart : Bool

namespace BTreeMap

variable {K V : Type} [LinearOrder K]

section Seeking

/-- Binary search for the first key that is not below the target. -/
def findKeyPosition (node : BTreeNode K V) (target : K) : Nat → Nat → Nat → Except Panic Nat
  | 0, _, _ => .error .diverges
  | steps + 1, low, high =>
    if low < high then do
      let mid := (low + high) / 2
      let key ← item node.keys mid
      if key < target then findKeyPosition node target steps (mid + 1) high
      else findKeyPosition node target steps low mid
    else .ok low

/-- The nodes on the way to the target are pushed, each with the position of the target. -/
def seekToKey (target : K) : Nat → List (BTreeNode K V × Nat) → BTreeNode K V →
    Except Panic (List (BTreeNode K V × Nat))
  | 0, _, _ => .error .diverges
  | depth + 1, stack, current => do
    let pos ← findKeyPosition current target (current.keys.length + 1) 0 current.keys.length
    if current.isLeaf then .ok ((current, pos) :: stack)
    else
      let stack := (current, pos) :: stack
      if pos < current.children.length then do
        let child ← item current.children pos
        seekToKey target depth stack child
      else .ok stack

def seekFrom (map : BTreeMap K V) (startKey : K) : Except Panic (List (BTreeNode K V × Nat)) :=
  match map.root with
  | none => .ok []
  | some root => seekToKey startKey (root.depth + 1) [] root

def range (map : BTreeMap K V) (bounds : RangeBounds K) : Except Panic (BTreeMapRange K V) := do
  let iter ← match bounds.startBound with
    | some startKey => map.seekFrom startKey
    | none => map.iter
  .ok ⟨iter, bounds.startBound, bounds.startIsInclusive, bounds.endBound, bounds.endIsInclusive,
    bounds.startIsInclusive⟩

end Seeking

end BTreeMap

namespace BTreeMapRange

variable {K V : Type} [LinearOrder K]

/-- The loop of `next`, which goes round again for an entry that has the key of an exclusive start. -/
def next : Nat → BTreeMapRange K V → Except Panic (Option (K × V) × BTreeMapRange K V)
  | 0, _ => .error .diverges
  | steps + 1, range => do
    match ← BTreeMap.next range.iter with
    | none => .ok (none, { range with iter := [] })
    | some ((k, v), iter) =>
      let range := { range with iter := iter }
      if ¬ range.pastStart ∧ range.start = some k then next steps range
      else
        let range := { range with pastStart := true }
        match range.endKey with
        | none => .ok (some (k, v), range)
        | some last =>
          if range.endInclusive then
            if k ≤ last then .ok (some (k, v), range) else .ok (none, range)
          else if k < last then .ok (some (k, v), range)
          else .ok (none, range)

end BTreeMapRange

/-- The answers of a number of calls of an iterator, which may go on after its end. -/
def answers {σ α : Type} (next : σ → Except Panic (Option α × σ)) : Nat → σ → Except Panic (List (Option α))
  | 0, _ => .ok []
  | calls + 1, state => do
    let (answer, state) ← next state
    let later ← answers next calls state
    .ok (answer :: later)

/-- The calls of `next` on a stack, which is empty at the end. -/
def BTreeMap.nextEntry {K V : Type} (stack : List (BTreeNode K V × Nat)) :
    Except Panic (Option (K × V) × List (BTreeNode K V × Nat)) := do
  match ← BTreeMap.next stack with
  | none => .ok (none, [])
  | some (entry, stack) => .ok (some entry, stack)

namespace BTreeMap

open BTreeNode

variable {K V : Type} [LinearOrder K] {es es' : List (K × V)} {node : BTreeNode K V} {h : Nat} {target : K}

section Seeking

theorem findKeyPosition_eq (isKeys : node.keys = (es ++ es').map Prod.fst) (pre : ∀ e ∈ es, e.1 < target)
    (behind : ∀ e ∈ es', target ≤ e.1) {steps low high : Nat} (reached : low ≤ es.length) (hw : es.length ≤ high)
    (hr : high ≤ node.keys.length) (he : high < low + steps) :
    findKeyPosition node target steps low high = .ok es.length := by
  induction steps generalizing low high with
  | zero => omega
  | succ steps ih =>
    rw [findKeyPosition]
    by_cases isOpen : low < high
    · rw [if_pos isOpen]
      dsimp only
      have hin : (low + high) / 2 < (es ++ es').length := by
        rw [isKeys, length_map] at hr
        omega
      have isItem : item node.keys ((low + high) / 2) = .ok (es ++ es')[(low + high) / 2].1 := by
        rw [item, isKeys, List.getElem?_map, List.getElem?_eq_getElem hin]
        rfl
      rw [isItem, okBind]
      by_cases left : (low + high) / 2 < es.length
      · have hlt : (es ++ es')[(low + high) / 2].1 < target := by
          rw [getElem_append_left left]
          exact pre _ (getElem_mem left)
        rw [if_pos hlt]
        exact ih (by omega) hw hr (by omega)
      · have above : ¬ (es ++ es')[(low + high) / 2].1 < target := by
          rw [getElem_append_right (Nat.le_of_not_lt left)]
          exact not_lt.mpr (behind _ (getElem_mem _))
        rw [if_neg above]
        exact ih reached (Nat.le_of_not_lt left) (by omega) (by omega)
    · rw [if_neg isOpen]
      exact congrArg Except.ok (by omega)

theorem exists_bound (ascending : Entries.Ascending es) (target : K) :
    ∃ es₁ es₂, es = es₁ ++ es₂ ∧ (∀ e ∈ es₁, e.1 < target) ∧ ∀ e ∈ es₂, target ≤ e.1 := by
  induction es with
  | nil => exact ⟨[], [], rfl, fun _ mem => absurd mem not_mem_nil,
    fun _ mem => absurd mem not_mem_nil⟩
  | cons e es ih =>
    obtain ⟨fst, hl⟩ := pairwise_cons.mp ascending
    by_cases hlt : e.1 < target
    · obtain ⟨es₁, es₂, rfl, pre, behind⟩ := ih hl
      refine ⟨e :: es₁, es₂, rfl, ?_, behind⟩
      intro other mem
      rcases mem_cons.mp mem with rfl | hl
      · exact hlt
      · exact pre other hl
    · refine ⟨[], e :: es, rfl, fun _ mem => absurd mem not_mem_nil, ?_⟩
      intro other mem
      rcases mem_cons.mp mem with rfl | hl
      · exact not_lt.mp hlt
      · exact (not_lt.mp hlt).trans (fst other hl).le

theorem filter_bound (pre : ∀ e ∈ es, e.1 < target) (behind : ∀ e ∈ es', target ≤ e.1) :
    (es ++ es').filter (fun e => target ≤ e.1) = es' := by
  rw [filter_append, filter_eq_nil_iff.mpr, filter_eq_self.mpr, nil_append]
  · exact fun e mem => decide_eq_true (behind e mem)
  · exact fun e mem above => (pre e mem).not_ge (of_decide_eq_true above)

theorem seekToKey_pending (target : K) (wf : Formed h node) (ascending : Entries.Ascending node.flatten)
    {stack : List (BTreeNode K V × Nat)} {rest : List (K × V)} (waiting : Pending stack rest) :
    ∃ stack', seekToKey target (h + 1) stack node = .ok stack' ∧
      Pending stack' (node.flatten.filter (fun e => target ≤ e.1) ++ rest) := by
  induction h generalizing node stack rest with
  | zero =>
    cases wf with
    | @leaf es few =>
      rw [flatten_leaf] at ascending ⊢
      obtain ⟨es₁, es₂, rfl, pre, behind⟩ := exists_bound ascending target
      rw [filter_bound pre behind]
      refine ⟨(leafNode (es₁ ++ es₂), es₁.length) :: stack, ?_, .leaf waiting⟩
      have hit : findKeyPosition (leafNode (es₁ ++ es₂)) target ((leafNode (es₁ ++ es₂)).keys.length + 1) 0
          (leafNode (es₁ ++ es₂)).keys.length = .ok es₁.length :=
        findKeyPosition_eq rfl pre behind (Nat.zero_le _) (by simp [leafNode]) le_rfl (by omega)
      rw [seekToKey, hit]
      rfl
  | succ h ih =>
    cases wf with
    | @internal _ es children few branching forms fills =>
      have separators : Entries.Ascending es := by
        rw [flatten_internal] at ascending
        exact ascending.sublist Weave.sublist_weave
      obtain ⟨es₁, es₂, rfl, pre, behind⟩ := exists_bound separators target
      obtain ⟨cs, c, cs', rfl, balanced, balanced'⟩ := exists_split branching
      rw [flatten_split balanced balanced'] at ascending ⊢
      obtain ⟨hlt, above⟩ := around (fun x y lt isBelow => lt_trans lt isBelow) balanced ascending pre
        fun e fst => (behind e (mem_of_mem_head? fst)).not_gt
      have hl : ∀ child ∈ cs', Formed h child := fun child mem =>
        forms child (mem_append_right _ (mem_cons_of_mem c mem))
      have form : Formed h c := forms c (mem_append_right _ mem_cons_self)
      obtain ⟨stack', sought, pending⟩ := ih form (ascending_child ascending)
        (.internal hl balanced balanced' waiting)
      have nothing : (front cs es₁).filter (fun e => target ≤ e.1) = [] :=
        filter_eq_nil_iff.mpr fun e mem isAbove => (hlt e mem).not_ge (of_decide_eq_true isAbove)
      have all : (back cs' es₂).filter (fun e => target ≤ e.1) = back cs' es₂ :=
        filter_eq_self.mpr fun e mem => decide_eq_true (not_lt.mp (above e mem))
      rw [filter_append, filter_append, nothing, all, nil_append, append_assoc]
      refine ⟨stack', ?_, pending⟩
      have hit : findKeyPosition (internalNode (es₁ ++ es₂) (cs ++ c :: cs')) target
          ((internalNode (es₁ ++ es₂) (cs ++ c :: cs')).keys.length + 1) 0
          (internalNode (es₁ ++ es₂) (cs ++ c :: cs')).keys.length = .ok es₁.length :=
        findKeyPosition_eq rfl pre behind (Nat.zero_le _) (by simp [internalNode]) le_rfl (by omega)
      have hasChild : es₁.length < (cs ++ c :: cs').length := by simp [balanced]
      rw [seekToKey, hit, okBind, internalNode]
      dsimp only
      rw [if_neg Bool.false_ne_true, if_pos hasChild, item_child balanced, okBind]
      exact sought

end Seeking

/-- A tree that satisfies its invariant, with its entries. -/
inductive Holds (map : BTreeMap K V) (entries : List (K × V)) : Prop
  | empty : map.root = none → entries = [] → Holds map entries
  | tree (root : BTreeNode K V) (h : Nat) : map.root = some root → Formed h root → root.flatten = entries →
    Entries.Ascending entries → Holds map entries

variable {map : BTreeMap K V} {entries : List (K × V)}

theorem Holds.ascending (hh : Holds map entries) : Entries.Ascending entries := by
  cases hh with
  | empty _ isEmpty =>
    rw [isEmpty]
    exact List.Pairwise.nil
  | tree _ _ _ _ _ ascending => exact ascending

theorem Holds.seekFrom_pending (hh : Holds map entries) (target : K) :
    ∃ stack, map.seekFrom target = .ok stack ∧ Pending stack (entries.filter fun e => target ≤ e.1) := by
  rw [seekFrom]
  cases hh with
  | empty noRoot isEmpty =>
    rw [noRoot, isEmpty]
    exact ⟨[], rfl, .nil⟩
  | tree root h isRoot wf flat ascending =>
    rw [isRoot, ← flat]
    dsimp only
    obtain ⟨stack, sought, pending⟩ := seekToKey_pending target wf (flat ▸ ascending) .nil
    rw [append_nil] at pending
    rw [depth_eq wf]
    exact ⟨stack, sought, pending⟩

theorem Holds.iter_pending (hh : Holds map entries) : ∃ stack, map.iter = .ok stack ∧ Pending stack entries := by
  rw [iter]
  cases hh with
  | empty noRoot isEmpty =>
    rw [noRoot, isEmpty]
    exact ⟨[], rfl, .nil⟩
  | tree root h isRoot wf flat =>
    rw [isRoot, ← flat]
    dsimp only
    obtain ⟨stack, pushed, pending⟩ := pushLeft_pending wf .nil
    rw [append_nil] at pending
    rw [depth_eq wf]
    exact ⟨stack, pushed, pending⟩

end BTreeMap

section Answering

variable {σ α : Type} {next : σ → Except Panic (Option α × σ)}

theorem answers_eq (Awaits : σ → List α → Prop)
    (step : ∀ st expected, Awaits st expected →
      ∃ state', next st = .ok (expected.head?, state') ∧ Awaits state' expected.tail)
    (calls : Nat) {st : σ} {expected : List α} (awaits : Awaits st expected) :
    answers next calls st = .ok ((List.range calls).map fun i => expected[i]?) := by
  induction calls generalizing st expected with
  | zero => rfl
  | succ calls ih =>
    obtain ⟨state', answered, hl⟩ := step st expected awaits
    rw [answers, answered, okBind]
    dsimp only
    rw [ih hl, range_succ_eq_map, map_cons, map_map]
    cases expected <;> rfl

end Answering

namespace BTreeMap

variable {K V : Type}

theorem nextEntry_pending (stack : List (BTreeNode K V × Nat)) (expected : List (K × V))
    (pending : Pending stack expected) :
    ∃ stack', nextEntry stack = .ok (expected.head?, stack') ∧ Pending stack' expected.tail := by
  have gives := next_pending pending
  rw [nextEntry]
  cases expected with
  | nil =>
    have ended : BTreeMap.next stack = .ok none := gives
    rw [ended]
    exact ⟨[], rfl, .nil⟩
  | cons e rest =>
    obtain ⟨stack', given, hl⟩ := gives
    rw [given]
    exact ⟨stack', rfl, hl⟩

end BTreeMap

namespace RangeBounds

variable {K : Type} [LinearOrder K] (bounds : RangeBounds K)

def afterStart (k : K) : Bool :=
  bounds.startBound.all fun start => if bounds.startIsInclusive then start ≤ k else start < k

def beforeEnd (k : K) : Bool :=
  bounds.endBound.all fun last => if bounds.endIsInclusive then k ≤ last else k < last

def contains (k : K) : Bool := bounds.afterStart k && bounds.beforeEnd k

variable {bounds}

theorem contains_of_start {start : K} (isStart : bounds.startBound = some start) (k : K) :
    bounds.contains k =
      (decide (start ≤ k) && (decide (bounds.startIsInclusive ∨ start ≠ k) && bounds.beforeEnd k)) := by
  rw [contains, afterStart, isStart, Option.all_some]
  cases bounds.startIsInclusive with
  | true => simp
  | false => simp [lt_iff_le_and_ne, Bool.and_assoc]

end RangeBounds

namespace BTreeMapRange

open BTreeMap

variable {K V : Type} [LinearOrder K] {range : BTreeMapRange K V} {rest expected : List (K × V)} {e : K × V}

section Stepping

def beforeEnd (range : BTreeMapRange K V) (k : K) : Bool :=
  range.endKey.all fun last => if range.endInclusive then k ≤ last else k < last

theorem beforeEnd_down {k k' : K} (lt : k < k') (hin : range.beforeEnd k' = true) :
    range.beforeEnd k = true := by
  rw [beforeEnd] at hin ⊢
  cases isEnd : range.endKey with
  | none => rfl
  | some last =>
    rw [isEnd, Option.all_some] at hin
    rw [Option.all_some]
    split
    · rename_i inclusive
      rw [if_pos inclusive] at hin
      exact decide_eq_true (lt.le.trans (of_decide_eq_true hin))
    · rename_i exclusive
      rw [if_neg exclusive] at hin
      exact decide_eq_true (lt.trans (of_decide_eq_true hin))

def Skips (range : BTreeMapRange K V) (k : K) : Prop := ¬ range.pastStart ∧ range.start = some k

instance (range : BTreeMapRange K V) (k : K) : Decidable (range.Skips k) := inferInstanceAs (Decidable (_ ∧ _))

theorem next_admitted {stack : List (BTreeNode K V × Nat)} (given : BTreeMap.next range.iter = .ok (some (e, stack)))
    (admitted : ¬ range.Skips e.1) (steps : Nat) :
    next (steps + 1) range = .ok (if range.beforeEnd e.1 then some e else none,
      { range with iter := stack, pastStart := true }) := by
  have notSkipped : ¬ (¬ range.pastStart = true ∧ range.start = some e.1) := admitted
  rw [next, given, okBind]
  dsimp only
  rw [if_neg notSkipped, beforeEnd]
  cases range.endKey with
  | none => rfl
  | some last =>
    dsimp only
    rw [Option.all_some]
    split
    · by_cases hin : e.1 ≤ last
      · simp [hin]
      · simp [hin]
    · by_cases hin : e.1 < last
      · simp [hin]
      · simp [hin]

end Stepping

/-- The entries that a range has still to give: those of its iterator that it neither skips nor finds behind
its end. -/
structure Awaits (range : BTreeMapRange K V) (rest expected : List (K × V)) : Prop where
  pending : Pending range.iter rest
  ascending : Entries.Ascending rest
  started : ¬ range.pastStart → ∀ start ∈ range.start, ∀ e ∈ rest, start ≤ e.1
  given : expected = rest.filter fun e => ¬ range.Skips e.1 ∧ range.beforeEnd e.1

theorem Awaits.ended (awaits : Awaits range [] expected) (steps : Nat) :
    ∃ range' rest', next (steps + 1) range = .ok (expected.head?, range') ∧ Awaits range' rest' expected.tail := by
  have isNil : expected = [] := awaits.given
  have ended : BTreeMap.next range.iter = .ok none := next_pending awaits.pending
  rw [next, ended, isNil]
  exact ⟨{ range with iter := [] }, [], rfl, .nil, awaits.ascending,
    fun _ _ _ _ mem => absurd mem not_mem_nil, rfl⟩

theorem Awaits.admits (awaits : Awaits range (e :: rest) expected) (admitted : ¬ range.Skips e.1) (steps : Nat) :
    ∃ range' rest', next (steps + 1) range = .ok (expected.head?, range') ∧ Awaits range' rest' expected.tail := by
  obtain ⟨stack, given, pending⟩ : ∃ stack', BTreeMap.next range.iter = .ok (some (e, stack')) ∧
    Pending stack' rest :=
    next_pending awaits.pending
  obtain ⟨fst, hl⟩ := pairwise_cons.mp awaits.ascending
  rw [next_admitted given admitted]
  have none_skipped : ∀ x ∈ rest, ¬ range.Skips x.1 := by
    rintro x mem ⟨notPast, isStart⟩
    exact (awaits.started notPast x.1 isStart e mem_cons_self).not_gt (fst x mem)
  have isRest : rest.filter (fun x => ¬ range.Skips x.1 ∧ range.beforeEnd x.1) =
      rest.filter fun x => range.beforeEnd x.1 :=
    filter_congr fun x mem => by simp [none_skipped x mem]
  have awaits' (isTail : expected.tail = rest.filter fun x => range.beforeEnd x.1) :
      Awaits { range with iter := stack, pastStart := true } rest expected.tail := by
    refine ⟨pending, hl, fun notPast => absurd rfl notPast, ?_⟩
    rw [isTail]
    exact filter_congr fun x _ => by simp [Skips, beforeEnd]
  have isGiven := awaits.given
  rw [filter_cons, isRest] at isGiven
  by_cases hin : range.beforeEnd e.1 = true
  · rw [if_pos (decide_eq_true ⟨admitted, hin⟩)] at isGiven
    rw [if_pos hin, isGiven]
    exact ⟨_, rest, rfl, isGiven ▸ awaits' (by rw [isGiven]; rfl)⟩
  · have nothing : (rest.filter fun x => range.beforeEnd x.1) = [] :=
      filter_eq_nil_iff.mpr fun x mem isBefore => hin (beforeEnd_down (fst x mem) isBefore)
    rw [if_neg (by simp [hin]), nothing] at isGiven
    rw [if_neg hin, isGiven]
    exact ⟨_, rest, rfl, isGiven ▸ awaits' (by rw [isGiven, nothing]; rfl)⟩

theorem Awaits.step {steps : Nat} (he : 1 < steps) (awaits : Awaits range rest expected) :
    ∃ range' rest', next steps range = .ok (expected.head?, range') ∧ Awaits range' rest' expected.tail := by
  obtain ⟨steps, rfl⟩ : ∃ n, steps = n + 2 := ⟨steps - 2, by omega⟩
  cases rest with
  | nil => exact awaits.ended _
  | cons e rest =>
    by_cases skipped : range.Skips e.1
    · obtain ⟨stack, given, pending⟩ : ∃ stack', BTreeMap.next range.iter = .ok (some (e, stack')) ∧
          Pending stack' rest := next_pending awaits.pending
      obtain ⟨fst, hl⟩ := pairwise_cons.mp awaits.ascending
      have passed : next (steps + 2) range = next (steps + 1) { range with iter := stack } := by
        have isStart : ¬ range.pastStart = true ∧ range.start = some e.1 := skipped
        rw [next, given, okBind]
        dsimp only
        rw [if_pos isStart]
      have awaits' : Awaits { range with iter := stack } rest expected := by
        refine ⟨pending, hl, fun notPast start isStart x mem => ?_, ?_⟩
        · exact awaits.started notPast start isStart x (mem_cons_of_mem e mem)
        · rw [awaits.given, filter_cons, if_neg (by simp [skipped])]
          rfl
      rw [passed]
      cases rest with
      | nil => exact awaits'.ended _
      | cons x rest =>
        refine awaits'.admits ?_ _
        rintro ⟨-, isStart⟩
        have sameKey : e.1 = x.1 := Option.some_inj.mp (skipped.2.symm.trans isStart)
        exact (fst x mem_cons_self).ne sameKey
    · exact awaits.admits skipped _

end BTreeMapRange

namespace BTreeMap

open BTreeNode

variable {K V : Type} [LinearOrder K] {map : BTreeMap K V} {entries : List (K × V)}

theorem Holds.range_awaits (hh : Holds map entries) (bounds : RangeBounds K) :
    ∃ range rest, map.range bounds = .ok range ∧
      BTreeMapRange.Awaits range rest (entries.filter fun e => bounds.contains e.1) := by
  rw [BTreeMap.range]
  cases isStart : bounds.startBound with
  | none =>
    obtain ⟨stack, isIter, pending⟩ := hh.iter_pending
    dsimp only
    rw [isIter, okBind]
    refine ⟨_, entries, rfl, pending, hh.ascending, ?_, ?_⟩
    · rintro - start ⟨⟩
    · refine filter_congr fun e _ => ?_
      simp [RangeBounds.contains, RangeBounds.afterStart, RangeBounds.beforeEnd, BTreeMapRange.beforeEnd,
        BTreeMapRange.Skips, isStart]
  | some start =>
    obtain ⟨stack, sought, pending⟩ := hh.seekFrom_pending start
    dsimp only
    rw [sought, okBind]
    refine ⟨_, _, rfl, pending, hh.ascending.filter _, ?_, ?_⟩
    · rintro - _ ⟨⟩ e mem
      exact of_decide_eq_true (mem_filter.mp mem).2
    · rw [filter_filter]
      refine filter_congr fun e _ => ?_
      rw [RangeBounds.contains_of_start isStart]
      simp [RangeBounds.beforeEnd, BTreeMapRange.beforeEnd, BTreeMapRange.Skips, Bool.and_comm]

/-- The calls of a range iterator give the entries within its bounds one after the other, and nothing from then on;
those of an iterator sought to a key give the entries from the key on. -/
theorem iteration_exact (holds : Holds map entries) (bounds : RangeBounds K) (key : K) {steps : Nat}
    (enough : 1 < steps) (calls : Nat) :
    Entries.Ascending entries ∧
    (do
      let range ← map.range bounds
      answers (BTreeMapRange.next steps) calls range) =
        .ok ((List.range calls).map fun i => (entries.filter fun e => bounds.contains e.1)[i]?) ∧
    (do
      let stack ← map.seekFrom key
      answers nextEntry calls stack) =
        .ok ((List.range calls).map fun i => (entries.filter fun e => key ≤ e.1)[i]?) := by
  obtain ⟨range, rest, isRange, awaits⟩ := holds.range_awaits bounds
  obtain ⟨stack, sought, pending⟩ := holds.seekFrom_pending key
  refine ⟨holds.ascending, ?_, ?_⟩
  · rw [isRange, okBind]
    refine answers_eq (fun range expected => ∃ rest, BTreeMapRange.Awaits range rest expected) ?_ calls
      ⟨rest, awaits⟩
    rintro range expected ⟨rest, awaits⟩
    obtain ⟨range', rest', answered, later⟩ := awaits.step enough
    exact ⟨range', answered, rest', later⟩
  · rw [sought, okBind]
    exact answers_eq Pending nextEntry_pending calls pending

def elevenEntries : BTreeMap Nat Nat :=
  ⟨some (internalNode [(6, 60)] [leafNode [(1, 10), (2, 20), (3, 30), (4, 40), (5, 50)],
    leafNode [(7, 70), (8, 80), (9, 90), (10, 100), (11, 110)]]), 11⟩

theorem elevenEntries_holds : Holds elevenEntries [(1, 10), (2, 20), (3, 30), (4, 40), (5, 50), (6, 60), (7, 70),
    (8, 80), (9, 90), (10, 100), (11, 110)] := by
  have leaf (es : List (Nat × Nat)) (few : es.length ≤ maxKeys) : Formed 0 (leafNode es) := .leaf few
  refine .tree _ 1 rfl (.internal (by decide) rfl ?_ (by decide)) rfl (by unfold Entries.Ascending; decide)
  intro child mem
  rcases mem_cons.mp mem with rfl | mem
  · exact leaf _ (by decide)
  · obtain rfl := mem_singleton.mp mem
    exact leaf _ (by decide)

theorem iteration_exact_elevenEntries :
    Entries.Ascending [(1, 10), (2, 20), (3, 30), (4, 40), (5, 50), (6, 60), (7, 70), (8, 80), (9, 90), (10, 100),
      (11, 110)] ∧
    (do
      let range ← elevenEntries.range ⟨some 4, some 8, false, true⟩
      answers (BTreeMapRange.next 2) 6 range) =
        .ok [some (5, 50), some (6, 60), some (7, 70), some (8, 80), none, none] ∧
    (do
      let stack ← elevenEntries.seekFrom 6
      answers nextEntry 3 stack) = .ok [some (6, 60), some (7, 70), some (8, 80)] := by
  have first := iteration_exact elevenEntries_holds ⟨some 4, some 8, false, true⟩ 6 (show 1 < 2 by decide) 6
  have second := iteration_exact elevenEntries_holds ⟨some 4, some 8, false, true⟩ 6 (show 1 < 2 by decide) 3
  exact ⟨first.1, first.2.1, second.2.2⟩

end BTreeMap

end Collections
