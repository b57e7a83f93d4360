import Verum.Cbgr.DepthFirst
import Verum.Cbgr.DominanceExact
import Mathlib.Data.Finset.Max

open List

namespace Cbgr

open Nat

/-- The orders in which the edge sets of a graph's blocks are iterated over. -/
structure EdgeOrder (cfg : ControlFlowGraph) where
  successors : BlockId → List BlockId
  predecessors : BlockId → List BlockId
  mem_successors : ∀ id target, target ∈ successors id ↔ target ∈ (cfg.block id).successors
  mem_predecessors : ∀ id source, source ∈ predecessors id ↔ source ∈ (cfg.block id).predecessors
  successors_nodup : ∀ id, (successors id).Nodup
  predecessors_nodup : ∀ id, (predecessors id).Nodup

abbrev ImmediateDominators := BlockId → Option BlockId

namespace SsaBuilder

variable {cfg : ControlFlowGraph} (order : EdgeOrder cfg)

/-- The blocks a traversal goes on to: none from a block that is not in the table. -/
def targets (id : BlockId) : List BlockId := if id ∈ cfg.keys then order.successors id else []

def postorderNumbers : BlockId → Option Nat :=
  (DepthFirst.visit (targets order) DepthFirst.assignNumber (cfg.keys.card + 2) cfg.entry
    (∅, (fun _ => none, 0))).2.1

def reversePostorder : List BlockId :=
  (DepthFirst.visit (targets order) DepthFirst.push (cfg.keys.card + 2) cfg.entry (∅, [])).2.reverse

def number (id : BlockId) : Nat := (postorderNumbers order id).getD 0

/-- An inner loop of `intersect`: its guard compares numbers read before the loop, so only the breaks end it.
Without fuel it has not ended. -/
def climb (number : BlockId → Nat) (dominators : ImmediateDominators) (limit : Nat) : Nat → BlockId → Option BlockId
  | 0, _ => none
  | fuel + 1, id =>
    match dominators id with
    | none => some id
    | some dom =>
      if dom = id then some id
      else if limit ≤ number dom then some dom
      else climb number dominators limit fuel dom

/-- The outer loop of `intersect`, which gives up after its last iteration. -/
def intersectLoop (number : BlockId → Nat) (fuel : Nat) (dominators : ImmediateDominators) :
    Nat → BlockId → BlockId → Option BlockId
  | 0, b1, _ => some b1
  | remaining + 1, b1, b2 =>
    if b1 = b2 then some b1
    else do
      let b2 ← if number b1 < number b2 then climb number dominators (number b2) fuel b2 else some b2
      let b1 ← if number b2 < number b1 then climb number dominators (number b1) fuel b1 else some b1
      intersectLoop number fuel dominators remaining b1 b2

attribute [grind =] intersectLoop

def intersect (fuel : Nat) (dominators : ImmediateDominators) (b1 b2 : BlockId) : Option BlockId :=
  intersectLoop (number order) fuel dominators (cfg.keys.card * 2 + 10) b1 b2

/-- The step over one predecessor; predecessors that have no dominator yet are left out. -/
def mergePredecessor (fuel : Nat) (dominators : ImmediateDominators) (newIdom : Option BlockId) (pred : BlockId) :
    Option (Option BlockId) :=
  if (dominators pred).isSome then
    match newIdom with
    | none => some (some pred)
    | some idom => (intersect order fuel dominators pred idom).map some
  else some newIdom

def newIdom (fuel : Nat) (dominators : ImmediateDominators) (id : BlockId) : Option (Option BlockId) :=
  (order.predecessors id).foldlM (mergePredecessor order fuel dominators) none

/-- One block of the inner loop, with the `changed` flag. -/
def updateDominator (fuel : Nat) (state : ImmediateDominators × Bool) (id : BlockId) :
    Option (ImmediateDominators × Bool) :=
  if id = cfg.entry then some state
  else match cfg.get id with
    | none => some state
    | some _ => (newIdom order fuel state.1 id).map fun
      | some idom => if state.1 id = some idom then state else (Function.update state.1 id (some idom), true)
      | none => state

def pass (fuel : Nat) (dominators : ImmediateDominators) : Option (ImmediateDominators × Bool) :=
  (reversePostorder order).foldlM (updateDominator order fuel) (dominators, false)

def iterate (fuel : Nat) : Nat → ImmediateDominators → Option ImmediateDominators
  | 0, dominators => some dominators
  | remaining + 1, dominators => do
    let next ← pass order fuel dominators
    if next.2 then iterate fuel remaining next.1 else some next.1

def computeDominators (fuel : Nat) : Option ImmediateDominators :=
  iterate order fuel (maxIterations cfg) (Function.update (fun _ => none) cfg.entry (some cfg.entry))

def Computes (dominators : ImmediateDominators) : Prop := ∃ fuel, computeDominators order fuel = some dominators

section Numbers

variable {order}
variable {id : BlockId}

theorem mem_targets {tgt : BlockId} : tgt ∈ targets order id ↔ cfg.Edge id tgt := by
  unfold targets
  rw [ControlFlowGraph.edge_iff]
  split
  · rename_i has
    simp [has, order.mem_successors]
  · rename_i ha
    simp [ha]

theorem reachable_iff (id : BlockId) :
    Relation.ReflTransGen (fun src tgt => tgt ∈ targets order src) cfg.entry id ↔ cfg.Reachable id := by
  constructor
  · intro reach
    induction reach with
    | refl => exact ControlFlowGraph.reachable_entry
    | tail _ leads ih => exact ih.step (mem_targets.mp leads)
  · rintro ⟨path, is_path⟩
    induction is_path with
    | entry => exact .refl
    | step _ edge ih => exact ih.tail (mem_targets.mpr edge)

theorem exists_postorder (order : EdgeOrder cfg) (con : cfg.Consistent) :
    ∃ finished, DepthFirst.Finishes (targets order) cfg.entry finished ∧
      reversePostorder order = finished.reverse ∧
      ∀ id, postorderNumbers order id = if id ∈ finished then some (finished.idxOf id) else none := by
  have hc : ∀ id ∈ insert cfg.entry cfg.keys, ∀ tgt ∈ targets order id,
      tgt ∈ insert cfg.entry cfg.keys := by
    intro id _ tgt leads
    have parts := ControlFlowGraph.edge_iff.mp (mem_targets.mp leads)
    exact Finset.mem_insert_of_mem (con.successors_subset id parts.1 parts.2)
  have he : (insert cfg.entry cfg.keys).card < cfg.keys.card + 2 := by
    have := Finset.card_insert_le cfg.entry cfg.keys
    omega
  obtain ⟨finished, finishes, runs⟩ := DepthFirst.exists_finishes hc (Finset.mem_insert_self _ _) he
  refine ⟨finished, finishes, ?_, ?_⟩
  · rw [reversePostorder, runs, DepthFirst.foldl_push, nil_append]
  · intro id
    rw [postorderNumbers, runs, DepthFirst.foldl_assignNumber finished finishes.nodup, zero_add]

theorem number_eq {finished : List BlockId}
    (nums : ∀ id, postorderNumbers order id = if id ∈ finished then some (finished.idxOf id) else none)
    (has : id ∈ finished) : number order id = finished.idxOf id := by
  rw [number, nums, if_pos has]
  rfl

theorem reachable_of_number_pos (con : cfg.Consistent) (positive : 0 < number order id) :
    cfg.Reachable id := by
  obtain ⟨finished, finishes, -, nums⟩ := exists_postorder order con
  by_contra unreachable
  have ha : id ∉ finished := by
    rw [finishes.mem_iff, reachable_iff]
    exact unreachable
  rw [number, nums, if_neg ha] at positive
  exact absurd positive (lt_irrefl 0)

theorem number_injective (con : cfg.Consistent) {a b : BlockId} (reachableA : cfg.Reachable a)
    (reachableB : cfg.Reachable b) (eq : number order a = number order b) : a = b := by
  obtain ⟨finished, finishes, -, nums⟩ := exists_postorder order con
  have presentA := (finishes.mem_iff a).mpr ((reachable_iff a).mpr reachableA)
  have presentB := (finishes.mem_iff b).mpr ((reachable_iff b).mpr reachableB)
  rw [number_eq nums presentA, number_eq nums presentB] at eq
  exact (idxOf_inj presentA).mp eq

theorem exists_parent (order : EdgeOrder cfg) (con : cfg.Consistent) (reachable : cfg.Reachable id)
    (other : id ≠ cfg.entry) :
    ∃ par, cfg.Reachable par ∧ cfg.Edge par id ∧ number order id < number order par := by
  obtain ⟨finished, finishes, -, nums⟩ := exists_postorder order con
  have has := (finishes.mem_iff id).mpr ((reachable_iff id).mpr reachable)
  obtain ⟨par, parentPresent, leads, pre⟩ := finishes.parent id has other
  refine ⟨par, (reachable_iff par).mp ((finishes.mem_iff par).mp parentPresent), mem_targets.mp leads, ?_⟩
  rwa [number_eq nums has, number_eq nums parentPresent]

theorem number_lt_entry (order : EdgeOrder cfg) (con : cfg.Consistent) (reachable : cfg.Reachable id)
    (other : id ≠ cfg.entry) : number order id < number order cfg.entry := by
  obtain ⟨finished, finishes, -, nums⟩ := exists_postorder order con
  have has := (finishes.mem_iff id).mpr ((reachable_iff id).mpr reachable)
  have entryPresent := (finishes.mem_iff cfg.entry).mpr .refl
  rw [number_eq nums has, number_eq nums entryPresent]
  exact finishes.idxOf_lt_root has other

theorem exists_rising_path (order : EdgeOrder cfg) (con : cfg.Consistent) (reachable : cfg.Reachable id) :
    ∃ path, cfg.Path id path ∧ ∀ on ∈ path, on = id ∨ number order id < number order on := by
  induction bound : number order cfg.entry - number order id using Nat.strong_induction_on generalizing id with
  | _ measure ih =>
    by_cases ie : id = cfg.entry
    · subst ie
      exact ⟨_, .entry, by simp⟩
    · obtain ⟨par, parentReachable, edge, pre⟩ := exists_parent order con reachable ie
      have belowEntry := number_lt_entry order con reachable ie
      obtain ⟨path, is_path, rising⟩ := ih _ (by omega) parentReachable rfl
      refine ⟨_, .step is_path edge, ?_⟩
      intro on mem
      rcases mem_cons.mp mem with eq | earlier
      · exact .inl eq
      · rcases rising on earlier with eq | higher
        · rw [eq]
          exact .inr pre
        · exact .inr (pre.trans higher)

theorem number_lt_of_dominates (order : EdgeOrder cfg) (con : cfg.Consistent) {a b : BlockId} (dominates : cfg.Dominates a b)
    (ne : a ≠ b) (reachable : cfg.Reachable b) : number order b < number order a := by
  obtain ⟨path, is_path, rising⟩ := exists_rising_path order con reachable
  exact (rising a (dominates path is_path)).resolve_left ne

end Numbers

section Climbing

variable {order} {dominators : ImmediateDominators} {fuel : Nat}

/-- From a block above the bound, the recorded dominators lead up to the entry and stay there. -/
def Rising (order : EdgeOrder cfg) (dominators : ImmediateDominators) (bound : Nat) : Prop :=
  ∀ id, bound < number order id → ∃ dom, dominators id = some dom ∧ (dom = id ∨ number order id < number order dom)

variable {bound : Nat} {c : BlockId}

theorem climb_rising (rising : Rising order dominators bound) {id : BlockId} (above : bound < number order id)
    (climbs : climb (number order) dominators (number order id) fuel id = some c) :
    number order id ≤ number order c := by
  cases fuel with
  | zero => simp [climb] at climbs
  | succ fuel =>
    obtain ⟨dom, found, higher⟩ := rising id above
    rw [climb, found] at climbs
    simp only at climbs
    split at climbs
    · rw [Option.some.inj climbs]
    · rename_i ne
      have up := higher.resolve_left ne
      rw [if_pos up.le] at climbs
      rw [← Option.some.inj climbs]
      exact up.le

theorem intersectLoop_of_lt (rising : Rising order dominators bound) (remaining : Nat) {b1 b2 : BlockId}
    (above : bound < number order b2) (lower : number order b1 < number order b2)
    (ends : intersectLoop (number order) fuel dominators remaining b1 b2 = some c) : c = b1 := by
  induction remaining generalizing b2 with
  | zero => exact (Option.some.inj ends).symm
  | succ remaining ih =>
    have ne : b1 ≠ b2 := fun eq => absurd lower (by simp [eq])
    rw [intersectLoop, if_neg ne, if_pos lower] at ends
    cases climbs : climb (number order) dominators (number order b2) fuel b2 with
    | none => simp [climbs] at ends
    | some up =>
      have higher := climb_rising rising above climbs
      have stays : ¬ number order up < number order b1 := by omega
      simp only [climbs, Option.bind_eq_bind, Option.bind_some, if_neg stays] at ends
      exact ih (above.trans_le higher) (lower.trans_le higher) ends

theorem intersectLoop_of_gt (rising : Rising order dominators bound) (remaining : Nat) {b1 b2 : BlockId}
    (above : bound < number order b1) (lower : number order b2 < number order b1)
    (ends : intersectLoop (number order) fuel dominators remaining b1 b2 = some c) :
    number order b1 ≤ number order c := by
  induction remaining generalizing b1 with
  | zero => rw [← Option.some.inj ends]
  | succ remaining ih =>
    have ne : b1 ≠ b2 := fun eq => absurd lower (by simp [eq])
    rw [intersectLoop, if_neg ne, if_neg (by omega : ¬ number order b1 < number order b2)] at ends
    simp only [Option.bind_eq_bind, Option.bind_some, if_pos lower] at ends
    cases climbs : climb (number order) dominators (number order b1) fuel b1 with
    | none => simp [climbs] at ends
    | some up =>
      have higher := climb_rising rising above climbs
      simp only [climbs, Option.bind_some] at ends
      exact higher.trans (ih (above.trans_le higher) (lower.trans_le higher) ends)

theorem intersect_self (id : BlockId) : intersect order fuel dominators id id = some id := by
  unfold intersect intersectLoop
  rw [if_pos rfl]

theorem intersectLoop_entry (recorded : dominators cfg.entry = some cfg.entry) {id : BlockId}
    (lower : number order id < number order cfg.entry) (remaining : Nat) :
    intersectLoop (number order) (fuel + 1) dominators remaining id cfg.entry = some id := by
  have ne : id ≠ cfg.entry := fun eq => absurd lower (by simp [eq])
  have climbs : climb (number order) dominators (number order cfg.entry) (fuel + 1) cfg.entry = some cfg.entry := by
    rw [climb, recorded]
    simp
  induction remaining with
  | zero => rfl
  | succ remaining ih =>
    rw [intersectLoop, if_neg ne, if_pos lower, climbs]
    simp only [Option.bind_eq_bind, Option.bind_some, if_neg (by omega : ¬ number order cfg.entry < number order id)]
    exact ih

end Climbing

section Passes

variable {order} {fuel : Nat}

def Single (cfg : ControlFlowGraph) (id : BlockId) : Prop :=
  ∀ p ∈ (cfg.block id).predecessors, ∀ q ∈ (cfg.block id).predecessors,
    cfg.Reachable p → cfg.Reachable q → p = q

/-- Only reachable blocks are recorded, and a block with one predecessor is recorded with that one. -/
structure Records (cfg : ControlFlowGraph) (dominators : ImmediateDominators) : Prop where
  entry : dominators cfg.entry = some cfg.entry
  reachable : ∀ id, (dominators id).isSome → cfg.Reachable id
  single : ∀ id dom, id ≠ cfg.entry → Single cfg id → dominators id = some dom →
    dom ∈ (cfg.block id).predecessors ∧ cfg.Reachable dom

theorem records_initial :
    Records cfg (Function.update (fun _ => none) cfg.entry (some cfg.entry)) where
  entry := Function.update_self _ _ _
  reachable id present := by
    by_cases ie : id = cfg.entry
    · rw [ie]
      exact ControlFlowGraph.reachable_entry
    · rw [Function.update_of_ne ie] at present
      simp at present
  single id dom other _ found := by
    rw [Function.update_of_ne other] at found
    simp at found

variable {dominators final : ImmediateDominators} {cur : Option BlockId} {id : BlockId}
  {state next : ImmediateDominators × Bool}

theorem mergePredecessor_of_none {pred : BlockId} (ha : dominators pred = none) :
    mergePredecessor order fuel dominators cur pred = some cur := by
  simp [mergePredecessor, ha]

theorem foldlM_merge_single (order : EdgeOrder cfg) (fuel : Nat) {p : BlockId} (predecessors : List BlockId)
    (only : ∀ pred ∈ predecessors, (dominators pred).isSome → pred = p)
    (start : cur = none ∨ cur = some p) :
    ∃ result, predecessors.foldlM (mergePredecessor order fuel dominators) cur = some result ∧
      (result = none ∨ result = some p) ∧
      ((cur = some p ∨ p ∈ predecessors ∧ (dominators p).isSome) → result = some p) := by
  induction predecessors generalizing cur with
  | nil =>
    refine ⟨cur, rfl, start, ?_⟩
    intro hit
    exact hit.resolve_right (by simp)
  | cons head predecessors ih =>
    have only' := fun pred mem => only pred (mem_cons_of_mem head mem)
    rw [foldlM_cons]
    cases recorded : dominators head with
    | none =>
      rw [mergePredecessor_of_none recorded]
      obtain ⟨result, runs, isP, hit⟩ := ih only' start
      refine ⟨result, runs, isP, ?_⟩
      intro reason
      apply hit
      rcases reason with already | ⟨mem, has⟩
      · exact .inl already
      · refine .inr ⟨(mem_cons.mp mem).resolve_left ?_, has⟩
        rintro rfl
        rw [recorded] at has
        simp at has
    | some dom =>
      have atHead := only head (by simp) (by simp [recorded])
      subst atHead
      have merged : mergePredecessor order fuel dominators cur head = some (some head) := by
        rcases start with rfl | rfl
        · simp [mergePredecessor, recorded]
        · simp [mergePredecessor, recorded, intersect_self]
      rw [merged]
      obtain ⟨result, runs, isP, hit⟩ := ih only' (.inr rfl)
      exact ⟨result, runs, isP, fun _ => hit (.inl rfl)⟩

theorem foldlM_merge_isSome (predecessors : List BlockId) {result : Option BlockId}
    (runs : predecessors.foldlM (mergePredecessor order fuel dominators) cur = some result)
    (reason : cur.isSome ∨ ∃ pred ∈ predecessors, (dominators pred).isSome) : result.isSome := by
  induction predecessors generalizing cur with
  | nil =>
    rw [← Option.some.inj runs]
    exact reason.resolve_right (by simp)
  | cons head predecessors ih =>
    rw [foldlM_cons, Option.bind_eq_bind, Option.bind_eq_some_iff] at runs
    obtain ⟨next, merged, rest⟩ := runs
    apply ih rest
    unfold mergePredecessor at merged
    split at merged
    · left
      cases cur with
      | none => simp [← Option.some.inj merged]
      | some idom =>
        obtain ⟨c, -, isNext⟩ := Option.map_eq_some_iff.mp merged
        simp [← isNext]
    · rename_i ha
      rw [← Option.some.inj merged]
      rcases reason with already | ⟨pred, mem, has⟩
      · exact .inl already
      · refine .inr ⟨pred, (mem_cons.mp mem).resolve_left ?_, has⟩
        rintro rfl
        exact ha has

theorem mem_reversePostorder (order : EdgeOrder cfg) (con : cfg.Consistent) (id : BlockId) :
    id ∈ reversePostorder order ↔ cfg.Reachable id := by
  obtain ⟨finished, finishes, isReverse, -⟩ := exists_postorder order con
  rw [isReverse, mem_reverse, finishes.mem_iff, reachable_iff]

theorem reversePostorder_pairwise (order : EdgeOrder cfg) (con : cfg.Consistent) :
    (reversePostorder order).Pairwise fun earlier hl => number order hl < number order earlier := by
  obtain ⟨finished, finishes, isReverse, nums⟩ := exists_postorder order con
  rw [isReverse, pairwise_reverse, pairwise_iff_getElem]
  intro i j boundI boundJ pre
  rw [number_eq nums (getElem_mem boundI), number_eq nums (getElem_mem boundJ),
    finishes.nodup.idxOf_getElem, finishes.nodup.idxOf_getElem]
  exact pre

theorem newIdom_single (order : EdgeOrder cfg) (fuel : Nat) (con : cfg.Consistent)
    (records : Records cfg dominators) (reach : cfg.Reachable id) (other : id ≠ cfg.entry)
    (single : Single cfg id) : ∃ par ∈ (cfg.block id).predecessors, cfg.Reachable par ∧
      ∃ result, newIdom order fuel dominators id = some result ∧ (result = none ∨ result = some par) := by
  obtain ⟨has, par, isPred, parentReachable, -⟩ := reach.cases con other
  have only : ∀ pred ∈ order.predecessors id, (dominators pred).isSome → pred = par := by
    intro pred mem recorded
    exact single pred ((order.mem_predecessors id pred).mp mem) par isPred (records.reachable pred recorded)
      parentReachable
  obtain ⟨result, runs, isParent, -⟩ := foldlM_merge_single order fuel (order.predecessors id) only (.inl rfl)
  exact ⟨par, isPred, parentReachable, result, runs, isParent⟩

theorem updateDominator_cases (runs : updateDominator order fuel state id = some next) :
    next = state ∧ (id ≠ cfg.entry → id ∈ cfg.keys →
        ∃ result, newIdom order fuel state.1 id = some result ∧ ∀ idom, result = some idom → state.1 id = some idom) ∨
      id ≠ cfg.entry ∧ ∃ idom, newIdom order fuel state.1 id = some (some idom) ∧
        next = (Function.update state.1 id (some idom), true) := by
  unfold updateDominator at runs
  split at runs
  · rename_i ie
    exact .inl ⟨(Option.some.inj runs).symm, fun other => absurd ie other⟩
  · rename_i other
    unfold ControlFlowGraph.get at runs
    split at runs
    · rename_i ha
      refine .inl ⟨(Option.some.inj runs).symm, fun _ has => ?_⟩
      rw [if_pos has] at ha
      simp at ha
    · obtain ⟨result, hit, isNext⟩ := Option.map_eq_some_iff.mp runs
      rw [hit]
      split at isNext
      · rename_i idom
        split at isNext
        · rename_i eq
          refine .inl ⟨isNext.symm, fun _ _ => ⟨_, rfl, fun idom' equal => ?_⟩⟩
          rw [← Option.some.inj equal]
          exact eq
        · exact .inr ⟨other, idom, rfl, isNext.symm⟩
      · exact .inl ⟨isNext.symm, fun _ _ => ⟨_, rfl, fun idom equal => absurd equal (by simp)⟩⟩

theorem Records.update (consistent : cfg.Consistent) (records : Records cfg dominators) {idom : BlockId}
    (reachable : cfg.Reachable id) (other : id ≠ cfg.entry)
    (found : newIdom order fuel dominators id = some (some idom)) :
    Records cfg (Function.update dominators id (some idom)) where
  entry := by
    rw [Function.update_of_ne (Ne.symm other)]
    exact records.entry
  reachable tgt present := by
    by_cases same : tgt = id
    · rw [same]
      exact reachable
    · rw [Function.update_of_ne same] at present
      exact records.reachable tgt present
  single tgt dom targetOther single recorded := by
    by_cases same : tgt = id
    · subst same
      rw [Function.update_self, Option.some.injEq] at recorded
      obtain ⟨parent, isPred, parentReachable, result, runs, isParent⟩ :=
        newIdom_single order fuel consistent records reachable other single
      rw [found, Option.some.injEq] at runs
      rw [← runs] at isParent
      rw [← recorded, Option.some.inj (isParent.resolve_left (by simp))]
      exact ⟨isPred, parentReachable⟩
    · rw [Function.update_of_ne same] at recorded
      exact records.single tgt dom targetOther single recorded

/-- What a step, and then a run of steps, of the inner loop keeps. -/
structure Keeps (cfg : ControlFlowGraph) (blocks : List BlockId) (state next : ImmediateDominators × Bool) : Prop where
  records : Records cfg next.1
  grows : ∀ id, (state.1 id).isSome → (next.1 id).isSome
  frame : ∀ id, id ∉ blocks → next.1 id = state.1 id
  unchanged : next.2 = false → next = state

theorem updateDominator_keeps (con : cfg.Consistent) (records : Records cfg state.1)
    (reach : cfg.Reachable id) (runs : updateDominator order fuel state id = some next) :
    Keeps cfg [id] state next := by
  rcases updateDominator_cases runs with ⟨eq, -⟩ | ⟨other, idom, hit, isNext⟩
  · rw [eq]
    exact ⟨records, fun _ has => has, fun _ _ => rfl, fun _ => rfl⟩
  · rw [isNext]
    refine ⟨records.update con reach other hit, ?_, ?_, fun impossible => absurd impossible (by simp)⟩
    · intro tgt has
      by_cases eq : tgt = id
      · simp [eq]
      · simpa [Function.update_of_ne eq] using has
    · intro tgt ha
      rw [mem_singleton] at ha
      exact Function.update_of_ne ha _ _

theorem foldlM_update_keeps (con : cfg.Consistent) (blocks : List BlockId)
    (reach : ∀ id ∈ blocks, cfg.Reachable id) (records : Records cfg state.1)
    (runs : blocks.foldlM (updateDominator order fuel) state = some next) : Keeps cfg blocks state next := by
  induction blocks generalizing state with
  | nil =>
    rw [← Option.some.inj runs]
    exact ⟨records, fun _ has => has, fun _ _ => rfl, fun _ => rfl⟩
  | cons head blocks ih =>
    rw [foldlM_cons, Option.bind_eq_bind, Option.bind_eq_some_iff] at runs
    obtain ⟨mid, fst, rest⟩ := runs
    have early := updateDominator_keeps con records (reach head (by simp)) fst
    have late := ih (fun id mem => reach id (.tail _ mem)) early.records rest
    refine ⟨late.records, fun id has => late.grows id (early.grows id has), ?_, ?_⟩
    · intro id ha
      rw [mem_cons, not_or] at ha
      rw [late.frame id ha.2, early.frame id (by simp [ha.1])]
    · intro unchanged
      have snd := late.unchanged unchanged
      rw [snd] at unchanged ⊢
      exact early.unchanged unchanged

theorem foldlM_update_covers (con : cfg.Consistent) (blocks : List BlockId)
    (sorted : blocks.Pairwise fun earlier hl => number order hl < number order earlier)
    (reachable : ∀ id ∈ blocks, cfg.Reachable id) (records : Records cfg state.1)
    (outside : ∀ id, cfg.Reachable id → id ∉ blocks → (state.1 id).isSome)
    (runs : blocks.foldlM (updateDominator order fuel) state = some next) :
    ∀ id, cfg.Reachable id → (next.1 id).isSome := by
  induction blocks generalizing state with
  | nil =>
    rw [← Option.some.inj runs]
    exact fun id isReachable => outside id isReachable not_mem_nil
  | cons head blocks ih =>
    rw [foldlM_cons, Option.bind_eq_bind, Option.bind_eq_some_iff] at runs
    obtain ⟨middle, first, rest⟩ := runs
    rw [pairwise_cons] at sorted
    have atHead := reachable head (by simp)
    have early := updateDominator_keeps con records atHead first
    have recorded : (middle.1 head).isSome := by
      by_cases ie : head = cfg.entry
      · rw [ie, early.records.entry]
        rfl
      · obtain ⟨par, parentReachable, edge, above⟩ := exists_parent order con atHead ie
        have parentOutside : par ∉ head :: blocks := by
          intro mem
          rcases mem_cons.mp mem with eq | hl
          · rw [eq] at above
            exact absurd above (lt_irrefl _)
          · exact absurd above (lt_asymm (sorted.1 par hl))
        have inTable := (atHead.cases con ie).1
        have parts := ControlFlowGraph.edge_iff.mp edge
        have isPred := (con.agree par parts.1 head inTable).mp parts.2
        have some' {result : Option BlockId} (found : newIdom order fuel state.1 head = some result) :
            result.isSome :=
          foldlM_merge_isSome _ found
            (.inr ⟨par, (order.mem_predecessors head par).mpr isPred, outside par parentReachable parentOutside⟩)
        rcases updateDominator_cases first with ⟨eq, settled⟩ | ⟨-, idom, -, isNext⟩
        · obtain ⟨result, found, already⟩ := settled ie inTable
          obtain ⟨idom, isIdom⟩ := Option.isSome_iff_exists.mp (some' found)
          rw [eq, already idom isIdom]
          rfl
        · simp [isNext]
    refine ih sorted.2 (fun id mem => reachable id (.tail _ mem)) early.records ?_ rest
    intro id isReachable ha
    by_cases eq : id = head
    · rw [eq]
      exact recorded
    · exact early.grows id (outside id isReachable (by simp [eq, ha]))

def Covers (cfg : ControlFlowGraph) (dominators : ImmediateDominators) : Prop :=
  ∀ id, cfg.Reachable id → (dominators id).isSome

theorem pass_spec (con : cfg.Consistent) (records : Records cfg dominators)
    (runs : pass order fuel dominators = some next) :
    Keeps cfg (reversePostorder order) (dominators, false) next ∧ Covers cfg next.1 := by
  have reachable : ∀ id ∈ reversePostorder order, cfg.Reachable id :=
    fun id => (mem_reversePostorder order con id).mp
  refine ⟨foldlM_update_keeps con _ reachable records runs, ?_⟩
  apply foldlM_update_covers con _ (reversePostorder_pairwise order con) reachable records _ runs
  intro id isReachable ha
  exact absurd ((mem_reversePostorder order con id).mpr isReachable) ha

theorem iterate_spec (con : cfg.Consistent) (remaining : Nat) (records : Records cfg dominators)
    (started : Covers cfg dominators ∨ 0 < remaining)
    (runs : iterate order fuel remaining dominators = some final) : Records cfg final ∧ Covers cfg final := by
  induction remaining generalizing dominators with
  | zero =>
    rw [← Option.some.inj runs]
    exact ⟨records, started.resolve_right (lt_irrefl 0)⟩
  | succ remaining ih =>
    rw [iterate, Option.bind_eq_bind, Option.bind_eq_some_iff] at runs
    obtain ⟨next, passes, rest⟩ := runs
    obtain ⟨hk, covers⟩ := pass_spec con records passes
    split at rest
    · exact ih hk.records (.inl covers) rest
    · rw [← Option.some.inj rest]
      exact ⟨hk.records, covers⟩

theorem computeDominators_spec (con : cfg.Consistent) (runs : computeDominators order fuel = some final) :
    Records cfg final ∧ Covers cfg final :=
  iterate_spec con _ records_initial (.inr (by simp [maxIterations])) runs

end Passes

section JoinFree

variable {order} {fuel : Nat}

/-- No reachable block other than the entry has two reachable predecessors. -/
def JoinFree (cfg : ControlFlowGraph) : Prop := ∀ id, cfg.Reachable id → id ≠ cfg.entry → Single cfg id

theorem foldlM_update_total (order : EdgeOrder cfg) (fuel : Nat) (con : cfg.Consistent) (joinFree : JoinFree cfg) (blocks : List BlockId)
    (reach : ∀ id ∈ blocks, cfg.Reachable id) (state : ImmediateDominators × Bool)
    (records : Records cfg state.1) : ∃ next, blocks.foldlM (updateDominator order fuel) state = some next := by
  induction blocks generalizing state with
  | nil => exact ⟨state, rfl⟩
  | cons head blocks ih =>
    have atHead := reach head (by simp)
    have fst : ∃ mid, updateDominator order fuel state head = some mid := by
      unfold updateDominator
      split
      · exact ⟨_, rfl⟩
      · rename_i other
        split
        · exact ⟨_, rfl⟩
        · obtain ⟨-, -, -, result, hit, -⟩ :=
            newIdom_single order fuel con records atHead other (joinFree head atHead other)
          rw [hit]
          exact ⟨_, rfl⟩
    obtain ⟨mid, runs⟩ := fst
    have hk := updateDominator_keeps con records atHead runs
    rw [foldlM_cons, runs]
    exact ih (fun id mem => reach id (.tail _ mem)) mid hk.records

theorem iterate_total (order : EdgeOrder cfg) (fuel : Nat) (con : cfg.Consistent) (joinFree : JoinFree cfg) (remaining : Nat)
    {dominators : ImmediateDominators} (records : Records cfg dominators) :
    ∃ final, iterate order fuel remaining dominators = some final := by
  induction remaining generalizing dominators with
  | zero => exact ⟨dominators, rfl⟩
  | succ remaining ih =>
    obtain ⟨next, passes⟩ := foldlM_update_total order fuel con joinFree _
      (fun id => (mem_reversePostorder order con id).mp) (dominators, false) records
    have hk := (pass_spec con records passes).1
    obtain ⟨final, runs⟩ := ih hk.records
    rw [iterate, pass, passes, Option.bind_eq_bind, Option.bind_some]
    split
    · exact ⟨final, runs⟩
    · exact ⟨next.1, rfl⟩

variable {dom : BlockId}

theorem dominates_predecessor {id pred : BlockId} (dominates : cfg.Dominates dom id) (ne : dom ≠ id)
    (edge : cfg.Edge pred id) : cfg.Dominates dom pred := by
  intro path is_path
  exact (mem_cons.mp (dominates _ (.step is_path edge))).resolve_left ne

theorem isImmediateDominator_of_single (con : cfg.Consistent) (order : EdgeOrder cfg) {id : BlockId}
    (reach : cfg.Reachable id) (other : id ≠ cfg.entry) (single : Single cfg id)
    (isPred : dom ∈ (cfg.block id).predecessors) (domReachable : cfg.Reachable dom) :
    IsImmediateDominator cfg dom id := by
  have inTable := (reach.cases con other).1
  have only {pred : BlockId} (predReachable : cfg.Reachable pred) (edge : cfg.Edge pred id) : pred = dom := by
    have parts := ControlFlowGraph.edge_iff.mp edge
    exact single pred ((con.agree pred parts.1 id inTable).mp parts.2) dom isPred predReachable domReachable
  have ne : dom ≠ id := by
    obtain ⟨parent, parentReachable, edge, above⟩ := exists_parent order con reach other
    rw [← only parentReachable edge]
    rintro rfl
    exact absurd above (lt_irrefl _)
  refine ⟨ne, ?_, ?_⟩
  · intro path is_path
    cases is_path with
    | entry => exact absurd rfl other
    | step pre edge =>
      rw [only ⟨_, pre⟩ edge] at pre
      exact .tail _ pre.mem
  · intro strict strictOther strictDominates
    exact dominates_predecessor strictDominates strictOther
      (ControlFlowGraph.edge_of_predecessor con inTable isPred)

end JoinFree

section FirstJoin

variable {order} {fuel : Nat}

/-- The join that the passes meet first, and its predecessor with the lowest number. -/
structure FirstJoin (order : EdgeOrder cfg) (join lowest : BlockId) : Prop where
  reachable : cfg.Reachable join
  other : join ≠ cfg.entry
  earlier : ∀ id, number order join < number order id → id ≠ cfg.entry → Single cfg id
  isPred : lowest ∈ (cfg.block join).predecessors
  lowestReachable : cfg.Reachable lowest
  least : ∀ pred ∈ (cfg.block join).predecessors, cfg.Reachable pred → number order lowest ≤ number order pred
  rival : ∃ pred ∈ (cfg.block join).predecessors, cfg.Reachable pred ∧ pred ≠ lowest

theorem exists_firstJoin (con : cfg.Consistent) (order : EdgeOrder cfg) (joins : ¬ JoinFree cfg) :
    ∃ join lowest, FirstJoin order join lowest := by
  classical
  simp only [JoinFree, not_forall] at joins
  obtain ⟨some', reachable, other, isJoin⟩ := joins
  let candidates := (reversePostorder order).toFinset.filter fun id => id ≠ cfg.entry ∧ ¬ Single cfg id
  have candidate : some' ∈ candidates := by
    simp [candidates, mem_reversePostorder order con, reachable, other, isJoin]
  obtain ⟨join, isCandidate, highest⟩ := candidates.exists_max_image (number order) ⟨some', candidate⟩
  simp only [candidates, Finset.mem_filter, mem_toFinset, mem_reversePostorder order con] at isCandidate highest
  obtain ⟨joinReachable, joinOther, notSingle⟩ := isCandidate
  simp only [Single, not_forall] at notSingle
  obtain ⟨p, pIsPred, q, qIsPred, pReachable, qReachable, ne⟩ := notSingle
  obtain ⟨lowest, isLowest, least⟩ := ((cfg.block join).predecessors.filter cfg.Reachable).exists_min_image
    (number order) ⟨p, Finset.mem_filter.mpr ⟨pIsPred, pReachable⟩⟩
  simp only [Finset.mem_filter] at isLowest least
  refine ⟨join, lowest, joinReachable, joinOther, ?_, isLowest.1, isLowest.2, fun pred mem isReachable =>
    least pred ⟨mem, isReachable⟩, ?_⟩
  · intro id above idOther
    by_contra notSingle
    have idReachable := reachable_of_number_pos con (zero_lt_of_lt above)
    exact absurd (highest id ⟨idReachable, idOther, notSingle⟩) (by omega)
  · by_cases eq : p = lowest
    · exact ⟨q, qIsPred, qReachable, fun equal => ne (eq.trans equal.symm)⟩
    · exact ⟨p, pIsPred, pReachable, eq⟩

variable {join lowest : BlockId} {dominators : ImmediateDominators}

theorem rising_of_records (con : cfg.Consistent) (first : FirstJoin order join lowest)
    (records : Records cfg dominators) (covers : Covers cfg dominators) :
    Rising order dominators (number order join) := by
  intro id above
  have reachable := reachable_of_number_pos con (zero_lt_of_lt above)
  obtain ⟨dom, found⟩ := Option.isSome_iff_exists.mp (covers id reachable)
  refine ⟨dom, found, ?_⟩
  by_cases ie : id = cfg.entry
  · rw [ie, records.entry, Option.some.injEq] at found
    rw [← found, ie]
    exact .inl rfl
  · have single := first.earlier id above ie
    obtain ⟨isPred, domReachable⟩ := records.single id dom ie single found
    obtain ⟨par, parentReachable, edge, higher⟩ := exists_parent order con reachable ie
    have parts := ControlFlowGraph.edge_iff.mp edge
    have inTable := (reachable.cases con ie).1
    have parentIsPred := (con.agree par parts.1 id inTable).mp parts.2
    rw [single dom isPred par parentIsPred domReachable parentReachable]
    exact .inr higher

def withPredecessors (order : EdgeOrder cfg) (join : BlockId) (list : List BlockId)
    (perm : list.Perm (order.predecessors join)) : EdgeOrder cfg where
  successors := order.successors
  predecessors id := if id = join then list else order.predecessors id
  mem_successors := order.mem_successors
  mem_predecessors id source := by
    by_cases same : id = join
    · rw [if_pos same, perm.mem_iff, ← same]
      exact order.mem_predecessors id source
    · rw [if_neg same]
      exact order.mem_predecessors id source
  successors_nodup := order.successors_nodup
  predecessors_nodup id := by
    by_cases same : id = join
    · rw [if_pos same, perm.nodup_iff]
      exact order.predecessors_nodup join
    · rw [if_neg same]
      exact order.predecessors_nodup id

/-- The predecessors of the join: first the others that the passes meet after it, then those they meet before it,
and the one with the lowest number last. -/
def lowestLast (number : BlockId → Nat) (join lowest : BlockId) (predecessors : List BlockId) : List BlockId :=
  (predecessors.erase lowest).filter (fun pred => !decide (number join < number pred)) ++
    (predecessors.erase lowest).filter (fun pred => decide (number join < number pred)) ++ [lowest]

variable {predecessors : List BlockId} {cur result : Option BlockId} {final : ImmediateDominators}

theorem lowestLast_perm (num : BlockId → Nat) (join : BlockId) (isPred : lowest ∈ predecessors) :
    (lowestLast num join lowest predecessors).Perm predecessors := by
  unfold lowestLast
  have partition := filter_append_perm (fun pred => !decide (num join < num pred)) (predecessors.erase lowest)
  simp only [Bool.not_not] at partition
  have back := perm_cons_erase isPred
  exact ((partition.append_right [lowest]).trans perm_append_comm).trans back.symm

theorem mergePredecessor_above (con : cfg.Consistent)
    (rising : Rising order dominators (number order join)) {pred : BlockId} (recorded : (dominators pred).isSome)
    (above : number order join < number order pred) (overLowest : number order lowest < number order pred)
    {next : Option BlockId} (merges : mergePredecessor order fuel dominators cur pred = some next) :
    ∃ idom, next = some idom ∧ number order join < number order idom ∧ number order lowest < number order idom := by
  unfold mergePredecessor at merges
  rw [if_pos recorded] at merges
  cases cur with
  | none => exact ⟨pred, (Option.some.inj merges).symm, above, overLowest⟩
  | some idom =>
    obtain ⟨c, ends, isNext⟩ := Option.map_eq_some_iff.mp merges
    refine ⟨c, isNext.symm, ?_⟩
    rcases lt_trichotomy (number order pred) (number order idom) with hlt | eq | over'
    · rw [intersectLoop_of_lt rising _ (above.trans hlt) hlt ends]
      exact ⟨above, overLowest⟩
    · have predReachable := reachable_of_number_pos con (zero_lt_of_lt above)
      have idomReachable := reachable_of_number_pos con (zero_lt_of_lt (eq ▸ above))
      rw [number_injective con predReachable idomReachable eq, intersect_self, Option.some.injEq] at ends
      rw [← ends, ← eq]
      exact ⟨above, overLowest⟩
    · have climbs := intersectLoop_of_gt rising _ above over' ends
      exact ⟨above.trans_le climbs, overLowest.trans_le climbs⟩

theorem foldlM_merge_above (lowest : BlockId) (con : cfg.Consistent)
    (rising : Rising order dominators (number order join)) (predecessors : List BlockId)
    (all : ∀ pred ∈ predecessors, (dominators pred).isSome ∧
      number order join < number order pred ∧ number order lowest < number order pred)
    (started : predecessors ≠ [] ∨
      ∃ idom, cur = some idom ∧ number order join < number order idom ∧ number order lowest < number order idom)
    (runs : predecessors.foldlM (mergePredecessor order fuel dominators) cur = some result) :
    ∃ idom, result = some idom ∧ number order join < number order idom ∧ number order lowest < number order idom := by
  induction predecessors generalizing cur with
  | nil =>
    rw [← Option.some.inj runs]
    exact started.resolve_left (fun nonempty => nonempty rfl)
  | cons head predecessors ih =>
    rw [foldlM_cons, Option.bind_eq_bind, Option.bind_eq_some_iff] at runs
    obtain ⟨next, merges, rest⟩ := runs
    obtain ⟨recorded, above, overLowest⟩ := all head (by simp)
    exact ih (fun pred mem => all pred (.tail _ mem))
      (.inr (mergePredecessor_above con rising recorded above overLowest merges)) rest

theorem foldlM_merge_lowestLast (con : cfg.Consistent) (first : FirstJoin order join lowest)
    (records : Records cfg dominators) (covers : Covers cfg dominators)
    (perm : predecessors.Perm (order.predecessors join))
    (runs : (lowestLast (number order) join lowest predecessors).foldlM
      (mergePredecessor order fuel dominators) none = some result) : result = some lowest := by
  have rising := rising_of_records con first records covers
  have memOthers {pred : BlockId} : pred ∈ predecessors.erase lowest ↔
      pred ≠ lowest ∧ pred ∈ (cfg.block join).predecessors := by
    rw [(perm.nodup_iff.mpr (order.predecessors_nodup join)).mem_erase_iff, perm.mem_iff, order.mem_predecessors]
  rw [lowestLast, foldlM_append, foldlM_append] at runs
  simp only [Option.bind_eq_bind, Option.bind_eq_some_iff] at runs
  obtain ⟨middle, ⟨early, -, forward⟩, last⟩ := runs
  have overLowest {pred : BlockId} (isPred : pred ∈ (cfg.block join).predecessors) (reachable : cfg.Reachable pred)
      (ne : pred ≠ lowest) : number order lowest < number order pred := by
    rcases lt_or_eq_of_le (first.least pred isPred reachable) with hlt | eq
    · exact hlt
    · exact absurd (number_injective con first.lowestReachable reachable eq) (Ne.symm ne)
  have nonempty : ((predecessors.erase lowest).filter fun pred =>
      decide (number order join < number order pred)) ≠ [] := by
    have exists' : ∃ pred ∈ (cfg.block join).predecessors, pred ≠ lowest ∧ number order join < number order pred := by
      by_cases after : number order join < number order lowest
      · obtain ⟨pred, isPred, reachable, ne⟩ := first.rival
        exact ⟨pred, isPred, ne, after.trans_le (first.least pred isPred reachable)⟩
      · obtain ⟨par, parentReachable, edge, above⟩ := exists_parent order con first.reachable
          first.other
        have parts := ControlFlowGraph.edge_iff.mp edge
        have inTable := (first.reachable.cases con first.other).1
        refine ⟨par, (con.agree par parts.1 join inTable).mp parts.2, ?_, above⟩
        rintro rfl
        exact after above
    obtain ⟨pred, isPred, ne, above⟩ := exists'
    exact ne_nil_of_mem (mem_filter.mpr ⟨memOthers.mpr ⟨ne, isPred⟩, by simpa using above⟩)
  obtain ⟨idom, isMiddle, above, over'⟩ := foldlM_merge_above lowest con rising _
    (by
      intro pred mem
      obtain ⟨isOther, above⟩ := mem_filter.mp mem
      rw [decide_eq_true_eq] at above
      have reachable := reachable_of_number_pos con (zero_lt_of_lt above)
      obtain ⟨ne, isPred⟩ := memOthers.mp isOther
      exact ⟨covers pred reachable, above, overLowest isPred reachable ne⟩)
    (.inl nonempty) forward
  rw [isMiddle, foldlM_cons, mergePredecessor, if_pos (covers lowest first.lowestReachable)] at last
  simp only [Option.bind_eq_bind, Option.bind_eq_some_iff] at last
  obtain ⟨next, merges, isResult⟩ := last
  obtain ⟨c, ends, isNext⟩ := Option.map_eq_some_iff.mp merges
  rw [intersectLoop_of_lt rising _ above over' ends] at isNext
  rw [← Option.some.inj isResult, isNext]

theorem pass_lowestLast (con : cfg.Consistent) (first : FirstJoin order join lowest)
    (perm : predecessors.Perm (order.predecessors join))
    (last : order.predecessors join = lowestLast (number order) join lowest predecessors)
    (records : Records cfg dominators) (covers : Covers cfg dominators) {next : ImmediateDominators × Bool}
    (runs : pass order fuel dominators = some next) : next.1 join = some lowest := by
  obtain ⟨pre, after, split'⟩ := append_of_mem ((mem_reversePostorder order con join).mpr first.reachable)
  have reachable : ∀ id ∈ pre ++ join :: after, cfg.Reachable id := by
    intro id mem
    rw [← split'] at mem
    exact (mem_reversePostorder order con id).mp mem
  have sorted := reversePostorder_pairwise order con
  rw [split', pairwise_append, pairwise_cons] at sorted
  have notAfter : join ∉ after := fun mem => absurd (sorted.2.1.1 join mem) (lt_irrefl _)
  rw [pass, split', foldlM_append] at runs
  simp only [foldlM_cons, Option.bind_eq_bind, Option.bind_eq_some_iff] at runs
  obtain ⟨reached, early, updated, atJoin, late⟩ := runs
  have earlyKeeps := foldlM_update_keeps con pre (fun id mem => reachable id (mem_append_left _ mem))
    (show Records cfg (dominators, false).1 from records) early
  have reachedCovers : Covers cfg reached.1 := fun id isReachable => earlyKeeps.grows id (covers id isReachable)
  have joinKeeps := updateDominator_keeps con earlyKeeps.records first.reachable atJoin
  have lateKeeps := foldlM_update_keeps con after
    (fun id mem => reachable id (mem_append_right _ (.tail _ mem))) joinKeeps.records late
  have isLowest {result : Option BlockId} (found : newIdom order fuel reached.1 join = some result) :
      result = some lowest := by
    rw [newIdom, last] at found
    exact foldlM_merge_lowestLast con first earlyKeeps.records reachedCovers perm found
  rw [lateKeeps.frame join notAfter]
  rcases updateDominator_cases atJoin with ⟨eq, settled⟩ | ⟨-, idom, found, isNext⟩
  · obtain ⟨result, found, already⟩ := settled first.other (first.reachable.cases con first.other).1
    rw [eq]
    exact already lowest (isLowest found)
  · rw [isNext, ← isLowest found]
    exact Function.update_self _ _ _

theorem iterate_lowestLast (con : cfg.Consistent) (first : FirstJoin order join lowest)
    (perm : predecessors.Perm (order.predecessors join))
    (last : order.predecessors join = lowestLast (number order) join lowest predecessors) (remaining : Nat)
    (records : Records cfg dominators) (covers : Covers cfg dominators)
    (started : dominators join = some lowest ∨ 0 < remaining)
    (runs : iterate order fuel remaining dominators = some final) : final join = some lowest := by
  induction remaining generalizing dominators with
  | zero =>
    rw [← Option.some.inj runs]
    exact started.resolve_right (lt_irrefl 0)
  | succ remaining ih =>
    rw [iterate, Option.bind_eq_bind, Option.bind_eq_some_iff] at runs
    obtain ⟨next, passes, rest⟩ := runs
    obtain ⟨hk, nextCovers⟩ := pass_spec con records passes
    have recorded := pass_lowestLast con first perm last records covers passes
    split at rest
    · exact ih hk.records nextCovers (.inl recorded) rest
    · rw [← Option.some.inj rest]
      exact recorded

theorem computeDominators_lowestLast (con : cfg.Consistent) (first : FirstJoin order join lowest)
    (perm : predecessors.Perm (order.predecessors join))
    (last : order.predecessors join = lowestLast (number order) join lowest predecessors)
    (runs : computeDominators order fuel = some final) : final join = some lowest := by
  rw [computeDominators, maxIterations, iterate, Option.bind_eq_bind, Option.bind_eq_some_iff] at runs
  obtain ⟨next, passes, rest⟩ := runs
  obtain ⟨hk, covers⟩ := pass_spec con records_initial passes
  split at rest
  · exact iterate_lowestLast con first perm last _ hk.records covers (.inr (by omega)) rest
  · rename_i unchanged
    have recorded := covers join first.reachable
    rw [hk.unchanged (by simpa using unchanged)] at recorded
    simp [first.other] at recorded

end FirstJoin

/-- The recorded immediate dominators are those of the dominance analysis. -/
def RecordsImmediate (cfg : ControlFlowGraph) (dominators : ImmediateDominators) : Prop :=
  ∀ id, cfg.Reachable id → id ≠ cfg.entry →
    ∀ setOrder, dominators id = (DominanceInfo.compute setOrder cfg).immediateDom id

def IntersectsInCommon (dominators : ImmediateDominators) : Prop :=
  ∀ b1 b2, cfg.Reachable b1 → cfg.Reachable b2 →
    ∃ fuel c, intersect order fuel dominators b1 b2 = some c ∧ cfg.Dominates c b1 ∧ cfg.Dominates c b2

section Agreement

variable {order} {fuel : Nat}

theorem recordsImmediate_of_joinFree (con : cfg.Consistent) (joinFree : JoinFree cfg) (order : EdgeOrder cfg) :
    ∃ dominators, Computes order dominators ∧ RecordsImmediate cfg dominators := by
  obtain ⟨final, runs⟩ := iterate_total order 0 con joinFree (maxIterations cfg)
    records_initial
  obtain ⟨records, covers⟩ := computeDominators_spec con runs
  refine ⟨final, ⟨0, runs⟩, ?_⟩
  intro id reach other setOrder
  obtain ⟨dom, hit⟩ := Option.isSome_iff_exists.mp (covers id reach)
  have single := joinFree id reach other
  obtain ⟨isPred, domReachable⟩ := records.single id dom other single hit
  have immediate := isImmediateDominator_of_single con order reach other single isPred domReachable
  obtain ⟨-, elsewhere⟩ := compute_immediateDom setOrder con reach
  obtain ⟨dom', isDom, immediate'⟩ := elsewhere other
  rw [hit, isDom, immediate.unique reach immediate']

theorem exists_order_not_recordsImmediate (con : cfg.Consistent) (base : EdgeOrder cfg)
    (joins : ¬ JoinFree cfg) :
    ∃ order : EdgeOrder cfg, ∀ dominators, Computes order dominators → ¬ RecordsImmediate cfg dominators := by
  obtain ⟨join, lowest, first⟩ := exists_firstJoin con base joins
  have perm := lowestLast_perm (number base) join ((base.mem_predecessors join lowest).mpr first.isPred)
  let order := withPredecessors base join _ perm
  have nums : number order = number base := rfl
  have last : order.predecessors join = lowestLast (number order) join lowest (base.predecessors join) := by
    rw [nums]
    exact if_pos rfl
  have firstJoin : FirstJoin order join lowest := by
    refine ⟨first.reachable, first.other, ?_, first.isPred, first.lowestReachable, ?_, first.rival⟩
    · rw [nums]
      exact first.earlier
    · rw [nums]
      exact first.least
  have basePerm : (base.predecessors join).Perm (order.predecessors join) := by
    rw [last]
    exact perm.symm
  refine ⟨order, ?_⟩
  rintro dominators ⟨fuel, runs⟩ immediate
  have recorded := computeDominators_lowestLast con firstJoin basePerm last runs
  let setOrder : SetOrder := ⟨Finset.toList, fun _ _ => Finset.mem_toList⟩
  obtain ⟨dom, isDom, ne, dominates, -⟩ :=
    (compute_immediateDom setOrder con first.reachable).2 first.other
  rw [immediate join first.reachable first.other setOrder, isDom, Option.some.injEq] at recorded
  subst recorded
  obtain ⟨rival, isPred, rivalReachable, rivalDiffers⟩ := first.rival
  have inTable := (first.reachable.cases con first.other).1
  have overRival := number_lt_of_dominates base con
    (dominates_predecessor dominates ne (ControlFlowGraph.edge_of_predecessor con inTable isPred))
    (Ne.symm rivalDiffers) rivalReachable
  exact absurd overRival (not_lt.mpr (first.least rival isPred rivalReachable))

theorem only_entry_of_intersectsInCommon (con : cfg.Consistent) {dominators : ImmediateDominators}
    (records : Records cfg dominators) (common : IntersectsInCommon order dominators) {id : BlockId}
    (reach : cfg.Reachable id) : id = cfg.entry := by
  by_contra other
  have lower := number_lt_entry order con reach other
  obtain ⟨fuel, c, ends, -, dominatesEntry⟩ := common id cfg.entry reach ControlFlowGraph.reachable_entry
  have atEntry : c = cfg.entry := mem_singleton.mp (dominatesEntry _ .entry)
  cases fuel with
  | zero =>
    rw [intersect, intersectLoop, if_neg other, if_pos lower] at ends
    simp [climb] at ends
  | succ fuel =>
    rw [intersect, intersectLoop_entry records.entry lower, Option.some.injEq] at ends
    exact other (ends.trans atEntry)

end Agreement

/-- The recorded immediate dominators agree whatever the order exactly when no reachable block is a join, and
`intersect` ends in common dominators exactly when there is no reachable block to climb from. -/
theorem computeDominators_agrees_iff (cfg : ControlFlowGraph) (consistent : cfg.Consistent) :
    ((∀ order : EdgeOrder cfg, ∃ dominators, Computes order dominators ∧ RecordsImmediate cfg dominators) ↔
      ∀ id, cfg.Reachable id → id ≠ cfg.entry → Single cfg id) ∧
    ((∀ order : EdgeOrder cfg, ∃ dominators, Computes order dominators ∧ RecordsImmediate cfg dominators ∧
        IntersectsInCommon order dominators) ↔
      ∀ id, cfg.Reachable id → id = cfg.entry) := by
  have base : EdgeOrder cfg :=
    { successors := fun id => (cfg.block id).successors.toList
      predecessors := fun id => (cfg.block id).predecessors.toList
      mem_successors := fun _ _ => Finset.mem_toList
      mem_predecessors := fun _ _ => Finset.mem_toList
      successors_nodup := fun _ => Finset.nodup_toList _
      predecessors_nodup := fun _ => Finset.nodup_toList _ }
  refine ⟨⟨?_, fun joinFree => recordsImmediate_of_joinFree consistent joinFree⟩, ?_, ?_⟩
  · intro agrees
    by_contra joins
    obtain ⟨order, wrong⟩ := exists_order_not_recordsImmediate consistent base joins
    obtain ⟨dominators, computes, immediate⟩ := agrees order
    exact wrong dominators computes immediate
  · intro agrees id reachable
    obtain ⟨dominators, ⟨fuel, runs⟩, -, common⟩ := agrees base
    exact only_entry_of_intersectsInCommon consistent (computeDominators_spec consistent runs).1 common reachable
  · intro only order
    have joinFree : JoinFree cfg := fun id reachable other => absurd (only id reachable) other
    obtain ⟨dominators, computes, immediate⟩ := recordsImmediate_of_joinFree consistent joinFree order
    refine ⟨dominators, computes, immediate, ?_⟩
    intro b1 b2 reachable1 reachable2
    rw [only b1 reachable1, only b2 reachable2]
    exact ⟨0, cfg.entry, intersect_self _, ControlFlowGraph.dominates_refl _, ControlFlowGraph.dominates_refl _⟩

theorem computeDominators_agrees_iff_diamond :
    ¬ ∀ order : EdgeOrder diamond, ∃ dominators, Computes order dominators ∧ RecordsImmediate diamond dominators := by
  rw [(computeDominators_agrees_iff diamond diamond_consistent).1]
  intro single
  have same := single 3 ⟨_, diamond_path⟩ (by decide) 1 (by decide) 2 (by decide)
    ⟨[1, 0], .step .entry (ControlFlowGraph.edge_iff.mpr ⟨by decide, by decide⟩)⟩
    ⟨[2, 0], .step .entry (ControlFlowGraph.edge_iff.mpr ⟨by decide, by decide⟩)⟩
  exact absurd same (by decide)

/-- The edge sets of the diamond in an order in which block 3 meets its predecessor 2 first. -/
def diamondOrder : EdgeOrder diamond where
  successors id := if id = 0 then [1, 2] else if id = 1 then [3] else if id = 2 then [3] else []
  predecessors id := if id = 0 then [] else if id = 1 then [0] else if id = 2 then [0] else [2, 1]
  mem_successors id target := by
    simp only [diamond]
    split_ifs <;> simp
  mem_predecessors id source := by
    simp only [diamond]
    split_ifs <;> simp [or_comm]
  successors_nodup id := by split_ifs <;> decide
  predecessors_nodup id := by split_ifs <;> decide

theorem diamond_predecessors {pred : BlockId} (isPred : pred ∈ (diamond.block 3).predecessors) :
    pred = 1 ∨ pred = 2 := by
  have all : (diamond.block 3).predecessors = {1, 2} := rfl
  rw [all] at isPred
  simpa using isPred

theorem diamondOrder_numbers :
    number diamondOrder 1 = 1 ∧ number diamondOrder 2 = 2 ∧ number diamondOrder 3 = 0 := by
  decide

theorem diamondOrder_lowestLast : diamondOrder.predecessors 3 =
    lowestLast (number diamondOrder) 3 1 (diamondOrder.predecessors 3) := by
  decide

theorem diamondOrder_firstJoin : FirstJoin diamondOrder 3 1 where
  reachable := ⟨_, diamond_path⟩
  other := by decide
  earlier := by
    intro id above other
    have reachable := reachable_of_number_pos diamond_consistent (zero_lt_of_lt above)
    have inTable := (reachable.cases diamond_consistent other).1
    simp only [diamond, Finset.mem_insert, Finset.mem_singleton] at inTable
    rcases inTable with rfl | rfl | rfl | rfl
    · exact absurd rfl other
    · simp [Single, diamond]
    · simp [Single, diamond]
    · exact absurd above (lt_irrefl _)
  isPred := by decide
  lowestReachable := ⟨[1, 0], .step .entry (ControlFlowGraph.edge_iff.mpr ⟨by decide, by decide⟩)⟩
  least := by
    intro pred isPred _
    rcases diamond_predecessors isPred with rfl | rfl
    · exact le_refl _
    · rw [diamondOrder_numbers.1, diamondOrder_numbers.2.1]
      decide
  rival := ⟨2, by decide, ⟨[2, 0], .step .entry (ControlFlowGraph.edge_iff.mpr ⟨by decide, by decide⟩)⟩, by decide⟩

theorem diamondOrder_not_recordsImmediate :
    diamond.Consistent ∧
      ¬ ∃ dominators, Computes diamondOrder dominators ∧ RecordsImmediate diamond dominators := by
  refine ⟨diamond_consistent, ?_⟩
  rintro ⟨dominators, ⟨fuel, runs⟩, immediate⟩
  have recorded := computeDominators_lowestLast diamond_consistent diamondOrder_firstJoin
    (.refl _) diamondOrder_lowestLast runs
  have wrong := immediate 3 ⟨_, diamond_path⟩ (by decide) ⟨Finset.toList, fun _ _ => Finset.mem_toList⟩
  obtain ⟨dom, isDom, -, dominates, -⟩ := (compute_immediateDom ⟨Finset.toList, fun _ _ => Finset.mem_toList⟩
    diamond_consistent ⟨_, diamond_path⟩).2 (by decide)
  rw [recorded, isDom, Option.some.injEq] at wrong
  rw [← wrong] at dominates
  exact absurd (dominates _ diamond_path) (by decide)

end SsaBuilder

end Cbgr
