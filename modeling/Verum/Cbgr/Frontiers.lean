import Verum.Cbgr.Ssa

namespace Cbgr

open ControlFlowGraph

abbrev Frontiers := BlockId → Finset BlockId

namespace DominanceInfo

/-- One block of the loop; the walk up the dominator tree has the body of the builder's. -/
def markFrontiers (order : SetOrder) (cfg : ControlFlowGraph) (info : DominanceInfo) (frontiers : Frontiers)
    (id : BlockId) : Option Frontiers :=
  if 2 ≤ (cfg.block id).predecessors.card then
    (order.list (cfg.block id).predecessors).foldlM
      (fun frontiers pred => SsaBuilder.runFrontier info.immediateDom id (cfg.keys.card + 1) pred frontiers) frontiers
  else some frontiers

def computeDominanceFrontiers (order : SetOrder) (cfg : ControlFlowGraph) : Option Frontiers :=
  (order.list cfg.keys).foldlM (markFrontiers order cfg (compute order cfg)) fun _ => ∅

/-- A block that gets into the result is pushed behind the work list. -/
def pushFrontier (state : List BlockId × Finset BlockId) (dfBlock : BlockId) : List BlockId × Finset BlockId :=
  if dfBlock ∈ state.2 then state else (state.1 ++ [dfBlock], insert dfBlock state.2)

def iterateFrontiers (order : SetOrder) (frontiers : Frontiers) :
    Nat → Finset BlockId → List BlockId × Finset BlockId → Option (Finset BlockId)
  | 0, _, _ => none
  | _ + 1, _, ([], result) => some result
  | fuel + 1, processed, (id :: rest, result) =>
    if id ∈ processed then iterateFrontiers order frontiers fuel processed (rest, result)
    else iterateFrontiers order frontiers fuel (insert id processed)
      ((order.list (frontiers id)).foldl pushFrontier (rest, result))

def iteratedDominanceFrontier (order : SetOrder) (cfg : ControlFlowGraph) (frontiers : Frontiers)
    (blocks : Finset BlockId) : Option (Finset BlockId) :=
  iterateFrontiers order frontiers ((order.list blocks).length + cfg.keys.card + 1) ∅ (order.list blocks, ∅)

end DominanceInfo

/-- The later frontiers have the pairs in `marks` beside those of the earlier. -/
def Marks (before after : Frontiers) (marks : BlockId → BlockId → Prop) : Prop :=
  ∀ x y, y ∈ after x ↔ y ∈ before x ∨ marks x y

theorem Marks.foldlM {step : Frontiers → BlockId → Option Frontiers} {marks : BlockId → BlockId → BlockId → Prop}
    (list : List BlockId)
    (one : ∀ id ∈ list, ∀ pre, ∃ after, step pre id = some after ∧ Marks pre after (marks id))
    (pre : Frontiers) :
    ∃ after, list.foldlM step pre = some after ∧ Marks pre after fun x y => ∃ id ∈ list, marks id x y := by
  induction list generalizing pre with
  | nil => exact ⟨pre, rfl, fun x y => by simp⟩
  | cons id list ih =>
    obtain ⟨middle, stepped, first⟩ := one id (.head _) pre
    obtain ⟨after, folded, others⟩ := ih (fun id mem => one id (.tail _ mem)) middle
    refine ⟨after, by rw [List.foldlM_cons, stepped]; exact folded, fun x y => ?_⟩
    rw [others x y, first x y, or_assoc]
    exact or_congr_right (by simp)

section exactness

open scoped Classical

variable {cfg : ControlFlowGraph} {order : SetOrder} {id dom pred : BlockId}

theorem IsImmediateDominator.dominates_iff (immediate : IsImmediateDominator cfg dom id) (x : BlockId) :
    cfg.Dominates x id ↔ x = id ∨ cfg.Dominates x dom := by
  constructor
  · exact fun dominates => or_iff_not_imp_left.mpr fun other => immediate.2.2 x other dominates
  · rintro (rfl | above)
    · exact dominates_refl _
    · exact above.trans immediate.2.1

theorem IsImmediateDominator.not_dominates (immediate : IsImmediateDominator cfg dom id) (reach : cfg.Reachable id) :
    ¬ cfg.Dominates id dom := fun back =>
  immediate.1 (immediate.2.1.antisymm back reach)

/-- A dominator tree walk loses a dominator at each step. -/
theorem card_dominators_lt (immediate : IsImmediateDominator cfg dom id) (reach : cfg.Reachable id)
    (present : id ∈ cfg.keys) :
    (cfg.keys.filter (cfg.Dominates · dom)).card < (cfg.keys.filter (cfg.Dominates · id)).card := by
  refine Finset.card_lt_card (Finset.ssubset_iff_subset_ne.mpr ⟨fun x mem => ?_, fun eq => ?_⟩)
  · rw [Finset.mem_filter] at mem ⊢
    exact ⟨mem.1, (immediate.dominates_iff x).mpr (.inr mem.2)⟩
  · have self : id ∈ cfg.keys.filter (cfg.Dominates · dom) := by
      rw [eq]
      exact Finset.mem_filter.mpr ⟨present, dominates_refl id⟩
    exact immediate.not_dominates reach (Finset.mem_filter.mp self).2

/-- The walk from `runner` marks its dominators below the immediate dominator of the block. -/
theorem runFrontier_marks (con : cfg.Consistent) (isDom : (DominanceInfo.compute order cfg).immediateDom id = some dom)
    {fuel : Nat} {runner : BlockId} (reach : cfg.Reachable runner) (present : runner ∈ cfg.keys)
    (under : cfg.Dominates dom runner) (he : (cfg.keys.filter (cfg.Dominates · runner)).card < fuel)
    (pre : Frontiers) :
    ∃ after, SsaBuilder.runFrontier (DominanceInfo.compute order cfg).immediateDom id fuel runner pre = some after ∧
      Marks pre after fun x y => y = id ∧ cfg.Dominates x runner ∧ ¬ cfg.Dominates x dom := by
  induction fuel generalizing runner pre with
  | zero => exact absurd he (Nat.not_lt_zero _)
  | succ fuel ih =>
    rw [SsaBuilder.runFrontier, isDom]
    dsimp only
    by_cases top : runner = dom
    · rw [if_pos top, top]
      exact ⟨pre, rfl, fun x y => by simp⟩
    rw [if_neg top]
    have inner : runner ≠ cfg.entry := by
      rintro rfl
      exact top (List.mem_singleton.mp (under _ .entry)).symm
    obtain ⟨next, isNext, immediate⟩ := (compute_immediateDom order con reach).2 inner
    have above := immediate.2.1.reachable reach
    have onward := immediate.2.2 dom (Ne.symm top) under
    have fewer := card_dominators_lt immediate reach present
    obtain ⟨after, walked, marks⟩ := ih above (reachable_mem_keys con above (entry_mem_keys reach inner)) onward
      (by omega) (Function.update pre runner (insert id (pre runner)))
    rw [isNext]
    dsimp only
    rw [if_neg immediate.1]
    refine ⟨after, walked, fun x y => ?_⟩
    have ne : ¬ cfg.Dominates runner dom := fun back => top (back.antisymm under (under.reachable reach))
    rw [marks x y]
    dsimp only
    rw [immediate.dominates_iff x]
    by_cases eq : x = runner
    · subst eq
      simp only [Function.update_self, Finset.mem_insert, true_or, ne, not_false_iff, and_true]
      tauto
    · rw [Function.update_of_ne eq, or_iff_right eq]

/-- `y` is in the frontier of `x`, by definition. -/
def InFrontier (cfg : ControlFlowGraph) (x y : BlockId) : Prop :=
  (∃ pred ∈ (cfg.block y).predecessors, cfg.Dominates x pred) ∧ ¬ (cfg.Dominates x y ∧ x ≠ y)

theorem IsImmediateDominator.dominates_predecessor (con : cfg.Consistent) (immediate : IsImmediateDominator cfg dom id)
    (present : id ∈ cfg.keys) (isPred : pred ∈ (cfg.block id).predecessors) : cfg.Dominates dom pred := by
  intro path isPath
  have onPath := immediate.2.1 _ (isPath.step (edge_of_predecessor con present isPred))
  exact (List.mem_cons.mp onPath).resolve_left immediate.1

/-- Below its immediate dominator nothing dominates a block strictly. -/
theorem inFrontier_iff (reach : ∀ id ∈ cfg.keys, cfg.Reachable id) (present : id ∈ cfg.keys)
    (immediate : IsImmediateDominator cfg dom id) (x : BlockId) :
    InFrontier cfg x id ↔
      ∃ pred ∈ (cfg.block id).predecessors, cfg.Dominates x pred ∧ ¬ cfg.Dominates x dom := by
  have strict : (cfg.Dominates x id ∧ x ≠ id) ↔ cfg.Dominates x dom := by
    rw [immediate.dominates_iff x]
    refine ⟨fun ⟨either, other⟩ => either.resolve_left other, fun above => ⟨.inr above, ?_⟩⟩
    rintro rfl
    exact immediate.not_dominates (reach _ present) above
  rw [InFrontier, strict]
  exact ⟨fun ⟨⟨pred, isPred, above⟩, free⟩ => ⟨pred, isPred, above, free⟩,
    fun ⟨pred, isPred, above, free⟩ => ⟨⟨pred, isPred, above⟩, free⟩⟩

/-- With one predecessor the immediate dominator is that predecessor. -/
theorem one_predecessor (con : cfg.Consistent) (reach : ∀ id ∈ cfg.keys, cfg.Reachable id) (present : id ∈ cfg.keys)
    (immediate : IsImmediateDominator cfg dom id) (few : ¬ 2 ≤ (cfg.block id).predecessors.card) (x : BlockId) :
    ¬ InFrontier cfg x id := by
  rw [inFrontier_iff reach present immediate]
  rintro ⟨pred, isPred, above, free⟩
  have inner : id ≠ cfg.entry := by
    rintro rfl
    exact immediate.1 (List.mem_singleton.mp (immediate.2.1 _ .entry))
  have only : ∀ source, cfg.Edge source id → source = pred := by
    intro source edge
    have known := (edge_iff.mp edge).1
    exact Finset.card_le_one.mp (by omega) _ ((con.agree _ known _ present).mp (edge_iff.mp edge).2) _ isPred
  have apart : pred ≠ id := by
    rintro rfl
    have never : ∀ tgt path, cfg.Path tgt path → tgt ≠ pred := by
      intro tgt path isPath
      induction isPath with
      | entry => exact inner.symm
      | step _ edge ih =>
        rintro rfl
        exact ih (only _ edge)
    obtain ⟨path, isPath⟩ := reach _ present
    exact never _ _ isPath rfl
  have before : cfg.Dominates pred id := by
    intro path isPath
    cases isPath with
    | entry => exact absurd rfl inner
    | step before edge =>
      rw [only _ edge] at before
      exact .tail _ before.mem
  exact free (above.trans (immediate.2.2 pred apart before))

theorem markFrontiers_marks (con : cfg.Consistent) (reach : ∀ id ∈ cfg.keys, cfg.Reachable id)
    (present : id ∈ cfg.keys) (pre : Frontiers) :
    ∃ after, DominanceInfo.markFrontiers order cfg (DominanceInfo.compute order cfg) pre id = some after ∧
      Marks pre after fun x y => y = id ∧ id ≠ cfg.entry ∧ InFrontier cfg x id := by
  obtain ⟨atEntry, elsewhere⟩ := compute_immediateDom order con (reach id present)
  unfold DominanceInfo.markFrontiers
  by_cases top : id = cfg.entry
  · have nothing : ∀ pred ∈ order.list (cfg.block id).predecessors, ∀ pre, ∃ after,
        SsaBuilder.runFrontier (DominanceInfo.compute order cfg).immediateDom id (cfg.keys.card + 1) pred pre =
          some after ∧ Marks pre after fun _ _ => False := by
      intro pred _ pre
      rw [SsaBuilder.runFrontier, atEntry top]
      exact ⟨pre, rfl, fun x y => by rw [or_false]⟩
    split_ifs
    · obtain ⟨after, walked, marks⟩ := Marks.foldlM _ nothing pre
      refine ⟨after, walked, fun x y => ?_⟩
      rw [marks x y]
      simp [top]
    · exact ⟨pre, rfl, fun x y => by simp [top]⟩
  · obtain ⟨dom, isDom, immediate⟩ := elsewhere top
    split_ifs with join
    · obtain ⟨after, walked, marks⟩ := Marks.foldlM (order.list (cfg.block id).predecessors) (fun pred mem pre => by
        have isPred := (order.mem_list _ _).mp mem
        have known := con.predecessors_subset id present isPred
        exact runFrontier_marks con isDom (reach pred known) known
          (immediate.dominates_predecessor con present isPred) (Nat.lt_succ_of_le (Finset.card_filter_le _ _)) pre)
        pre
      refine ⟨after, walked, fun x y => ?_⟩
      rw [marks x y]
      simp only [inFrontier_iff reach present immediate, order.mem_list]
      exact or_congr_right ⟨fun ⟨pred, isPred, eq, rest⟩ => ⟨eq, top, pred, isPred, rest⟩,
        fun ⟨eq, _, pred, isPred, rest⟩ => ⟨pred, isPred, eq, rest⟩⟩
    · exact ⟨pre, rfl, fun x y => by simp [one_predecessor con reach present immediate join]⟩

theorem computeDominanceFrontiers_exact (order : SetOrder) (con : cfg.Consistent)
    (reach : ∀ id ∈ cfg.keys, cfg.Reachable id) :
    ∃ frontiers, DominanceInfo.computeDominanceFrontiers order cfg = some frontiers ∧
      ∀ x y, y ∈ frontiers x ↔ y ∈ cfg.keys ∧ y ≠ cfg.entry ∧ InFrontier cfg x y := by
  obtain ⟨frontiers, computed, marks⟩ := Marks.foldlM (order.list cfg.keys)
    (fun id mem => markFrontiers_marks con reach ((order.mem_list _ _).mp mem)) fun _ => ∅
  refine ⟨frontiers, computed, fun x y => ?_⟩
  rw [marks x y, or_iff_right (Finset.notMem_empty y)]
  simp only [order.mem_list]
  constructor
  · rintro ⟨id, known, rfl, inner, hin⟩
    exact ⟨known, inner, hin⟩
  · exact fun ⟨known, inner, hin⟩ => ⟨y, known, rfl, inner, hin⟩

end exactness

section iterated

variable {order : SetOrder} {frontiers : Frontiers} {keys blocks processed : Finset BlockId}

/-- The frontiers of the blocks and of the set itself are in the set. -/
def FrontierClosed (frontiers : Frontiers) (blocks set : Finset BlockId) : Prop :=
  ∀ x ∈ blocks ∪ set, frontiers x ⊆ set

theorem foldl_pushFrontier (list : List BlockId) (hin : ∀ x ∈ list, x ∈ keys) (state : List BlockId × Finset BlockId) :
    (∀ x, x ∈ (list.foldl DominanceInfo.pushFrontier state).2 ↔ x ∈ state.2 ∨ x ∈ list) ∧
    (∀ x, x ∈ (list.foldl DominanceInfo.pushFrontier state).1 ↔ x ∈ state.1 ∨ x ∈ list ∧ x ∉ state.2) ∧
    (list.foldl DominanceInfo.pushFrontier state).1.length +
        (keys \ (list.foldl DominanceInfo.pushFrontier state).2).card =
      state.1.length + (keys \ state.2).card := by
  induction list generalizing state with
  | nil => simp
  | cons id list ih =>
    obtain ⟨known, others⟩ := List.forall_mem_cons.mp hin
    obtain ⟨results, works, size⟩ := ih others (DominanceInfo.pushFrontier state id)
    rw [List.foldl_cons]
    by_cases old : id ∈ state.2
    · rw [DominanceInfo.pushFrontier, if_pos old] at results works size ⊢
      refine ⟨fun x => ?_, fun x => ?_, size⟩
      · grind
      · grind
    · rw [DominanceInfo.pushFrontier, if_neg old] at results works size ⊢
      refine ⟨fun x => ?_, fun x => ?_, size.trans ?_⟩
      · grind
      · grind
      · have hf : id ∈ keys \ state.2 := Finset.mem_sdiff.mpr ⟨known, old⟩
        have some := Finset.card_pos.mpr ⟨id, hf⟩
        rw [List.length_append, List.length_singleton, Finset.sdiff_insert, Finset.card_erase_of_mem hf]
        omega

/-- Until the work list is empty the result only has what every closed set has, and its blocks wait for their turn. -/
theorem iterateFrontiers_least (hin : ∀ x, frontiers x ⊆ keys) {fuel : Nat} {state : List BlockId × Finset BlockId}
    (he : state.1.length + (keys \ state.2).card < fuel)
    (waits : ∀ x ∈ blocks ∪ state.2, x ∈ processed ∨ x ∈ state.1) (entered : ∀ x ∈ processed, frontiers x ⊆ state.2)
    (known : ∀ x ∈ state.1, x ∈ blocks ∪ state.2)
    (least : ∀ set, FrontierClosed frontiers blocks set → state.2 ⊆ set) :
    ∃ result, DominanceInfo.iterateFrontiers order frontiers fuel processed state = some result ∧
      FrontierClosed frontiers blocks result ∧ ∀ set, FrontierClosed frontiers blocks set → result ⊆ set := by
  induction fuel generalizing processed state with
  | zero => exact absurd he (Nat.not_lt_zero _)
  | succ fuel ih =>
    obtain ⟨work, result⟩ := state
    cases work with
    | nil =>
      exact ⟨result, rfl, fun x mem => entered x ((waits x mem).resolve_right List.not_mem_nil), least⟩
    | cons id rest =>
      rw [DominanceInfo.iterateFrontiers]
      dsimp only at he waits entered known least
      rw [List.length_cons] at he
      by_cases old : id ∈ processed
      · rw [if_pos old]
        exact ih (Nat.lt_of_succ_lt_succ (by simpa [Nat.add_right_comm] using he)) (by grind) entered (by grind) least
      · rw [if_neg old]
        obtain ⟨results, works, size⟩ := foldl_pushFrontier (order.list (frontiers id))
          (fun x mem => hin id ((order.mem_list _ _).mp mem)) (rest, result)
        simp only [order.mem_list] at results works
        dsimp only at size
        refine ih (by omega) (by grind) ?_ (by grind) ?_
        · intro x mem y marked
          rw [results]
          rcases Finset.mem_insert.mp mem with rfl | pre
          · exact .inr marked
          · exact .inl (entered x pre marked)
        · intro set hc y mem
          rcases (results y).mp mem with pre | marked
          · exact least set hc pre
          · have own := known id (.head _)
            refine hc id ?_ marked
            rw [Finset.mem_union] at own ⊢
            exact own.imp_right fun pre => least set hc pre

end iterated

/-- A loop of two blocks, its header the entry. -/
def backEdge : ControlFlowGraph where
  keys := {0, 1}
  block id := if id = 0 then ⟨{1}, {1}⟩ else ⟨{0}, {0}⟩
  entry := 0

theorem backEdge_consistent : backEdge.Consistent :=
  ⟨by simp [backEdge], by simp [backEdge], by simp [backEdge]⟩

theorem backEdge_reachable : ∀ id ∈ backEdge.keys, backEdge.Reachable id := by
  have edge : backEdge.Edge 0 1 := edge_iff.mpr ⟨by decide, by decide⟩
  simp only [backEdge, Finset.mem_insert, Finset.mem_singleton, forall_eq_or_imp, forall_eq]
  exact ⟨⟨_, .entry⟩, ⟨_, .step .entry edge⟩⟩

/-- The entry dominates its predecessor and nothing strictly, yet it is not in its own frontier. -/
theorem backEdge_entry_missing :
    ∃ (order : SetOrder) (frontiers : Frontiers),
      DominanceInfo.computeDominanceFrontiers order backEdge = some frontiers ∧ InFrontier backEdge 0 0 ∧
        0 ∉ frontiers 0 := by
  obtain ⟨frontiers, computed, marks⟩ := computeDominanceFrontiers_exact ⟨Finset.toList, fun _ _ => Finset.mem_toList⟩
    backEdge_consistent backEdge_reachable
  refine ⟨_, frontiers, computed, ⟨⟨1, by decide, fun path isPath => isPath.entry_mem⟩, fun strict => strict.2 rfl⟩, ?_⟩
  exact fun mem => ((marks 0 0).mp mem).2.1 rfl

/-- The frontiers match their definition if and only if no edge leads back to the entry; the iterated frontier is the
    least closed set in either case. -/
theorem frontiers_exact_iff (order : SetOrder) (cfg : ControlFlowGraph) (con : cfg.Consistent)
    (reach : ∀ id ∈ cfg.keys, cfg.Reachable id) :
    ∃ frontiers, DominanceInfo.computeDominanceFrontiers order cfg = some frontiers ∧
      ((∀ x y, y ∈ frontiers x ↔ y ∈ cfg.keys ∧ InFrontier cfg x y) ↔
        (cfg.entry ∈ cfg.keys → (cfg.block cfg.entry).predecessors = ∅)) ∧
      ∀ blocks, ∃ result, DominanceInfo.iteratedDominanceFrontier order cfg frontiers blocks = some result ∧
        FrontierClosed frontiers blocks result ∧ ∀ set, FrontierClosed frontiers blocks set → result ⊆ set := by
  obtain ⟨frontiers, computed, marks⟩ := computeDominanceFrontiers_exact order con reach
  refine ⟨frontiers, computed, ?_, fun blocks => ?_⟩
  · constructor
    · intro exact known
      by_contra some
      obtain ⟨pred, isPred⟩ := Finset.nonempty_iff_ne_empty.mpr some
      have inside : InFrontier cfg cfg.entry cfg.entry :=
        ⟨⟨pred, isPred, fun path isPath => isPath.entry_mem⟩, fun strict => strict.2 rfl⟩
      exact ((marks _ _).mp ((exact _ _).mpr ⟨known, inside⟩)).2.1 rfl
    · intro free x y
      rw [marks x y]
      refine and_congr_right fun known => and_iff_right_of_imp fun inside => ?_
      rintro rfl
      obtain ⟨pred, isPred, -⟩ := inside.1
      rw [free known] at isPred
      exact Finset.notMem_empty _ isPred
  · have inside : ∀ x, frontiers x ⊆ cfg.keys := fun x y mem => ((marks x y).mp mem).1
    refine iterateFrontiers_least inside ?_ ?_ nofun ?_ ?_
    · rw [Finset.sdiff_empty]
      exact Nat.lt_succ_self _
    · simp [order.mem_list]
    · simp [order.mem_list]
    · exact fun set _ => Finset.empty_subset set

theorem frontiers_exact_backEdge :
    ∃ (order : SetOrder) (frontiers : Frontiers),
      DominanceInfo.computeDominanceFrontiers order backEdge = some frontiers ∧
        ¬ ∀ x y, y ∈ frontiers x ↔ y ∈ backEdge.keys ∧ InFrontier backEdge x y := by
  obtain ⟨frontiers, computed, exact, -⟩ := frontiers_exact_iff ⟨Finset.toList, fun _ _ => Finset.mem_toList⟩
    backEdge backEdge_consistent backEdge_reachable
  exact ⟨_, frontiers, computed, fun all => absurd (exact.mp all (by decide)) (by decide)⟩

end Cbgr
