import Verum.Cbgr.Dominance
import Mathlib.Algebra.Group.Action.Defs
import Mathlib.Algebra.Order.BigOperators.Group.Finset

open List

namespace Cbgr

namespace ControlFlowGraph

variable (cfg : ControlFlowGraph)

def Edge (source target : BlockId) : Prop := ∃ block, cfg.get source = some block ∧ target ∈ block.successors

/-- A path from the entry to a block, last block first. -/
inductive Path : BlockId → List BlockId → Prop
  | entry : Path cfg.entry [cfg.entry]
  | step {source target : BlockId} {path : List BlockId} :
    Path source path → cfg.Edge source target → Path target (target :: path)

def Reachable (id : BlockId) : Prop := ∃ path, cfg.Path id path

/-- Every path from the entry to `b` passes through `a`. -/
def Dominates (a b : BlockId) : Prop := ∀ path, cfg.Path b path → a ∈ path

variable {cfg}
variable {source target id a b : BlockId} {path : List BlockId}

theorem edge_iff : cfg.Edge source target ↔ source ∈ cfg.keys ∧ target ∈ (cfg.block source).successors := by
  unfold Edge get
  split
  · rename_i has
    simp [has]
  · rename_i ha
    simp [ha]

theorem Path.mem (is_path : cfg.Path id path) : id ∈ path := by
  cases is_path <;> simp

theorem Path.entry_mem (is_path : cfg.Path id path) : cfg.entry ∈ path := by
  induction is_path with
  | entry => simp
  | step _ _ ih => exact .tail _ ih

theorem Path.reachable {other : BlockId} (is_path : cfg.Path id path) (on : other ∈ path) :
    cfg.Reachable other := by
  induction is_path with
  | entry =>
    rw [mem_singleton.mp on]
    exact ⟨_, .entry⟩
  | step pre edge ih =>
    rcases mem_cons.mp on with rfl | earlier
    · exact ⟨_, .step pre edge⟩
    · exact ih earlier

theorem reachable_entry : cfg.Reachable cfg.entry := ⟨_, .entry⟩

theorem Reachable.step (reach : cfg.Reachable source) (edge : cfg.Edge source target) :
    cfg.Reachable target := by
  obtain ⟨path, is_path⟩ := reach
  exact ⟨_, .step is_path edge⟩

theorem Reachable.cases (con : cfg.Consistent) (reach : cfg.Reachable id) (other : id ≠ cfg.entry) :
    id ∈ cfg.keys ∧ ∃ pred ∈ (cfg.block id).predecessors, cfg.Reachable pred ∧ cfg.Edge pred id := by
  obtain ⟨path, is_path⟩ := reach
  cases is_path with
  | entry => exact absurd rfl other
  | step pre edge =>
    have parts := edge_iff.mp edge
    have inTable := con.successors_subset _ parts.1 parts.2
    exact ⟨inTable, _, (con.agree _ parts.1 _ inTable).mp parts.2, ⟨_, pre⟩, edge⟩

theorem edge_of_predecessor (con : cfg.Consistent) {pred : BlockId} (has : id ∈ cfg.keys)
    (isPred : pred ∈ (cfg.block id).predecessors) : cfg.Edge pred id := by
  have inTable := con.predecessors_subset id has isPred
  exact edge_iff.mpr ⟨inTable, (con.agree pred inTable id has).mpr isPred⟩

theorem dominates_refl (id : BlockId) : cfg.Dominates id id := fun _ is_path => is_path.mem

theorem Dominates.trans {c : BlockId} (fst : cfg.Dominates a b) (snd : cfg.Dominates b c) :
    cfg.Dominates a c := by
  intro path is_path
  have onPath := snd path is_path
  clear snd
  induction is_path with
  | entry =>
    rw [mem_singleton.mp onPath] at fst
    exact fst _ .entry
  | step pre edge ih =>
    rcases mem_cons.mp onPath with rfl | earlier
    · exact fst _ (.step pre edge)
    · exact .tail _ (ih earlier)

theorem Dominates.reachable (dominates : cfg.Dominates a b) (reach : cfg.Reachable b) : cfg.Reachable a := by
  obtain ⟨path, is_path⟩ := reach
  exact is_path.reachable (dominates path is_path)

theorem Dominates.antisymm (forth : cfg.Dominates a b) (back : cfg.Dominates b a) (reach : cfg.Reachable b) :
    a = b := by
  by_contra ne
  have avoided {id : BlockId} {path : List BlockId} (is_path : cfg.Path id path) : a ∉ path ∧ b ∉ path := by
    induction is_path with
    | entry =>
      simp only [mem_singleton]
      constructor
      · rintro rfl
        exact ne (mem_singleton.mp (back _ .entry)).symm
      · rintro rfl
        exact ne (mem_singleton.mp (forth _ .entry))
    | @step source target path pre edge ih =>
      simp only [mem_cons, not_or]
      refine ⟨⟨?_, ih.1⟩, ⟨?_, ih.2⟩⟩
      · rintro rfl
        rcases mem_cons.mp (back _ (.step pre edge)) with same | earlier
        · exact ne same.symm
        · exact ih.2 earlier
      · rintro rfl
        rcases mem_cons.mp (forth _ (.step pre edge)) with same | earlier
        · exact ne same
        · exact ih.1 earlier
  obtain ⟨path, is_path⟩ := reach
  exact (avoided is_path).2 is_path.mem

theorem Dominates.total {c : BlockId} (fst : cfg.Dominates a c) (snd : cfg.Dominates b c)
    (reach : cfg.Reachable c) : cfg.Dominates a b ∨ cfg.Dominates b a := by
  by_contra neither
  rw [not_or] at neither
  obtain ⟨avoidA, avoidB⟩ := neither
  simp only [Dominates, not_forall] at avoidA avoidB
  obtain ⟨pathB, toB, withoutA⟩ := avoidA
  obtain ⟨pathA, toA, withoutB⟩ := avoidB
  have detour {id : BlockId} {path : List BlockId} (is_path : cfg.Path id path) (meets : a ∈ path ∨ b ∈ path) :
      (∃ other, cfg.Path id other ∧ a ∉ other) ∨ ∃ other, cfg.Path id other ∧ b ∉ other := by
    induction is_path with
    | entry =>
      simp only [mem_singleton] at meets
      rcases meets with rfl | rfl
      · exact absurd toB.entry_mem withoutA
      · exact absurd toA.entry_mem withoutB
    | @step source target path pre edge ih =>
      by_cases atA : target = a
      · rw [atA]
        exact .inr ⟨pathA, toA, withoutB⟩
      by_cases atB : target = b
      · rw [atB]
        exact .inl ⟨pathB, toB, withoutA⟩
      have earlier : a ∈ path ∨ b ∈ path := by
        rcases meets with meets | meets
        · exact .inl ((mem_cons.mp meets).resolve_left (Ne.symm atA))
        · exact .inr ((mem_cons.mp meets).resolve_left (Ne.symm atB))
      rcases ih earlier with ⟨other, is_other, without⟩ | ⟨other, is_other, without⟩
      · exact .inl ⟨_, .step is_other edge, by simp [Ne.symm atA, without]⟩
      · exact .inr ⟨_, .step is_other edge, by simp [Ne.symm atB, without]⟩
  obtain ⟨path, is_path⟩ := reach
  rcases detour is_path (.inl (fst path is_path)) with ⟨other, is_other, without⟩ | ⟨other, is_other, without⟩
  · exact without (fst other is_other)
  · exact without (snd other is_other)

end ControlFlowGraph

section Traversal

variable {order : SetOrder} {cfg : ControlFlowGraph}

/-- What a visit adds is closed under the edges and reachable from where it started. -/
structure Explores (cfg : ControlFlowGraph) (before after : Traversal) : Prop where
  grows : before.visited ⊆ after.visited
  closed : ∀ id ∈ after.visited, id ∉ before.visited → ∀ target, cfg.Edge id target → target ∈ after.visited
  listed : ∀ id, id ∈ after.result ↔ id ∈ before.result ∨ id ∈ after.visited ∧ id ∉ before.visited
  reached : (∀ id ∈ before.visited, cfg.Reachable id) → ∀ id ∈ after.visited, cfg.Reachable id

theorem Explores.refl (traversal : Traversal) : Explores cfg traversal traversal where
  grows := Finset.Subset.refl _
  closed _ has absent := absurd has absent
  listed id := by simp
  reached all := all

theorem Explores.trans {fst snd third : Traversal} (earlier : Explores cfg fst snd)
    (hl : Explores cfg snd third) : Explores cfg fst third where
  grows := earlier.grows.trans hl.grows
  closed id has absent target edge := by
    by_cases between : id ∈ snd.visited
    · exact hl.grows (earlier.closed id between absent target edge)
    · exact hl.closed id has between target edge
  listed id := by
    rw [hl.listed, earlier.listed]
    have firstGrows := @earlier.grows id
    have secondGrows := @hl.grows id
    tauto
  reached all := hl.reached (earlier.reached all)

variable {space : Finset BlockId}

theorem explores_foldl {visit : BlockId → Traversal → Traversal} {fuel : Nat}
    (visits : ∀ id ∈ space, ∀ traversal, traversal.visited ⊆ space → cfg.Reachable id →
      (space \ traversal.visited).card < fuel →
      Explores cfg traversal (visit id traversal) ∧ (visit id traversal).visited ⊆ space ∧
        id ∈ (visit id traversal).visited) (targets : List BlockId)
    (inSpace : ∀ id ∈ targets, id ∈ space ∧ cfg.Reachable id) (traversal : Traversal)
    (hin : traversal.visited ⊆ space) (he : (space \ traversal.visited).card < fuel) :
    Explores cfg traversal (targets.foldl (fun traversal id => visit id traversal) traversal) ∧
      (targets.foldl (fun traversal id => visit id traversal) traversal).visited ⊆ space ∧
      ∀ id ∈ targets, id ∈ (targets.foldl (fun traversal id => visit id traversal) traversal).visited := by
  induction targets generalizing traversal with
  | nil => exact ⟨.refl _, hin, by simp⟩
  | cons head targets ih =>
    have atHead := inSpace head (by simp)
    obtain ⟨explores, subset, has⟩ := visits head atHead.1 traversal hin atHead.2 he
    have smaller : (space \ (visit head traversal).visited).card < fuel :=
      (Finset.card_le_card (Finset.sdiff_subset_sdiff (Finset.Subset.refl _) explores.grows)).trans_lt he
    obtain ⟨rest, restSubset, restPresent⟩ :=
      ih (fun id mem => inSpace id (.tail _ mem)) _ subset smaller
    refine ⟨explores.trans rest, restSubset, ?_⟩
    intro id mem
    rcases mem_cons.mp mem with rfl | hl
    · exact rest.grows has
    · exact restPresent id hl

theorem explores_enter (id : BlockId) (traversal : Traversal) (explored : Traversal)
    (fresh : id ∉ traversal.visited) (reachable : cfg.Reachable id)
    (explores : Explores cfg { traversal with visited := insert id traversal.visited } explored)
    (targets : ∀ target, cfg.Edge id target → target ∈ explored.visited) :
    Explores cfg traversal { explored with result := explored.result ++ [id] } where
  grows := (Finset.subset_insert _ _).trans explores.grows
  closed other has absent target edge := by
    by_cases same : other = id
    · rw [same] at edge
      exact targets target edge
    · exact explores.closed other has (by simp [same, absent]) target edge
  listed other := by
    have self := explores.grows (Finset.mem_insert_self id traversal.visited)
    simp only [mem_append, mem_singleton, explores.listed, Finset.mem_insert, not_or]
    by_cases same : other = id
    · simp [same, fresh, self]
    · simp [same]
  reached all := by
    apply explores.reached
    intro other has
    rcases Finset.mem_insert.mp has with rfl | old
    · exact reachable
    · exact all other old

theorem rpoVisit_explores (order : SetOrder)
    (hc : ∀ id ∈ space, ∀ target, cfg.Edge id target → target ∈ space) (fuel : Nat) :
    ∀ id ∈ space, ∀ traversal, traversal.visited ⊆ space → cfg.Reachable id →
      (space \ traversal.visited).card < fuel →
      Explores cfg traversal (rpoVisit order cfg fuel id traversal) ∧
        (rpoVisit order cfg fuel id traversal).visited ⊆ space ∧
        id ∈ (rpoVisit order cfg fuel id traversal).visited := by
  induction fuel with
  | zero =>
    intro id inSpace traversal hin reachable he
    exact absurd he (Nat.not_lt_zero _)
  | succ fuel ih =>
    intro id inSpace traversal hin reachable he
    rw [rpoVisit]
    split
    · rename_i seen
      exact ⟨.refl _, hin, seen⟩
    · rename_i hf
      have enteredInside : insert id traversal.visited ⊆ space := Finset.insert_subset inSpace hin
      cases found : cfg.get id with
      | none =>
        have noTarget : ∀ target, cfg.Edge id target → target ∈ insert id traversal.visited := by
          rintro target ⟨block, has, _⟩
          rw [found] at has
          simp at has
        exact ⟨explores_enter id traversal _ hf reachable (.refl _) noTarget, enteredInside,
          Finset.mem_insert_self _ _⟩
      | some block =>
        have targetEdge : ∀ target ∈ order.list block.successors, cfg.Edge id target := fun target mem =>
          ⟨block, found, (order.mem_list _ _).mp mem⟩
        have fewer : (space \ insert id traversal.visited).card < fuel := by
          have strict : (space \ insert id traversal.visited).card < (space \ traversal.visited).card := by
            apply Finset.card_lt_card
            refine ⟨Finset.sdiff_subset_sdiff (Finset.Subset.refl _) (Finset.subset_insert _ _), ?_⟩
            intro back
            have mem := back (Finset.mem_sdiff.mpr ⟨inSpace, hf⟩)
            exact (Finset.mem_sdiff.mp mem).2 (Finset.mem_insert_self _ _)
          omega
        obtain ⟨explores, subset, has⟩ := explores_foldl ih (order.list block.successors)
          (fun target mem => ⟨hc id inSpace target (targetEdge target mem), reachable.step (targetEdge target mem)⟩)
          { traversal with visited := insert id traversal.visited } enteredInside fewer
        refine ⟨explores_enter id traversal _ hf reachable explores ?_, subset, ?_⟩
        · rintro target ⟨other, isOther, mem⟩
          rw [found, Option.some.injEq] at isOther
          rw [← isOther] at mem
          exact has target ((order.mem_list _ _).mpr mem)
        · exact explores.grows (Finset.mem_insert_self _ _)

theorem mem_computeReversePostorder (con : cfg.Consistent) (id : BlockId) :
    id ∈ computeReversePostorder order cfg ↔ cfg.Reachable id := by
  have closed : ∀ source ∈ insert cfg.entry cfg.keys, ∀ target, cfg.Edge source target →
      target ∈ insert cfg.entry cfg.keys := by
    intro source _ target edge
    have parts := ControlFlowGraph.edge_iff.mp edge
    exact Finset.mem_insert_of_mem (con.successors_subset source parts.1 parts.2)
  have he : (insert cfg.entry cfg.keys \ (∅ : Finset BlockId)).card < cfg.keys.card + 2 := by
    have := Finset.card_insert_le cfg.entry cfg.keys
    rw [Finset.sdiff_empty]
    omega
  obtain ⟨explores, -, present⟩ := rpoVisit_explores order closed (cfg.keys.card + 2) cfg.entry
    (Finset.mem_insert_self _ _) ⟨∅, []⟩ (Finset.empty_subset _) ControlFlowGraph.reachable_entry he
  rw [computeReversePostorder, mem_reverse, explores.listed]
  simp only [not_mem_nil, Finset.notMem_empty, not_false_eq_true, and_true, false_or]
  constructor
  · exact explores.reached (by simp) id
  · rintro ⟨path, is_path⟩
    induction is_path with
    | entry => exact present
    | step pre edge ih => exact explores.closed _ ih (by simp) _ edge

end Traversal

section Iteration

variable {order : SetOrder} {cfg : ControlFlowGraph}

theorem intersectPredecessors_from (dominators : Dominators) (preds : List BlockId) (id : BlockId)
    (start : Option (Finset BlockId)) :
    ((preds.foldl (fun newDom pred => match dominators pred with
      | some predDom => match newDom with
        | none => some predDom
        | some cur => some (cur ∩ predDom)
      | none => newDom) start).elim False fun set => id ∈ set) ↔
    (start.elim True fun set => id ∈ set) ∧
      (∀ pred ∈ preds, ∀ predDom, dominators pred = some predDom → id ∈ predDom) ∧
      (start ≠ none ∨ ∃ pred ∈ preds, dominators pred ≠ none) := by
  induction preds generalizing start with
  | nil => cases start <;> simp
  | cons pred preds ih =>
    rw [foldl_cons, ih]
    cases hit : dominators pred with
    | none => simp [hit]
    | some predDom =>
      cases start with
      | none => simp [hit]
      | some cur => simp [hit, and_assoc]

theorem mem_newDominators (dominators : Dominators) (id other : BlockId) (block : BasicBlock) :
    other ∈ newDominators order dominators id block ↔
      other = id ∨ (∀ pred ∈ block.predecessors, ∀ predDom, dominators pred = some predDom → other ∈ predDom) ∧
        ∃ pred ∈ block.predecessors, dominators pred ≠ none := by
  have from' := intersectPredecessors_from dominators (order.list block.predecessors) other none
  simp only [Option.elim_none, ne_eq, not_true_eq_false, false_or, true_and, order.mem_list] at from'
  rw [newDominators, Finset.mem_insert]
  apply or_congr Iff.rfl
  rw [← from', intersectPredecessors]
  cases preds : List.foldl _ none (order.list block.predecessors) <;> simp

/-- What holds of the dominator sets during the iteration. -/
structure Approximates (order : SetOrder) (cfg : ControlFlowGraph) (dominators : Dominators) : Prop where
  domain : ∀ id, dominators id ≠ none ↔ cfg.Reachable id
  entry : dominators cfg.entry = some {cfg.entry}
  bounded : ∀ id set, dominators id = some set → ∀ a, cfg.Dominates a id → a ∈ set
  shrinks : ∀ id set, id ≠ cfg.entry → dominators id = some set →
    newDominators order dominators id (cfg.block id) ⊆ set

variable {id : BlockId} {dominators : Dominators} {blocks : Finset BlockId} {rpo : List BlockId}

theorem newDominators_mono {smaller larger : Dominators} {block : BasicBlock}
    (domain : ∀ other, smaller other ≠ none ↔ larger other ≠ none)
    (hlt : ∀ other small large, smaller other = some small → larger other = some large → small ⊆ large) :
    newDominators order smaller id block ⊆ newDominators order larger id block := by
  intro other has
  rw [mem_newDominators] at has ⊢
  refine has.imp_right ?_
  rintro ⟨all, pred, mem, some⟩
  refine ⟨?_, pred, mem, (domain pred).mp some⟩
  intro pred' mem' large isLarge
  obtain ⟨small, isSmall⟩ := Option.ne_none_iff_exists'.mp ((domain pred').mpr (by simp [isLarge]))
  exact hlt pred' small large isSmall isLarge (all pred' mem' small isSmall)

theorem dominates_mem_newDominators (con : cfg.Consistent)
    (approximates : Approximates order cfg dominators) {a : BlockId} (other : id ≠ cfg.entry)
    (reach : cfg.Reachable id) (dominates : cfg.Dominates a id) :
    a ∈ newDominators order dominators id (cfg.block id) := by
  obtain ⟨has, pred, isPred, predReachable, -⟩ := reach.cases con other
  rw [mem_newDominators]
  by_cases eq : a = id
  · exact .inl eq
  · refine .inr ⟨?_, pred, isPred, (approximates.domain pred).mpr predReachable⟩
    intro pred' isPred' predDom hit
    refine approximates.bounded pred' predDom hit a ?_
    intro path is_path
    have edge := ControlFlowGraph.edge_of_predecessor con has isPred'
    exact (mem_cons.mp (dominates _ (.step is_path edge))).resolve_left eq

def weight (blocks : Finset BlockId) (dominators : Dominators) : Nat :=
  ∑ id ∈ blocks, ((dominators id).map Finset.card).getD 0

section Update

variable {dominators : Dominators} {id : BlockId} {old : Finset BlockId}

theorem Approximates.update (con : cfg.Consistent) (approximates : Approximates order cfg dominators)
    (other : id ≠ cfg.entry) (reach : cfg.Reachable id) (isOld : dominators id = some old) :
    Approximates order cfg
      (Function.update dominators id (some (newDominators order dominators id (cfg.block id)))) := by
  have subset := approximates.shrinks id old other isOld
  set updated := Function.update dominators id (some (newDominators order dominators id (cfg.block id))) with isUpdated
  have atId : updated id = some (newDominators order dominators id (cfg.block id)) := Function.update_self ..
  have elsewhere {block : BlockId} (ne : block ≠ id) : updated block = dominators block :=
    Function.update_of_ne ne ..
  have domain : ∀ block, updated block ≠ none ↔ dominators block ≠ none := by
    intro block
    by_cases eq : block = id
    · simp [eq, atId, isOld]
    · rw [elsewhere eq]
  have hlt : ∀ block small large, updated block = some small → dominators block = some large →
      small ⊆ large := by
    intro block small large isSmall isLarge
    by_cases eq : block = id
    · rw [eq, atId, Option.some.injEq] at isSmall
      rw [eq, isOld, Option.some.injEq] at isLarge
      rw [← isSmall, ← isLarge]
      exact subset
    · rw [elsewhere eq, isLarge, Option.some.injEq] at isSmall
      rw [isSmall]
  constructor
  · intro block
    rw [domain, approximates.domain]
  · rw [elsewhere (Ne.symm other), approximates.entry]
  · intro block set isSet a dominates
    by_cases eq : block = id
    · rw [eq, atId, Option.some.injEq] at isSet
      rw [eq] at dominates
      rw [← isSet]
      exact dominates_mem_newDominators con approximates other reach dominates
    · rw [elsewhere eq] at isSet
      exact approximates.bounded block set isSet a dominates
  · intro block set notEntry isSet
    refine (newDominators_mono domain hlt).trans ?_
    by_cases eq : block = id
    · rw [eq, atId, Option.some.injEq] at isSet
      rw [eq, isSet]
    · rw [elsewhere eq] at isSet
      exact approximates.shrinks block set notEntry isSet

theorem weight_update_lt {blocks : Finset BlockId} (inBlocks : id ∈ blocks) (isOld : dominators id = some old)
    {new : Finset BlockId} (strict : new ⊂ old) :
    weight blocks (Function.update dominators id (some new)) < weight blocks dominators := by
  have smaller := Finset.card_lt_card strict
  unfold weight
  apply Finset.sum_lt_sum
  · intro block _
    by_cases eq : block = id
    · rw [eq, Function.update_self, isOld]
      simpa using smaller.le
    · rw [Function.update_of_ne eq]
  · refine ⟨id, inBlocks, ?_⟩
    rw [Function.update_self, isOld]
    simpa using smaller

end Update

theorem updateBlock_spec (con : cfg.Consistent) (changed : Bool)
    (approximates : Approximates order cfg dominators) (inBlocks : id ∈ blocks) (reach : cfg.Reachable id) :
    (updateBlock order cfg (dominators, changed) id = (dominators, changed) ∧
      (id ≠ cfg.entry → dominators id = some (newDominators order dominators id (cfg.block id)))) ∨
    (updateBlock order cfg (dominators, changed) id).2 = true ∧
      Approximates order cfg (updateBlock order cfg (dominators, changed) id).1 ∧
      weight blocks (updateBlock order cfg (dominators, changed) id).1 < weight blocks dominators := by
  unfold updateBlock
  split
  · rename_i atEntry
    exact .inl ⟨rfl, fun other => absurd atEntry other⟩
  · rename_i other
    have has := (reach.cases con other).1
    have hit : cfg.get id = some (cfg.block id) := by
      rw [ControlFlowGraph.get, if_pos has]
    simp only [hit]
    split
    · rename_i eq
      exact .inl ⟨rfl, fun _ => eq⟩
    · rename_i differs
      obtain ⟨old, isOld⟩ := Option.ne_none_iff_exists'.mp ((approximates.domain id).mpr reach)
      have strict : newDominators order dominators id (cfg.block id) ⊂ old := by
        refine Finset.ssubset_iff_subset_ne.mpr ⟨approximates.shrinks id old other isOld, ?_⟩
        intro eq
        rw [eq] at differs
        exact differs isOld
      exact .inr ⟨rfl, approximates.update con other reach isOld, weight_update_lt inBlocks isOld strict⟩

theorem pass_spec (con : cfg.Consistent) (listed : ∀ id ∈ rpo, id ∈ blocks ∧ cfg.Reachable id)
    (approximates : Approximates order cfg dominators) : (pass order cfg rpo dominators = (dominators, false) ∧
      ∀ id ∈ rpo, id ≠ cfg.entry → dominators id = some (newDominators order dominators id (cfg.block id))) ∨
    (pass order cfg rpo dominators).2 = true ∧
      Approximates order cfg (pass order cfg rpo dominators).1 ∧
      weight blocks (pass order cfg rpo dominators).1 < weight blocks dominators := by
  have onward {st : Dominators × Bool} (changed : st.2 = true) (approx : Approximates order cfg st.1)
      (lighter : weight blocks st.1 < weight blocks dominators) (rest : List BlockId)
      (mem : ∀ id ∈ rest, id ∈ blocks ∧ cfg.Reachable id) :
      (rest.foldl (updateBlock order cfg) st).2 = true ∧
        Approximates order cfg (rest.foldl (updateBlock order cfg) st).1 ∧
        weight blocks (rest.foldl (updateBlock order cfg) st).1 < weight blocks dominators := by
    induction rest generalizing st with
    | nil => exact ⟨changed, approx, lighter⟩
    | cons id rest ih =>
      have here := mem id (by simp)
      rw [foldl_cons]
      obtain ⟨doms, flag⟩ := st
      rcases updateBlock_spec con flag approx here.1 here.2 with eq | ⟨change, approx', lighter'⟩
      · rw [eq.1]
        exact ih changed approx lighter fun other hl => mem other (.tail _ hl)
      · exact ih change approx' (lighter'.trans lighter) fun other hl => mem other (.tail _ hl)
  unfold pass
  induction rpo with
  | nil => exact .inl ⟨rfl, by simp⟩
  | cons id rpo ih =>
    have here := listed id (by simp)
    have hl : ∀ other ∈ rpo, other ∈ blocks ∧ cfg.Reachable other := fun other mem =>
      listed other (.tail _ mem)
    rw [foldl_cons]
    rcases updateBlock_spec con false approximates here.1 here.2 with
      eq | ⟨change, approx, lighter⟩
    · rw [eq.1]
      refine (ih hl).imp_left ?_
      rintro ⟨unchanged, fixed⟩
      refine ⟨unchanged, ?_⟩
      intro other mem notEntry
      rcases mem_cons.mp mem with rfl | earlier
      · exact eq.2 notEntry
      · exact fixed other earlier notEntry
    · exact .inr (onward change approx lighter rpo hl)

theorem iterate_spec (con : cfg.Consistent) (listed : ∀ id ∈ rpo, id ∈ blocks ∧ cfg.Reachable id)
    (remaining : Nat) (approximates : Approximates order cfg dominators)
    (he : weight blocks dominators < remaining) : (iterate order cfg rpo remaining dominators).2 = false ∧
      Approximates order cfg (iterate order cfg rpo remaining dominators).1 ∧
      ∀ id ∈ rpo, id ≠ cfg.entry → (iterate order cfg rpo remaining dominators).1 id =
        some (newDominators order (iterate order cfg rpo remaining dominators).1 id (cfg.block id)) := by
  induction remaining generalizing dominators with
  | zero => exact absurd he (Nat.not_lt_zero _)
  | succ remaining ih =>
    rw [iterate]
    rcases pass_spec con listed approximates with ⟨unchanged, fixed⟩ | ⟨changed, approx, lighter⟩
    · rw [unchanged]
      exact ⟨rfl, approximates, fixed⟩
    · rw [if_pos changed]
      exact ih approx (by omega)

theorem initialDominators_apply (rpo : List BlockId) (id : BlockId) :
    initialDominators cfg rpo id =
      if id = cfg.entry then some {cfg.entry} else if id ∈ rpo then some cfg.keys else none := by
  have fold (start : Dominators) : rpo.foldl (fun dominators id =>
      if id ≠ cfg.entry then Function.update dominators id (some cfg.keys) else dominators) start id =
      if id ≠ cfg.entry ∧ id ∈ rpo then some cfg.keys else start id := by
    induction rpo generalizing start with
    | nil => simp
    | cons head rpo ih =>
      rw [foldl_cons, ih]
      by_cases eq : id = head
      · subst eq
        by_cases atEntry : id = cfg.entry <;> simp [atEntry]
      · by_cases atEntry : head = cfg.entry
        · have other : id ≠ cfg.entry := by rwa [← atEntry]
          simp [atEntry, other]
        · simp [atEntry, eq]
  rw [initialDominators, fold]
  by_cases atEntry : id = cfg.entry
  · simp [atEntry]
  · simp [atEntry]

theorem entry_mem_keys (reach : cfg.Reachable id) (other : id ≠ cfg.entry) : cfg.entry ∈ cfg.keys := by
  obtain ⟨path, is_path⟩ := reach
  induction is_path with
  | entry => exact absurd rfl other
  | @step source target path pre edge ih =>
    by_cases atEntry : source = cfg.entry
    · rw [← atEntry]
      exact (ControlFlowGraph.edge_iff.mp edge).1
    · exact ih atEntry

theorem reachable_mem_keys (con : cfg.Consistent) (reach : cfg.Reachable id)
    (entryMem : cfg.entry ∈ cfg.keys) : id ∈ cfg.keys := by
  by_cases atEntry : id = cfg.entry
  · rw [atEntry]
    exact entryMem
  · exact (reach.cases con atEntry).1

theorem approximates_initialDominators (con : cfg.Consistent) :
    Approximates order cfg (initialDominators cfg (computeReversePostorder order cfg)) := by
  have v {id : BlockId} {set : Finset BlockId} (other : id ≠ cfg.entry)
      (isSet : initialDominators cfg (computeReversePostorder order cfg) id = some set) :
      cfg.Reachable id ∧ set = cfg.keys := by
    rw [initialDominators_apply, if_neg other] at isSet
    split at isSet
    · rename_i listed
      exact ⟨(mem_computeReversePostorder con id).mp listed, (Option.some.inj isSet).symm⟩
    · simp at isSet
  constructor
  · intro id
    rw [initialDominators_apply]
    by_cases atEntry : id = cfg.entry
    · simp [atEntry, ControlFlowGraph.reachable_entry]
    · simp [atEntry, mem_computeReversePostorder con]
  · rw [initialDominators_apply, if_pos rfl]
  · intro id set isSet a dominates
    by_cases atEntry : id = cfg.entry
    · rw [initialDominators_apply, if_pos atEntry, Option.some.injEq] at isSet
      rw [atEntry] at dominates
      rw [← isSet]
      exact Finset.mem_singleton.mpr (mem_singleton.mp (dominates _ .entry))
    · obtain ⟨reach, rfl⟩ := v atEntry isSet
      exact reachable_mem_keys con (dominates.reachable reach) (entry_mem_keys reach atEntry)
  · intro id set other isSet a has
    obtain ⟨reach, rfl⟩ := v other isSet
    have entryMem := entry_mem_keys reach other
    rw [mem_newDominators] at has
    rcases has with rfl | ⟨all, pred, mem, hasDom⟩
    · exact reachable_mem_keys con reach entryMem
    · obtain ⟨predDom, hit⟩ := Option.ne_none_iff_exists'.mp hasDom
      have inPred := all pred mem predDom hit
      by_cases atEntry : pred = cfg.entry
      · rw [initialDominators_apply, if_pos atEntry, Option.some.injEq] at hit
        rw [← hit, Finset.mem_singleton] at inPred
        rwa [inPred]
      · rwa [(v atEntry hit).2] at inPred

theorem weight_initialDominators_lt (con : cfg.Consistent) :
    weight (computeReversePostorder order cfg).toFinset
      (initialDominators cfg (computeReversePostorder order cfg)) < maxIterations cfg := by
  unfold maxIterations
  by_cases alone : ∀ id, cfg.Reachable id → id = cfg.entry
  · have subset : (computeReversePostorder order cfg).toFinset ⊆ {cfg.entry} := by
      intro id mem
      rw [mem_toFinset, mem_computeReversePostorder con] at mem
      exact Finset.mem_singleton.mpr (alone id mem)
    have light : weight (computeReversePostorder order cfg).toFinset
        (initialDominators cfg (computeReversePostorder order cfg)) ≤
        ∑ id ∈ {cfg.entry}, ((initialDominators cfg (computeReversePostorder order cfg) id).map Finset.card).getD 0 :=
      Finset.sum_le_sum_of_subset subset
    rw [Finset.sum_singleton, initialDominators_apply, if_pos rfl] at light
    simp only [Option.map_some, Option.getD_some, Finset.card_singleton] at light
    omega
  · push Not at alone
    obtain ⟨id, reach, other⟩ := alone
    have entryMem := entry_mem_keys reach other
    have subset : (computeReversePostorder order cfg).toFinset ⊆ cfg.keys := by
      intro id mem
      rw [mem_toFinset, mem_computeReversePostorder con] at mem
      exact reachable_mem_keys con mem entryMem
    have each : ∀ id ∈ (computeReversePostorder order cfg).toFinset,
        ((initialDominators cfg (computeReversePostorder order cfg) id).map Finset.card).getD 0 ≤ cfg.keys.card := by
      intro id mem
      rw [initialDominators_apply]
      split
      · simpa using ⟨cfg.entry, entryMem⟩
      · split <;> simp
    have light := Finset.sum_le_card_nsmul _ _ _ each
    have fewer := Nat.mul_le_mul_right cfg.keys.card (Finset.card_le_card subset)
    rw [smul_eq_mul] at light
    unfold weight
    omega

theorem computeDominatorsIterative_exact (order : SetOrder) (con : cfg.Consistent) :
    (computeDominatorsIterative order cfg (computeReversePostorder order cfg)).2 = false ∧
    ∀ id, cfg.Reachable id →
      ∃ set, (computeDominatorsIterative order cfg (computeReversePostorder order cfg)).1 id = some set ∧
        ∀ a, a ∈ set ↔ cfg.Dominates a id := by
  have listed : ∀ id ∈ computeReversePostorder order cfg,
      id ∈ (computeReversePostorder order cfg).toFinset ∧ cfg.Reachable id := fun id mem =>
    ⟨mem_toFinset.mpr mem, (mem_computeReversePostorder con id).mp mem⟩
  obtain ⟨unchanged, approximates, fixed⟩ := iterate_spec con listed (maxIterations cfg)
    (approximates_initialDominators con) (weight_initialDominators_lt con)
  refine ⟨unchanged, ?_⟩
  change ∀ id, cfg.Reachable id → ∃ set, (iterate order cfg _ _ _).1 id = some set ∧ _
  set dominators := (iterate order cfg (computeReversePostorder order cfg) (maxIterations cfg)
    (initialDominators cfg (computeReversePostorder order cfg))).1
  have hs {id : BlockId} {path : List BlockId} (is_path : cfg.Path id path) :
      ∀ set, dominators id = some set → ∀ a ∈ set, a ∈ path := by
    induction is_path with
    | entry =>
      intro set isSet a mem
      rw [approximates.entry, Option.some.injEq] at isSet
      rw [← isSet] at mem
      exact mem_singleton.mpr (Finset.mem_singleton.mp mem)
    | @step source target path pre edge ih =>
      intro set isSet a mem
      by_cases atEntry : target = cfg.entry
      · rw [atEntry, approximates.entry, Option.some.injEq] at isSet
        rw [← isSet, Finset.mem_singleton] at mem
        rw [mem, ← atEntry]
        exact .head _
      · have reach : cfg.Reachable target := ⟨_, .step pre edge⟩
        have fixpoint := fixed target ((mem_computeReversePostorder con target).mpr reach) atEntry
        rw [isSet, Option.some.injEq] at fixpoint
        rw [fixpoint, mem_newDominators] at mem
        rcases mem with rfl | ⟨all, -⟩
        · exact .head _
        · have parts := ControlFlowGraph.edge_iff.mp edge
          have inTable := con.successors_subset source parts.1 parts.2
          have isPred := (con.agree source parts.1 target inTable).mp parts.2
          obtain ⟨sourceSet, isSource⟩ :=
            Option.ne_none_iff_exists'.mp ((approximates.domain source).mpr ⟨_, pre⟩)
          exact .tail _ (ih sourceSet isSource a (all source isPred sourceSet isSource))
  intro id reach
  obtain ⟨set, isSet⟩ := Option.ne_none_iff_exists'.mp ((approximates.domain id).mpr reach)
  refine ⟨set, isSet, ?_⟩
  intro a
  constructor
  · intro mem path is_path
    exact hs is_path set isSet a mem
  · exact approximates.bounded id set isSet a

end Iteration

section Immediate

variable {cfg : ControlFlowGraph}

theorem deepest_spec (dominators : Dominators) (id : BlockId) (candidates : List BlockId) :
    (∀ dom ∈ candidates, dom ≠ id →
      ((dominators dom).map Finset.card).getD 0 ≤ (deepest dominators id candidates).2) ∧
    (∀ dom, (deepest dominators id candidates).1 = some dom →
      dom ∈ candidates ∧ dom ≠ id ∧
        ((dominators dom).map Finset.card).getD 0 = (deepest dominators id candidates).2) ∧
    ((deepest dominators id candidates).1 = none → (deepest dominators id candidates).2 = 0) := by
  unfold deepest
  induction candidates using List.reverseRecOn with
  | nil => simp
  | append_singleton candidates last ih =>
    rw [foldl_append, foldl_cons, foldl_nil]
    obtain ⟨most, chosen, none'⟩ := ih
    split
    · rename_i eq
      refine ⟨?_, ?_, none'⟩
      · intro dom mem other
        rcases mem_append.mp mem with earlier | isLast
        · exact most dom earlier other
        · exact absurd ((mem_singleton.mp isLast).trans eq) other
      · intro dom isDom
        have old := chosen dom isDom
        exact ⟨mem_append_left _ old.1, old.2⟩
    · rename_i other
      simp only
      split
      · rename_i more
        refine ⟨?_, ?_, by simp⟩
        · intro dom mem notId
          rcases mem_append.mp mem with earlier | isLast
          · exact (most dom earlier notId).trans more.le
          · rw [mem_singleton.mp isLast]
        · intro dom isDom
          simp only [Option.some.injEq] at isDom
          subst isDom
          exact ⟨by simp, other, rfl⟩
      · rename_i notMore
        refine ⟨?_, ?_, none'⟩
        · intro dom mem notId
          rcases mem_append.mp mem with earlier | isLast
          · exact most dom earlier notId
          · rw [mem_singleton.mp isLast]
            exact Nat.not_lt.mp notMore
        · intro dom isDom
          have old := chosen dom isDom
          exact ⟨mem_append_left _ old.1, old.2⟩

def IsImmediateDominator (cfg : ControlFlowGraph) (dom id : BlockId) : Prop :=
  dom ≠ id ∧ cfg.Dominates dom id ∧ ∀ other, other ≠ id → cfg.Dominates other id → cfg.Dominates other dom

theorem IsImmediateDominator.unique {dom dom' id : BlockId} (reach : cfg.Reachable id)
    (fst : IsImmediateDominator cfg dom id) (snd : IsImmediateDominator cfg dom' id) : dom = dom' :=
  (snd.2.2 dom fst.1 fst.2.1).antisymm (fst.2.2 dom' snd.1 snd.2.1)
    (snd.2.1.reachable reach)

theorem deepest_isImmediateDominator {order : SetOrder} {dominators : Dominators}
    (exact' : ∀ id, cfg.Reachable id → ∃ set, dominators id = some set ∧ ∀ a, a ∈ set ↔ cfg.Dominates a id)
    {id : BlockId} (reach : cfg.Reachable id) (other : id ≠ cfg.entry) {set : Finset BlockId}
    (isSet : ∀ a, a ∈ set ↔ cfg.Dominates a id) :
    ∃ dom, (deepest dominators id (order.list set)).1 = some dom ∧ IsImmediateDominator cfg dom id := by
  obtain ⟨most, chosen, none'⟩ := deepest_spec dominators id (order.list set)
  have n {dom : BlockId} (domReachable : cfg.Reachable dom) : ∃ domSet : Finset BlockId,
      ((dominators dom).map Finset.card).getD 0 = domSet.card ∧ ∀ a, a ∈ domSet ↔ cfg.Dominates a dom := by
    obtain ⟨domSet, hit, all⟩ := exact' dom domReachable
    exact ⟨domSet, by simp [hit], all⟩
  have entryDominates : cfg.Dominates cfg.entry id := fun path is_path => is_path.entry_mem
  cases best : (deepest dominators id (order.list set)).1 with
  | none =>
    have atLeast := most cfg.entry ((order.mem_list _ _).mpr ((isSet _).mpr entryDominates)) (Ne.symm other)
    obtain ⟨entrySet, isCount, all⟩ := n ControlFlowGraph.reachable_entry
    rw [none' best, isCount, Nat.le_zero, Finset.card_eq_zero] at atLeast
    have self := (all cfg.entry).mpr (ControlFlowGraph.dominates_refl _)
    rw [atLeast] at self
    exact absurd self (Finset.notMem_empty _)
  | some dom =>
    obtain ⟨mem, notId, isCount⟩ := chosen dom best
    have dominates : cfg.Dominates dom id := (isSet dom).mp ((order.mem_list _ _).mp mem)
    refine ⟨dom, rfl, notId, dominates, ?_⟩
    intro rival rivalOther rivalDominates
    rcases rivalDominates.total dominates reach with closer | further
    · exact closer
    · by_cases eq : rival = dom
      · rw [eq]
        exact ControlFlowGraph.dominates_refl _
      have atMost := most rival ((order.mem_list _ _).mpr ((isSet _).mpr rivalDominates)) rivalOther
      obtain ⟨rivalSet, rivalCount, rivalAll⟩ := n (rivalDominates.reachable reach)
      obtain ⟨domSet, domCount, domAll⟩ := n (dominates.reachable reach)
      have strict : domSet ⊂ rivalSet := by
        refine Finset.ssubset_iff_subset_ne.mpr ⟨?_, ?_⟩
        · intro a has
          exact (rivalAll a).mpr (((domAll a).mp has).trans further)
        · intro equal
          have self := (rivalAll rival).mpr (ControlFlowGraph.dominates_refl rival)
          rw [← equal] at self
          exact eq (((domAll rival).mp self).antisymm further (dominates.reachable reach))
      have fewer := Finset.card_lt_card strict
      omega

end Immediate

variable {cfg : ControlFlowGraph}

theorem compute_exact (order : SetOrder) (con : cfg.Consistent) {a b : BlockId}
    (reach : cfg.Reachable b) : (DominanceInfo.compute order cfg).dominates a b = true ↔ cfg.Dominates a b := by
  unfold DominanceInfo.dominates
  split
  · rename_i eq
    rw [eq]
    simp [ControlFlowGraph.dominates_refl]
  · rename_i ne
    by_cases empty : cfg.keys = ∅
    · have atEntry : b = cfg.entry := by
        by_contra other
        have has := (reach.cases con other).1
        rw [empty] at has
        exact absurd has (Finset.notMem_empty _)
      simp only [DominanceInfo.compute, if_pos empty, Bool.false_eq_true, false_iff]
      intro dominates
      rw [atEntry] at dominates ne
      exact ne (mem_singleton.mp (dominates _ .entry))
    · obtain ⟨set, hit, all⟩ := (computeDominatorsIterative_exact order con).2 b reach
      simp only [DominanceInfo.compute, if_neg empty, hit, decide_eq_true_eq]
      exact all a

theorem compute_immediateDom (order : SetOrder) (con : cfg.Consistent) {b : BlockId}
    (reach : cfg.Reachable b) : (b = cfg.entry → (DominanceInfo.compute order cfg).immediateDom b = none) ∧
    (b ≠ cfg.entry → ∃ dom, (DominanceInfo.compute order cfg).immediateDom b = some dom ∧
      IsImmediateDominator cfg dom b) := by
  unfold DominanceInfo.compute
  split
  · rename_i empty
    refine ⟨fun _ => rfl, ?_⟩
    intro other
    have has := (reach.cases con other).1
    rw [empty] at has
    exact absurd has (Finset.notMem_empty _)
  · simp only [computeImmediateDominators]
    refine ⟨fun atEntry => by rw [if_pos atEntry], ?_⟩
    intro other
    have dominators := (computeDominatorsIterative_exact order con).2
    obtain ⟨set, hit, all⟩ := dominators b reach
    rw [if_neg other, hit]
    exact deepest_isImmediateDominator dominators reach other all

theorem dominance_exact (order : SetOrder) (cfg : ControlFlowGraph) (consistent : cfg.Consistent) :
    (computeDominatorsIterative order cfg (computeReversePostorder order cfg)).2 = false ∧
    (∀ b, cfg.Reachable b →
      (∀ a, (DominanceInfo.compute order cfg).dominates a b = true ↔ ∀ path, cfg.Path b path → a ∈ path) ∧
      (∀ dom, (DominanceInfo.compute order cfg).immediateDom b = some dom ↔ IsImmediateDominator cfg dom b) ∧
      ((DominanceInfo.compute order cfg).immediateDom b = none ↔ b = cfg.entry)) ∧
    (∀ a uses, (∀ use ∈ uses, cfg.Reachable use) →
      ((DominanceInfo.compute order cfg).allocationDominatesUses order a uses = true ↔
        ¬ ∃ use ∈ uses, ∃ path, cfg.Path use path ∧ a ∉ path)) := by
  refine ⟨(computeDominatorsIterative_exact order consistent).1, ?_, ?_⟩
  · intro b reachable
    obtain ⟨atEntry, elsewhere⟩ := compute_immediateDom order consistent reachable
    refine ⟨fun a => compute_exact order consistent reachable, ?_, ?_⟩
    · intro dom
      by_cases isEntry : b = cfg.entry
      · rw [atEntry isEntry]
        simp only [reduceCtorEq, false_iff]
        rintro ⟨differ, dominates, -⟩
        rw [isEntry] at dominates differ
        exact differ (mem_singleton.mp (dominates _ .entry))
      · obtain ⟨found, isFound, immediate⟩ := elsewhere isEntry
        rw [isFound, Option.some.injEq]
        constructor
        · rintro rfl
          exact immediate
        · exact immediate.unique reachable
    · constructor
      · intro isNone
        by_contra isEntry
        obtain ⟨found, isFound, -⟩ := elsewhere isEntry
        rw [isFound] at isNone
        simp at isNone
      · exact atEntry
  · intro a uses reachable
    rw [DominanceInfo.allocationDominatesUses, all_eq_true]
    simp only [order.mem_list]
    push Not
    refine forall₂_congr fun use mem => ?_
    rw [compute_exact order consistent (reachable use mem)]
    rfl

def diamond : ControlFlowGraph where
  keys := {0, 1, 2, 3}
  block id :=
    if id = 0 then ⟨∅, {1, 2}⟩
    else if id = 1 then ⟨{0}, {3}⟩
    else if id = 2 then ⟨{0}, {3}⟩
    else ⟨{1, 2}, ∅⟩
  entry := 0

theorem diamond_consistent : diamond.Consistent := by
  have all (p : BlockId → Prop) (hh : p 0 ∧ p 1 ∧ p 2 ∧ p 3) : ∀ id ∈ diamond.keys, p id := by
    simp [diamond, hh]
  refine ⟨all _ ?_, all _ ?_, all _ ?_⟩
  · simp [diamond, Finset.insert_subset_iff]
  · simp [diamond, Finset.insert_subset_iff]
  · simp [diamond]

theorem diamond_path : diamond.Path 3 [3, 2, 0] := by
  have edge {source target : BlockId} (has : source ∈ diamond.keys)
      (target_mem : target ∈ (diamond.block source).successors) : diamond.Edge source target :=
    ControlFlowGraph.edge_iff.mpr ⟨has, target_mem⟩
  exact .step (.step .entry (edge (by decide) (by decide))) (edge (by decide) (by decide))

theorem dominance_exact_diamond :
    ∃ order : SetOrder, (DominanceInfo.compute order diamond).dominates 0 3 = true ∧
      (DominanceInfo.compute order diamond).dominates 1 3 = false := by
  refine ⟨⟨Finset.toList, fun _ _ => Finset.mem_toList⟩, ?_⟩
  have exact' := ((dominance_exact ⟨Finset.toList, fun _ _ => Finset.mem_toList⟩ diamond diamond_consistent).2.1 3
    ⟨_, diamond_path⟩).1
  constructor
  · rw [exact']
    intro other is_path
    exact is_path.entry_mem
  · rw [← Bool.not_eq_true, exact']
    intro all
    exact absurd (all _ diamond_path) (by decide)

end Cbgr
