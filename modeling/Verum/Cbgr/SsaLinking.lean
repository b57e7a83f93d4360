import Verum.Cbgr.Ssa
import Mathlib.Data.Set.Finite.Basic

open List

namespace Cbgr

open Function

namespace FunctionGraph

variable (graph : FunctionGraph)

def Defines (id : BlockId) (reference : RefId) : Prop :=
  ∃ definition ∈ graph.definitions id, definition.reference = reference

/-- A definition that can run reaches the start of a block without another one of the reference between. -/
inductive Reaches (reference : RefId) : BlockId → Prop
  | start {source target : BlockId} : graph.cfg.Reachable source → graph.Defines source reference →
    graph.cfg.Edge source target → Reaches reference target
  | step {middle target : BlockId} : Reaches reference middle → ¬ graph.Defines middle reference →
    graph.cfg.Edge middle target → Reaches reference target

/-- A use outside the block's own definitions that a definition reaches. -/
def ReachedUse (id : BlockId) (use : UseeSite) : Prop :=
  use ∈ graph.uses id ∧ ¬ graph.Defines id use.reference ∧ graph.Reaches use.reference id

def NoReachedUse : Prop := ∀ id ∈ graph.cfg.keys, graph.cfg.Reachable id → ∀ use, ¬ graph.ReachedUse id use

def DefinedOn (id : BlockId) (var : String) : Prop :=
  ∃ reference, SsaBuilder.varName reference = var ∧ (graph.Defines id reference ∨ graph.Reaches reference id)

end FunctionGraph

namespace SsaFunction

def phiValue (ssa : SsaFunction) (var : String) (id : BlockId) : Option UInt32 :=
  ((ssa.phiNodes id).find? fun phi => decide (phi.varName = var)).map PhiNode.resultId

/-- The last value of the variable in the block, a phi node when it has no definition there. -/
def valueAtEnd (ssa : SsaFunction) (var : String) (id : BlockId) : Option UInt32 :=
  ((ssa.values.find? fun value => decide (value.name = var ∧ value.definition.block = id)).map SsaValue.id).or
    (ssa.phiValue var id)

/-- On every path to the block, the value is the last one met before the block's own definitions. -/
def Holds (ssa : SsaFunction) (cfg : ControlFlowGraph) (var : String) (id : BlockId) (value : UInt32) : Prop :=
  ∀ path, cfg.Path id path → (ssa.phiValue var id).or (path.tail.findSome? (ssa.valueAtEnd var)) = some value

end SsaFunction

/-- Every reached use is linked to the value it holds, returned ones are known, and the phi nodes at joins have
one operand for each predecessor on which the variable is defined. -/
structure LinksUses (graph : FunctionGraph) (ssa : SsaFunction) : Prop where
  linked : ∀ id ∈ graph.cfg.keys, graph.cfg.Reachable id → ∀ use, graph.ReachedUse id use →
    ∃ value, ssa.useDef ⟨id, 0, use.reference⟩ = some value ∧
      ssa.Holds graph.cfg (SsaBuilder.varName use.reference) id value ∧
      (id = graph.exit → value ∈ ssa.returnValues ∧ ssa.escapesViaReturn value = true)
  merged : ∀ join ∈ graph.cfg.keys, graph.cfg.Reachable join → ¬ SsaBuilder.Single graph.cfg join →
    ∀ phi ∈ ssa.phiNodes join, ∀ pred ∈ (graph.cfg.block join).predecessors, graph.cfg.Reachable pred →
      graph.DefinedOn pred phi.varName → (phi.incoming.map Prod.fst).count pred = 1

namespace SsaBuilder

variable {graph : FunctionGraph} {order : BuildOrder graph}

section Popped

def Pushed (before : String → Option (List UInt32)) (state : Renaming × (String → Nat)) : Prop :=
  ∀ var, (before var = none ∧ state.1.renameStacks var = none) ∨
    ∃ stack added, before var = some stack ∧ state.1.renameStacks var = some (added ++ stack) ∧
      added.length = state.2 var

variable {before : String → Option (List UInt32)} {state : Renaming × (String → Nat)}
  {dominators : ImmediateDominators} {fuel : Nat} {frontiers : BlockId → Finset BlockId}
  {ssa next : SsaFunction}

theorem Pushed.pushValue (pushed : Pushed before state) (var : String) (v : UInt32) :
    Pushed before (pushValue state var v) := by
  unfold SsaBuilder.pushValue
  cases isStack : state.1.renameStacks var with
  | none => exact pushed
  | some top =>
    intro other
    by_cases eq : other = var
    · subst eq
      rcases pushed other with ⟨-, ha⟩ | ⟨stack, added, was, now, length⟩
      · rw [ha] at isStack
        simp at isStack
      · refine .inr ⟨stack, v :: added, was, ?_, ?_⟩
        · rw [now, Option.some.injEq] at isStack
          simp [← isStack]
        · simp [length]
    · simpa [update_of_ne eq] using pushed other

theorem Pushed.withSsa (pushed : Pushed before state) (ssa : SsaFunction) :
    Pushed before ({ state.1 with ssa := ssa }, state.2) :=
  pushed

/-- The part of a renaming that the linking pass reads. -/
structure KeepsLinks (before after : Renaming) : Prop where
  renameStacks : after.renameStacks = before.renameStacks
  useDef : after.ssa.useDef = before.ssa.useDef

theorem popValues_pushed (pushed : Pushed before state) : (popValues state.2 state.1).renameStacks = before := by
  funext var
  unfold popValues
  rcases pushed var with ⟨was, now⟩ | ⟨stack, added, was, now, length⟩
  · simp [was, now]
  · simp [was, now, ← length]

theorem foldl_renamePhi_pushed (block : BlockId) (phis : List PhiNode) (pushed : Pushed before state) :
    Pushed before (phis.foldl (renamePhi block) state) := by
  induction phis generalizing state with
  | nil => exact pushed
  | cons phi phis ih =>
    apply ih
    unfold renamePhi
    exact (pushed.withSsa _).pushValue _ _

theorem foldl_renameDefinition_pushed (definitions : List DefSite) (pushed : Pushed before state) :
    Pushed before (definitions.foldl renameDefinition state) := by
  induction definitions generalizing state with
  | nil => exact pushed
  | cons definition definitions ih =>
    apply ih
    unfold renameDefinition
    exact (pushed.withSsa _).pushValue _ _

theorem foldl_fillSuccessor_stacks (block : BlockId) (successors : List BlockId) (state : Renaming) :
    (successors.foldl (fillSuccessor block) state).renameStacks = state.renameStacks := by
  induction successors generalizing state with
  | nil => rfl
  | cons succ successors ih => exact ih _

theorem enterBlock_pushed (order : BuildOrder graph) (block : BlockId) (state : Renaming) :
    Pushed state.renameStacks (enterBlock order block state) := by
  have start : Pushed state.renameStacks (state, fun _ => 0) := by
    intro var
    cases stack : state.renameStacks var with
    | none => exact .inl ⟨rfl, rfl⟩
    | some top => exact .inr ⟨top, [], rfl, rfl, rfl⟩
  have phis := foldl_renamePhi_pushed block (state.ssa.phiNodes block) start
  unfold enterBlock
  split
  · have defined := foldl_renameDefinition_pushed (graph.definitions block) phis
    intro var
    simp only [foldl_fillSuccessor_stacks]
    exact defined var
  · exact phis

theorem pushValue_ssa (state : Renaming × (String → Nat)) (var : String) (v : UInt32) :
    (pushValue state var v).1.ssa = state.1.ssa := by
  unfold pushValue
  split <;> rfl

theorem foldl_renamePhi_useDef (block : BlockId) (phis : List PhiNode) (state : Renaming × (String → Nat)) :
    (phis.foldl (renamePhi block) state).1.ssa.useDef = state.1.ssa.useDef := by
  induction phis generalizing state with
  | nil => rfl
  | cons phi phis ih =>
    rw [foldl_cons, ih, renamePhi, pushValue_ssa]
    rfl

theorem foldl_renameDefinition_useDef (definitions : List DefSite) (state : Renaming × (String → Nat)) :
    (definitions.foldl renameDefinition state).1.ssa.useDef = state.1.ssa.useDef := by
  induction definitions generalizing state with
  | nil => rfl
  | cons definition definitions ih =>
    rw [foldl_cons, ih, renameDefinition, pushValue_ssa]
    rfl

theorem foldl_fillSuccessor_useDef (block : BlockId) (successors : List BlockId) (state : Renaming) :
    (successors.foldl (fillSuccessor block) state).ssa.useDef = state.ssa.useDef := by
  induction successors generalizing state with
  | nil => rfl
  | cons succ successors ih => exact ih _

theorem enterBlock_useDef (block : BlockId) (state : Renaming) :
    (enterBlock order block state).1.ssa.useDef = state.ssa.useDef := by
  unfold enterBlock
  split
  · rw [foldl_fillSuccessor_useDef, foldl_renameDefinition_useDef, foldl_renamePhi_useDef]
  · exact foldl_renamePhi_useDef _ _ _

theorem renameBlock_keepsLinks (fuel : Nat) {block : BlockId} {state next : Renaming}
    (runs : renameBlock order dominators fuel block state = some next) : KeepsLinks state next := by
  induction fuel generalizing block state next with
  | zero => simp [renameBlock] at runs
  | succ fuel ih =>
    have kids (list : List BlockId) {before after : Renaming}
        (explores : list.foldlM (fun state child => renameBlock order dominators fuel child state) before = some after) :
        KeepsLinks before after := by
      induction list generalizing before with
      | nil =>
        rw [← Option.some.inj explores]
        exact ⟨rfl, rfl⟩
      | cons child list rest =>
        rw [foldlM_cons, Option.bind_eq_bind, Option.bind_eq_some_iff] at explores
        obtain ⟨mid, fst, hl⟩ := explores
        have early := ih fst
        have late := rest hl
        exact ⟨late.renameStacks.trans early.renameStacks, late.useDef.trans early.useDef⟩
    rw [renameBlock] at runs
    simp only [Option.bind_eq_bind, Option.bind_eq_some_iff, Option.some.injEq] at runs
    obtain ⟨explored, explores, isNext⟩ := runs
    have hlt := kids _ explores
    rw [← isNext]
    refine ⟨?_, ?_⟩
    · have restored := popValues_pushed (enterBlock_pushed order block state)
      rw [← restored]
      unfold popValues
      rw [hlt.renameStacks]
    · exact hlt.useDef.trans (enterBlock_useDef block state)

theorem placePhiNodes_induction {motive : SsaFunction → Prop}
    (step : ∀ var ∈ allVariables graph, ∀ work y, motive work.ssa → motive (placePhi var work y).ssa)
    (start : motive ssa) (runs : placePhiNodes order fuel frontiers ssa = some next) : motive next := by
  have frontier {var : String} (known : var ∈ allVariables graph) (list : List BlockId) (work : PhiWork)
      (before : motive work.ssa) : motive (list.foldl (placePhi var) work).ssa := by
    induction list generalizing work with
    | nil => exact before
    | cons y list ih => exact ih _ (step var known work y before)
  have loop {var : String} (known : var ∈ allVariables graph) (fuel : Nat) (work after : PhiWork)
      (before : motive work.ssa) (loops : placeLoop order frontiers var fuel work = some after) :
      motive after.ssa := by
    induction fuel generalizing work with
    | zero => simp [placeLoop] at loops
    | succ fuel ih =>
      rw [placeLoop] at loops
      split at loops
      · rwa [← Option.some.inj loops]
      · rename_i block rest _
        exact ih _ (frontier known _ { work with workList := rest } before) loops
  have all (list : List String) (known : ∀ var ∈ list, var ∈ allVariables graph) (before after : SsaFunction)
      (hh : motive before) (places : list.foldlM (placeVariable order fuel frontiers) before = some after) :
      motive after := by
    induction list generalizing before with
    | nil => rwa [← Option.some.inj places]
    | cons var list ih =>
      rw [foldlM_cons, Option.bind_eq_bind, Option.bind_eq_some_iff] at places
      obtain ⟨mid, fst, hl⟩ := places
      obtain ⟨work, loops, isMiddle⟩ := Option.map_eq_some_iff.mp fst
      apply ih (fun var mem => known var (.tail _ mem)) mid _ hl
      rw [← isMiddle]
      exact loop (known var (by simp)) fuel _ work hh loops
  exact all _ (fun var mem => (order.allVariables.mem_list _ var).mp mem) ssa next start runs

theorem placePhiNodes_useDef (runs : placePhiNodes order fuel frontiers ssa = some next) :
    next.useDef = ssa.useDef := by
  refine placePhiNodes_induction (motive := fun cur => cur.useDef = ssa.useDef) ?_ rfl runs
  intro var _ work y before
  unfold placePhi
  split
  · exact before
  · exact before

theorem placePhiNodes_fresh {placed : SsaFunction} (runs : placePhiNodes order fuel frontiers .new = some placed) :
    ∀ y, ∀ phi ∈ placed.phiNodes y, phi.varName ∈ allVariables graph ∧ phi.incoming = [] := by
  refine placePhiNodes_induction (motive := fun cur =>
    ∀ y, ∀ phi ∈ cur.phiNodes y, phi.varName ∈ allVariables graph ∧ phi.incoming = []) ?_ ?_ runs
  · intro var known work y before
    unfold placePhi
    split
    · exact before
    · intro tgt phi mem
      simp only at mem
      by_cases eq : tgt = y
      · subst eq
        rw [update_self, mem_append, mem_singleton] at mem
        rcases mem with old | new'
        · exact before tgt phi old
        · rw [new']
          exact ⟨known, rfl⟩
      · rw [update_of_ne eq] at mem
        exact before tgt phi mem
  · intro y phi mem
    exact absurd mem not_mem_nil

theorem buildUseDefChains_empty (order : BuildOrder graph) {state : Renaming}
    (empty : ∀ var stack, state.renameStacks var = some stack → stack = []) :
    buildUseDefChains order state = state := by
  have unlinked (block : BlockId) (uses : List UseeSite) : uses.foldl (linkUse block) state = state := by
    induction uses with
    | nil => rfl
    | cons use uses ih =>
      have eq : linkUse block state use = state := by
        unfold linkUse
        split
        · rename_i defId stack hit
          exact absurd (empty _ _ hit) (by simp)
        · rfl
      rw [foldl_cons, eq, ih]
  unfold buildUseDefChains
  generalize order.blocks.list graph.cfg.keys = blocks
  induction blocks with
  | nil => rfl
  | cons block blocks ih => rw [foldl_cons, unlinked, ih]

theorem analyzeEscapePatterns_frame (graph : FunctionGraph) (ssa : SsaFunction) :
    (analyzeEscapePatterns graph ssa).useDef = ssa.useDef ∧
      (analyzeEscapePatterns graph ssa).phiNodes = ssa.phiNodes := by
  have ret (uses : List UseeSite) (ssa : SsaFunction) :
      (uses.foldl returnUse ssa).useDef = ssa.useDef ∧ (uses.foldl returnUse ssa).phiNodes = ssa.phiNodes := by
    induction uses generalizing ssa with
    | nil => exact ⟨rfl, rfl⟩
    | cons use uses ih =>
      rw [foldl_cons, (ih _).1, (ih _).2, returnUse]
      split <;> exact ⟨rfl, rfl⟩
  unfold analyzeEscapePatterns
  split
  · exact ret _ _
  · exact ⟨rfl, rfl⟩

theorem renameVariables_keepsLinks {renamed : Renaming}
    (runs : renameVariables order fuel dominators ssa = some renamed) :
    renamed.ssa.useDef = ssa.useDef ∧ ∀ var stack, renamed.renameStacks var = some stack → stack = [] := by
  have hk := renameBlock_keepsLinks fuel runs
  refine ⟨hk.useDef, ?_⟩
  intro var stack hit
  rw [hk.renameStacks] at hit
  simp only at hit
  split at hit
  · exact (Option.some.inj hit).symm
  · simp at hit

theorem build_ok (runs : build order fuel = some (.ok ssa)) :
    ∃ dominators frontiers placed renamed, computeDominators order.edges fuel = some dominators ∧
      computeDominanceFrontiers order fuel dominators = some frontiers ∧
      placePhiNodes order fuel frontiers .new = some placed ∧
      renameVariables order fuel dominators placed = some renamed ∧
      ssa = analyzeEscapePatterns graph renamed.ssa := by
  unfold build at runs
  split at runs
  · simp at runs
  split at runs
  · simp at runs
  simp only [Option.bind_eq_bind, Option.bind_eq_some_iff, Option.some.injEq, Except.ok.injEq] at runs
  obtain ⟨dominators, computes, frontiers, marks, placed, places, renamed, renames, isSsa⟩ := runs
  rw [buildUseDefChains_empty order (renameVariables_keepsLinks renames).2] at isSsa
  exact ⟨dominators, frontiers, placed, renamed, computes, marks, places, renames, isSsa.symm⟩

theorem build_useDef (runs : build order fuel = some (.ok ssa)) (key : UseSiteKey) : ssa.useDef key = none := by
  obtain ⟨dominators, frontiers, placed, renamed, -, -, places, renames, isSsa⟩ := build_ok runs
  rw [isSsa, (analyzeEscapePatterns_frame graph _).1, (renameVariables_keepsLinks renames).1, placePhiNodes_useDef places]
  rfl

end Popped

section Ending

variable {dominators : ImmediateDominators}

theorem foldlM_total {σ β : Type} {step : σ → β → Option σ} (list : List β)
    (total : ∀ state, ∀ item ∈ list, ∃ next, step state item = some next) (state : σ) :
    ∃ next, list.foldlM step state = some next := by
  induction list generalizing state with
  | nil => exact ⟨state, rfl⟩
  | cons item list ih =>
    obtain ⟨mid, fst⟩ := total state item (by simp)
    rw [foldlM_cons, fst]
    exact ih (fun state item mem => total state item (.tail _ mem)) mid

variable {child parent : BlockId} {fuel : Nat} {space : Finset BlockId}

theorem recorded_parent (order : BuildOrder graph) (consistent : graph.cfg.Consistent)
    (joinFree : JoinFree graph.cfg) (records : Records graph.cfg dominators)
    (recorded : dominators child = some parent) (ne : child ≠ parent) :
    child ≠ graph.cfg.entry ∧ graph.cfg.Reachable child ∧ graph.cfg.Reachable parent ∧
      number order.edges child < number order.edges parent := by
  have other : child ≠ graph.cfg.entry := by
    rintro rfl
    rw [records.entry, Option.some.injEq] at recorded
    exact ne recorded
  have reachable := records.reachable child (by simp [recorded])
  have single := joinFree child reachable other
  obtain ⟨isPred, parentReachable⟩ := records.single child parent other single recorded
  obtain ⟨above, aboveReachable, edge, higher⟩ := exists_parent order.edges consistent reachable other
  have parts := ControlFlowGraph.edge_iff.mp edge
  have aboveIsPred := (consistent.agree above parts.1 child (reachable.cases consistent other).1).mp parts.2
  rw [single parent isPred above aboveIsPred parentReachable aboveReachable]
  exact ⟨other, reachable, aboveReachable, higher⟩

theorem runFrontier_total (order : BuildOrder graph) (consistent : graph.cfg.Consistent) (joinFree : JoinFree graph.cfg)
    (records : Records graph.cfg dominators) (block : BlockId) (fuel : Nat) (runner : BlockId)
    (frontiers : BlockId → Finset BlockId)
    (he : number order.edges graph.cfg.entry - number order.edges runner < fuel) :
    ∃ next, runFrontier dominators block fuel runner frontiers = some next := by
  induction fuel generalizing runner frontiers with
  | zero => exact absurd he (Nat.not_lt_zero _)
  | succ fuel ih =>
    rw [runFrontier]
    split
    · exact ⟨_, rfl⟩
    split
    · exact ⟨_, rfl⟩
    simp only
    split
    · exact ⟨_, rfl⟩
    · rename_i runnerDom recorded
      split
      · exact ⟨_, rfl⟩
      · rename_i ne
        obtain ⟨-, -, reachable, higher⟩ :=
          recorded_parent order consistent joinFree records recorded (Ne.symm ne)
        apply ih
        by_cases ie : runnerDom = graph.cfg.entry
        · rw [ie] at higher ⊢
          omega
        · have hlt := number_lt_entry order.edges consistent reachable ie
          omega

theorem computeDominanceFrontiers_total (order : BuildOrder graph) (consistent : graph.cfg.Consistent)
    (joinFree : JoinFree graph.cfg) (records : Records graph.cfg dominators)
    (he : number order.edges graph.cfg.entry < fuel) :
    ∃ frontiers, computeDominanceFrontiers order fuel dominators = some frontiers := by
  apply foldlM_total
  intro frontiers block _
  unfold blockFrontiers
  split
  · apply foldlM_total
    intro frontiers pred _
    exact runFrontier_total order consistent joinFree records block fuel pred frontiers (by omega)
  · exact ⟨_, rfl⟩

theorem placeLoop_total (order : BuildOrder graph) (all : ∀ id, id ∈ space) (frontiers : BlockId → Finset BlockId)
    (var : String) (fuel : Nat) (work : PhiWork)
    (he : work.workList.length + (space \ work.everOnWorkList).card < fuel) :
    ∃ next, placeLoop order frontiers var fuel work = some next := by
  have shrinks (list : List BlockId) (work : PhiWork) :
      (list.foldl (placePhi var) work).workList.length + (space \ (list.foldl (placePhi var) work).everOnWorkList).card ≤
        work.workList.length + (space \ work.everOnWorkList).card := by
    induction list generalizing work with
    | nil => exact Nat.le_refl _
    | cons y list ih =>
      refine (ih _).trans ?_
      unfold placePhi
      split
      · exact Nat.le_refl _
      · simp only
        split
        · rename_i old
          rw [Finset.insert_eq_of_mem old]
        · rename_i hf
          have mem : y ∈ space \ work.everOnWorkList := Finset.mem_sdiff.mpr ⟨all y, hf⟩
          have erased : space \ insert y work.everOnWorkList = (space \ work.everOnWorkList).erase y := by
            ext other
            simp only [Finset.mem_sdiff, Finset.mem_insert, Finset.mem_erase]
            tauto
          have pos := Finset.card_pos.mpr ⟨y, mem⟩
          rw [erased, Finset.card_erase_of_mem mem, length_append, length_singleton]
          omega
  induction fuel generalizing work with
  | zero => exact absurd he (Nat.not_lt_zero _)
  | succ fuel ih =>
    rw [placeLoop]
    split
    · exact ⟨_, rfl⟩
    · rename_i block rest isList
      apply ih
      have step := shrinks ((order.frontier block).list (frontiers block)) { work with workList := rest }
      rw [isList, length_cons] at he
      simp only at step
      omega

theorem placePhiNodes_total (order : BuildOrder graph) (all : ∀ id, id ∈ space)
    (frontiers : BlockId → Finset BlockId) (he : graph.cfg.keys.card + space.card < fuel) (ssa : SsaFunction) :
    ∃ next, placePhiNodes order fuel frontiers ssa = some next := by
  apply foldlM_total
  intro ssa var _
  have length : ((order.defBlocks var).list (varDefBlocks graph var)).length ≤ graph.cfg.keys.card := by
    rw [← toFinset_card_of_nodup ((order.defBlocks var).nodup_list _)]
    apply Finset.card_le_card
    intro id mem
    rw [mem_toFinset, (order.defBlocks var).mem_list] at mem
    exact (Finset.mem_filter.mp mem).1
  have rest := Finset.card_le_card (Finset.sdiff_subset (s := space) (t := varDefBlocks graph var))
  obtain ⟨work, loops⟩ := placeLoop_total order all frontiers var fuel
    ⟨ssa, (order.defBlocks var).list (varDefBlocks graph var), ∅, varDefBlocks graph var⟩ (by simp only; omega)
  exact ⟨work.ssa, by rw [placeVariable, loops]; rfl⟩

theorem mem_domTreeChildren : child ∈ domTreeChildren order dominators parent ↔
    child ∈ insert graph.cfg.entry graph.cfg.keys ∧ dominators child = some parent ∧ child ≠ parent := by
  rw [domTreeChildren, mem_filter, order.dominators.mem_list, decide_eq_true_eq]

theorem renameBlock_total (order : BuildOrder graph) (consistent : graph.cfg.Consistent) (joinFree : JoinFree graph.cfg)
    (records : Records graph.cfg dominators) (fuel : Nat) (block : BlockId) (state : Renaming)
    (he : number order.edges block < fuel) :
    ∃ next, renameBlock order dominators fuel block state = some next := by
  induction fuel generalizing block state with
  | zero => exact absurd he (Nat.not_lt_zero _)
  | succ fuel ih =>
    obtain ⟨explored, explores⟩ := foldlM_total (domTreeChildren order dominators block) (by
        intro state child mem
        obtain ⟨-, recorded, ne⟩ := mem_domTreeChildren.mp mem
        have lower := (recorded_parent order consistent joinFree records recorded ne).2.2.2
        exact ih child state (by omega)) (enterBlock order block state).1
    rw [renameBlock]
    simp only [explores, Option.bind_eq_bind, Option.bind_some]
    exact ⟨_, rfl⟩

end Ending

section Operands

variable {dominators : ImmediateDominators}

/-- The phi nodes at the entry, as their variables and the blocks their operands come from. -/
def operands (graph : FunctionGraph) (ssa : SsaFunction) : List (String × List BlockId) :=
  (ssa.phiNodes graph.cfg.entry).map fun phi => (phi.varName, phi.incoming.map Prod.fst)

def extend (blocks : List BlockId) (nodes : List (String × List BlockId)) : List (String × List BlockId) :=
  nodes.map fun node => (node.1, node.2 ++ blocks)

@[simp] theorem extend_nil (nodes : List (String × List BlockId)) : extend [] nodes = nodes := by
  simp [extend]

theorem extend_extend (fst snd : List BlockId) (nodes : List (String × List BlockId)) :
    extend snd (extend fst nodes) = extend (fst ++ snd) nodes := by
  simp [extend, comp_def]

variable {p : String → Prop} {state : Renaming × (String → Nat)} {var other : String} {block : BlockId}

theorem mem_extend {blocks : List BlockId} {nodes : List (String × List BlockId)} (all : ∀ node ∈ nodes, p node.1) :
    ∀ node ∈ extend blocks nodes, p node.1 := by
  intro node mem
  obtain ⟨old, isOld, eq⟩ := mem_map.mp mem
  rw [← eq]
  exact all old isOld

def leadsToEntry (graph : FunctionGraph) (block : BlockId) : Bool :=
  decide (block ∈ graph.cfg.keys ∧ graph.cfg.entry ∈ (graph.cfg.block block).successors)

def Filled (renameStacks : String → Option (List UInt32)) (var : String) : Prop :=
  ∃ value stack, renameStacks var = some (value :: stack)

theorem pushValue_filled (v : UInt32) (filled : Filled state.1.renameStacks var) :
    Filled (pushValue state other v).1.renameStacks var := by
  unfold pushValue
  split
  · by_cases eq : var = other
    · subst eq
      exact ⟨v, _, update_self _ _ _⟩
    · obtain ⟨top, stack, hit⟩ := filled
      exact ⟨top, stack, (update_of_ne eq _ _).trans hit⟩
  · exact filled

theorem pushValue_self (v : UInt32) (has : (state.1.renameStacks var).isSome) :
    Filled (pushValue state var v).1.renameStacks var := by
  obtain ⟨stack, hit⟩ := Option.isSome_iff_exists.mp has
  unfold pushValue
  rw [hit]
  exact ⟨v, stack, update_self _ _ _⟩

theorem pushValue_isSome (v : UInt32) (has : (state.1.renameStacks var).isSome) :
    ((pushValue state other v).1.renameStacks var).isSome := by
  unfold pushValue
  split
  · by_cases eq : var = other
    · simp [eq]
    · simpa [update_of_ne eq] using has
  · exact has

theorem foldl_renamePhi_filled (block : BlockId) (phis : List PhiNode) (filled : Filled state.1.renameStacks var) :
    Filled (phis.foldl (renamePhi block) state).1.renameStacks var := by
  induction phis generalizing state with
  | nil => exact filled
  | cons phi phis ih =>
    apply ih
    exact pushValue_filled _ filled

theorem foldl_renamePhi_self (block : BlockId) (phis : List PhiNode) {phi : PhiNode} (mem : phi ∈ phis)
    (has : (state.1.renameStacks phi.varName).isSome) :
    Filled (phis.foldl (renamePhi block) state).1.renameStacks phi.varName := by
  induction phis generalizing state with
  | nil => exact absurd mem not_mem_nil
  | cons head phis ih =>
    rcases mem_cons.mp mem with eq | hl
    · rw [← eq]
      exact foldl_renamePhi_filled block phis (pushValue_self _ has)
    · exact ih hl (pushValue_isSome _ has)

theorem foldl_renameDefinition_filled (definitions : List DefSite) (filled : Filled state.1.renameStacks var) :
    Filled (definitions.foldl renameDefinition state).1.renameStacks var := by
  induction definitions generalizing state with
  | nil => exact filled
  | cons definition definitions ih =>
    apply ih
    exact pushValue_filled _ filled

theorem foldl_renamePhi_phiNodes (block : BlockId) (phis : List PhiNode) (state : Renaming × (String → Nat)) :
    (phis.foldl (renamePhi block) state).1.ssa.phiNodes = state.1.ssa.phiNodes := by
  induction phis generalizing state with
  | nil => rfl
  | cons phi phis ih =>
    rw [foldl_cons, ih, renamePhi, pushValue_ssa]
    rfl

theorem foldl_renameDefinition_phiNodes (definitions : List DefSite) (state : Renaming × (String → Nat)) :
    (definitions.foldl renameDefinition state).1.ssa.phiNodes = state.1.ssa.phiNodes := by
  induction definitions generalizing state with
  | nil => rfl
  | cons definition definitions ih =>
    rw [foldl_cons, ih, renameDefinition, pushValue_ssa]
    rfl

theorem foldl_fillSuccessor_phiNodes (block : BlockId) (successors : List BlockId) (nodup : successors.Nodup)
    (state : Renaming) (y : BlockId) :
    (successors.foldl (fillSuccessor block) state).ssa.phiNodes y =
      if y ∈ successors then (state.ssa.phiNodes y).map (fillPhi state.renameStacks block)
      else state.ssa.phiNodes y := by
  induction successors generalizing state with
  | nil => simp
  | cons succ successors ih =>
    rw [nodup_cons] at nodup
    rw [foldl_cons, ih nodup.2]
    by_cases eq : y = succ
    · subst eq
      rw [if_neg nodup.1, if_pos (.head _)]
      exact update_self _ _ _
    · have unchanged : (fillSuccessor block state succ).ssa.phiNodes y = state.ssa.phiNodes y :=
        update_of_ne eq _ _
      rw [unchanged]
      simp only [mem_cons, eq, false_or]
      rfl

theorem map_fillPhi (renameStacks : String → Option (List UInt32)) (block : BlockId) (phis : List PhiNode)
    (filled : ∀ phi ∈ phis, Filled renameStacks phi.varName) :
    (phis.map (fillPhi renameStacks block)).map (fun phi => (phi.varName, phi.incoming.map Prod.fst)) =
      extend [block] (phis.map fun phi => (phi.varName, phi.incoming.map Prod.fst)) := by
  simp only [extend, map_map]
  apply map_congr_left
  intro phi mem
  obtain ⟨v, stack, hit⟩ := filled phi mem
  simp [fillPhi, hit]

/-- Before the entry its variables have stacks, below it they have values. -/
def Ready (graph : FunctionGraph) (block : BlockId) (state : Renaming) : Prop :=
  ∀ node ∈ operands graph state.ssa,
    if block = graph.cfg.entry then (state.renameStacks node.1).isSome else Filled state.renameStacks node.1

theorem mem_operands {ssa : SsaFunction} :
    (∀ node ∈ operands graph ssa, p node.1) ↔ ∀ phi ∈ ssa.phiNodes graph.cfg.entry, p phi.varName := by
  simp [operands]

theorem enterBlock_operands (order : BuildOrder graph) {state : Renaming} (ready : Ready graph block state) :
    operands graph (enterBlock order block state).1.ssa =
        extend ([block].filter (leadsToEntry graph)) (operands graph state.ssa) ∧
      ∀ node ∈ operands graph state.ssa, Filled (enterBlock order block state).1.renameStacks node.1 := by
  have phisFilled : ∀ node ∈ operands graph state.ssa, Filled
      ((state.ssa.phiNodes block).foldl (renamePhi block) (state, fun _ => 0)).1.renameStacks node.1 := by
    by_cases ie : block = graph.cfg.entry
    · simp only [Ready, if_pos ie] at ready
      rw [mem_operands (p := fun var => (state.renameStacks var).isSome)] at ready
      rw [mem_operands, ← ie]
      rw [← ie] at ready
      intro phi mem
      exact foldl_renamePhi_self block _ mem (ready phi mem)
    · simp only [Ready, if_neg ie] at ready
      intro node mem
      exact foldl_renamePhi_filled block _ (ready node mem)
  unfold enterBlock
  split
  · rename_i has
    have definedFilled : ∀ node ∈ operands graph state.ssa, Filled ((graph.definitions block).foldl renameDefinition
        ((state.ssa.phiNodes block).foldl (renamePhi block) (state, fun _ => 0))).1.renameStacks node.1 :=
      fun node mem => foldl_renameDefinition_filled _ (phisFilled node mem)
    refine ⟨?_, ?_⟩
    · unfold operands
      rw [foldl_fillSuccessor_phiNodes block _ (order.edges.successors_nodup block),
        foldl_renameDefinition_phiNodes, foldl_renamePhi_phiNodes]
      have isSuccessor := order.edges.mem_successors block graph.cfg.entry
      by_cases leads : graph.cfg.entry ∈ (graph.cfg.block block).successors
      · rw [if_pos (isSuccessor.mpr leads), map_fillPhi _ _ _ (mem_operands.mp definedFilled), filter_cons_of_pos]
        · rfl
        · simp [leadsToEntry, has, leads]
      · rw [if_neg (mt isSuccessor.mp leads), filter_cons_of_neg]
        · exact (extend_nil _).symm
        · simp [leadsToEntry, leads]
    · intro node mem
      rw [foldl_fillSuccessor_stacks]
      exact definedFilled node mem
  · rename_i ha
    refine ⟨?_, phisFilled⟩
    unfold operands
    rw [foldl_renamePhi_phiNodes, filter_cons_of_neg]
    · exact (extend_nil _).symm
    · simp [leadsToEntry, ha]

def treeOrder (order : BuildOrder graph) (dominators : ImmediateDominators) : Nat → BlockId → List BlockId
  | 0, _ => []
  | fuel + 1, block => block :: (domTreeChildren order dominators block).flatMap (treeOrder order dominators fuel)

theorem renameBlock_operands (records : Records graph.cfg dominators) (fuel : Nat) {state next : Renaming}
    (ready : Ready graph block state) (runs : renameBlock order dominators fuel block state = some next) :
    operands graph next.ssa =
      extend ((treeOrder order dominators fuel block).filter (leadsToEntry graph)) (operands graph state.ssa) := by
  induction fuel generalizing block state next with
  | zero => simp [renameBlock] at runs
  | succ fuel ih =>
    have kids (list : List BlockId) (notEntry : ∀ child ∈ list, child ≠ graph.cfg.entry) {before after : Renaming}
        (filled : ∀ node ∈ operands graph before.ssa, Filled before.renameStacks node.1)
        (explores : list.foldlM (fun state child => renameBlock order dominators fuel child state) before = some after) :
        operands graph after.ssa = extend ((list.flatMap (treeOrder order dominators fuel)).filter (leadsToEntry graph))
          (operands graph before.ssa) := by
      induction list generalizing before with
      | nil =>
        rw [← Option.some.inj explores]
        exact (extend_nil _).symm
      | cons child list rest =>
        rw [foldlM_cons, Option.bind_eq_bind, Option.bind_eq_some_iff] at explores
        obtain ⟨mid, fst, hl⟩ := explores
        have childReady : Ready graph child before := by
          simp only [Ready, if_neg (notEntry child (by simp))]
          exact filled
        have early := ih childReady fst
        have middleFilled : ∀ node ∈ operands graph mid.ssa, Filled mid.renameStacks node.1 := by
          rw [early, (renameBlock_keepsLinks fuel fst).renameStacks]
          exact mem_extend filled
        rw [rest (fun other mem => notEntry other (.tail _ mem)) middleFilled hl, early,
          extend_extend, flatMap_cons, filter_append]
    rw [renameBlock] at runs
    simp only [Option.bind_eq_bind, Option.bind_eq_some_iff, Option.some.injEq] at runs
    obtain ⟨explored, explores, isNext⟩ := runs
    obtain ⟨entered, filled⟩ := enterBlock_operands order ready
    have notEntry : ∀ child ∈ domTreeChildren order dominators block, child ≠ graph.cfg.entry := by
      intro child mem ie
      obtain ⟨-, recorded, ne⟩ := mem_domTreeChildren.mp mem
      rw [ie, records.entry, Option.some.injEq] at recorded
      exact ne (ie.trans recorded)
    have hlt := kids _ notEntry (by rw [entered]; exact mem_extend filled) explores
    rw [← isNext]
    show operands graph explored.ssa = _
    rw [hlt, entered, extend_extend, ← filter_append]
    rfl

end Operands

section Tree

variable {dominators : ImmediateDominators}

/-- The block on the left is below the one on the right in the recorded tree. -/
def Under (dominators : ImmediateDominators) : BlockId → BlockId → Prop :=
  Relation.ReflTransGen fun child parent => dominators child = some parent ∧ child ≠ parent

theorem under_of_mem_treeOrder (fuel : Nat) {block other : BlockId}
    (mem : other ∈ treeOrder order dominators fuel block) : Under dominators other block := by
  induction fuel generalizing block with
  | zero => exact absurd mem not_mem_nil
  | succ fuel ih =>
    rw [treeOrder, mem_cons, mem_flatMap] at mem
    rcases mem with eq | ⟨child, isChild, hlt⟩
    · rw [eq]
      exact .refl
    · exact (ih hlt).tail (mem_domTreeChildren.mp isChild).2

section Parents

variable (consistent : graph.cfg.Consistent) (joinFree : JoinFree graph.cfg) (records : Records graph.cfg dominators)

include consistent joinFree records

variable {block : BlockId}

theorem number_le_of_under (order : BuildOrder graph) {other : BlockId} (under : Under dominators other block) :
    number order.edges other ≤ number order.edges block := by
  induction under with
  | refl => exact Nat.le_refl _
  | tail _ step ih =>
    exact ih.trans (recorded_parent order consistent joinFree records step.1 step.2).2.2.2.le

theorem nodup_treeOrder (fuel : Nat) (block : BlockId) : (treeOrder order dominators fuel block).Nodup := by
  induction fuel generalizing block with
  | zero => exact nodup_nil
  | succ fuel ih =>
    have lower {child : BlockId} (isChild : child ∈ domTreeChildren order dominators block) :
        number order.edges child < number order.edges block :=
      (recorded_parent order consistent joinFree records (mem_domTreeChildren.mp isChild).2.1
        (mem_domTreeChildren.mp isChild).2.2).2.2.2
    have apart {child sibling : BlockId} (isChild : child ∈ domTreeChildren order dominators block)
        (isSibling : sibling ∈ domTreeChildren order dominators block) (ne : child ≠ sibling) :
        ¬ Under dominators child sibling := by
      intro under
      rcases Relation.ReflTransGen.cases_head under with eq | ⟨parent, step, rest⟩
      · exact ne eq
      · have isBlock := (mem_domTreeChildren.mp isChild).2.1.symm.trans step.1
        rw [← Option.some.inj isBlock] at rest
        have above := number_le_of_under consistent joinFree records order rest
        exact absurd (lower isSibling) (Nat.not_lt.mpr above)
    have unique : Relator.RightUnique fun child parent => dominators child = some parent ∧ child ≠ parent :=
      fun child first snd isFirst isSecond => Option.some.inj (isFirst.1.symm.trans isSecond.1)
    rw [treeOrder, nodup_cons, nodup_flatMap]
    refine ⟨?_, fun child _ => ih child, ?_⟩
    · rw [mem_flatMap]
      rintro ⟨child, isChild, mem⟩
      have above := number_le_of_under consistent joinFree records order (under_of_mem_treeOrder fuel mem)
      exact absurd (lower isChild) (Nat.not_lt.mpr above)
    · refine List.Nodup.pairwise_of_forall_ne ((order.dominators.nodup_list _).filter _) ?_
      intro child isChild sibling isSibling ne other inChild inSibling
      rcases Relation.ReflTransGen.total_of_right_unique unique (under_of_mem_treeOrder fuel inChild)
        (under_of_mem_treeOrder fuel inSibling) with hlt | above
      · exact apart isChild isSibling ne hlt
      · exact apart isSibling isChild (Ne.symm ne) above

theorem mem_treeOrder_child (fuel : Nat) {parent child : BlockId} (he : number order.edges block < fuel)
    (mem : parent ∈ treeOrder order dominators fuel block)
    (isChild : child ∈ domTreeChildren order dominators parent) :
    child ∈ treeOrder order dominators fuel block := by
  induction fuel generalizing block with
  | zero => exact absurd he (Nat.not_lt_zero _)
  | succ fuel ih =>
    have lower {child parent : BlockId} (isChild : child ∈ domTreeChildren order dominators parent) :
        number order.edges child < number order.edges parent :=
      (recorded_parent order consistent joinFree records (mem_domTreeChildren.mp isChild).2.1
        (mem_domTreeChildren.mp isChild).2.2).2.2.2
    rw [treeOrder, mem_cons, mem_flatMap] at mem
    rw [treeOrder, mem_cons, mem_flatMap]
    rcases mem with eq | ⟨between, isBetween, hlt⟩
    · rw [eq] at isChild
      have childLower := lower isChild
      refine .inr ⟨child, isChild, ?_⟩
      obtain ⟨rest, isSucc⟩ := Nat.exists_eq_succ_of_ne_zero (show fuel ≠ 0 by omega)
      rw [isSucc, treeOrder]
      exact .head _
    · have betweenLower := lower isBetween
      exact .inr ⟨between, isBetween, ih (by omega) hlt⟩

theorem mem_treeOrder (covers : Covers graph.cfg dominators) {fuel : Nat}
    (he : number order.edges graph.cfg.entry < fuel) (reachable : graph.cfg.Reachable block) :
    block ∈ treeOrder order dominators fuel graph.cfg.entry := by
  induction hb : number order.edges graph.cfg.entry - number order.edges block
    using Nat.strong_induction_on generalizing block with
  | _ measure ih =>
    by_cases ie : block = graph.cfg.entry
    · obtain ⟨rest, isSucc⟩ := Nat.exists_eq_succ_of_ne_zero (show fuel ≠ 0 by omega)
      rw [ie, isSucc, treeOrder]
      exact .head _
    · obtain ⟨parent, recorded⟩ := Option.isSome_iff_exists.mp (covers block reachable)
      have inTable := (reachable.cases consistent ie).1
      have single := joinFree block reachable ie
      obtain ⟨isPred, parentReachable⟩ := records.single block parent ie single recorded
      have immediate := isImmediateDominator_of_single consistent order.edges reachable ie single isPred
        parentReachable
      obtain ⟨-, -, -, lower⟩ := recorded_parent order consistent joinFree records recorded
        (Ne.symm immediate.1)
      have belowEntry := number_lt_entry order.edges consistent reachable ie
      have parentMem := ih _ (by omega) parentReachable rfl
      exact mem_treeOrder_child consistent joinFree records fuel he parentMem
        (mem_domTreeChildren.mpr ⟨Finset.mem_insert_of_mem inTable, recorded, Ne.symm immediate.1⟩)

end Parents

end Tree

section Linking

theorem exists_build (consistent : graph.cfg.Consistent) (joinFree : JoinFree graph.cfg) (order : BuildOrder graph)
    (has : graph.cfg.entry ∈ graph.cfg.keys) :
    ∃ ssa, Builds order (.ok ssa) ∧ ∀ phi ∈ ssa.phiNodes graph.cfg.entry,
      ∀ pred ∈ (graph.cfg.block graph.cfg.entry).predecessors, graph.cfg.Reachable pred →
        (phi.incoming.map Prod.fst).count pred = 1 := by
  have finite : Finite BlockId := Finite.of_injective UInt64.toFin fun _ _ => UInt64.toFin_inj.mp
  let space := (Set.toFinite (Set.univ : Set BlockId)).toFinset
  have all : ∀ id, id ∈ space := fun id => by simp [space]
  let fuel := number order.edges graph.cfg.entry + graph.cfg.keys.card + space.card + 1
  obtain ⟨dominators, computes⟩ := iterate_total order.edges fuel consistent joinFree (maxIterations graph.cfg)
    records_initial
  obtain ⟨records, covers⟩ := computeDominators_spec consistent computes
  obtain ⟨frontiers, marks⟩ := computeDominanceFrontiers_total order consistent joinFree records
    (show number order.edges graph.cfg.entry < fuel by omega)
  obtain ⟨placed, places⟩ := placePhiNodes_total order all frontiers
    (show graph.cfg.keys.card + space.card < fuel by omega) .new
  obtain ⟨renamed, renames⟩ := renameBlock_total order consistent joinFree records fuel graph.cfg.entry
    ⟨placed, fun var => if var ∈ allVariables graph then some [] else none⟩ (by omega)
  have hf := placePhiNodes_fresh places
  refine ⟨analyzeEscapePatterns graph renamed.ssa, ⟨fuel, ?_⟩, ?_⟩
  · have nonempty : graph.cfg.keys ≠ ∅ := Finset.ne_empty_of_mem has
    have notLinked := buildUseDefChains_empty order (renameVariables_keepsLinks renames).2
    rw [build, if_neg nonempty, if_neg (not_not_intro has), computeDominators, computes]
    simp only [Option.bind_eq_bind, Option.bind_some, marks, places, renameVariables, renames, notLinked]
  · rw [(analyzeEscapePatterns_frame graph _).2]
    have ready : Ready graph graph.cfg.entry
        ⟨placed, fun var => if var ∈ allVariables graph then some [] else none⟩ := by
      simp only [Ready, if_true]
      rw [mem_operands (p := fun var => (if var ∈ allVariables graph then some ([] : List UInt32) else none).isSome)]
      intro phi mem
      simp [(hf graph.cfg.entry phi mem).1]
    have traced := renameBlock_operands records fuel ready renames
    intro phi mem pred isPred reachable
    have node : (phi.varName, phi.incoming.map Prod.fst) ∈ operands graph renamed.ssa :=
      mem_map_of_mem mem
    rw [traced] at node
    obtain ⟨old, isOld, eq⟩ := mem_map.mp node
    obtain ⟨oldPhi, oldMem, isOldPhi⟩ := mem_map.mp isOld
    have blocks : phi.incoming.map Prod.fst =
        (treeOrder order dominators fuel graph.cfg.entry).filter (leadsToEntry graph) := by
      rw [← (Prod.mk.inj eq).2, ← isOldPhi, (hf graph.cfg.entry oldPhi oldMem).2]
      rfl
    have predPresent := consistent.predecessors_subset _ has isPred
    have leads : leadsToEntry graph pred = true := by
      simp [leadsToEntry, predPresent, (consistent.agree pred predPresent _ has).mpr isPred]
    rw [blocks]
    apply count_eq_one_of_mem ((nodup_treeOrder consistent joinFree records fuel graph.cfg.entry).filter _)
    rw [mem_filter]
    exact ⟨mem_treeOrder consistent joinFree records covers (by omega) reachable, leads⟩

theorem noReachedUse_of_links
    (links : ∃ res, Builds order res ∧ ∀ ssa, res = .ok ssa → LinksUses graph ssa) :
    graph.NoReachedUse := by
  obtain ⟨res, ⟨fuel, runs⟩, linksUses⟩ := links
  intro id has reach use reached
  have entryPresent : graph.cfg.entry ∈ graph.cfg.keys := by
    by_cases ie : id = graph.cfg.entry
    · rwa [← ie]
    · exact entry_mem_keys reach ie
  cases res with
  | error failure =>
    rw [build, if_neg (Finset.ne_empty_of_mem has), if_neg (not_not_intro entryPresent)] at runs
    simp [Option.bind_eq_some_iff] at runs
  | ok ssa =>
    obtain ⟨v, linked, -⟩ := (linksUses ssa rfl).linked id has reach use reached
    rw [build_useDef runs] at linked
    simp at linked

/-- A reached use in a reachable block is never linked, and without joins the rest of the linking is done. -/
theorem build_linksUses_iff (graph : FunctionGraph) (consistent : graph.cfg.Consistent) :
    (∀ order : BuildOrder graph,
      (∃ result, Builds order result ∧ ∀ ssa, result = .ok ssa → LinksUses graph ssa) → graph.NoReachedUse) ∧
    (JoinFree graph.cfg → ∀ order : BuildOrder graph,
      ((∃ result, Builds order result ∧ ∀ ssa, result = .ok ssa → LinksUses graph ssa) ↔ graph.NoReachedUse)) := by
  refine ⟨fun order => noReachedUse_of_links, fun joinFree order => ⟨noReachedUse_of_links, ?_⟩⟩
  intro noReachedUse
  by_cases empty : graph.cfg.keys = ∅
  · exact ⟨_, ⟨0, by rw [build, if_pos empty]⟩, fun ssa impossible => absurd impossible (by simp)⟩
  by_cases present : graph.cfg.entry ∈ graph.cfg.keys
  · obtain ⟨ssa, builds, merged⟩ := exists_build consistent joinFree order present
    refine ⟨_, builds, ?_⟩
    intro built isBuilt
    rw [← Except.ok.inj isBuilt]
    refine ⟨?_, ?_⟩
    · intro id inTable reachable use reached
      exact absurd reached (noReachedUse id inTable reachable use)
    · intro join inTable reachable isJoin phi mem pred isPred predReachable _
      have isEntry : join = graph.cfg.entry := by
        by_contra other
        exact isJoin (joinFree join reachable other)
      subst isEntry
      exact merged phi mem pred isPred predReachable
  · exact ⟨_, ⟨0, by rw [build, if_neg empty, if_pos present]⟩, fun ssa impossible => absurd impossible (by simp)⟩

def straight (uses : List UseeSite) : FunctionGraph where
  cfg :=
    { keys := {0, 1}
      block := fun id => if id = 0 then ⟨∅, {1}⟩ else ⟨{0}, ∅⟩
      entry := 0 }
  exit := 1
  definitions id := if id = 0 then [⟨0, 7, true⟩] else []
  uses id := if id = 1 then uses else []

theorem straight_consistent (uses : List UseeSite) : (straight uses).cfg.Consistent := by
  have all (p : BlockId → Prop) (hh : p 0 ∧ p 1) : ∀ id ∈ (straight uses).cfg.keys, p id := by
    simp [straight, hh]
  refine ⟨all _ ?_, all _ ?_, all _ ?_⟩ <;> simp [straight]

theorem straight_edge (uses : List UseeSite) : (straight uses).cfg.Edge 0 1 :=
  ControlFlowGraph.edge_iff.mpr ⟨by simp [straight], by simp [straight]⟩

theorem build_linksUses_iff_straight :
    ∃ order : BuildOrder (straight []), ∃ result, Builds order result ∧
      ∀ ssa, result = .ok ssa → LinksUses (straight []) ssa := by
  have joinFree : JoinFree (straight []).cfg := by
    intro id _ _ p isP q isQ _ _
    by_cases isZero : id = 0
    · simp [straight, isZero] at isP
    · simp only [straight, if_neg isZero, Finset.mem_singleton] at isP isQ
      rw [isP, isQ]
  refine ⟨⟨⟨fun id => ((straight []).cfg.block id).successors.toList,
    fun id => ((straight []).cfg.block id).predecessors.toList, fun _ _ => Finset.mem_toList, fun _ _ => Finset.mem_toList,
    fun _ => Finset.nodup_toList _, fun _ => Finset.nodup_toList _⟩, .ofToList, .ofToList, .ofToList,
    fun _ => .ofToList, fun _ => .ofToList⟩, ?_⟩
  rw [(build_linksUses_iff (straight []) (straight_consistent [])).2 joinFree]
  intro id _ _ use reached
  have none' := reached.1
  simp [straight] at none'

/-- The reference is defined at the entry and used at the exit. -/
theorem straight_not_linksUses :
    (straight [⟨1, 7⟩]).cfg.Consistent ∧
      ¬ ∃ order : BuildOrder (straight [⟨1, 7⟩]), ∃ result, Builds order result ∧
        ∀ ssa, result = .ok ssa → LinksUses (straight [⟨1, 7⟩]) ssa := by
  refine ⟨straight_consistent _, ?_⟩
  rintro ⟨order, links⟩
  have edge := straight_edge [⟨1, 7⟩]
  have entryReachable : (straight [⟨1, 7⟩]).cfg.Reachable 0 := ControlFlowGraph.reachable_entry
  apply noReachedUse_of_links links 1 (by simp [straight]) (entryReachable.step edge) ⟨1, 7⟩
  refine ⟨by simp [straight], by simp [straight, FunctionGraph.Defines], ?_⟩
  exact .start entryReachable ⟨⟨0, 7, true⟩, by simp [straight], rfl⟩ edge

end Linking

end SsaBuilder

end Cbgr
