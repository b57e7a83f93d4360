import Verum.Cbgr.SsaDominators

namespace Cbgr

/-- A `u64` identifier. -/
abbrev RefId := UInt64

structure DefSite where
  block : BlockId
  reference : RefId
  isStackAllocated : Bool

structure UseeSite where
  block : BlockId
  reference : RefId

/-- A control flow graph with the definitions and uses of references in its blocks. -/
structure FunctionGraph where
  cfg : ControlFlowGraph
  exit : BlockId
  definitions : BlockId → List DefSite
  uses : BlockId → List UseeSite

inductive DefKind where
  | regular
  | phi
  | parameter
  | returned
  | heapStore
  | closure
  deriving DecidableEq

structure SsaValue where
  id : UInt32
  isReference : Bool
  name : String
  definition : DefSite
  defKind : DefKind

structure UseSiteKey where
  block : BlockId
  instruction : Nat
  reference : RefId
  deriving DecidableEq

namespace UseSiteKey

/-- The conversion from a use site, which has no instruction index. -/
def ofUse (use : UseeSite) : UseSiteKey := ⟨use.block, 0, use.reference⟩

end UseSiteKey

structure PhiNode where
  varName : String
  resultId : UInt32
  incoming : List (BlockId × UInt32)

/-- The values are listed last first; `phiBlocks` are the keys of the table of phi nodes. -/
structure SsaFunction where
  values : List SsaValue
  useDef : UseSiteKey → Option UInt32
  defUse : UInt32 → Finset UseSiteKey
  phiBlocks : Finset BlockId
  phiNodes : BlockId → List PhiNode
  returnValues : Finset UInt32
  heapStores : List UInt32
  nextId : UInt32
  varVersions : String → List UInt32

namespace SsaFunction

def new : SsaFunction := ⟨[], fun _ => none, fun _ => ∅, ∅, fun _ => [], ∅, [], 0, fun _ => []⟩

def addValue (ssa : SsaFunction) (value : SsaValue) : SsaFunction :=
  { ssa with
    varVersions := Function.update ssa.varVersions value.name (ssa.varVersions value.name ++ [value.id])
    values := value :: ssa.values.filter fun old => old.id ≠ value.id }

def recordUse (ssa : SsaFunction) (key : UseSiteKey) (defId : UInt32) : SsaFunction :=
  { ssa with
    useDef := Function.update ssa.useDef key (some defId)
    defUse := Function.update ssa.defUse defId (insert key (ssa.defUse defId)) }

def escapesViaReturn (ssa : SsaFunction) (valueId : UInt32) : Bool :=
  if valueId ∈ ssa.returnValues then true
  else decide (∃ block ∈ ssa.phiBlocks, ∃ phi ∈ ssa.phiNodes block,
    (∃ entry ∈ phi.incoming, entry.2 = valueId) ∧ phi.resultId ∈ ssa.returnValues)

end SsaFunction

inductive SsaError where
  | invalidCfg (message : String)
  | noEntryBlock
  deriving DecidableEq

/-- The order in which a hash set is iterated over, each element once. -/
structure IterationOrder (α : Type) where
  list : Finset α → List α
  mem_list : ∀ set item, item ∈ list set ↔ item ∈ set
  nodup_list : ∀ set, (list set).Nodup

noncomputable def IterationOrder.ofToList {α : Type} : IterationOrder α :=
  ⟨Finset.toList, fun _ _ => Finset.mem_toList, Finset.nodup_toList⟩

/-- The orders in which the hash sets and hash maps of one run of the builder are iterated over. -/
structure BuildOrder (graph : FunctionGraph) where
  edges : EdgeOrder graph.cfg
  blocks : IterationOrder BlockId
  dominators : IterationOrder BlockId
  allVariables : IterationOrder String
  defBlocks : String → IterationOrder BlockId
  frontier : BlockId → IterationOrder BlockId

namespace SsaBuilder

variable {graph : FunctionGraph} (order : BuildOrder graph)

def varName (reference : RefId) : String := "ref_" ++ toString reference.toNat

def definedIn (graph : FunctionGraph) (id : BlockId) : Finset String :=
  ((graph.definitions id).map fun definition => varName definition.reference).toFinset

def allVariables (graph : FunctionGraph) : Finset String := graph.cfg.keys.biUnion (definedIn graph)

def varDefBlocks (graph : FunctionGraph) (var : String) : Finset BlockId :=
  graph.cfg.keys.filter fun id => var ∈ definedIn graph id

/-- The blocks pushed below `dom` while the recorded dominators are iterated over. -/
def domTreeChildren (dominators : ImmediateDominators) (dom : BlockId) : List BlockId :=
  (order.dominators.list (insert graph.cfg.entry graph.cfg.keys)).filter fun id =>
    decide (dominators id = some dom ∧ id ≠ dom)

/-- The loop up the dominator tree from one predecessor of `block`. Without fuel it has not ended. -/
def runFrontier (dominators : ImmediateDominators) (block : BlockId) :
    Nat → BlockId → (BlockId → Finset BlockId) → Option (BlockId → Finset BlockId)
  | 0, _, _ => none
  | fuel + 1, runner, frontiers =>
    match dominators block with
    | none => some frontiers
    | some dom =>
      if runner = dom then some frontiers
      else
        let marked := Function.update frontiers runner (insert block (frontiers runner))
        match dominators runner with
        | none => some marked
        | some runnerDom =>
          if runnerDom = runner then some marked else runFrontier dominators block fuel runnerDom marked

def blockFrontiers (fuel : Nat) (dominators : ImmediateDominators) (frontiers : BlockId → Finset BlockId)
    (block : BlockId) : Option (BlockId → Finset BlockId) :=
  if 2 ≤ (graph.cfg.block block).predecessors.card then
    (order.edges.predecessors block).foldlM
      (fun frontiers pred => runFrontier dominators block fuel pred frontiers) frontiers
  else some frontiers

def computeDominanceFrontiers (fuel : Nat) (dominators : ImmediateDominators) :
    Option (BlockId → Finset BlockId) :=
  (order.blocks.list graph.cfg.keys).foldlM (blockFrontiers order fuel dominators) fun _ => ∅

/-- The work list of one variable, with the sets that guard it. -/
structure PhiWork where
  ssa : SsaFunction
  workList : List BlockId
  hasPhi : Finset BlockId
  everOnWorkList : Finset BlockId

def placePhi (var : String) (work : PhiWork) (y : BlockId) : PhiWork :=
  if y ∈ work.hasPhi then work
  else
    { ssa :=
        { work.ssa with
          nextId := work.ssa.nextId + 1
          phiBlocks := insert y work.ssa.phiBlocks
          phiNodes := Function.update work.ssa.phiNodes y
            (work.ssa.phiNodes y ++ [⟨var, work.ssa.nextId, []⟩]) }
      hasPhi := insert y work.hasPhi
      workList := if y ∈ work.everOnWorkList then work.workList else work.workList ++ [y]
      everOnWorkList := insert y work.everOnWorkList }

def placeLoop (frontiers : BlockId → Finset BlockId) (var : String) : Nat → PhiWork → Option PhiWork
  | 0, _ => none
  | fuel + 1, work =>
    match work.workList with
    | [] => some work
    | block :: rest => placeLoop frontiers var fuel
        (((order.frontier block).list (frontiers block)).foldl (placePhi var) { work with workList := rest })

def placeVariable (fuel : Nat) (frontiers : BlockId → Finset BlockId) (ssa : SsaFunction) (var : String) :
    Option SsaFunction :=
  (placeLoop order frontiers var fuel
    ⟨ssa, (order.defBlocks var).list (varDefBlocks graph var), ∅, varDefBlocks graph var⟩).map PhiWork.ssa

def placePhiNodes (fuel : Nat) (frontiers : BlockId → Finset BlockId) (ssa : SsaFunction) : Option SsaFunction :=
  (order.allVariables.list (allVariables graph)).foldlM (placeVariable order fuel frontiers) ssa

/-- The function so far and, for each variable, the stack of its current values, top first. -/
structure Renaming where
  ssa : SsaFunction
  renameStacks : String → Option (List UInt32)

/-- A push on the stack of a variable that has one, counted for the way out. -/
def pushValue (state : Renaming × (String → Nat)) (var : String) (value : UInt32) : Renaming × (String → Nat) :=
  match state.1.renameStacks var with
  | some stack =>
    ({ state.1 with renameStacks := Function.update state.1.renameStacks var (some (value :: stack)) },
      Function.update state.2 var (state.2 var + 1))
  | none => state

def renamePhi (block : BlockId) (state : Renaming × (String → Nat)) (phi : PhiNode) :
    Renaming × (String → Nat) :=
  let value : SsaValue := ⟨phi.resultId, true, phi.varName, ⟨block, phi.resultId.toUInt64, true⟩, .phi⟩
  pushValue ({ state.1 with ssa := state.1.ssa.addValue value }, state.2) phi.varName phi.resultId

def renameDefinition (state : Renaming × (String → Nat)) (definition : DefSite) : Renaming × (String → Nat) :=
  let id := state.1.ssa.nextId
  let value : SsaValue := ⟨id, true, varName definition.reference, definition,
    if definition.isStackAllocated then .regular else .heapStore⟩
  let ssa := { state.1.ssa with nextId := id + 1 }
  pushValue ({ state.1 with ssa := ssa.addValue value }, state.2) (varName definition.reference) id

def fillPhi (renameStacks : String → Option (List UInt32)) (block : BlockId) (phi : PhiNode) : PhiNode :=
  match renameStacks phi.varName with
  | some (value :: _) => { phi with incoming := phi.incoming ++ [(block, value)] }
  | _ => phi

def fillSuccessor (block : BlockId) (state : Renaming) (succ : BlockId) : Renaming :=
  { state with ssa := { state.ssa with
      phiNodes := Function.update state.ssa.phiNodes succ
        ((state.ssa.phiNodes succ).map (fillPhi state.renameStacks block)) } }

/-- The phi nodes and definitions of a block, and the operands it has for its successors. -/
def enterBlock (block : BlockId) (state : Renaming) : Renaming × (String → Nat) :=
  let phis := (state.ssa.phiNodes block).foldl (renamePhi block) (state, fun _ => 0)
  if block ∈ graph.cfg.keys then
    let defined := (graph.definitions block).foldl renameDefinition phis
    ((order.edges.successors block).foldl (fillSuccessor block) defined.1, defined.2)
  else phis

def popValues (pushed : String → Nat) (state : Renaming) : Renaming :=
  { state with renameStacks := fun var => (state.renameStacks var).map (List.drop (pushed var)) }

def renameBlock (dominators : ImmediateDominators) : Nat → BlockId → Renaming → Option Renaming
  | 0, _, _ => none
  | fuel + 1, block, state => do
    let entered := enterBlock order block state
    let explored ← (domTreeChildren order dominators block).foldlM
      (fun state child => renameBlock dominators fuel child state) entered.1
    some (popValues entered.2 explored)

def renameVariables (fuel : Nat) (dominators : ImmediateDominators) (ssa : SsaFunction) : Option Renaming :=
  renameBlock order dominators fuel graph.cfg.entry
    ⟨ssa, fun var => if var ∈ allVariables graph then some [] else none⟩

def linkUse (block : BlockId) (state : Renaming) (use : UseeSite) : Renaming :=
  match state.renameStacks (varName use.reference) with
  | some (defId :: _) => { state with ssa := state.ssa.recordUse ⟨block, 0, use.reference⟩ defId }
  | _ => state

def buildUseDefChains (state : Renaming) : Renaming :=
  (order.blocks.list graph.cfg.keys).foldl
    (fun state block => (graph.uses block).foldl (linkUse block) state) state

def returnUse (ssa : SsaFunction) (use : UseeSite) : SsaFunction :=
  match ssa.useDef (.ofUse use) with
  | some defId => { ssa with returnValues := insert defId ssa.returnValues }
  | none => ssa

def analyzeEscapePatterns (graph : FunctionGraph) (ssa : SsaFunction) : SsaFunction :=
  let returned := if graph.exit ∈ graph.cfg.keys then (graph.uses graph.exit).foldl returnUse ssa else ssa
  { returned with
    heapStores := (returned.values.filter fun value =>
      !value.definition.isStackAllocated || decide (value.defKind = .heapStore)).map SsaValue.id }

/-- Without enough fuel for its loops and recursions there is no result yet. -/
def build (fuel : Nat) : Option (Except SsaError SsaFunction) :=
  if graph.cfg.keys = ∅ then some (.error (.invalidCfg "Empty CFG"))
  else if graph.cfg.entry ∉ graph.cfg.keys then some (.error .noEntryBlock)
  else do
    let dominators ← computeDominators order.edges fuel
    let frontiers ← computeDominanceFrontiers order fuel dominators
    let placed ← placePhiNodes order fuel frontiers .new
    let renamed ← renameVariables order fuel dominators placed
    some (.ok (analyzeEscapePatterns graph (buildUseDefChains order renamed).ssa))

def Builds (result : Except SsaError SsaFunction) : Prop := ∃ fuel, build order fuel = some result

end SsaBuilder

end Cbgr
