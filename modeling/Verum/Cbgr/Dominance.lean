import Mathlib.Data.Finset.Card

namespace Cbgr

/-- A `u64` identifier. -/
abbrev BlockId := UInt64

/-- The edges of a block. -/
structure BasicBlock where
  predecessors : Finset BlockId
  successors : Finset BlockId

/-- The block table is defined on its keys. -/
structure ControlFlowGraph where
  keys : Finset BlockId
  block : BlockId → BasicBlock
  entry : BlockId

namespace ControlFlowGraph

def get (cfg : ControlFlowGraph) (id : BlockId) : Option BasicBlock :=
  if id ∈ cfg.keys then some (cfg.block id) else none

/-- Predecessors and successors agree and stay inside the table. -/
structure Consistent (cfg : ControlFlowGraph) : Prop where
  successors_subset : ∀ id ∈ cfg.keys, (cfg.block id).successors ⊆ cfg.keys
  predecessors_subset : ∀ id ∈ cfg.keys, (cfg.block id).predecessors ⊆ cfg.keys
  agree : ∀ source ∈ cfg.keys, ∀ target ∈ cfg.keys,
    target ∈ (cfg.block source).successors ↔ source ∈ (cfg.block target).predecessors

end ControlFlowGraph

/-- The order in which a hash set is iterated over. -/
structure SetOrder where
  list : Finset BlockId → List BlockId
  mem_list : ∀ set id, id ∈ list set ↔ id ∈ set

/-- The visited set and the postorder so far. -/
structure Traversal where
  visited : Finset BlockId
  result : List BlockId

/-- The recursion enters a block that is not visited, so it is at most as deep as the table is long. -/
def rpoVisit (order : SetOrder) (cfg : ControlFlowGraph) : Nat → BlockId → Traversal → Traversal
  | 0, _, traversal => traversal
  | fuel + 1, id, traversal =>
    if id ∈ traversal.visited then traversal
    else
      let entered : Traversal := { traversal with visited := insert id traversal.visited }
      let explored := match cfg.get id with
        | some block => (order.list block.successors).foldl
          (fun traversal succ => rpoVisit order cfg fuel succ traversal) entered
        | none => entered
      { explored with result := explored.result ++ [id] }

def computeReversePostorder (order : SetOrder) (cfg : ControlFlowGraph) : List BlockId :=
  (rpoVisit order cfg (cfg.keys.card + 2) cfg.entry ⟨∅, []⟩).result.reverse

abbrev Dominators := BlockId → Option (Finset BlockId)

def intersectPredecessors (dominators : Dominators) (predecessors : List BlockId) : Option (Finset BlockId) :=
  predecessors.foldl (fun newDom pred => match dominators pred with
    | some predDom => match newDom with
      | none => some predDom
      | some current => some (current ∩ predDom)
    | none => newDom) none

def newDominators (order : SetOrder) (dominators : Dominators) (id : BlockId) (block : BasicBlock) : Finset BlockId :=
  insert id ((intersectPredecessors dominators (order.list block.predecessors)).getD ∅)

/-- One block of the inner loop, with the `changed` flag. -/
def updateBlock (order : SetOrder) (cfg : ControlFlowGraph) (state : Dominators × Bool) (id : BlockId) :
    Dominators × Bool :=
  if id = cfg.entry then state
  else match cfg.get id with
    | none => state
    | some block =>
      let newDom := newDominators order state.1 id block
      if state.1 id = some newDom then state else (Function.update state.1 id (some newDom), true)

def pass (order : SetOrder) (cfg : ControlFlowGraph) (rpo : List BlockId) (dominators : Dominators) :
    Dominators × Bool :=
  rpo.foldl (updateBlock order cfg) (dominators, false)

/-- The outer loop; the flag that it ends with is `false` at a fixpoint. -/
def iterate (order : SetOrder) (cfg : ControlFlowGraph) (rpo : List BlockId) :
    Nat → Dominators → Dominators × Bool
  | 0, dominators => (dominators, true)
  | remaining + 1, dominators =>
    let next := pass order cfg rpo dominators
    if next.2 then iterate order cfg rpo remaining next.1 else next

def initialDominators (cfg : ControlFlowGraph) (rpo : List BlockId) : Dominators :=
  rpo.foldl (fun dominators id =>
    if id ≠ cfg.entry then Function.update dominators id (some cfg.keys) else dominators)
    (Function.update (fun _ => none) cfg.entry (some {cfg.entry}))

def maxIterations (cfg : ControlFlowGraph) : Nat := cfg.keys.card * cfg.keys.card + 10

def computeDominatorsIterative (order : SetOrder) (cfg : ControlFlowGraph) (rpo : List BlockId) :
    Dominators × Bool :=
  iterate order cfg rpo (maxIterations cfg) (initialDominators cfg rpo)

def deepest (dominators : Dominators) (id : BlockId) (candidates : List BlockId) : Option BlockId × Nat :=
  candidates.foldl (fun best dom =>
    if dom = id then best
    else
      let domCount := ((dominators dom).map Finset.card).getD 0
      if domCount > best.2 then (some dom, domCount) else best) (none, 0)

def computeImmediateDominators (order : SetOrder) (cfg : ControlFlowGraph) (dominators : Dominators)
    (id : BlockId) : Option BlockId :=
  if id = cfg.entry then none
  else match dominators id with
    | some domSet => (deepest dominators id (order.list domSet)).1
    | none => none

structure DominanceInfo where
  dominators : Dominators
  immediateDom : BlockId → Option BlockId

namespace DominanceInfo

def compute (order : SetOrder) (cfg : ControlFlowGraph) : DominanceInfo :=
  if cfg.keys = ∅ then ⟨fun _ => none, fun _ => none⟩
  else
    let rpo := computeReversePostorder order cfg
    let dominators := (computeDominatorsIterative order cfg rpo).1
    ⟨dominators, computeImmediateDominators order cfg dominators⟩

def dominates (info : DominanceInfo) (a b : BlockId) : Bool :=
  if a = b then true
  else match info.dominators b with
    | some domSet => decide (a ∈ domSet)
    | none => false

def allocationDominatesUses (order : SetOrder) (info : DominanceInfo) (allocation : BlockId)
    (uses : Finset BlockId) : Bool :=
  (order.list uses).all (info.dominates allocation)

end DominanceInfo

end Cbgr
