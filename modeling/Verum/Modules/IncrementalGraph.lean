import Verum.Modules.CompilationOrder

namespace Modules

open Relation

inductive CompilationTier where
  | parsed
  | vbc
  | jitTier1
  | jitTier2
  | aot

structure BackendState where
  cpuCompiled : Bool := false
  gpuCompiled : Bool := false
  llvmHash : Option UInt64 := none
  mlirHash : Option UInt64 := none

structure ModuleState where
  contentHash : UInt64
  vbcHash : Option UInt64 := none
  tier : CompilationTier := .parsed
  backend : BackendState := {}
  compiled : Bool := false
  dirty : Bool := true

namespace ModuleState

def new (contentHash : UInt64) : ModuleState := { contentHash }

def markCompiled (self : ModuleState) : ModuleState := { self with compiled := true, dirty := false }

def markDirty (self : ModuleState) : ModuleState :=
  { self with dirty := true, compiled := false, vbcHash := none, tier := .parsed, backend := {} }

end ModuleState

structure IncrementalGraph where
  graph : DependencyGraph
  states : ModuleId → Option ModuleState

namespace IncrementalGraph

def new : IncrementalGraph := ⟨.new, fun _ => none⟩

def addModule (self : IncrementalGraph) (id : ModuleId) (path : String) (contentHash : UInt64) :
    IncrementalGraph where
  graph := self.graph.addModule id path
  states := Function.update self.states id (some (.new contentHash))

def addDependency (self : IncrementalGraph) (source target : ModuleId) : Except ModuleError IncrementalGraph :=
  (self.graph.addDependency source target).map fun graph => { self with graph }

def hasContentChanged (self : IncrementalGraph) (id : ModuleId) (newHash : UInt64) : Bool :=
  match self.states id with
  | some state => state.contentHash != newHash
  | none => true

def updateContent (self : IncrementalGraph) (id : ModuleId) (newHash : UInt64) : IncrementalGraph × Bool :=
  match self.states id with
  | some state =>
    if state.contentHash != newHash then
      let state := { state with contentHash := newHash }
      ({ self with states := Function.update self.states id (some state.markDirty) }, true)
    else (self, false)
  | none => (self, false)

/-- The body of the loop over the dependents: the visited set in the order of its insertions, and
the stack with its top first. -/
def visitDependent (found : List ModuleId × List ModuleId) (dependent : ModuleId) :
    List ModuleId × List ModuleId :=
  if found.1.contains dependent then found else (found.1 ++ [dependent], dependent :: found.2)

def transitiveDependentsLoop (self : IncrementalGraph) : Nat → List ModuleId → List ModuleId → List ModuleId
  | 0, visited, _ => visited
  | _ + 1, visited, [] => visited
  | fuel + 1, visited, current :: stack =>
    let found := (self.graph.dependentsOf current).foldl visitDependent (visited, stack)
    transitiveDependentsLoop self fuel found.1 found.2

def transitiveDependentsOf (self : IncrementalGraph) (id : ModuleId) : List ModuleId :=
  self.transitiveDependentsLoop (self.graph.modules.length + 1) [] [id]

def markDirty (self : IncrementalGraph) (id : ModuleId) : IncrementalGraph :=
  { self with states := Function.update self.states id ((self.states id).map ModuleState.markDirty) }

/-- The second component lists the marked modules; the dependents come in the order of their
discovery, where the code takes that of a hash set. -/
def invalidate (self : IncrementalGraph) (id : ModuleId) : IncrementalGraph × List ModuleId :=
  let marked := id :: self.transitiveDependentsOf id
  (marked.foldl markDirty self, marked.filter fun other => (self.states other).isSome)

def markCompiled (self : IncrementalGraph) (id : ModuleId) : IncrementalGraph :=
  { self with states := Function.update self.states id ((self.states id).map ModuleState.markCompiled) }

def dirtyIds (self : IncrementalGraph) (id : ModuleId) : Bool := (self.states id).any (·.dirty)

def dirtyModulesInOrder (petgraph : Petgraph) (self : IncrementalGraph) : Except ModuleError (List ModuleId) :=
  (self.graph.topologicalOrder petgraph).map fun order => order.reverse.filter self.dirtyIds

end IncrementalGraph

namespace DependencyGraph

variable {self : DependencyGraph}

@[simp] theorem mem_dependentsOf {id dependent : ModuleId} :
    dependent ∈ self.dependentsOf id ↔ self.Depends dependent id := by
  rw [dependentsOf, Depends]
  cases hit : self.idToNode id with
  | none =>
    refine ⟨fun mem => (by cases mem), ?_⟩
    rintro ⟨src, tgt, -, -, isTarget⟩
    rw [(self.idToNode_iff id tgt).mpr isTarget] at hit
    cases hit
  | some node =>
    have isNode := (self.idToNode_iff id node).mp hit
    simp only [List.mem_filterMap, List.mem_filter, Prod.exists, beq_iff_eq, self.nodeToId_eq]
    constructor
    · rintro ⟨src, tgt, ⟨edge, rfl⟩, isSource⟩
      exact ⟨src, tgt, edge, isSource, isNode⟩
    · rintro ⟨src, tgt, edge, isSource, isTarget⟩
      exact ⟨src, tgt, ⟨edge, node_unique isTarget isNode⟩, isSource⟩

theorem depends_addModule {id : ModuleId} {path : String} {a b : ModuleId} :
    (self.addModule id path).Depends a b ↔ self.Depends a b := by
  rw [addModule]
  split
  · have extended : ∀ {node other}, node < self.graph.nodes.length →
        ((self.graph.nodes ++ [id])[node]? = some other ↔ self.graph.nodes[node]? = some other) := by
      intro node other hr
      rw [List.getElem?_append_left hr]
    constructor
    · rintro ⟨src, tgt, edge, isSource, isTarget⟩
      have hr := self.edges_lt src tgt edge
      exact ⟨src, tgt, edge, (extended hr.1).mp isSource, (extended hr.2).mp isTarget⟩
    · rintro ⟨src, tgt, edge, isSource, isTarget⟩
      have hr := self.edges_lt src tgt edge
      exact ⟨src, tgt, edge, (extended hr.1).mpr isSource, (extended hr.2).mpr isTarget⟩
  · rfl

theorem mem_modules_iff {id : ModuleId} : id ∈ self.modules ↔ (self.idToNode id).isSome := by
  rw [modules, List.mem_iff_getElem?, Option.isSome_iff_exists]
  simp only [self.idToNode_iff]

theorem mem_modules_addModule {id other : ModuleId} {path : String} :
    other ∈ (self.addModule id path).modules ↔ other = id ∨ other ∈ self.modules := by
  rw [addModule]
  split
  · simp [modules, or_comm]
  · rename_i present
    have mem : id ∈ self.modules := mem_modules_iff.mpr (Option.isSome_iff_ne_none.mpr present)
    refine ⟨.inr, ?_⟩
    rintro (rfl | old)
    · exact mem
    · exact old

theorem addDependency_ok {src tgt : ModuleId} {extended : DependencyGraph}
    (succeeds : self.addDependency src tgt = .ok extended) :
    src ∈ self.modules ∧ tgt ∈ self.modules ∧ extended.modules = self.modules ∧
      ∀ a b, extended.Depends a b ↔ self.Depends a b ∨ a = src ∧ b = tgt := by
  rw [addDependency] at succeeds
  split at succeeds
  · cases succeeds
  · rename_i sourceNode sourceFound
    split at succeeds
    · cases succeeds
    · rename_i targetNode targetFound
      cases succeeds
      have isSource := (self.idToNode_iff _ _).mp sourceFound
      have isTarget := (self.idToNode_iff _ _).mp targetFound
      refine ⟨List.mem_of_getElem? isSource, List.mem_of_getElem? isTarget, rfl, fun a b => ?_⟩
      constructor
      · rintro ⟨from', to', edge, isA, isB⟩
        rcases List.mem_append.mp edge with old | new
        · exact .inl ⟨from', to', old, isA, isB⟩
        · obtain ⟨rfl, rfl⟩ := Prod.mk.inj (List.mem_singleton.mp new)
          exact .inr ⟨Option.some.inj (isA.symm.trans isSource), Option.some.inj (isB.symm.trans isTarget)⟩
      · rintro (⟨from', to', edge, isA, isB⟩ | ⟨rfl, rfl⟩)
        · exact ⟨from', to', List.mem_append_left _ edge, isA, isB⟩
        · exact ⟨sourceNode, targetNode, List.mem_append_right _ (by simp), isSource, isTarget⟩

end DependencyGraph

end Modules
