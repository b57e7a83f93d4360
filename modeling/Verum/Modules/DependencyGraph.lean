import Mathlib.Data.List.Nodup
import Mathlib.Data.List.Range

namespace Modules

/-- A `u32` identifier. -/
abbrev ModuleId := UInt32

/-- Node weights by node index, and the edges in the order they were added. -/
structure DiGraph where
  nodes : List ModuleId
  edges : List (Nat × Nat)

namespace DiGraph

def Edge (graph : DiGraph) (source target : Nat) : Prop := (source, target) ∈ graph.edges

def Cyclic (graph : DiGraph) : Prop := ∃ node, Relation.TransGen graph.Edge node node

end DiGraph

/-- The algorithms of the graph library; `none` of `toposort` is its error. -/
structure Petgraph where
  isCyclicDirected : DiGraph → Bool
  tarjanScc : DiGraph → List (List Nat)
  toposort : DiGraph → Option (List Nat)

/-- What the library documents of its answers for a graph. -/
structure Petgraph.CorrectOn (petgraph : Petgraph) (graph : DiGraph) : Prop where
  isCyclicDirected_iff : petgraph.isCyclicDirected graph = true ↔ graph.Cyclic
  scc_nodup : ∀ scc ∈ petgraph.tarjanScc graph, scc.Nodup
  scc_node : ∀ scc ∈ petgraph.tarjanScc graph, ∀ node ∈ scc, node < graph.nodes.length
  scc_connected : ∀ scc ∈ petgraph.tarjanScc graph, ∀ a ∈ scc, ∀ b ∈ scc, Relation.ReflTransGen graph.Edge a b
  scc_maximal : ∀ scc ∈ petgraph.tarjanScc graph, ∀ a ∈ scc, ∀ b, Relation.ReflTransGen graph.Edge a b →
    Relation.ReflTransGen graph.Edge b a → b ∈ scc
  scc_covers : ∀ node < graph.nodes.length, ∃ scc ∈ petgraph.tarjanScc graph, node ∈ scc
  toposort_none : petgraph.toposort graph = none ↔ graph.Cyclic
  toposort_perm : ∀ order, petgraph.toposort graph = some order → order.Perm (List.range graph.nodes.length)
  toposort_before : ∀ order, petgraph.toposort graph = some order →
    ∀ source target, graph.Edge source target → [source, target].Sublist order

inductive ModuleError where
  | other (message : String)
  | circularDependency (cycle : List ModuleId) (cyclePaths : List String)

/-- The two index maps are inverse to each other, and edges join nodes. -/
structure DependencyGraph where
  graph : DiGraph
  idToNode : ModuleId → Option Nat
  nodeToId : Nat → Option ModuleId
  modulePaths : ModuleId → Option String
  nodeToId_eq : ∀ node, nodeToId node = graph.nodes[node]?
  idToNode_iff : ∀ id node, idToNode id = some node ↔ graph.nodes[node]? = some id
  edges_lt : ∀ source target, graph.Edge source target →
    source < graph.nodes.length ∧ target < graph.nodes.length

namespace DependencyGraph

theorem getElem?_snoc (nodes : List ModuleId) (id : ModuleId) (node : Nat) :
    (nodes ++ [id])[node]? = if node = nodes.length then some id else nodes[node]? := by
  rcases Nat.lt_trichotomy node nodes.length with before | rfl | after
  · rw [List.getElem?_append_left before, if_neg (by omega)]
  · simp
  · rw [List.getElem?_eq_none (by simp; omega), if_neg (by omega), List.getElem?_eq_none (by omega)]

def new : DependencyGraph where
  graph := ⟨[], []⟩
  idToNode _ := none
  nodeToId _ := none
  modulePaths _ := none
  nodeToId_eq := by simp
  idToNode_iff := by simp
  edges_lt := by simp [DiGraph.Edge]

def addModule (self : DependencyGraph) (id : ModuleId) (path : String) : DependencyGraph :=
  if absent : self.idToNode id = none then
    { graph := { self.graph with nodes := self.graph.nodes ++ [id] }
      idToNode := Function.update self.idToNode id (some self.graph.nodes.length)
      nodeToId := Function.update self.nodeToId self.graph.nodes.length (some id)
      modulePaths := Function.update self.modulePaths id (some path)
      nodeToId_eq := by
        intro node
        rw [getElem?_snoc, Function.update_apply, self.nodeToId_eq]
      idToNode_iff := by
        intro other node
        rw [getElem?_snoc, Function.update_apply]
        have old := self.idToNode_iff other node
        have inRange : self.graph.nodes[node]? = some other → node < self.graph.nodes.length := fun present =>
          (List.getElem?_eq_some_iff.mp present).1
        split <;> split <;> grind
      edges_lt := by
        intro source target edge
        have inRange := self.edges_lt source target edge
        change source < (self.graph.nodes ++ [id]).length ∧ target < (self.graph.nodes ++ [id]).length
        rw [List.length_append, List.length_singleton]
        omega }
  else self

def notFound (id : ModuleId) : ModuleError := .other s!"Module ModuleId({id}) not found in graph"

def addDependency (self : DependencyGraph) (source target : ModuleId) : Except ModuleError DependencyGraph :=
  match sourceFound : self.idToNode source with
  | none => .error (notFound source)
  | some sourceNode =>
    match targetFound : self.idToNode target with
    | none => .error (notFound target)
    | some targetNode => .ok
      { self with
        graph := { self.graph with edges := self.graph.edges ++ [(sourceNode, targetNode)] }
        nodeToId_eq := self.nodeToId_eq
        idToNode_iff := self.idToNode_iff
        edges_lt := by
          intro a b edge
          rw [DiGraph.Edge, List.mem_append, List.mem_singleton, Prod.mk.injEq] at edge
          rcases edge with old | ⟨rfl, rfl⟩
          · exact self.edges_lt a b old
          · exact ⟨(List.getElem?_eq_some_iff.mp ((self.idToNode_iff _ _).mp sourceFound)).1,
              (List.getElem?_eq_some_iff.mp ((self.idToNode_iff _ _).mp targetFound)).1⟩ }

section Order

variable (petgraph : Petgraph) (self : DependencyGraph)

def hasCycles : Bool := petgraph.isCyclicDirected self.graph

def detectCycle : Option (List ModuleId) :=
  if !self.hasCycles petgraph then none
  else (petgraph.tarjanScc self.graph).findSome? fun scc =>
    if scc.length > 1 then
      let cycle := scc.filterMap self.nodeToId
      if cycle.isEmpty then none else some cycle
    else none

def cycleToPaths (cycle : List ModuleId) : List String := cycle.filterMap self.modulePaths

def circularDependency (cycle : List ModuleId) : ModuleError :=
  .circularDependency cycle (self.cycleToPaths cycle)

def topologicalOrder : Except ModuleError (List ModuleId) :=
  match self.detectCycle petgraph with
  | some cycle => .error (self.circularDependency cycle)
  | none => match petgraph.toposort self.graph with
    | none => .error (self.circularDependency ((self.detectCycle petgraph).getD [0]))
    | some sorted => .ok (sorted.filterMap self.nodeToId)

end Order

def dependenciesOf (self : DependencyGraph) (id : ModuleId) : List ModuleId :=
  match self.idToNode id with
  | none => []
  | some node => (self.graph.edges.filter (·.1 == node)).filterMap fun edge => self.nodeToId edge.2

def dependentsOf (self : DependencyGraph) (id : ModuleId) : List ModuleId :=
  match self.idToNode id with
  | none => []
  | some node => (self.graph.edges.filter (·.2 == node)).filterMap fun edge => self.nodeToId edge.1

end DependencyGraph

end Modules
