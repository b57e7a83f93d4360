import Verum.Vbc.TypeRef
import Mathlib.Algebra.BigOperators.Group.Finset.Piecewise

namespace Mono

open Vbc

structure SourceLocation where
  fileId : UInt32
  start : UInt32
  «end» : UInt32
  deriving DecidableEq

structure InstantiationRequest where
  functionId : FunctionId
  typeArgs : List TypeRef
  source : SourceLocation
  hash : UInt64

def maxTypeRefDepth : Nat := 64

mutual

def typeRefDepth : TypeRef → Nat
  | .concrete _ => 1
  | .generic _ => 1
  | .instantiated _ args => 1 + greatestDepth args
  | .tuple elems => 1 + greatestDepth elems
  | .function _ params returnType _ => 1 + max (greatestDepth params) (typeRefDepth returnType)
  | .rank2Function _ _ params returnType _ => 1 + max (greatestDepth params) (typeRefDepth returnType)
  | .reference inner _ _ => 1 + typeRefDepth inner
  | .slice inner => 1 + typeRefDepth inner
  | .array element _ => 1 + typeRefDepth element
  | .associatedProjection base qualifier _ args =>
    1 + max (typeRefDepth base) (max (greatestDepth args) (qualifierDepth qualifier))
  | .constValue _ => 1
  | .recordFieldProjection _ _ => 1

def greatestDepth : List TypeRef → Nat
  | [] => 0
  | head :: tail => max (typeRefDepth head) (greatestDepth tail)

def qualifierDepth : Option (ProtocolApplication TypeRef) → Nat
  | none => 0
  | some application => applicationDepth application

def applicationDepth : ProtocolApplication TypeRef → Nat
  | ⟨_, args⟩ => greatestDepth args

end

/-- The requests, the indexes into them, the edges between their indices in both directions, and the functions
    they were specialized to. -/
structure InstantiationGraph where
  instantiations : List InstantiationRequest
  byFunction : FunctionId → List Nat
  byHash : UInt64 → Option Nat
  dependencies : Nat → List Nat
  reverseDeps : Nat → List Nat
  specializationMap : Nat → Option FunctionId

namespace InstantiationGraph

def new : InstantiationGraph :=
  ⟨[], fun _ => [], fun _ => none, fun _ => [], fun _ => [], fun _ => none⟩

/-- Record a request unless one of its hash is there; the index is the one it has. -/
def record (graph : InstantiationGraph) (request : InstantiationRequest) : Nat × InstantiationGraph :=
  match graph.byHash request.hash with
  | some index => (index, graph)
  | none =>
    let index := graph.instantiations.length
    (index, { graph with
      byHash := Function.update graph.byHash request.hash (some index)
      byFunction := Function.update graph.byFunction request.functionId
        (graph.byFunction request.functionId ++ [index])
      instantiations := graph.instantiations ++ [request] })

/-- Record an instantiation; one whose arguments are too deep is dropped and has no index. -/
def recordInstantiation (computeHash : FunctionId → List TypeRef → UInt64) (graph : InstantiationGraph)
    (functionId : FunctionId) (typeArgs : List TypeRef) (source : SourceLocation) : Nat × InstantiationGraph :=
  if greatestDepth typeArgs > maxTypeRefDepth then (usizeMax, graph)
  else graph.record ⟨functionId, typeArgs, source, computeHash functionId typeArgs⟩

def recordDependency (graph : InstantiationGraph) (caller callee : Nat) : InstantiationGraph :=
  { graph with
    dependencies := Function.update graph.dependencies caller (graph.dependencies caller ++ [callee])
    reverseDeps := Function.update graph.reverseDeps callee (graph.reverseDeps callee ++ [caller]) }

def getSpecializationByKey (computeHash : FunctionId → List TypeRef → UInt64) (graph : InstantiationGraph)
    (functionId : FunctionId) (typeArgs : List TypeRef) : Option FunctionId :=
  (graph.byHash (computeHash functionId typeArgs)).bind graph.specializationMap

/-- Count a dependency of each dependent off; the ones with none left are queued. -/
def release (n : Nat) : List Nat → (Nat → Nat) → List Nat → (Nat → Nat) × List Nat
  | [], inDegree, queue => (inDegree, queue)
  | dependent :: dependents, inDegree, queue =>
    if dependent < n ∧ 0 < inDegree dependent then
      let inDegree := Function.update inDegree dependent (inDegree dependent - 1)
      release n dependents inDegree (if inDegree dependent = 0 then dependent :: queue else queue)
    else release n dependents inDegree queue

theorem sum_decrement {n : Nat} {inDegree : Nat → Nat} {i : Nat} (inside : i < n) (positive : 0 < inDegree i) :
    ∑ j ∈ Finset.range n, Function.update inDegree i (inDegree i - 1) j + 1 = ∑ j ∈ Finset.range n, inDegree j := by
  have member : i ∈ Finset.range n := Finset.mem_range.mpr inside
  rw [Finset.sum_update_of_mem member, ← Finset.add_sum_erase _ _ member, Finset.sdiff_singleton_eq_erase]
  omega

theorem release_measure (n : Nat) (dependents : List Nat) (inDegree : Nat → Nat) (queue : List Nat) :
    ∑ i ∈ Finset.range n, (release n dependents inDegree queue).1 i + (release n dependents inDegree queue).2.length ≤
      ∑ i ∈ Finset.range n, inDegree i + queue.length := by
  induction dependents generalizing inDegree queue with
  | nil => exact Nat.le_refl _
  | cons dependent dependents ih =>
    unfold release
    split
    · rename_i counted
      have sum := sum_decrement counted.1 counted.2
      apply Nat.le_trans (ih _ _)
      split
      · rw [List.length_cons]
        omega
      · omega
    · exact ih inDegree queue

def drain (graph : InstantiationGraph) (inDegree : Nat → Nat) (queue result : List Nat) : List Nat :=
  match queue with
  | [] => result
  | node :: queue =>
    let released := release graph.instantiations.length (graph.reverseDeps node) inDegree queue
    drain graph released.1 released.2 (result ++ [node])
  termination_by ∑ i ∈ Finset.range graph.instantiations.length, inDegree i + queue.length
  decreasing_by
    have measure := release_measure graph.instantiations.length (graph.reverseDeps node) inDegree queue
    rw [List.length_cons]
    omega

def inDegree (graph : InstantiationGraph) (node : Nat) : Nat :=
  if node < graph.instantiations.length then (graph.dependencies node).length else 0

/-- The instantiations, dependencies first; what the worklist does not reach comes last. -/
def topologicalOrder (graph : InstantiationGraph) : List Nat :=
  let n := graph.instantiations.length
  if n = 0 then []
  else
    let queue := ((List.range n).filter fun i => graph.inDegree i = 0).reverse
    let result := drain graph graph.inDegree queue []
    if result.length < n then result ++ (List.range n).filter fun i => !result.contains i else result

end InstantiationGraph

end Mono
