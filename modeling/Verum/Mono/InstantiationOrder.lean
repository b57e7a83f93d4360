import Verum.Mono.InstantiationGraph
import Mathlib.Data.Fintype.EquivFin

open List

namespace Mono

open Function

open Relation Vbc

theorem pairwise_not_iff_idxOf {R : Nat → Nat → Prop} {ord : List Nat} (nodup : ord.Nodup)
    (irreflexive : ∀ i, ¬ R i i) (hin : ∀ i j, R i j → i ∈ ord ∧ j ∈ ord) :
    ord.Pairwise (fun a b => ¬ R a b) ↔ ∀ i j, R i j → ord.idxOf j < ord.idxOf i := by
  rw [pairwise_iff_getElem]
  constructor
  · intro pairwise i j related
    rcases hin i j related with ⟨fst, snd⟩
    have isFirst := idxOf_lt_length_iff.mpr fst
    have isSecond := idxOf_lt_length_iff.mpr snd
    apply Nat.lt_of_not_le
    intro hl
    rcases Nat.lt_or_eq_of_le hl with pre | eq
    · have unrelated := pairwise _ _ isFirst isSecond pre
      rw [getElem_idxOf, getElem_idxOf] at unrelated
      exact unrelated related
    · have equal : i = j := (idxOf_inj fst).mp eq
      exact irreflexive i (equal ▸ related)
  · intro precedes p q isFirst isSecond pre related
    have hl := precedes _ _ related
    rw [nodup.idxOf_getElem, nodup.idxOf_getElem] at hl
    exact Nat.lt_asymm pre hl

theorem countP_append_singleton {result xs : List Nat} {node : Nat} (hf : node ∉ result) :
    xs.countP (· ∉ result ++ [node]) + xs.count node = xs.countP (· ∉ result) := by
  induction xs with
  | nil => rfl
  | cons item xs ih =>
    rw [countP_cons, countP_cons, count_cons, ← ih]
    by_cases eq : item = node
    · subst eq
      simp [hf]
      omega
    · simp [eq]
      omega

namespace InstantiationGraph

/-- The graphs that calls build, with the indices the recordings returned. -/
inductive Built (computeHash : FunctionId → List TypeRef → UInt64) : InstantiationGraph → List Nat → Prop
  | new : Built computeHash new []
  | recordInstantiation {graph : InstantiationGraph} {returned : List Nat} (functionId : FunctionId)
      (typeArgs : List TypeRef) (source : SourceLocation) : Built computeHash graph returned →
      Built computeHash (graph.recordInstantiation computeHash functionId typeArgs source).2
        ((graph.recordInstantiation computeHash functionId typeArgs source).1 :: returned)
  | recordDependency {graph : InstantiationGraph} {returned : List Nat} {caller callee : Nat} :
      Built computeHash graph returned → caller ∈ returned → callee ∈ returned →
      Built computeHash (graph.recordDependency caller callee) returned

variable {graph : InstantiationGraph}

def Depends (graph : InstantiationGraph) (i j : Nat) : Prop :=
  i < graph.instantiations.length ∧ j < graph.instantiations.length ∧ j ∈ graph.dependencies i

def Acyclic (graph : InstantiationGraph) : Prop := ∀ i, ¬ TransGen graph.Depends i i

/-- A dependency on a dropped request, direct or through real instantiations. -/
def ReachesDropped (graph : InstantiationGraph) (i : Nat) : Prop :=
  ∃ k callee, ReflTransGen graph.Depends i k ∧ callee ∈ graph.dependencies k ∧ graph.instantiations.length ≤ callee

/-- A permutation of the instantiations with every dependency before its dependents. -/
def DependenciesFirst (graph : InstantiationGraph) : Prop :=
  graph.topologicalOrder.Perm (List.range graph.instantiations.length) ∧
  (graph.Acyclic → ∀ i j, graph.Depends i j → graph.topologicalOrder.idxOf j < graph.topologicalOrder.idxOf i)

def Mirrored (graph : InstantiationGraph) : Prop :=
  ∀ i j, (graph.dependencies i).count j = (graph.reverseDeps j).count i

theorem mirrored_record (mirrored : graph.Mirrored) (request : InstantiationRequest) :
    (graph.record request).2.Mirrored := by
  unfold record
  split
  · exact mirrored
  · exact mirrored

theorem Built.mirrored {computeHash : FunctionId → List TypeRef → UInt64} {ret : List Nat}
    (built : Built computeHash graph ret) : graph.Mirrored := by
  induction built with
  | new => exact fun _ _ => rfl
  | recordInstantiation functionId typeArgs src _ ih =>
    unfold InstantiationGraph.recordInstantiation
    split
    · exact ih
    · exact mirrored_record ih _
  | @recordDependency graph ret caller callee _ _ _ ih =>
    intro i j
    have pre := ih i j
    unfold InstantiationGraph.recordDependency
    dsimp only
    by_cases isCaller : i = caller
    · subst isCaller
      by_cases isCallee : j = callee
      · subst isCallee
        simp [pre]
      · simp [isCallee, Ne.symm isCallee, pre]
    · by_cases isCallee : j = callee
      · subst isCallee
        simp [isCaller, Ne.symm isCaller, pre]
      · simp [isCaller, isCallee, pre]

theorem release_spec (n : Nat) (dependents : List Nat) (inDegree : Nat → Nat) (queue : List Nat) :
    (∀ i < n, (release n dependents inDegree queue).1 i = inDegree i - dependents.count i) ∧
    ∃ pushed, (release n dependents inDegree queue).2 = pushed ++ queue ∧ pushed.Nodup ∧
      ∀ i, i ∈ pushed ↔ i < n ∧ 0 < inDegree i ∧ inDegree i ≤ dependents.count i := by
  induction dependents generalizing inDegree queue with
  | nil =>
    refine ⟨fun _ _ => rfl, [], rfl, nodup_nil, ?_⟩
    intro i
    simp only [not_mem_nil, count_nil, false_iff]
    omega
  | cons dependent dependents ih =>
    unfold release
    split
    · rename_i counted
      rcases ih (update inDegree dependent (inDegree dependent - 1))
        (if update inDegree dependent (inDegree dependent - 1) dependent = 0 then dependent :: queue
          else queue) with ⟨counts, pushed, isQueue, nodup, mem⟩
      have v : ∀ i, update inDegree dependent (inDegree dependent - 1) i =
          inDegree i - if dependent = i then 1 else 0 := by
        intro i
        by_cases eq : dependent = i
        · subst eq
          simp
        · simp [eq, Ne.symm eq]
      constructor
      · intro i hin
        rw [counts i hin, v, count_cons]
        by_cases eq : dependent = i
        · simp [eq]
          omega
        · simp [eq]
      · dsimp only
        rw [isQueue]
        have ms : ∀ i, i ∈ pushed ↔ i < n ∧ (if dependent = i then 1 else 0) < inDegree i ∧
            inDegree i ≤ (dependent :: dependents).count i := by
          intro i
          rw [mem, v, count_cons]
          by_cases eq : dependent = i
          · rw [if_pos eq, if_pos (beq_iff_eq.mpr eq)]
            omega
          · simp [eq]
        rw [v, if_pos rfl]
        by_cases last : inDegree dependent - 1 = 0
        · rw [if_pos last]
          have hf : dependent ∉ pushed := by
            intro hin
            have two := ((ms dependent).mp hin).2.1
            rw [if_pos rfl] at two
            omega
          refine ⟨pushed ++ [dependent], by simp, ?_, ?_⟩
          · exact nodup_append.mpr ⟨nodup, nodup_singleton _, by
              intro a hin b last eq
              exact hf (mem_singleton.mp last ▸ eq ▸ hin)⟩
          · intro i
            rw [mem_append, mem_singleton, ms]
            by_cases eq : dependent = i
            · subst eq
              simp only [or_true, true_iff, count_cons_self]
              omega
            · simp [eq, Ne.symm eq]
        · rw [if_neg last]
          refine ⟨pushed, rfl, nodup, ?_⟩
          intro i
          rw [ms]
          by_cases eq : dependent = i
          · subst eq
            simp
            omega
          · simp [eq]
    · rename_i skipped
      rcases ih inDegree queue with ⟨counts, pushed, isQueue, nodup, mem⟩
      constructor
      · intro i hin
        rw [counts i hin, count_cons]
        by_cases eq : dependent = i
        · subst eq
          simp
          omega
        · simp [eq]
      · refine ⟨pushed, isQueue, nodup, ?_⟩
        intro i
        rw [mem, count_cons]
        by_cases eq : dependent = i
        · subst eq
          simp
          omega
        · simp [eq]

/-- The instantiations ordered so far and those queued are the ones whose dependencies are all ordered. -/
structure Drained (graph : InstantiationGraph) (inDegree : Nat → Nat) (queue result : List Nat) : Prop where
  nodup : (result ++ queue).Nodup
  inside : ∀ i ∈ result ++ queue, i < graph.instantiations.length
  counts : ∀ i < graph.instantiations.length, inDegree i = (graph.dependencies i).countP (· ∉ result)
  ready : ∀ i < graph.instantiations.length, i ∈ result ++ queue ↔ inDegree i = 0
  ordered : result.Pairwise fun a b => b ∉ graph.dependencies a

variable {inDegree : Nat → Nat} {queue result : List Nat} {node : Nat}

theorem Drained.closed (drained : Drained graph inDegree queue result) {i : Nat} (mem : i ∈ result ++ queue) :
    ∀ j ∈ graph.dependencies i, j ∈ result := by
  have hin := drained.inside i mem
  have none := (drained.ready i hin).mp mem
  rw [drained.counts i hin, countP_eq_zero] at none
  intro j dependency
  have settled := none j dependency
  simpa using settled

theorem Drained.step (mirrored : graph.Mirrored) (drained : Drained graph inDegree (node :: queue) result) :
    Drained graph (release graph.instantiations.length (graph.reverseDeps node) inDegree queue).1
      (release graph.instantiations.length (graph.reverseDeps node) inDegree queue).2 (result ++ [node]) := by
  rcases release_spec graph.instantiations.length (graph.reverseDeps node) inDegree queue with
    ⟨counts, pushed, isQueue, nodup, mem⟩
  have hf : node ∉ result := by
    intro hin
    exact (nodup_append.mp drained.nodup).2.2 node hin node (.head _) rfl
  have reorder : (result ++ [node] ++ (pushed ++ queue)).Perm (pushed ++ (result ++ node :: queue)) := by
    have shifted := perm_append_comm_assoc (result ++ [node]) pushed queue
    rwa [append_assoc result [node] queue] at shifted
  rw [isQueue]
  constructor
  · apply reorder.nodup_iff.mpr
    apply nodup_append.mpr
    refine ⟨nodup, drained.nodup, ?_⟩
    intro i new j old eq
    subst eq
    have pos := (mem i).mp new
    have zero := (drained.ready i pos.1).mp old
    omega
  · intro i hin
    rcases mem_append.mp (reorder.mem_iff.mp hin) with new | old
    · exact ((mem i).mp new).1
    · exact drained.inside i old
  · intro i hin
    rw [counts i hin, drained.counts i hin, ← mirrored, ← countP_append_singleton hf]
    exact Nat.add_sub_cancel ..
  · intro i hin
    rw [reorder.mem_iff, mem_append, drained.ready i hin, mem, counts i hin]
    omega
  · apply pairwise_append.mpr
    refine ⟨drained.ordered, pairwise_singleton .., ?_⟩
    intro a pre b last
    rw [mem_singleton.mp last]
    intro dependency
    exact hf (drained.closed (mem_append_left _ pre) node dependency)

theorem Drained.drain (mirrored : graph.Mirrored) (drained : Drained graph inDegree queue result) :
    ∃ settled, Drained graph settled [] (drain graph inDegree queue result) := by
  induction inDegree, queue, result using drain.induct graph with
  | case1 inDegree result =>
    rw [InstantiationGraph.drain]
    exact ⟨inDegree, drained⟩
  | case2 inDegree result node queue released ih =>
    rw [InstantiationGraph.drain]
    exact ih (drained.step mirrored)

theorem drained_start (graph : InstantiationGraph) : Drained graph graph.inDegree
    ((List.range graph.instantiations.length).filter fun i => graph.inDegree i = 0).reverse [] := by
  constructor
  · rw [nil_append, nodup_reverse]
    exact nodup_range.filter _
  · intro i mem
    rw [nil_append, mem_reverse, mem_filter, mem_range] at mem
    exact mem.1
  · intro i hin
    unfold InstantiationGraph.inDegree
    rw [if_pos hin]
    simp
  · intro i hin
    rw [nil_append, mem_reverse, mem_filter, mem_range]
    simp [hin]
  · exact List.Pairwise.nil

theorem exists_topologicalOrder (mirrored : graph.Mirrored) : ∃ settled reached,
    Drained graph settled [] reached ∧ graph.topologicalOrder =
      reached ++ (List.range graph.instantiations.length).filter (· ∉ reached) := by
  unfold topologicalOrder
  dsimp only
  split
  · rename_i empty
    have start := drained_start graph
    rw [empty] at start ⊢
    exact ⟨graph.inDegree, [], start, rfl⟩
  · rcases (drained_start graph).drain mirrored with ⟨settled, drained⟩
    refine ⟨settled, _, drained, ?_⟩
    split
    · simp
    · rename_i full
      have nodup := drained.nodup
      rw [append_nil] at nodup
      have hw : ∀ i ∈ InstantiationGraph.drain graph graph.inDegree
          ((List.range graph.instantiations.length).filter fun i => graph.inDegree i = 0).reverse [],
          i ∈ List.range graph.instantiations.length := by
        intro i mem
        exact mem_range.mpr (drained.inside i (mem_append_left _ mem))
      have all := subperm_of_subset nodup hw
      have perm := all.perm_of_length_le (by rw [length_range]; exact Nat.not_lt.mp full)
      have none : (List.range graph.instantiations.length).filter (fun i =>
          i ∉ InstantiationGraph.drain graph graph.inDegree
            ((List.range graph.instantiations.length).filter fun i => graph.inDegree i = 0).reverse []) = [] := by
        apply filter_eq_nil_iff.mpr
        intro i mem
        simpa using perm.mem_iff.mpr mem
      rw [none, append_nil]

theorem Acyclic.wellFounded (acyclic : graph.Acyclic) :
    WellFounded fun j i : Fin graph.instantiations.length => TransGen graph.Depends i.val j.val := by
  have : IsTrans (Fin graph.instantiations.length) fun j i => TransGen graph.Depends i.val j.val :=
    ⟨fun _ _ _ fst snd => TransGen.trans snd fst⟩
  have : Std.Irrefl fun j i : Fin graph.instantiations.length => TransGen graph.Depends i.val j.val :=
    ⟨fun i cycle => acyclic i.val cycle⟩
  exact Finite.wellFounded_of_trans_of_irrefl _

theorem Drained.reached {settled : Nat → Nat} {reached : List Nat} (drained : Drained graph settled [] reached)
    {i : Nat} (mem : i ∈ reached) : ¬ graph.ReachesDropped i := by
  have along : ∀ k, ReflTransGen graph.Depends i k → k ∈ reached := by
    intro k path
    induction path with
    | refl => exact mem
    | tail _ step ih => exact drained.closed (mem_append_left _ ih) _ step.2.2
  rintro ⟨k, callee, path, dependency, dropped⟩
  have real := drained.closed (mem_append_left _ (along k path)) callee dependency
  exact Nat.not_lt.mpr dropped (drained.inside callee (mem_append_left _ real))

theorem Drained.stuck {settled : Nat → Nat} {reached : List Nat} (drained : Drained graph settled [] reached)
    (acyclic : graph.Acyclic) (i : Fin graph.instantiations.length) (outside : i.val ∉ reached) :
    graph.ReachesDropped i.val := by
  induction i using acyclic.wellFounded.induction with
  | _ i ih =>
    have unsettled : ¬ (graph.dependencies i.val).countP (· ∉ reached) = 0 := by
      rw [← drained.counts i.val i.isLt, ← drained.ready i.val i.isLt, append_nil]
      exact outside
    rw [countP_eq_zero] at unsettled
    simp only [decide_eq_true_eq, Classical.not_forall, Classical.not_not] at unsettled
    rcases unsettled with ⟨j, dependency, unordered⟩
    by_cases real : j < graph.instantiations.length
    · have depends : graph.Depends i.val j := ⟨i.isLt, real, dependency⟩
      rcases ih ⟨j, real⟩ (TransGen.single depends) unordered with ⟨k, callee, path, last, dropped⟩
      exact ⟨k, callee, ReflTransGen.head depends path, last, dropped⟩
    · exact ⟨i.val, j, ReflTransGen.refl, dependency, Nat.not_lt.mp real⟩

theorem not_related_of_sorted {R : Nat → Nat → Prop} {xs : List Nat} (sorted : xs.Pairwise (· < ·))
    (unrelated : xs.Pairwise fun a b => ¬ R a b) {i j : Nat} (fst : i ∈ xs) (snd : j ∈ xs)
    (pre : i < j) : ¬ R i j := by
  rw [pairwise_iff_getElem] at sorted unrelated
  rcases getElem_of_mem fst with ⟨p, isFirst, rfl⟩
  rcases getElem_of_mem snd with ⟨q, isSecond, rfl⟩
  apply unrelated p q isFirst isSecond
  apply Nat.lt_of_not_le
  intro hl
  rcases Nat.lt_or_eq_of_le hl with after | eq
  · exact Nat.lt_asymm pre (sorted q p isSecond isFirst after)
  · subst eq
    exact Nat.lt_irrefl _ pre

/-- The order is a permutation, and it puts dependencies first exactly when no instantiation depends on one that
    is not recorded before it and depends on a dropped request. -/
theorem dependenciesFirst_iff {computeHash : FunctionId → List TypeRef → UInt64} {returned : List Nat}
    (built : Built computeHash graph returned) : graph.DependenciesFirst ↔
      (graph.Acyclic → ∀ i j, graph.Depends i j → graph.ReachesDropped j → j < i) := by
  rcases exists_topologicalOrder built.mirrored with ⟨settled, reached, drained, isOrder⟩
  have nodup := drained.nodup
  rw [append_nil] at nodup
  have inside : ∀ i ∈ reached, i < graph.instantiations.length :=
    fun i member => drained.inside i (mem_append_left _ member)
  have rest : ∀ i, i ∈ (List.range graph.instantiations.length).filter (· ∉ reached) ↔
      i < graph.instantiations.length ∧ i ∉ reached := by
    intro i
    rw [mem_filter, mem_range, decide_eq_true_iff]
  have distinct : graph.topologicalOrder.Nodup := by
    rw [isOrder]
    apply nodup_append.mpr
    refine ⟨nodup, nodup_range.filter _, ?_⟩
    intro i first j second same
    exact ((rest j).mp second).2 (same ▸ first)
  have member : ∀ i, i ∈ graph.topologicalOrder ↔ i < graph.instantiations.length := by
    intro i
    rw [isOrder, mem_append, rest]
    by_cases ordered : i ∈ reached
    · simp [ordered, inside i ordered]
    · simp [ordered]
  have perm : graph.topologicalOrder.Perm (List.range graph.instantiations.length) := by
    apply (perm_ext_iff_of_nodup distinct nodup_range).mpr
    intro i
    rw [member, mem_range]
  unfold DependenciesFirst
  apply (and_iff_right perm).trans
  apply imp_congr_right
  intro acyclic
  have irreflexive : ∀ i, ¬ graph.Depends i i := fun i depends => acyclic i (TransGen.single depends)
  rw [← pairwise_not_iff_idxOf distinct irreflexive fun i j depends =>
    ⟨(member i).mpr depends.1, (member j).mpr depends.2.1⟩, isOrder, pairwise_append]
  have first : reached.Pairwise fun a b => ¬ graph.Depends a b :=
    drained.ordered.imp fun free depends => free depends.2.2
  have across : ∀ a ∈ reached, ∀ b ∈ (List.range graph.instantiations.length).filter (· ∉ reached),
      ¬ graph.Depends a b := by
    intro a before b after depends
    exact ((rest b).mp after).2 (drained.closed (mem_append_left _ before) b depends.2.2)
  have sorted : ((List.range graph.instantiations.length).filter (· ∉ reached)).Pairwise (· < ·) :=
    pairwise_lt_range.filter _
  constructor
  · rintro ⟨-, pairwise, -⟩ i j depends dropped
    have later : j ∉ reached := fun ordered => drained.reached ordered dropped
    have blocked : i ∉ reached := fun ordered =>
      later (drained.closed (mem_append_left _ ordered) j depends.2.2)
    apply Nat.lt_of_le_of_ne
    · apply Nat.le_of_not_lt
      intro before
      exact not_related_of_sorted sorted pairwise ((rest i).mpr ⟨depends.1, blocked⟩)
        ((rest j).mpr ⟨depends.2.1, later⟩) before depends
    · intro same
      exact irreflexive i (same ▸ depends)
  · intro earlier
    refine ⟨first, ?_, across⟩
    apply sorted.imp_of_mem
    intro a b isA isB before depends
    have dropped := drained.stuck acyclic ⟨b, depends.2.1⟩ ((rest b).mp isB).2
    exact Nat.lt_asymm before (earlier a b depends dropped)

/-- Two instantiations and a dropped request, on which the callee of a dependency depends. -/
def dangling (computeHash : FunctionId → List TypeRef → UInt64) (caller callee : Nat) : InstantiationGraph :=
  let int : TypeRef := .concrete ⟨2⟩
  let first := (new.recordInstantiation computeHash ⟨0⟩ [int] ⟨0, 0, 0⟩).2
  let second := (first.recordInstantiation computeHash ⟨1⟩ [int] ⟨0, 0, 0⟩).2
  let third := second.recordInstantiation computeHash ⟨2⟩ [TypeRef.slice^[64] int] ⟨0, 0, 0⟩
  (third.2.recordDependency caller callee).recordDependency callee third.1

def hashById (function : FunctionId) (_ : List TypeRef) : UInt64 := function.id.toUInt64

theorem dangling_built {caller callee : Nat} (isCaller : caller < 2) (isCallee : callee < 2) :
    Built hashById (dangling hashById caller callee) [usizeMax, 1, 0] := by
  have recorded : ∀ {i : Nat}, i < 2 → i ∈ [usizeMax, 1, 0] := by
    intro i hin
    have cases : i = 0 ∨ i = 1 := by omega
    rcases cases with rfl | rfl
    · decide
    · decide
  apply Built.recordDependency _ (recorded isCallee) (.head _)
  apply Built.recordDependency _ (recorded isCaller) (recorded isCallee)
  exact .recordInstantiation _ _ _ (.recordInstantiation _ _ _ (.recordInstantiation _ _ _ .new))

theorem dangling_depends {caller callee i j : Nat} (isCaller : caller < 2) (isCallee : callee < 2)
    (differs : caller ≠ callee) (depends : (dangling hashById caller callee).Depends i j) : i = caller ∧ j = callee := by
  rcases depends with ⟨isFirst, isSecond, dependency⟩
  have fst : i < 2 := isFirst
  have snd : j < 2 := isSecond
  have recorded : j ∈ update (update (fun _ => []) caller [callee]) callee
    (update (fun _ => []) caller [callee] callee ++ [usizeMax]) i := dependency
  by_cases eq : i = callee
  · rw [eq, update_self, update_of_ne (Ne.symm differs)] at recorded
    rw [mem_singleton.mp recorded] at snd
    exact absurd snd (by decide)
  · have isFirst : i = caller := by omega
    rw [isFirst, update_of_ne differs, update_self] at recorded
    exact ⟨isFirst, mem_singleton.mp recorded⟩

/-- A dependency that is recorded later, and itself depends on a dropped request, comes last. -/
theorem dangling_not_dependenciesFirst : Built hashById (dangling hashById 0 1) [usizeMax, 1, 0] ∧
    ¬ (dangling hashById 0 1).DependenciesFirst := by
  refine ⟨dangling_built (by decide) (by decide), ?_⟩
  intro ordered
  have acyclic : (dangling hashById 0 1).Acyclic := by
    intro i cycle
    have increases : i < i := by
      refine TransGen.trans_induction_on (motive := fun {a b} _ => a < b) cycle ?_ ?_
      · intro a b depends
        rcases dangling_depends (by decide) (by decide) (by decide) depends with ⟨rfl, rfl⟩
        decide
      · intro a b c _ _ first second
        exact Nat.lt_trans first second
    exact Nat.lt_irrefl i increases
  have order : (dangling hashById 0 1).topologicalOrder = [0, 1] := by
    have length : (dangling hashById 0 1).instantiations.length = 2 := rfl
    have queue : ((List.range 2).filter fun i => (dangling hashById 0 1).inDegree i = 0).reverse = [] := rfl
    unfold topologicalOrder
    rw [length, if_neg (by decide)]
    dsimp only
    rw [queue, InstantiationGraph.drain]
    rfl
  have first := ordered.2 acyclic 0 1 ⟨by decide, by decide, by decide⟩
  rw [order] at first
  exact absurd first (by decide)

/-- Recorded the other way round, the same requests are put in order. -/
theorem dangling_dependenciesFirst : (dangling hashById 1 0).DependenciesFirst := by
  apply (dependenciesFirst_iff (dangling_built (by decide) (by decide))).mpr
  intro _ i j depends _
  rcases dangling_depends (by decide) (by decide) (by decide) depends with ⟨rfl, rfl⟩
  decide

end InstantiationGraph

end Mono
