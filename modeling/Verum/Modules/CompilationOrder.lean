import Verum.Modules.DependencyGraph
import Mathlib.Data.List.Perm.Basic

open List

namespace Modules

open Relation

variable {α : Type*}

theorem transGen_restrict {step : α → α → Prop} {hin : α → Prop} {source target : α}
    (path : TransGen step source target)
    (between : ∀ mid, ReflTransGen step source mid → ReflTransGen step mid target → hin mid) :
    TransGen (fun a b => step a b ∧ hin a ∧ hin b) source target := by
  induction path with
  | single edge => exact .single ⟨edge, between _ .refl (.single edge), between _ (.single edge) .refl⟩
  | @tail mid last pre edge ih =>
    have insideMiddle : hin mid := between _ pre.to_reflTransGen (.single edge)
    have insideLast : hin last := between _ (pre.to_reflTransGen.tail edge) .refl
    exact .tail (ih fun other start finish => between other start (finish.tail edge))
      ⟨edge, insideMiddle, insideLast⟩

theorem pair_sublist_trans {ord : List α} (nodup : ord.Nodup) {a b c : α} (fst : [a, b].Sublist ord)
    (snd : [b, c].Sublist ord) : [a, c].Sublist ord := by
  induction nodup with
  | nil => cases fst
  | @cons head ord ha _ ih =>
    cases fst with
    | cons _ fst =>
      cases snd with
      | cons _ snd => exact .cons _ (ih fst snd)
      | cons_cons _ snd => exact absurd rfl (ha _ (fst.subset (by simp)))
    | cons_cons _ fst =>
      cases snd with
      | cons _ snd => exact .cons_cons _ (singleton_sublist.mpr (snd.subset (by simp)))
      | cons_cons _ snd => exact .cons_cons _ snd

theorem filterMap_range_getElem? (nodes : List α) :
    (List.range nodes.length).filterMap (fun node => nodes[node]?) = nodes := by
  induction nodes using List.reverseRecOn with
  | nil => rfl
  | append_singleton front last ih =>
    rw [length_append, length_singleton, range_succ, filterMap_append]
    have front_same : (List.range front.length).filterMap (fun node => (front ++ [last])[node]?) = front := by
      conv_rhs => rw [← ih]
      refine filterMap_congr fun node mem => ?_
      rw [List.getElem?_append_left (mem_range.mp mem)]
    rw [front_same]
    simp

namespace DependencyGraph

def modules (self : DependencyGraph) : List ModuleId := self.graph.nodes

def Depends (self : DependencyGraph) (source target : ModuleId) : Prop :=
  ∃ sourceNode targetNode, self.graph.Edge sourceNode targetNode ∧
    self.graph.nodes[sourceNode]? = some source ∧ self.graph.nodes[targetNode]? = some target

def Acyclic (self : DependencyGraph) : Prop := ∀ id, ¬ TransGen self.Depends id id

/-- Each of the modules reaches each of them through the modules of the list alone. -/
def FormsCycle (self : DependencyGraph) (cycle : List ModuleId) : Prop :=
  cycle ≠ [] ∧ ∀ a ∈ cycle, ∀ b ∈ cycle,
    TransGen (fun source target => self.Depends source target ∧ source ∈ cycle ∧ target ∈ cycle) a b

def Mutual (self : DependencyGraph) : Prop :=
  ∃ a b, a ≠ b ∧ TransGen self.Depends a b ∧ TransGen self.Depends b a

section Nodes

variable {self : DependencyGraph}

theorem node_unique {fst snd : Nat} {id : ModuleId} (isFirst : self.graph.nodes[fst]? = some id)
    (isSecond : self.graph.nodes[snd]? = some id) : fst = snd := by
  have eq := (self.idToNode_iff id fst).mpr isFirst
  rw [(self.idToNode_iff id snd).mpr isSecond] at eq
  exact (Option.some.inj eq).symm

theorem modules_nodup : self.modules.Nodup := by
  rw [modules, nodup_iff_getElem?_ne_getElem?]
  intro fst snd pre hr eq
  have isFirst : self.graph.nodes[fst]? = some (self.graph.nodes[snd]) := by
    rw [eq, List.getElem?_eq_getElem hr]
  have := node_unique isFirst (List.getElem?_eq_getElem hr)
  omega

theorem exists_module {node : Nat} (hr : node < self.graph.nodes.length) :
    ∃ id, self.graph.nodes[node]? = some id := ⟨_, List.getElem?_eq_getElem hr⟩

variable {source target : Nat} {a b : ModuleId}

theorem transGen_depends_of_edge (path : TransGen self.graph.Edge source target) :
    ∀ {a b : ModuleId}, self.graph.nodes[source]? = some a → self.graph.nodes[target]? = some b →
      TransGen self.Depends a b := by
  induction path with
  | single edge =>
    intro a b isA isB
    exact .single ⟨_, _, edge, isA, isB⟩
  | @tail mid last _ edge ih =>
    intro a b isA isB
    obtain ⟨id, isId⟩ := exists_module (self.edges_lt _ _ edge).1
    exact .tail (ih isA isId) ⟨_, _, edge, isId, isB⟩

theorem transGen_edge_of_depends (path : TransGen self.Depends a b) :
    ∃ source target, self.graph.nodes[source]? = some a ∧ self.graph.nodes[target]? = some b ∧
      TransGen self.graph.Edge source target := by
  induction path with
  | single edge =>
    obtain ⟨source, target, edge, isA, isB⟩ := edge
    exact ⟨source, target, isA, isB, .single edge⟩
  | tail _ edge ih =>
    obtain ⟨source, mid, isA, isMiddle, pre⟩ := ih
    obtain ⟨middle', target, edge, isMiddle', isB⟩ := edge
    rw [← node_unique isMiddle isMiddle'] at edge
    exact ⟨source, target, isA, isB, .tail pre edge⟩

theorem reflTransGen_edge_of_depends (isA : self.graph.nodes[source]? = some a)
    (isB : self.graph.nodes[target]? = some b) (path : ReflTransGen self.Depends a b) :
    ReflTransGen self.graph.Edge source target := by
  rcases reflTransGen_iff_eq_or_transGen.mp path with rfl | path
  · rw [node_unique isA isB]
  · obtain ⟨source', target', isA', isB', path⟩ := transGen_edge_of_depends path
    rw [node_unique isA isA', node_unique isB isB']
    exact path.to_reflTransGen

theorem depends_module (depends : self.Depends a b) : a ∈ self.modules ∧ b ∈ self.modules := by
  obtain ⟨source, target, -, isA, isB⟩ := depends
  exact ⟨mem_of_getElem? isA, mem_of_getElem? isB⟩

theorem cyclic_iff : self.graph.Cyclic ↔ ¬ self.Acyclic := by
  simp only [DiGraph.Cyclic, Acyclic, not_forall, not_not]
  constructor
  · rintro ⟨node, loop⟩
    have hr : node < self.graph.nodes.length := by
      cases loop with
      | single edge => exact (self.edges_lt _ _ edge).1
      | tail _ edge => exact (self.edges_lt _ _ edge).2
    obtain ⟨id, isId⟩ := exists_module hr
    exact ⟨id, transGen_depends_of_edge loop isId isId⟩
  · rintro ⟨id, loop⟩
    obtain ⟨source, target, isSource, isTarget, path⟩ := transGen_edge_of_depends loop
    rw [node_unique isTarget isSource] at path
    exact ⟨source, path⟩

end Nodes

variable {petgraph : Petgraph} {self : DependencyGraph}

section Cycles

theorem hasCycles_iff (correct : petgraph.CorrectOn self.graph) :
    self.hasCycles petgraph = true ↔ ¬ self.Acyclic := by
  rw [hasCycles, correct.isCyclicDirected_iff, cyclic_iff]

variable {scc : List Nat}

theorem mem_component_iff {id : ModuleId} :
    id ∈ scc.filterMap self.nodeToId ↔ ∃ node ∈ scc, self.graph.nodes[node]? = some id := by
  simp [mem_filterMap, self.nodeToId_eq]

theorem exists_ne_of_component (correct : petgraph.CorrectOn self.graph)
    (component : scc ∈ petgraph.tarjanScc self.graph) (several : 1 < scc.length) (source : Nat) :
    ∃ other ∈ scc, other ≠ source := by
  by_contra none
  push Not at none
  have isReplicate : scc = List.replicate scc.length source := eq_replicate_iff.mpr ⟨rfl, none⟩
  have nodup := correct.scc_nodup scc component
  rw [isReplicate, nodup_replicate] at nodup
  omega

theorem transGen_edge_of_component (correct : petgraph.CorrectOn self.graph)
    (component : scc ∈ petgraph.tarjanScc self.graph) (several : 1 < scc.length) {source target : Nat}
    (inSource : source ∈ scc) (inTarget : target ∈ scc) : TransGen self.graph.Edge source target := by
  have nd : ∀ {a b}, a ∈ scc → b ∈ scc → a ≠ b → TransGen self.graph.Edge a b := by
    intro a b inA inB ne
    rcases reflTransGen_iff_eq_or_transGen.mp (correct.scc_connected scc component a inA b inB) with eq | path
    · exact absurd eq.symm ne
    · exact path
  by_cases eq : source = target
  · subst eq
    obtain ⟨other, inOther, ne⟩ := exists_ne_of_component correct component several source
    exact (nd inSource inOther (Ne.symm ne)).trans (nd inOther inSource ne)
  · exact nd inSource inTarget eq

theorem mutual_of_component (correct : petgraph.CorrectOn self.graph)
    (component : scc ∈ petgraph.tarjanScc self.graph) (several : 1 < scc.length) : self.Mutual := by
  obtain ⟨fst, inFirst, -⟩ := exists_ne_of_component correct component several 0
  obtain ⟨snd, inSecond, ne⟩ := exists_ne_of_component correct component several fst
  obtain ⟨a, isA⟩ := exists_module (correct.scc_node scc component fst inFirst)
  obtain ⟨b, isB⟩ := exists_module (correct.scc_node scc component snd inSecond)
  refine ⟨a, b, ?_, ?_, ?_⟩
  · rintro rfl
    exact ne (node_unique isB isA)
  · exact transGen_depends_of_edge
      (transGen_edge_of_component correct component several inFirst inSecond) isA isB
  · exact transGen_depends_of_edge
      (transGen_edge_of_component correct component several inSecond inFirst) isB isA

theorem formsCycle_of_component (correct : petgraph.CorrectOn self.graph)
    (component : scc ∈ petgraph.tarjanScc self.graph) (several : 1 < scc.length)
    (has : scc.filterMap self.nodeToId ≠ []) : self.FormsCycle (scc.filterMap self.nodeToId) := by
  refine ⟨has, ?_⟩
  intro a inA b inB
  obtain ⟨source, inSource, isA⟩ := mem_component_iff.mp inA
  obtain ⟨target, inTarget, isB⟩ := mem_component_iff.mp inB
  have path := transGen_edge_of_component correct component several inSource inTarget
  refine transGen_restrict (transGen_depends_of_edge path isA isB) ?_
  intro mid pre after
  have isModule : mid ∈ self.modules := by
    rcases ReflTransGen.cases_tail pre with eq | ⟨_, -, edge⟩
    · exact eq ▸ mem_of_getElem? isA
    · exact (depends_module edge).2
  obtain ⟨node, isMiddle⟩ := mem_iff_getElem?.mp isModule
  have toNode := reflTransGen_edge_of_depends isA isMiddle pre
  have fromNode := reflTransGen_edge_of_depends isMiddle isB after
  have back := correct.scc_connected scc component target inTarget source inSource
  exact mem_component_iff.mpr
    ⟨node, correct.scc_maximal scc component source inSource node toNode (fromNode.trans back), isMiddle⟩

theorem detectCycle_some (correct : petgraph.CorrectOn self.graph) {cycle : List ModuleId}
    (hit : self.detectCycle petgraph = some cycle) : self.FormsCycle cycle ∧ self.Mutual := by
  rw [detectCycle] at hit
  split at hit
  · cases hit
  · obtain ⟨scc, component, isCycle⟩ := exists_of_findSome?_eq_some hit
    split at isCycle
    · rename_i several
      simp only [Option.ite_none_left_eq_some, Option.some.injEq] at isCycle
      obtain ⟨has, rfl⟩ := isCycle
      exact ⟨formsCycle_of_component correct component several (by simpa using has),
        mutual_of_component correct component several⟩
    · cases isCycle

theorem detectCycle_of_mutual (correct : petgraph.CorrectOn self.graph) (mutually : self.Mutual) :
    ∃ cycle, self.detectCycle petgraph = some cycle := by
  obtain ⟨a, b, ne, forth, back⟩ := mutually
  have cyclic : self.hasCycles petgraph = true :=
    (hasCycles_iff correct).mpr fun acyclic => acyclic a (forth.trans back)
  obtain ⟨source, target, isA, isB, path⟩ := transGen_edge_of_depends forth
  obtain ⟨scc, component, inSource⟩ := correct.scc_covers source (List.getElem?_eq_some_iff.mp isA).1
  have inTarget : target ∈ scc := correct.scc_maximal scc component source inSource target
    path.to_reflTransGen (reflTransGen_edge_of_depends isB isA back.to_reflTransGen)
  have several : scc.length > 1 := by
    by_contra few
    match scc, few with
    | [], _ => cases inSource
    | [node], _ =>
      rw [mem_singleton.mp inSource, ← mem_singleton.mp inTarget] at isA
      exact ne (Option.some.inj (isA.symm.trans isB))
    | _ :: _ :: _, few => simp at few
  rw [← Option.isSome_iff_exists, detectCycle, if_neg (by simp [cyclic]), List.findSome?_isSome_iff]
  refine ⟨scc, component, ?_⟩
  rw [if_pos several, if_neg, Option.isSome_some]
  rw [List.isEmpty_iff]
  exact ne_nil_of_mem (mem_component_iff.mpr ⟨source, inSource, isA⟩)

end Cycles

theorem topologicalOrder_acyclic (correct : petgraph.CorrectOn self.graph) (acyclic : self.Acyclic) :
    ∃ ord, self.topologicalOrder petgraph = .ok ord ∧ ord.Perm self.modules ∧
      ∀ a b, self.Depends a b → [a, b].Sublist ord := by
  have notCyclic : ¬ self.graph.Cyclic := fun cyclic => cyclic_iff.mp cyclic acyclic
  have noCycle : self.detectCycle petgraph = none := by
    rw [detectCycle, if_pos]
    rw [Bool.not_eq_true', ← Bool.not_eq_true, hasCycles_iff correct, not_not]
    exact acyclic
  cases sorts : petgraph.toposort self.graph with
  | none => exact absurd (correct.toposort_none.mp sorts) notCyclic
  | some sorted =>
    have lookup : self.nodeToId = fun node => self.graph.nodes[node]? := funext self.nodeToId_eq
    refine ⟨sorted.filterMap self.nodeToId, ?_, ?_, ?_⟩
    · rw [topologicalOrder, noCycle, sorts]
    · have perm := (correct.toposort_perm sorted sorts).filterMap self.nodeToId
      have all : (List.range self.graph.nodes.length).filterMap self.nodeToId = self.modules := by
        rw [lookup, filterMap_range_getElem?, modules]
      rwa [all] at perm
    · rintro a b ⟨source, target, edge, isA, isB⟩
      have pair := (correct.toposort_before sorted sorts source target edge).filterMap self.nodeToId
      simpa [self.nodeToId_eq, isA, isB] using pair

theorem topologicalOrder_mutual (correct : petgraph.CorrectOn self.graph) (mutually : self.Mutual) :
    ∃ cycle, self.topologicalOrder petgraph = .error (self.circularDependency cycle) ∧
      self.FormsCycle cycle := by
  obtain ⟨cycle, hit⟩ := detectCycle_of_mutual correct mutually
  exact ⟨cycle, by rw [topologicalOrder, hit], (detectCycle_some correct hit).1⟩

theorem topologicalOrder_selfLoops (correct : petgraph.CorrectOn self.graph) (cyclic : ¬ self.Acyclic)
    (ne : ¬ self.Mutual) :
    self.topologicalOrder petgraph = .error (self.circularDependency [0]) := by
  have noCycle : self.detectCycle petgraph = none := by
    cases hit : self.detectCycle petgraph with
    | none => rfl
    | some cycle => exact absurd (detectCycle_some correct hit).2 ne
  rw [topologicalOrder, noCycle, correct.toposort_none.mpr (cyclic_iff.mpr cyclic)]
  rfl

theorem formsCycle_singleton (id : ModuleId) : self.FormsCycle [id] ↔ self.Depends id id := by
  constructor
  · rintro ⟨-, reaches⟩
    have loop := reaches id (by simp) id (by simp)
    obtain ⟨edge, isSource, isTarget⟩ | ⟨_, edge, isSource, isTarget⟩ := loop
    · exact edge
    · rw [mem_singleton] at isSource
      exact isSource ▸ edge
  · intro edge
    refine ⟨by simp, ?_⟩
    intro a inA b inB
    rw [mem_singleton.mp inA, mem_singleton.mp inB]
    exact .single ⟨edge, by simp, by simp⟩

/-- Success means no cycle and a list with dependencies before dependents; an error names a cycle. -/
structure OrderedCorrectly (petgraph : Petgraph) (built : DependencyGraph) : Prop where
  ok_iff : (∃ order, built.topologicalOrder petgraph = .ok order) ↔ built.Acyclic
  ok_order : ∀ order, built.topologicalOrder petgraph = .ok order →
    order.Nodup ∧ (∀ id, id ∈ order ↔ id ∈ built.modules) ∧ ∀ a b, built.Depends a b → [b, a].Sublist order
  error_cycle : ∀ error, built.topologicalOrder petgraph = .error error →
    ∃ cycle paths, error = .circularDependency cycle paths ∧ built.FormsCycle cycle

theorem orderedCorrectly_of_error {cycle : List ModuleId}
    (fails : self.topologicalOrder petgraph = .error (self.circularDependency cycle)) (cyclic : ¬ self.Acyclic) :
    OrderedCorrectly petgraph self ↔ self.FormsCycle cycle := by
  constructor
  · intro ord
    obtain ⟨named, paths, eq, forms⟩ := ord.error_cycle _ fails
    rw [circularDependency, ModuleError.circularDependency.injEq] at eq
    exact eq.1 ▸ forms
  · intro forms
    refine ⟨⟨?_, fun acyclic => absurd acyclic cyclic⟩, ?_, ?_⟩
    · rintro ⟨order, succeeds⟩
      rw [fails] at succeeds
      cases succeeds
    · intro order succeeds
      rw [fails] at succeeds
      cases succeeds
    · intro error fails'
      rw [fails] at fails'
      cases fails'
      exact ⟨cycle, _, rfl, forms⟩

theorem orderedCorrectly_of_acyclic (correct : petgraph.CorrectOn self.graph) (acyclic : self.Acyclic) :
    OrderedCorrectly petgraph self ↔ ∀ a b, ¬ self.Depends a b := by
  obtain ⟨order, succeeds, perm, pre⟩ := topologicalOrder_acyclic correct acyclic
  have nodup : order.Nodup := perm.nodup_iff.mpr modules_nodup
  constructor
  · intro ord a b depends
    have reversed := (ord.ok_order order succeeds).2.2 a b depends
    exact nodup_iff_sublist.mp nodup a (pair_sublist_trans nodup (pre a b depends) reversed)
  · intro independent
    refine ⟨⟨fun _ => acyclic, fun _ => ⟨order, succeeds⟩⟩, ?_, ?_⟩
    · intro order' succeeds'
      rw [succeeds] at succeeds'
      cases succeeds'
      exact ⟨nodup, fun id => perm.mem_iff, fun a b depends => absurd depends (independent a b)⟩
    · intro error fails
      rw [succeeds] at fails
      cases fails

theorem orderedCorrectly_iff (petgraph : Petgraph) (self : DependencyGraph)
    (correct : petgraph.CorrectOn self.graph) :
    OrderedCorrectly petgraph self ↔
      (∀ a b, ¬ self.Depends a b) ∨ self.Mutual ∨ self.Depends 0 0 := by
  by_cases acyclic : self.Acyclic
  · rw [orderedCorrectly_of_acyclic correct acyclic]
    constructor
    · exact .inl
    · rintro (independent | ⟨a, b, -, forth, back⟩ | loop)
      · exact independent
      · exact absurd (forth.trans back) (acyclic a)
      · exact absurd (.single loop) (acyclic 0)
  · have depends : ¬ ∀ a b, ¬ self.Depends a b := by
      intro independent
      refine acyclic fun id loop => ?_
      obtain ⟨_, edge, -⟩ := TransGen.head'_iff.mp loop
      exact independent _ _ edge
    by_cases mutually : self.Mutual
    · obtain ⟨cycle, fails, forms⟩ := topologicalOrder_mutual correct mutually
      simp [orderedCorrectly_of_error fails acyclic, forms, mutually]
    · have fails := topologicalOrder_selfLoops correct acyclic mutually
      simp [orderedCorrectly_of_error fails acyclic, formsCycle_singleton, mutually, depends]

def pair : Except ModuleError DependencyGraph :=
  ((new.addModule 1 "a").addModule 2 "b").addDependency 1 2

/-- The library's answers for two nodes and an edge from the first to the second. -/
def pairAnswers : Petgraph where
  isCyclicDirected _ := false
  tarjanScc _ := [[1], [0]]
  toposort _ := some [0, 1]

theorem pair_graph : ∃ built, pair = .ok built ∧ built.graph = ⟨[1, 2], [(0, 1)]⟩ ∧
    built.topologicalOrder pairAnswers = .ok [1, 2] :=
  ⟨_, rfl, rfl, rfl⟩

theorem pair_edge_iff (source target : Nat) :
    DiGraph.Edge ⟨[1, 2], [(0, 1)]⟩ source target ↔ source = 0 ∧ target = 1 := by
  simp [DiGraph.Edge]

theorem pair_reaches {source target : Nat} (path : ReflTransGen (DiGraph.Edge ⟨[1, 2], [(0, 1)]⟩) source target) :
    source = target ∨ source = 0 ∧ target = 1 := by
  rcases ReflTransGen.cases_head path with eq | ⟨_, edge, rest⟩
  · exact .inl eq
  · rw [pair_edge_iff] at edge
    rcases ReflTransGen.cases_head rest with eq | ⟨_, edge', -⟩
    · exact .inr ⟨edge.1, eq ▸ edge.2⟩
    · rw [pair_edge_iff] at edge'
      omega

theorem pairAnswers_correct : pairAnswers.CorrectOn ⟨[1, 2], [(0, 1)]⟩ := by
  have acyclic : ¬ DiGraph.Cyclic ⟨[1, 2], [(0, 1)]⟩ := by
    rintro ⟨node, loop⟩
    obtain ⟨mid, edge, rest⟩ := TransGen.head'_iff.mp loop
    rw [pair_edge_iff] at edge
    rcases pair_reaches rest with eq | ends <;> omega
  constructor
  · simp [pairAnswers, acyclic]
  · simp [pairAnswers]
  · simp [pairAnswers]
  · simp [pairAnswers, ReflTransGen.refl]
  · intro scc component a inA b forth back
    have eq : b = a := by
      rcases pair_reaches forth with eq | ends
      · exact eq.symm
      · rcases pair_reaches back with eq | ends' <;> omega
    exact eq ▸ inA
  · intro node hr
    match node, hr with
    | 0, _ => exact ⟨[0], by simp [pairAnswers], by simp⟩
    | 1, _ => exact ⟨[1], by simp [pairAnswers], by simp⟩
  · simp [pairAnswers, acyclic]
  · rintro _ ⟨⟩
    exact .refl _
  · rintro _ ⟨⟩ source target edge
    obtain ⟨rfl, rfl⟩ := (pair_edge_iff source target).mp edge
    exact .refl _

theorem orderedCorrectly_pair :
    ∃ built, pair = .ok built ∧ pairAnswers.CorrectOn built.graph ∧
      (OrderedCorrectly pairAnswers built ↔
        (∀ a b, ¬ built.Depends a b) ∨ built.Mutual ∨ built.Depends 0 0) := by
  obtain ⟨built, isBuilt, graph, -⟩ := pair_graph
  have correct : pairAnswers.CorrectOn built.graph := graph ▸ pairAnswers_correct
  exact ⟨built, isBuilt, correct, orderedCorrectly_iff pairAnswers built correct⟩

/-- The dependent comes first. -/
theorem not_orderedCorrectly_pair :
    ∃ built, pair = .ok built ∧ pairAnswers.CorrectOn built.graph ∧
      built.topologicalOrder pairAnswers = .ok [1, 2] ∧ ¬ OrderedCorrectly pairAnswers built := by
  obtain ⟨built, isBuilt, graph, succeeds⟩ := pair_graph
  have correct : pairAnswers.CorrectOn built.graph := graph ▸ pairAnswers_correct
  have depends : built.Depends 1 2 := ⟨0, 1, by simp [DiGraph.Edge, graph], by simp [graph], by simp [graph]⟩
  have acyclic : built.Acyclic := by
    by_contra cyclic
    rw [← cyclic_iff, ← correct.isCyclicDirected_iff] at cyclic
    cases cyclic
  refine ⟨built, isBuilt, correct, succeeds, fun ordered => ?_⟩
  exact (orderedCorrectly_of_acyclic correct acyclic).mp ordered 1 2 depends

end DependencyGraph

end Modules
