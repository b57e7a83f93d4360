import Verum.Collections.Memory
import Verum.Precedence.Order
import Mathlib.Data.List.AList

open List

namespace Collections

open Precedence Relation

inductive TopoError where
  /-- Textual trace of the nodes that a cycle holds back. -/
  | cycle (trace : List String)

/-- The maps are finite maps. -/
structure TopoGraph (N : Type) where
  nodes : List N
  /-- From a node to its dependents. -/
  edges : AList fun _ : N => List N
  /-- The number of prerequisites that each node waits on. -/
  inDeg : AList fun _ : N => Int

namespace TopoGraph

variable {N : Type} [DecidableEq N]

def new : TopoGraph N := ⟨[], ∅, ∅⟩

def addNode (graph : TopoGraph N) (node : N) : TopoGraph N :=
  if node ∈ graph.inDeg then graph
  else { graph with nodes := graph.nodes ++ [node], inDeg := graph.inDeg.insert node 0 }

/-- `dep` must come before `dependent`. -/
def addEdge (graph : TopoGraph N) (dep dependent : N) : TopoGraph N :=
  let graph := (graph.addNode dep).addNode dependent
  let list := (graph.edges.lookup dep).getD []
  let edges := graph.edges.erase dep
  if dependent ∈ list then { graph with edges := edges.insert dep list }
  else
    { graph with
      edges := edges.insert dep (list ++ [dependent])
      inDeg := graph.inDeg.insert dependent ((graph.inDeg.lookup dependent).getD 0 + 1) }

def release (state : (AList fun _ : N => Int) × List N) (d : N) : (AList fun _ : N => Int) × List N :=
  let next := (state.1.lookup d).getD 0 - 1
  (state.1.insert d next, if next = 0 then state.2 ++ [d] else state.2)

def orderFrom (graph : TopoGraph N) :
    Nat → (AList fun _ : N => Int) × List N → Nat → List N → Except Panic ((AList fun _ : N => Int) × List N)
  | 0, _, _, _ => .error .diverges
  | fuel + 1, (inDeg, queue), cursor, out =>
    match queue[cursor]? with
    | none => .ok (inDeg, out)
    | some node =>
      let dependents := (graph.edges.lookup node).getD []
      orderFrom graph fuel (dependents.foldl release (inDeg, queue)) (cursor + 1) (out ++ [node])

def nodeLabel (_ : N) : String := "<node>"

def toposort (graph : TopoGraph N) : Except Panic (Except TopoError (List N)) := do
  let inDegLocal := graph.nodes.foldl (fun map n => map.insert n ((graph.inDeg.lookup n).getD 0)) ∅
  let queue := graph.nodes.filter fun n => inDegLocal.lookup n = some 0
  let (inDegLocal, out) ← graph.orderFrom (graph.nodes.length + 1) (inDegLocal, queue) 0 []
  if out.length ≠ graph.nodes.length then
    let residual := graph.nodes.filter fun n => (inDegLocal.lookup n).getD 0 > 0
    .ok (.error (.cycle (residual.map nodeLabel)))
  else .ok (.ok out)

end TopoGraph

inductive TopoCall (N : Type) where
  | addNode (node : N)
  | addEdge (dep dependent : N)

namespace TopoCall

variable {N : Type} [DecidableEq N]

def perform (graph : TopoGraph N) : TopoCall N → TopoGraph N
  | addNode node => graph.addNode node
  | addEdge dep dependent => graph.addEdge dep dependent

def build (calls : List (TopoCall N)) : TopoGraph N := calls.foldl perform .new

def nodes : TopoCall N → List N
  | addNode node => [node]
  | addEdge dep dependent => [dep, dependent]

def edges : TopoCall N → List (N × N)
  | addNode _ => []
  | addEdge dep dependent => [(dep, dependent)]

end TopoCall

namespace TopoGraph

section Describes

variable {N : Type} [DecidableEq N] {graph : TopoGraph N} {pairs : List (N × N)} {node a b x : N}

def targets (graph : TopoGraph N) (node : N) : List N := (graph.edges.lookup node).getD []

/-- The edge lists and the counters of a graph agree with its edges, each taken once. -/
structure Describes (graph : TopoGraph N) (pairs : List (N × N)) : Prop where
  nodes_nodup : graph.nodes.Nodup
  counted : ∀ x, x ∈ graph.inDeg ↔ x ∈ graph.nodes
  pairs_nodup : pairs.Nodup
  inside : ∀ a b, (a, b) ∈ pairs → a ∈ graph.nodes ∧ b ∈ graph.nodes
  targets_nodup : ∀ a, (graph.targets a).Nodup
  mem_targets : ∀ a b, b ∈ graph.targets a ↔ (a, b) ∈ pairs
  degrees : ∀ x ∈ graph.nodes, graph.inDeg.lookup x = some (pairs.countP (·.2 = x) : Int)

theorem describes_new : Describes (new : TopoGraph N) [] where
  nodes_nodup := nodup_nil
  counted x := by simp [new]
  pairs_nodup := nodup_nil
  inside a b mem := absurd mem not_mem_nil
  targets_nodup a := by simp [targets, new, AList.lookup_empty]
  mem_targets a b := by simp [targets, new, AList.lookup_empty]
  degrees x mem := absurd mem not_mem_nil

theorem Describes.addNode (describes : Describes graph pairs) (node : N) :
    Describes (graph.addNode node) pairs ∧ (∀ x, x ∈ (graph.addNode node).nodes ↔ x ∈ graph.nodes ∨ x = node) := by
  rw [TopoGraph.addNode]
  split
  · rename_i known
    refine ⟨describes, ?_⟩
    intro x
    constructor
    · exact .inl
    · rintro (old | rfl)
      · exact old
      · exact (describes.counted x).mp known
  · rename_i unknown
    have hf : node ∉ graph.nodes := fun mem => unknown ((describes.counted node).mpr mem)
    have ms : ∀ x, x ∈ graph.nodes ++ [node] ↔ x ∈ graph.nodes ∨ x = node := by simp
    refine ⟨⟨?_, ?_, describes.pairs_nodup, ?_, describes.targets_nodup, describes.mem_targets, ?_⟩, ms⟩
    · exact nodup_append.mpr ⟨describes.nodes_nodup, nodup_singleton _, by grind⟩
    · intro x
      rw [AList.mem_insert, describes.counted, ms, or_comm]
    · intro a b mem
      have old := describes.inside a b mem
      exact ⟨(ms a).mpr (.inl old.1), (ms b).mpr (.inl old.2)⟩
    · intro x mem
      by_cases here : x = node
      · subst here
        have none : pairs.countP (fun pair => pair.2 = x) = 0 := by
          rw [countP_eq_zero]
          rintro ⟨a, b⟩ pair eq
          exact hf (of_decide_eq_true eq ▸ (describes.inside a b pair).2)
        rw [AList.lookup_insert, none]
        rfl
      · rw [AList.lookup_insert_ne here]
        exact describes.degrees x (((ms x).mp mem).resolve_right here)

theorem Describes.addEdge (describes : Describes graph pairs) (dep dependent : N) :
    Describes (graph.addEdge dep dependent) (if (dep, dependent) ∈ pairs then pairs else pairs ++ [(dep, dependent)]) ∧
      ∀ x, x ∈ (graph.addEdge dep dependent).nodes ↔ x ∈ graph.nodes ∨ x = dep ∨ x = dependent := by
  obtain ⟨describes, fst⟩ := describes.addNode dep
  obtain ⟨describes, snd⟩ := describes.addNode dependent
  have known : ∀ x, x ∈ ((graph.addNode dep).addNode dependent).nodes ↔
      x ∈ graph.nodes ∨ x = dep ∨ x = dependent := by
    intro x
    rw [snd, fst, or_assoc]
  rw [TopoGraph.addEdge]
  generalize (graph.addNode dep).addNode dependent = grown at describes known ⊢
  have stored : ∀ (list : List N) (inDeg : AList fun _ : N => Int) (a : N),
      targets { grown with edges := (grown.edges.erase dep).insert dep list, inDeg } a =
        if a = dep then list else grown.targets a := by
    intro list inDeg a
    split
    · rename_i eq
      rw [targets, eq, AList.lookup_insert, Option.getD_some]
    · rename_i different
      rw [targets, AList.lookup_insert_ne different, AList.lookup_erase_ne different, targets]
  have old : dependent ∈ (grown.edges.lookup dep).getD [] ↔ (dep, dependent) ∈ pairs :=
    describes.mem_targets dep dependent
  by_cases repeated : (dep, dependent) ∈ pairs
  · rw [if_pos (old.mpr repeated), if_pos repeated]
    have eq : ∀ a, targets { grown with
        edges := (grown.edges.erase dep).insert dep ((grown.edges.lookup dep).getD []) } a = grown.targets a := by
      intro a
      rw [stored _ grown.inDeg]
      split
      · rename_i eq
        rw [eq, targets]
      · rfl
    refine ⟨⟨describes.nodes_nodup, describes.counted, describes.pairs_nodup, describes.inside, ?_, ?_,
      describes.degrees⟩, known⟩
    · intro a
      exact (eq a).symm ▸ describes.targets_nodup a
    · intro a b
      rw [eq]
      exact describes.mem_targets a b
  · rw [if_neg (mt old.mp repeated), if_neg repeated]
    have dependentKnown : dependent ∈ grown.nodes := (known dependent).mpr (.inr (.inr rfl))
    refine ⟨⟨describes.nodes_nodup, ?_, ?_, ?_, ?_, ?_, ?_⟩, known⟩
    · intro x
      rw [AList.mem_insert, describes.counted]
      constructor
      · rintro (rfl | mem)
        · exact dependentKnown
        · exact mem
      · exact .inr
    · exact nodup_append.mpr ⟨describes.pairs_nodup, nodup_singleton _, by grind⟩
    · intro a b mem
      rcases mem_append.mp mem with mem | mem
      · exact describes.inside a b mem
      · cases mem_singleton.mp mem
        exact ⟨(known _).mpr (.inr (.inl rfl)), dependentKnown⟩
    · intro a
      rw [stored]
      split
      · exact nodup_append.mpr ⟨describes.targets_nodup dep, nodup_singleton _, by grind⟩
      · exact describes.targets_nodup a
    · intro a b
      rw [stored, mem_append, mem_singleton, ← describes.mem_targets]
      split
      · rename_i eq
        subst eq
        rw [mem_append, mem_singleton, Prod.mk.injEq]
        exact or_congr Iff.rfl (by simp)
      · rename_i different
        simp [different]
    · intro x mem
      rw [countP_append]
      by_cases here : x = dependent
      · subst here
        rw [AList.lookup_insert, describes.degrees x mem, Option.getD_some]
        simp
      · rw [AList.lookup_insert_ne here, describes.degrees x mem]
        simp [Ne.symm here]

theorem describes_build (calls : List (TopoCall N)) :
    ∃ pairs, Describes (TopoCall.build calls) pairs ∧
      (∀ pair, pair ∈ pairs ↔ pair ∈ calls.flatMap TopoCall.edges) ∧
      ∀ x, x ∈ (TopoCall.build calls).nodes ↔ x ∈ calls.flatMap TopoCall.nodes := by
  have step : ∀ (calls : List (TopoCall N)) {graph : TopoGraph N} {pairs : List (N × N)}, Describes graph pairs →
      ∃ pairs', Describes (calls.foldl TopoCall.perform graph) pairs' ∧
        (∀ pair, pair ∈ pairs' ↔ pair ∈ pairs ∨ pair ∈ calls.flatMap TopoCall.edges) ∧
        ∀ x, x ∈ (calls.foldl TopoCall.perform graph).nodes ↔
          x ∈ graph.nodes ∨ x ∈ calls.flatMap TopoCall.nodes := by
    intro calls
    induction calls with
    | nil => exact fun describes => ⟨_, describes, by simp, by simp⟩
    | cons call calls ih =>
      intro graph pairs describes
      cases call with
      | addNode node =>
        obtain ⟨describes, nodes⟩ := describes.addNode node
        obtain ⟨pairs', describes, ms, known⟩ := ih describes
        refine ⟨pairs', describes, by simp [ms, TopoCall.edges], ?_⟩
        intro x
        rw [foldl_cons, flatMap_cons, mem_append, ← or_assoc]
        exact (known x).trans (or_congr_left ((nodes x).trans (by simp [TopoCall.nodes])))
      | addEdge dep dependent =>
        obtain ⟨describes, nodes⟩ := describes.addEdge dep dependent
        obtain ⟨pairs', describes, ms, known⟩ := ih describes
        refine ⟨pairs', describes, ?_, ?_⟩
        · intro pair
          rw [ms, flatMap_cons, mem_append, ← or_assoc]
          apply or_congr_left
          split
          · rename_i repeated
            simp only [TopoCall.edges, mem_singleton]
            grind
          · simp [TopoCall.edges]
        · intro x
          rw [foldl_cons, flatMap_cons, mem_append, ← or_assoc]
          exact (known x).trans (or_congr_left ((nodes x).trans (by simp [TopoCall.nodes])))
  obtain ⟨pairs, describes, ms, nodes⟩ := step calls describes_new
  refine ⟨pairs, describes, by simp [ms], ?_⟩
  intro x
  exact (nodes x).trans (by simp [new])

end Describes

section Sorts

variable {N : Type} [DecidableEq N] {graph : TopoGraph N} {pairs pending left : List (N × N)} {node a b d x : N}
variable {inDeg : AList fun _ : N => Int} {queue done : List N}

/-- In the midst of the loop: the nodes done have released their edges but those `left`, the counters hold the
number of pending edges, and the queue holds the nodes without one, in a right order. -/
structure Sorts (graph : TopoGraph N) (pairs pending : List (N × N)) (done : List N) (left : List (N × N))
    (inDeg : AList fun _ : N => Int) (queue : List N) : Prop where
  pending_nodup : pending.Nodup
  mem_pending : ∀ a b, (a, b) ∈ pending ↔ (a, b) ∈ pairs ∧ (a ∉ done ∨ (a, b) ∈ left)
  degrees : ∀ x ∈ graph.nodes, inDeg.lookup x = some (pending.countP (·.2 = x) : Int)
  queue_nodup : queue.Nodup
  mem_queue : ∀ x, x ∈ queue ↔ x ∈ graph.nodes ∧ ∀ a, (a, x) ∉ pending
  ordered : Ordered pairs queue
  done_sub : done ⊆ queue

theorem count_zero_iff : pending.countP (fun pair => pair.2 = x) = 0 ↔ ∀ a, (a, x) ∉ pending := by
  rw [countP_eq_zero]
  constructor
  · intro none a mem
    exact none (a, x) mem (decide_eq_true rfl)
  · rintro none ⟨a, b⟩ mem eq
    exact none a (of_decide_eq_true eq ▸ mem)

theorem Sorts.release (sorts : Sorts graph pairs pending done ((node, d) :: left) inDeg queue)
    (hin : d ∈ graph.nodes) (edge : (node, d) ∈ pairs) (isDone : node ∈ done) (once : (node, d) ∉ left) :
    Sorts graph pairs (pending.erase (node, d)) done left (TopoGraph.release (inDeg, queue) d).1
      (TopoGraph.release (inDeg, queue) d).2 := by
  have waiting : (node, d) ∈ pending := (sorts.mem_pending node d).mpr ⟨edge, .inr (.head _)⟩
  have ms : ∀ a b, (a, b) ∈ pending.erase (node, d) ↔ (a, b) ≠ (node, d) ∧ (a, b) ∈ pending :=
    fun a b => sorts.pending_nodup.mem_erase_iff
  have hf : d ∉ queue := fun mem => ((sorts.mem_queue d).mp mem).2 node waiting
  have counts : ∀ x, (pending.erase (node, d)).countP (fun pair => pair.2 = x) =
      pending.countP (fun pair => pair.2 = x) - if d = x then 1 else 0 := by
    intro x
    rw [countP_erase]
    simp [waiting]
  have pos : 0 < pending.countP (fun pair => pair.2 = d) :=
    countP_pos_iff.mpr ⟨(node, d), waiting, decide_eq_true rfl⟩
  have next : (inDeg.lookup d).getD 0 - 1 = ((pending.erase (node, d)).countP (fun pair => pair.2 = d) : Int) := by
    rw [sorts.degrees d hin, Option.getD_some, counts, if_pos rfl]
    omega
  have others : ∀ x, x ≠ d → ((∀ a, (a, x) ∉ pending.erase (node, d)) ↔ ∀ a, (a, x) ∉ pending) := by
    intro x different
    apply forall_congr'
    intro a
    rw [ms]
    simp [different]
  rw [TopoGraph.release, next]
  refine ⟨sorts.pending_nodup.erase _, ?_, ?_, ?_, ?_, ?_, ?_⟩
  · intro a b
    rw [ms, sorts.mem_pending, mem_cons]
    grind
  · intro x mem
    by_cases here : x = d
    · subst here
      exact AList.lookup_insert _
    · rw [AList.lookup_insert_ne here, sorts.degrees x mem, counts, if_neg (Ne.symm here), Nat.sub_zero]
  · split
    · exact nodup_append.mpr ⟨sorts.queue_nodup, nodup_singleton _, by grind⟩
    · exact sorts.queue_nodup
  · intro x
    by_cases here : x = d
    · subst here
      rw [← count_zero_iff]
      split
      · rename_i zero
        simp [hin, Int.natCast_eq_zero.mp zero]
      · rename_i more
        simp [hf, mt Int.natCast_eq_zero.mpr more]
    · rw [others x here, ← sorts.mem_queue]
      split
      · simp [here]
      · rfl
  · split
    · rename_i zero
      apply sorts.ordered.snoc
      intro a pre
      have released := count_zero_iff.mp (Int.natCast_eq_zero.mp zero) a
      rw [ms] at released
      by_cases eq : a = node
      · exact sorts.done_sub (eq ▸ isDone)
      · have notPending : (a, d) ∉ pending := fun mem => released ⟨by simp [eq], mem⟩
        rw [sorts.mem_pending] at notPending
        have isDone : a ∈ done := by
          by_contra undone
          exact notPending ⟨pre, .inl undone⟩
        exact sorts.done_sub isDone
    · exact sorts.ordered
  · split
    · exact fun x mem => mem_append_left _ (sorts.done_sub mem)
    · exact sorts.done_sub

theorem Sorts.releaseAll (ds : List N) (nodup : ds.Nodup) (edges : ∀ d ∈ ds, d ∈ graph.nodes ∧ (node, d) ∈ pairs)
    (isDone : node ∈ done) (sorts : Sorts graph pairs pending done (ds.map (node, ·)) inDeg queue) :
    ∃ pending', Sorts graph pairs pending' done [] (ds.foldl TopoGraph.release (inDeg, queue)).1
      (ds.foldl TopoGraph.release (inDeg, queue)).2 ∧ queue <+: (ds.foldl TopoGraph.release (inDeg, queue)).2 := by
  induction ds generalizing inDeg queue pending with
  | nil => exact ⟨pending, sorts, prefix_refl _⟩
  | cons d ds ih =>
    have fst := edges d (.head _)
    obtain ⟨hf, nodup⟩ := nodup_cons.mp nodup
    have released := sorts.release fst.1 fst.2 isDone (by simpa using hf)
    obtain ⟨pending', sorts', longer⟩ := ih nodup (fun d mem => edges d (.tail _ mem)) released
    refine ⟨pending', sorts', ?_⟩
    have kept : queue <+: (TopoGraph.release (inDeg, queue) d).2 := by
      rw [TopoGraph.release]
      split
      · exact prefix_append _ _
      · exact prefix_refl _
    exact kept.trans longer

theorem Sorts.take (describes : Describes graph pairs) (sorts : Sorts graph pairs pending done [] inDeg queue)
    (mem : node ∈ queue) (hf : node ∉ done) :
    Sorts graph pairs pending (done ++ [node]) ((graph.targets node).map (node, ·)) inDeg queue where
  pending_nodup := sorts.pending_nodup
  mem_pending a b := by
    rw [sorts.mem_pending, mem_append, mem_singleton, mem_map]
    constructor
    · rintro ⟨pair, undone | absurd⟩
      · by_cases eq : a = node
        · subst eq
          exact ⟨pair, .inr ⟨b, (describes.mem_targets a b).mpr pair, rfl⟩⟩
        · exact ⟨pair, .inl (by simp [undone, eq])⟩
      · cases absurd
    · rintro ⟨pair, undone | ⟨d, _, eq⟩⟩
      · exact ⟨pair, .inl fun isDone => undone (.inl isDone)⟩
      · cases eq
        exact ⟨pair, .inl hf⟩
  degrees := sorts.degrees
  queue_nodup := sorts.queue_nodup
  mem_queue := sorts.mem_queue
  ordered := sorts.ordered
  done_sub x hin := by
    rcases mem_append.mp hin with old | new
    · exact sorts.done_sub old
    · exact mem_singleton.mp new ▸ mem

theorem Sorts.orderFrom (describes : Describes graph pairs) (fuel cursor : Nat)
    (sorts : Sorts graph pairs pending (queue.take cursor) [] inDeg queue) (hw : cursor ≤ queue.length)
    (he : graph.nodes.length < fuel + cursor) :
    ∃ inDeg' queue' pending', graph.orderFrom fuel (inDeg, queue) cursor (queue.take cursor) = .ok (inDeg', queue') ∧
      Sorts graph pairs pending' queue' [] inDeg' queue' := by
  have hb : queue.length ≤ graph.nodes.length :=
    (sorts.queue_nodup.subperm fun x mem => ((sorts.mem_queue x).mp mem).1).length_le
  induction fuel generalizing cursor pending inDeg queue with
  | zero => omega
  | succ fuel ih =>
    rw [TopoGraph.orderFrom]
    cases hit : queue[cursor]? with
    | none =>
      have whole := take_of_length_le (List.getElem?_eq_none_iff.mp hit)
      rw [whole] at sorts ⊢
      exact ⟨inDeg, queue, pending, rfl, sorts⟩
    | some node =>
      obtain ⟨hr, isNode⟩ := List.getElem?_eq_some_iff.mp hit
      have next : queue.take (cursor + 1) = queue.take cursor ++ [node] := by
        rw [take_add_one, hit, Option.toList_some]
      have hf : node ∉ queue.take cursor := by
        have nodup := (take_sublist (cursor + 1) queue).nodup sorts.queue_nodup
        rw [next] at nodup
        intro mem
        exact (nodup_append.mp nodup).2.2 node mem node (mem_singleton_self _) rfl
      have taken := sorts.take describes (mem_of_getElem? hit) hf
      have edges : ∀ d ∈ graph.targets node, d ∈ graph.nodes ∧ (node, d) ∈ pairs := by
        intro d tgt
        have pair := (describes.mem_targets node d).mp tgt
        exact ⟨(describes.inside node d pair).2, pair⟩
      obtain ⟨pending', sorts', longer⟩ := taken.releaseAll _ (describes.targets_nodup node) edges (by simp)
      simp only
      rw [show (graph.edges.lookup node).getD [] = graph.targets node from rfl]
      generalize (graph.targets node).foldl TopoGraph.release (inDeg, queue) = st at sorts' longer ⊢
      obtain ⟨inDeg', queue'⟩ := st
      have eq : queue'.take (cursor + 1) = queue.take cursor ++ [node] := by
        obtain ⟨rest, rfl⟩ := longer
        rw [take_append_of_le_length hr, next]
      rw [← eq] at sorts' ⊢
      apply ih (cursor + 1) sorts' _ (by omega)
      · exact (sorts'.queue_nodup.subperm fun x mem => ((sorts'.mem_queue x).mp mem).1).length_le
      · exact le_trans hr longer.length_le

theorem lookup_foldl_insert (nodes : List N) (f : N → Int) (mem : x ∈ nodes) :
    (nodes.foldl (fun (map : AList fun _ : N => Int) n => map.insert n (f n)) ∅).lookup x = some (f x) := by
  induction nodes using List.reverseRecOn with
  | nil => exact absurd mem not_mem_nil
  | append_singleton front last ih =>
    rw [foldl_append, foldl_cons, foldl_nil]
    by_cases here : x = last
    · rw [here, AList.lookup_insert]
    · rw [AList.lookup_insert_ne here]
      exact ih ((mem_append.mp mem).resolve_right (by simpa using here))

theorem Describes.starts (describes : Describes graph pairs)
    (degrees : ∀ x ∈ graph.nodes, inDeg.lookup x = some ((graph.inDeg.lookup x).getD 0)) :
    Sorts graph pairs pairs [] [] inDeg (graph.nodes.filter fun n => inDeg.lookup n = some 0) := by
  have counts : ∀ x ∈ graph.nodes, inDeg.lookup x = some (pairs.countP (·.2 = x) : Int) := by
    intro x mem
    rw [degrees x mem, describes.degrees x mem, Option.getD_some]
  have ms : ∀ x, x ∈ (graph.nodes.filter fun n => inDeg.lookup n = some 0) ↔
      x ∈ graph.nodes ∧ ∀ a, (a, x) ∉ pairs := by
    intro x
    rw [mem_filter, decide_eq_true_eq, ← count_zero_iff]
    apply and_congr_right
    intro mem
    rw [counts x mem]
    simp
  refine ⟨describes.pairs_nodup, by simp, counts, describes.nodes_nodup.filter _, ms, ?_, nil_subset _⟩
  intro front x back split a pre
  have mem : x ∈ graph.nodes.filter fun n => inDeg.lookup n = some 0 := by simp [split]
  exact absurd pre (((ms x).mp mem).2 a)

theorem Sorts.mem_queue_iff (describes : Describes graph pairs) (sorts : Sorts graph pairs pending queue [] inDeg queue) :
    ∀ x, x ∈ queue ↔ x ∈ graph.nodes ∧ ¬ Blocked pairs x := by
  intro x
  rw [← acc_iff_not_blocked]
  constructor
  · intro mem
    exact ⟨((sorts.mem_queue x).mp mem).1, sorts.ordered.acc (append_nil _).symm x mem⟩
  · rintro ⟨known, accessible⟩
    induction accessible with
    | intro x _ ih =>
      rw [sorts.mem_queue]
      refine ⟨known, ?_⟩
      intro a waiting
      obtain ⟨pair, undone | absurd⟩ := (sorts.mem_pending a x).mp waiting
      · exact undone (ih a pair (describes.inside a x pair).1)
      · cases absurd

theorem Sorts.waiting_iff (describes : Describes graph pairs) (sorts : Sorts graph pairs pending queue [] inDeg queue)
    (known : x ∈ graph.nodes) : (inDeg.lookup x).getD 0 > 0 ↔ Blocked pairs x := by
  have ord := sorts.mem_queue_iff describes x
  rw [sorts.mem_queue, ← count_zero_iff] at ord
  rw [sorts.degrees x known, Option.getD_some]
  have blocked : pending.countP (fun pair => pair.2 = x) = 0 ↔ ¬ Blocked pairs x := by simpa [known] using ord
  constructor
  · intro pos
    by_contra free
    have none := blocked.mpr free
    omega
  · intro isBlocked
    have some : pending.countP (fun pair => pair.2 = x) ≠ 0 := fun none => blocked.mp none isBlocked
    omega

theorem Describes.toposort (describes : Describes graph pairs) :
    ∃ res, graph.toposort = .ok res ∧ ((∃ ord, res = .ok ord) ↔ Acyclic pairs) ∧
      (∀ ord, res = .ok ord → ord.Perm graph.nodes ∧
        ∀ a b, Before pairs a b → ord.idxOf a < ord.idxOf b) ∧
      ∀ trace, res = .error (.cycle trace) → ∃ residual : List N, residual ≠ [] ∧ residual.Nodup ∧
        (∀ x, x ∈ residual ↔ x ∈ graph.nodes ∧ Blocked pairs x) ∧ trace = residual.map nodeLabel := by
  have starts := describes.starts fun x mem => lookup_foldl_insert graph.nodes
    (fun n => (graph.inDeg.lookup n).getD 0) mem
  obtain ⟨inDeg, queue, pending, run, sorts⟩ := Sorts.orderFrom describes (graph.nodes.length + 1) 0
    (by rwa [take_zero]) (Nat.zero_le _) (by omega)
  rw [take_zero] at run
  have ms := sorts.mem_queue_iff describes
  have hw : queue ⊆ graph.nodes := fun x mem => ((ms x).mp mem).1
  have subperm := sorts.queue_nodup.subperm hw
  have residual : ∀ x, x ∈ (graph.nodes.filter fun n => (inDeg.lookup n).getD 0 > 0) ↔
      x ∈ graph.nodes ∧ Blocked pairs x := by
    intro x
    rw [mem_filter, decide_eq_true_eq]
    exact and_congr_right fun known => sorts.waiting_iff describes known
  rw [TopoGraph.toposort]
  simp only [run, okBind]
  by_cases complete : queue.length = graph.nodes.length
  · rw [if_neg (not_not.mpr complete)]
    have perm : queue.Perm graph.nodes := subperm.perm_of_length_le complete.ge
    have acyclic : Acyclic pairs := by
      intro c cycle
      obtain ⟨next, pre, _⟩ := TransGen.head'_iff.mp cycle
      have known := (describes.inside c next pre).1
      exact ((ms c).mp (perm.mem_iff.mpr known)).2 ⟨c, cycle, .refl⟩
    refine ⟨_, rfl, ⟨fun _ => acyclic, fun _ => ⟨queue, rfl⟩⟩, ?_, ?_⟩
    · intro ord eq
      cases eq
      refine ⟨perm, ?_⟩
      intro a b pre
      exact sorts.ordered.idxOf_lt pre (perm.mem_iff.mpr (describes.inside a b pre).2)
    · intro trace eq
      cases eq
  · rw [if_pos complete]
    have missing : ∃ x ∈ graph.nodes, x ∉ queue := by
      by_contra none
      push Not at none
      have others := describes.nodes_nodup.subperm none
      exact complete (le_antisymm subperm.length_le others.length_le)
    obtain ⟨x, known, outside⟩ := missing
    have blocked : Blocked pairs x := by
      by_contra free
      exact outside ((ms x).mpr ⟨known, free⟩)
    refine ⟨_, rfl, ⟨?_, ?_⟩, ?_, ?_⟩
    · rintro ⟨ord, eq⟩
      cases eq
    · intro acyclic
      exact absurd blocked (acyclic_iff_not_blocked.mp acyclic x)
    · intro ord eq
      cases eq
    · intro trace eq
      cases eq
      exact ⟨_, ne_nil_of_mem ((residual x).mpr ⟨known, blocked⟩), describes.nodes_nodup.filter _, residual, rfl⟩

/-- The sort of every graph that calls build is exact. -/
theorem toposort_exact (calls : List (TopoCall N)) :
    (TopoCall.build calls).nodes.Nodup ∧
      (∀ x, x ∈ (TopoCall.build calls).nodes ↔ x ∈ calls.flatMap TopoCall.nodes) ∧
      ∃ result, (TopoCall.build calls).toposort = .ok result ∧
        ((∃ order, result = .ok order) ↔ Acyclic (calls.flatMap TopoCall.edges)) ∧
        (∀ order, result = .ok order → order.Perm (TopoCall.build calls).nodes ∧
          ∀ a b, Before (calls.flatMap TopoCall.edges) a b → order.idxOf a < order.idxOf b) ∧
        ∀ trace, result = .error (.cycle trace) → ∃ residual : List N, residual ≠ [] ∧ residual.Nodup ∧
          (∀ x, x ∈ residual ↔ x ∈ (TopoCall.build calls).nodes ∧ Blocked (calls.flatMap TopoCall.edges) x) ∧
          trace = residual.map nodeLabel := by
  obtain ⟨pairs, describes, members, nodes⟩ := describes_build calls
  have same : Before (calls.flatMap TopoCall.edges) = Before pairs := by
    ext a b
    exact (members (a, b)).symm
  refine ⟨describes.nodes_nodup, nodes, ?_⟩
  simp only [Acyclic, Blocked, same]
  exact describes.toposort

example : (TopoCall.build [.addEdge 2 1, .addNode 3, .addEdge 2 1, .addEdge 3 2]).toposort = .ok (.ok [3, 2, 1]) := by
  rfl

end Sorts

end TopoGraph

end Collections
