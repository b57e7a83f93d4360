import Verum.Modules.IncrementalGraph

open List

namespace Modules

open Function

open Relation

namespace IncrementalGraph

section TransitiveDependents

theorem foldl_visitDependent (dependents : List ModuleId) :
    ∀ visited stack : List ModuleId, visited.Nodup →
      ∃ hf : List ModuleId, dependents.foldl visitDependent (visited, stack) =
          (visited ++ hf, hf.reverse ++ stack) ∧
        (visited ++ hf).Nodup ∧ ∀ id, id ∈ hf ↔ id ∈ dependents ∧ id ∉ visited := by
  induction dependents with
  | nil =>
    intro visited stack nodup
    exact ⟨[], by simp, by simpa using nodup, by simp⟩
  | cons dependent dependents ih =>
    intro visited stack nodup
    rw [foldl_cons, visitDependent]
    by_cases old : dependent ∈ visited
    · rw [if_pos (by simpa using old)]
      obtain ⟨hf, res, nd, mem⟩ := ih visited stack nodup
      refine ⟨hf, res, nd, fun id => ?_⟩
      rw [mem, mem_cons]
      constructor
      · exact fun ⟨isDependent, new⟩ => ⟨.inr isDependent, new⟩
      · rintro ⟨rfl | isDependent, new⟩
        · exact absurd old new
        · exact ⟨isDependent, new⟩
    · rw [if_neg (by simpa using old)]
      have nodup' : (visited ++ [dependent]).Nodup := by
        rw [nodup_append]
        exact ⟨nodup, by simp, fun a inVisited b inLast => by
          rw [mem_singleton.mp inLast]
          exact fun eq => old (eq ▸ inVisited)⟩
      obtain ⟨hf, res, nd, mem⟩ := ih (visited ++ [dependent]) (dependent :: stack) nodup'
      refine ⟨dependent :: hf, by simpa using res, by simpa using nd, fun id => ?_⟩
      rw [mem_cons, mem, mem_cons, mem_append, mem_singleton]
      by_cases eq : id = dependent
      · subst eq
        simp [old]
      · simp [eq]

variable {self : IncrementalGraph}

/-- What holds of the visited set and the stack whenever the loop tests the stack: both are sound,
and every dependent of a module that left the stack has been visited. -/
structure Visiting (built : IncrementalGraph) (id : ModuleId) (visited stack : List ModuleId) : Prop where
  nodup : visited.Nodup
  visited_sound : ∀ other ∈ visited, TransGen built.graph.Depends other id
  stack_sound : ∀ other ∈ stack, ReflTransGen built.graph.Depends other id
  expanded : ∀ other, other = id ∨ other ∈ visited → other ∈ stack ∨
    ∀ dependent, built.graph.Depends dependent other → dependent ∈ visited

variable {id : ModuleId} {visited stack : List ModuleId}

theorem Visiting.length_le (visiting : Visiting self id visited stack) :
    visited.length ≤ self.graph.modules.length := by
  refine (subperm_of_subset visiting.nodup fun other mem => ?_).length_le
  obtain ⟨_, edge, -⟩ := TransGen.head'_iff.mp (visiting.visited_sound other mem)
  exact (DependencyGraph.depends_module edge).1

theorem Visiting.pop {cur : ModuleId} {hf : List ModuleId}
    (visiting : Visiting self id visited (cur :: stack)) (nodup : (visited ++ hf).Nodup)
    (mem : ∀ other, other ∈ hf ↔ other ∈ self.graph.dependentsOf cur ∧ other ∉ visited) :
    Visiting self id (visited ++ hf) (hf.reverse ++ stack) := by
  have fromCurrent : ReflTransGen self.graph.Depends cur id := visiting.stack_sound cur (by simp)
  have fresh_sound : ∀ other ∈ hf, TransGen self.graph.Depends other id := by
    intro other isFresh
    exact .head' (DependencyGraph.mem_dependentsOf.mp ((mem other).mp isFresh).1) fromCurrent
  refine ⟨nodup, ?_, ?_, ?_⟩
  · intro other isVisited
    rcases mem_append.mp isVisited with old | new
    · exact visiting.visited_sound other old
    · exact fresh_sound other new
  · intro other onStack
    rcases mem_append.mp onStack with new | old
    · exact (fresh_sound other (mem_reverse.mp new)).to_reflTransGen
    · exact visiting.stack_sound other (.tail _ old)
  · intro other cases
    by_cases isFresh : other ∈ hf
    · exact .inl (mem_append_left _ (mem_reverse.mpr isFresh))
    · have pre : other = id ∨ other ∈ visited := by
        simpa [isFresh] using cases
      rcases visiting.expanded other pre with onStack | hc
      · rcases mem_cons.mp onStack with rfl | hlt
        · refine .inr fun dependent depends => ?_
          by_cases old : dependent ∈ visited
          · exact mem_append_left _ old
          · exact mem_append_right _ ((mem dependent).mpr
              ⟨DependencyGraph.mem_dependentsOf.mpr depends, old⟩)
        · exact .inl (mem_append_right _ hlt)
      · exact .inr fun dependent depends => mem_append_left _ (hc dependent depends)

theorem Visiting.exact (visiting : Visiting self id visited []) (other : ModuleId) :
    other ∈ visited ↔ TransGen self.graph.Depends other id := by
  refine ⟨visiting.visited_sound other, fun path => ?_⟩
  have hc : ∀ known, known = id ∨ known ∈ visited →
      ∀ dependent, self.graph.Depends dependent known → dependent ∈ visited := by
    intro known cases
    rcases visiting.expanded known cases with onStack | hc
    · cases onStack
    · exact hc
  induction path using TransGen.head_induction_on with
  | single edge => exact hc id (.inl rfl) _ edge
  | head edge _ ih => exact hc _ (.inr ih) _ edge

theorem transitiveDependentsLoop_exact :
    ∀ (fuel : Nat) (visited stack : List ModuleId), Visiting self id visited stack →
      stack.length + (self.graph.modules.length - visited.length) ≤ fuel →
      ∀ other, other ∈ self.transitiveDependentsLoop fuel visited stack ↔
        TransGen self.graph.Depends other id := by
  intro fuel
  induction fuel with
  | zero =>
    intro visited stack visiting he
    rw [eq_nil_of_length_eq_zero (by omega : stack.length = 0)] at visiting
    exact visiting.exact
  | succ fuel ih =>
    intro visited stack visiting he
    match stack, visiting, he with
    | [], visiting, _ => exact visiting.exact
    | cur :: stack, visiting, he =>
      obtain ⟨hf, res, nodup, mem⟩ := foldl_visitDependent (self.graph.dependentsOf cur)
        visited stack visiting.nodup
      have popped := visiting.pop nodup mem
      have hb := popped.length_le
      rw [transitiveDependentsLoop, res]
      refine ih _ _ popped ?_
      simp only [length_append, length_reverse, length_cons] at hb he ⊢
      omega

theorem mem_transitiveDependentsOf {other : ModuleId} :
    other ∈ self.transitiveDependentsOf id ↔ TransGen self.graph.Depends other id := by
  refine transitiveDependentsLoop_exact _ [] [id] ⟨by simp, by simp, ?_, ?_⟩ ?_ other
  · intro start isId
    rw [mem_singleton.mp isId]
  · intro known cases
    exact .inl (by simpa using cases)
  · simp only [length_singleton, length_nil]
    omega

end TransitiveDependents

section DirtyOrder

theorem transGen_before {α : Type*} {step : α → α → Prop} {ord : List α} (nodup : ord.Nodup)
    (pre : ∀ a b, step a b → [a, b].Sublist ord) {a b : α} (path : TransGen step a b) :
    [a, b].Sublist ord := by
  induction path with
  | single edge => exact pre _ _ edge
  | tail _ edge ih => exact pair_sublist_trans nodup ih (pre _ _ edge)

/-- Every dirty module is listed once, after the dirty modules it depends on. -/
structure DirtyInOrder (built : IncrementalGraph) (order : List ModuleId) : Prop where
  nodup : order.Nodup
  mem_iff : ∀ id, id ∈ order ↔ ∃ state, built.states id = some state ∧ state.dirty = true
  after : ∀ id dependency, id ∈ order → dependency ∈ order → TransGen built.graph.Depends id dependency →
    [dependency, id].Sublist order

/-- Every module of the graph has a state, and no other has. -/
def Registered (self : IncrementalGraph) : Prop := ∀ id, (self.states id).isSome ↔ id ∈ self.graph.modules

variable {self : IncrementalGraph}

theorem dirtyIds_iff {id : ModuleId} :
    self.dirtyIds id = true ↔ ∃ st, self.states id = some st ∧ st.dirty = true := by
  rw [dirtyIds, Option.any_eq_true]

theorem dirtyModulesInOrder_exact {petgraph : Petgraph} (registered : self.Registered)
    (correct : petgraph.CorrectOn self.graph.graph) (acyclic : self.graph.Acyclic) :
    ∃ ord, self.dirtyModulesInOrder petgraph = .ok ord ∧ self.DirtyInOrder ord := by
  obtain ⟨ord, succeeds, perm, pre⟩ := DependencyGraph.topologicalOrder_acyclic correct acyclic
  have nodup : ord.Nodup := perm.nodup_iff.mpr DependencyGraph.modules_nodup
  refine ⟨ord.reverse.filter self.dirtyIds, by rw [dirtyModulesInOrder, succeeds]; rfl, ?_, ?_, ?_⟩
  · exact (nodup_reverse.mpr nodup).filter _
  · intro id
    rw [mem_filter, mem_reverse, perm.mem_iff, dirtyIds_iff]
    refine ⟨And.right, fun dirty => ⟨?_, dirty⟩⟩
    obtain ⟨st, isState, -⟩ := dirty
    exact (registered id).mp (by rw [isState]; rfl)
  · intro id dependency inId inDependency path
    have pair : [dependency, id].Sublist ord.reverse := by
      simpa using reverse_sublist.mpr (transGen_before nodup pre path)
    have kept := pair.filter self.dirtyIds
    rw [filter_eq_self.mpr] at kept
    · exact kept
    · intro other mem
      rcases mem_cons.mp mem with rfl | mem
      · exact (mem_filter.mp inDependency).2
      · rw [mem_singleton.mp mem]
        exact (mem_filter.mp inId).2

end DirtyOrder

end IncrementalGraph

inductive Operation where
  | addModule (id : ModuleId) (path : String) (contentHash : UInt64)
  | addDependency (source target : ModuleId)
  | updateContent (id : ModuleId) (newHash : UInt64)
  | invalidate (id : ModuleId)
  | markCompiled (id : ModuleId)

namespace IncrementalGraph

def apply (self : IncrementalGraph) : Operation → IncrementalGraph
  | .addModule id path contentHash => self.addModule id path contentHash
  | .addDependency source target => (self.addDependency source target).toOption.getD self
  | .updateContent id newHash => (self.updateContent id newHash).1
  | .invalidate id => (self.invalidate id).1
  | .markCompiled id => self.markCompiled id

/-- The module whose stored content an operation replaces by a different one. -/
def changed (self : IncrementalGraph) : Operation → Option ModuleId
  | .addModule id _ contentHash => if self.hasContentChanged id contentHash then some id else none
  | .updateContent id newHash => if (self.updateContent id newHash).2 then some id else none
  | _ => none

/-- The module is known and not dirty. -/
def Clean (self : IncrementalGraph) (id : ModuleId) : Prop :=
  ∃ state, self.states id = some state ∧ state.dirty = false

end IncrementalGraph

/-- A graph with the times at which contents last changed and modules were last compiled. -/
structure Session where
  incremental : IncrementalGraph
  time : Nat
  changedAt : ModuleId → Nat
  compiledAt : ModuleId → Nat

namespace Session

def start : Session := ⟨.new, 0, fun _ => 0, fun _ => 0⟩

def stamp (times : ModuleId → Nat) (now : Nat) : Option ModuleId → ModuleId → Nat
  | none => times
  | some id => update times id now

def compiles : Operation → Option ModuleId
  | .markCompiled id => some id
  | _ => none

def step (session : Session) (operation : Operation) : Session where
  incremental := session.incremental.apply operation
  time := session.time + 1
  changedAt := stamp session.changedAt (session.time + 1) (session.incremental.changed operation)
  compiledAt := stamp session.compiledAt (session.time + 1) (compiles operation)

def run (operations : List Operation) : Session := operations.foldl step start

/-- Each clean module was compiled after the last change of every module it depends on. -/
def Fresh (session : Session) : Prop :=
  ∀ id, session.incremental.Clean id → ∀ dependency, TransGen session.incremental.graph.Depends id dependency →
    session.changedAt dependency < session.compiledAt id

/-- A changed module has no other clean module depending on it, and a new edge gives no clean module
a dependency that changed since it was compiled. -/
def Safe (session : Session) : Operation → Prop
  | .addDependency source target =>
    source ∈ session.incremental.graph.modules → target ∈ session.incremental.graph.modules →
    ∀ id, session.incremental.Clean id → ReflTransGen session.incremental.graph.Depends id source →
    ∀ dependency, ReflTransGen session.incremental.graph.Depends target dependency →
      session.changedAt dependency < session.compiledAt id
  | operation => ∀ changed, session.incremental.changed operation = some changed →
    ∀ id, id ≠ changed → session.incremental.Clean id → ¬ TransGen session.incremental.graph.Depends id changed

/-- What the incremental compiler relies on in a state. -/
structure Trustworthy (petgraph : Petgraph) (session : Session) : Prop where
  fresh : session.Fresh
  dirty_order : petgraph.CorrectOn session.incremental.graph.graph → session.incremental.graph.Acyclic →
    ∃ order, session.incremental.dirtyModulesInOrder petgraph = .ok order ∧
      session.incremental.DirtyInOrder order

end Session

namespace IncrementalGraph

variable {self : IncrementalGraph}

theorem states_foldl_markDirty (marked : List ModuleId) (id : ModuleId) :
    (marked.foldl markDirty self).graph = self.graph ∧
    (marked.foldl markDirty self).states id =
      if id ∈ marked then (self.states id).map ModuleState.markDirty else self.states id := by
  induction marked generalizing self with
  | nil => simp
  | cons fst marked ih =>
    obtain ⟨g, states⟩ := @ih (self.markDirty fst)
    refine ⟨g, ?_⟩
    rw [foldl_cons, states, markDirty]
    by_cases eq : id = fst
    · subst eq
      cases self.states id <;> simp [ModuleState.markDirty]
    · simp [eq]

@[simp] theorem invalidate_graph (id : ModuleId) : (self.invalidate id).1.graph = self.graph :=
  (states_foldl_markDirty _ id).1
variable {id other : ModuleId} {newHash : UInt64}

theorem clean_invalidate :
    (self.invalidate id).1.Clean other ↔ self.Clean other ∧ ¬ ReflTransGen self.graph.Depends other id := by
  have marked : other ∈ id :: self.transitiveDependentsOf id ↔ ReflTransGen self.graph.Depends other id := by
    rw [mem_cons, mem_transitiveDependentsOf, reflTransGen_iff_eq_or_transGen, eq_comm]
  rw [Clean, invalidate, (states_foldl_markDirty _ other).2]
  split
  · rename_i isMarked
    have reaches := marked.mp isMarked
    cases self.states other <;> simp [ModuleState.markDirty, reaches]
  · rename_i unmarked
    have ne := marked.not.mp unmarked
    simp [Clean, ne]

theorem clean_addModule {path : String} {contentHash : UInt64} :
    (self.addModule id path contentHash).Clean other ↔ other ≠ id ∧ self.Clean other := by
  simp only [Clean, addModule, update_apply]
  split
  · rename_i eq
    simp [ModuleState.new, eq]
  · rename_i ne
    simp [ne]

theorem updateContent_unchanged (eq : (self.updateContent id newHash).2 = false) :
    (self.updateContent id newHash).1 = self := by
  rw [updateContent] at eq ⊢
  split
  · split
    · simp_all
    · rfl
  · rfl

theorem updateContent_graph : (self.updateContent id newHash).1.graph = self.graph := by
  rw [updateContent]
  split
  · split <;> rfl
  · rfl

theorem clean_updateContent (changes : (self.updateContent id newHash).2 = true) :
    (self.updateContent id newHash).1.Clean other ↔ other ≠ id ∧ self.Clean other := by
  rw [updateContent] at changes ⊢
  split at changes
  · split at changes
    · rename_i st isState ne
      simp only [ne, if_true, Clean, update_apply]
      by_cases eq : other = id
      · simp [eq, ModuleState.markDirty]
      · simp [eq]
    · cases changes
  · cases changes

theorem clean_markCompiled_of_ne (ne : other ≠ id) : (self.markCompiled id).Clean other ↔ self.Clean other := by
  simp only [Clean, markCompiled, update_of_ne ne]

theorem apply_addDependency (self : IncrementalGraph) (src tgt : ModuleId) :
    (self.apply (.addDependency src tgt)).states = self.states ∧
      (self.apply (.addDependency src tgt)).graph.modules = self.graph.modules ∧
      ((src ∈ self.graph.modules ∧ tgt ∈ self.graph.modules) ∧
          (∀ a b, (self.apply (.addDependency src tgt)).graph.Depends a b ↔
            self.graph.Depends a b ∨ a = src ∧ b = tgt) ∨
        (self.apply (.addDependency src tgt)).graph = self.graph ∧
          ¬ (src ∈ self.graph.modules ∧ tgt ∈ self.graph.modules)) := by
  rw [apply, addDependency]
  cases res : self.graph.addDependency src tgt with
  | ok extended =>
    obtain ⟨isSource, isTarget, modules, depends⟩ := DependencyGraph.addDependency_ok res
    exact ⟨rfl, modules, .inl ⟨⟨isSource, isTarget⟩, depends⟩⟩
  | error error =>
    refine ⟨rfl, rfl, .inr ⟨rfl, ?_⟩⟩
    rintro ⟨sourceModule, targetModule⟩
    rw [DependencyGraph.mem_modules_iff, Option.isSome_iff_exists] at sourceModule targetModule
    obtain ⟨sourceNode, sourceFound⟩ := sourceModule
    obtain ⟨targetNode, targetFound⟩ := targetModule
    rw [DependencyGraph.addDependency] at res
    split at res
    · simp_all
    · split at res <;> simp_all

theorem registered_apply (registered : self.Registered) (operation : Operation) :
    (self.apply operation).Registered := by
  intro id
  cases operation with
  | addModule added path contentHash =>
    change (update self.states added _ id).isSome ↔ id ∈ (self.graph.addModule added path).modules
    rw [DependencyGraph.mem_modules_addModule, ← registered id, update_apply]
    split <;> simp_all
  | addDependency src tgt =>
    obtain ⟨states, modules, -⟩ := apply_addDependency self src tgt
    rw [states, modules, registered id]
  | updateContent changed newHash =>
    rw [apply, updateContent_graph, ← registered id, updateContent]
    split
    · split
      · simp only [update_apply]
        split <;> simp_all
      · rfl
    · rfl
  | invalidate start =>
    rw [apply, invalidate_graph, ← registered id, invalidate, (states_foldl_markDirty _ id).2]
    split <;> simp
  | markCompiled compiled =>
    change (update self.states compiled _ id).isSome ↔ id ∈ self.graph.modules
    rw [← registered id, update_apply]
    split <;> simp_all

end IncrementalGraph

namespace Session

section Steps

variable {session : Session}

theorem transGen_addEdge {α : Type*} {step : α → α → Prop} {src tgt a b : α}
    (path : TransGen (fun x y => step x y ∨ x = src ∧ y = tgt) a b) :
    TransGen step a b ∨ ReflTransGen step a src ∧ ReflTransGen step tgt b := by
  induction path with
  | single edge =>
    rcases edge with old | ⟨rfl, rfl⟩
    · exact .inl (.single old)
    · exact .inr ⟨.refl, .refl⟩
  | tail _ edge ih =>
    rcases edge with old | ⟨rfl, rfl⟩
    · rcases ih with path | ⟨pre, after⟩
      · exact .inl (path.tail old)
      · exact .inr ⟨pre, after.tail old⟩
    · rcases ih with path | ⟨pre, -⟩
      · exact .inr ⟨path.to_reflTransGen, .refl⟩
      · exact .inr ⟨pre, .refl⟩

/-- No stamp is later than the clock, and the states are those of the modules. -/
structure Consistent (session : Session) : Prop where
  changedAt_le : ∀ id, session.changedAt id ≤ session.time
  compiledAt_le : ∀ id, session.compiledAt id ≤ session.time
  registered : session.incremental.Registered

theorem stamp_le {times : ModuleId → Nat} {now : Nat} (bounded : ∀ id, times id ≤ now) (stamped : Option ModuleId)
    (id : ModuleId) : stamp times (now + 1) stamped id ≤ now + 1 := by
  have := bounded id
  cases stamped with
  | none => exact Nat.le_succ_of_le this
  | some at' =>
    rw [stamp, update_apply]
    split <;> omega

theorem consistent_step (con : session.Consistent) (operation : Operation) :
    (session.step operation).Consistent where
  changedAt_le := stamp_le con.changedAt_le _
  compiledAt_le := stamp_le con.compiledAt_le _
  registered := IncrementalGraph.registered_apply con.registered operation

variable {operation : Operation}

theorem fresh_changed_iff (con : session.Consistent) (hf : session.Fresh) {changed : ModuleId}
    (changes : session.incremental.changed operation = some changed) (compilesNone : compiles operation = none)
    (clean : ∀ id, (session.incremental.apply operation).Clean id ↔ id ≠ changed ∧ session.incremental.Clean id)
    (depends : ∀ a b, (session.incremental.apply operation).graph.Depends a b ↔
      session.incremental.graph.Depends a b) :
    (session.step operation).Fresh ↔ ∀ id, id ≠ changed → session.incremental.Clean id →
      ¬ TransGen session.incremental.graph.Depends id changed := by
  have eq : (session.incremental.apply operation).graph.Depends = session.incremental.graph.Depends :=
    funext fun a => funext fun b => propext (depends a b)
  simp only [Fresh, step, changes, compilesNone, stamp, clean, eq, update_apply]
  constructor
  · intro fresh' id ne isClean path
    have hl := fresh' id ⟨ne, isClean⟩ changed path
    rw [if_pos rfl] at hl
    have := con.compiledAt_le id
    omega
  · rintro apart id ⟨ne, isClean⟩ dependency path
    split
    · rename_i isChanged
      exact absurd (isChanged ▸ path) (apart id ne isClean)
    · exact hf id isClean dependency path

theorem fresh_unchanged (hf : session.Fresh) (changes : session.incremental.changed operation = none)
    (compilesNone : compiles operation = none)
    (clean : ∀ id, (session.incremental.apply operation).Clean id → session.incremental.Clean id)
    (g : (session.incremental.apply operation).graph.Depends = session.incremental.graph.Depends) :
    (session.step operation).Fresh := by
  intro id isClean dependency path
  simp only [step, g] at path
  simp only [step, changes, compilesNone, stamp]
  exact hf id (clean id isClean) dependency path

theorem fresh_addDependency_iff (hf : session.Fresh) (src tgt : ModuleId) :
    (session.step (.addDependency src tgt)).Fresh ↔ session.Safe (.addDependency src tgt) := by
  obtain ⟨states, -, ⟨⟨isSource, isTarget⟩, added⟩ | ⟨g, missing⟩⟩ :=
    session.incremental.apply_addDependency src tgt
  · have clean : ∀ id, (session.incremental.apply (.addDependency src tgt)).Clean id ↔
        session.incremental.Clean id := fun id => by rw [IncrementalGraph.Clean, states, IncrementalGraph.Clean]
    have depends : (session.incremental.apply (.addDependency src tgt)).graph.Depends =
        fun a b => session.incremental.graph.Depends a b ∨ a = src ∧ b = tgt :=
      funext fun a => funext fun b => propext (added a b)
    simp only [Fresh, Safe, step, IncrementalGraph.changed, compiles, stamp, clean, depends]
    constructor
    · intro fresh' _ _ id isClean pre dependency after
      refine fresh' id isClean dependency ?_
      exact .trans_right (ReflTransGen.mono (fun _ _ => Or.inl) _ _ pre)
        (.head' (.inr ⟨rfl, rfl⟩) (ReflTransGen.mono (fun _ _ => Or.inl) _ _ after))
    · intro safe id isClean dependency path
      rcases transGen_addEdge path with old | ⟨pre, after⟩
      · exact hf id isClean dependency old
      · exact safe isSource isTarget id isClean pre dependency after
  · refine ⟨fun _ sourceModule targetModule => absurd ⟨sourceModule, targetModule⟩ missing, fun _ => ?_⟩
    refine fresh_unchanged hf rfl rfl (fun id => ?_) (by rw [g])
    rw [IncrementalGraph.Clean, states]
    exact fun h => h

theorem fresh_step_iff (con : session.Consistent) (hf : session.Fresh) (operation : Operation) :
    (session.step operation).Fresh ↔ session.Safe operation := by
  cases operation with
  | addModule id path contentHash =>
    have depends : ∀ a b, (session.incremental.addModule id path contentHash).graph.Depends a b ↔
        session.incremental.graph.Depends a b := fun a b => DependencyGraph.depends_addModule
    cases changes : session.incremental.changed (.addModule id path contentHash) with
    | none =>
      have safe : session.Safe (.addModule id path contentHash) := by simp [Safe, changes]
      refine iff_of_true (fresh_unchanged hf changes rfl ?_ ?_) safe
      · exact fun other isClean => (IncrementalGraph.clean_addModule.mp isClean).2
      · exact funext fun a => funext fun b => propext (depends a b)
    | some changed =>
      obtain rfl : id = changed := by
        simp only [IncrementalGraph.changed] at changes
        split at changes
        · exact Option.some.inj changes
        · cases changes
      rw [fresh_changed_iff con hf changes rfl (fun _ => IncrementalGraph.clean_addModule) depends]
      simp [Safe, changes]
  | addDependency src tgt => exact fresh_addDependency_iff hf src tgt
  | updateContent id newHash =>
    have depends : (session.incremental.updateContent id newHash).1.graph.Depends =
        session.incremental.graph.Depends := by rw [IncrementalGraph.updateContent_graph]
    cases res : (session.incremental.updateContent id newHash).2 with
    | false =>
      have changes : session.incremental.changed (.updateContent id newHash) = none := by
        simp [IncrementalGraph.changed, res]
      have safe : session.Safe (.updateContent id newHash) := by simp [Safe, changes]
      refine iff_of_true (fresh_unchanged hf changes rfl ?_ depends) safe
      rw [IncrementalGraph.apply, IncrementalGraph.updateContent_unchanged res]
      exact fun other isClean => isClean
    | true =>
      have changes : session.incremental.changed (.updateContent id newHash) = some id := by
        simp [IncrementalGraph.changed, res]
      rw [fresh_changed_iff con hf changes rfl
        (fun _ => IncrementalGraph.clean_updateContent res) (fun a b => by rw [← depends]; rfl)]
      simp [Safe, changes]
  | invalidate id =>
    have safe : session.Safe (.invalidate id) := by simp [Safe, IncrementalGraph.changed]
    refine iff_of_true (fresh_unchanged hf rfl rfl ?_ ?_) safe
    · exact fun other isClean => (IncrementalGraph.clean_invalidate.mp isClean).1
    · rw [IncrementalGraph.apply, IncrementalGraph.invalidate_graph]
  | markCompiled id =>
    have safe : session.Safe (.markCompiled id) := by simp [Safe, IncrementalGraph.changed]
    refine iff_of_true (fun other isClean dependency path => ?_) safe
    have earlier := con.changedAt_le dependency
    simp only [step, IncrementalGraph.changed, compiles, stamp, update_apply]
    split
    · omega
    · rename_i ne
      exact hf other ((IncrementalGraph.clean_markCompiled_of_ne ne).mp isClean) dependency path

end Steps

def SafeFrom (session : Session) : List Operation → Prop
  | [] => True
  | operation :: operations => session.Safe operation ∧ SafeFrom (session.step operation) operations

theorem consistent_start : start.Consistent where
  changedAt_le := by simp [start]
  compiledAt_le := by simp [start]
  registered := by simp [start, IncrementalGraph.Registered, IncrementalGraph.new, DependencyGraph.modules,
    DependencyGraph.new]

theorem fresh_start : start.Fresh := by
  rintro id ⟨st, isState, -⟩
  cases isState

variable {session : Session}

theorem consistent_foldl (con : session.Consistent) (operations : List Operation) :
    (operations.foldl step session).Consistent := by
  induction operations generalizing session with
  | nil => exact con
  | cons operation operations ih => exact ih (consistent_step con operation)

theorem fresh_foldl_iff (con : session.Consistent) (hf : session.Fresh) (operations : List Operation) :
    (∀ pre, pre <+: operations → (pre.foldl step session).Fresh) ↔ session.SafeFrom operations := by
  induction operations generalizing session with
  | nil => simp [SafeFrom, hf]
  | cons operation operations ih =>
    rw [SafeFrom, ← fresh_step_iff con hf]
    constructor
    · intro reached
      have stepped : (session.step operation).Fresh := reached [operation] (by simp)
      refine ⟨stepped, (ih (consistent_step con operation) stepped).mp fun pre prefixed => ?_⟩
      exact reached (operation :: pre) (by simpa using prefixed)
    · rintro ⟨stepped, safe⟩ pre prefixed
      cases pre with
      | nil => exact hf
      | cons fst pre =>
        obtain ⟨rfl, shorter⟩ := cons_prefix_cons.mp prefixed
        exact (ih (consistent_step con fst) stepped).mpr safe pre shorter

theorem trustworthy_iff (petgraph : Petgraph) (operations : List Operation) :
    (∀ before, before <+: operations → (run before).Trustworthy petgraph) ↔ start.SafeFrom operations := by
  rw [← fresh_foldl_iff consistent_start fresh_start]
  constructor
  · exact fun reached before prefixed => (reached before prefixed).fresh
  · intro reached before prefixed
    refine ⟨reached before prefixed, fun correct acyclic => ?_⟩
    exact IncrementalGraph.dirtyModulesInOrder_exact (consistent_foldl consistent_start before).registered
      correct acyclic

/-- Module 1 depends on module 2, both are compiled, and then the content of module 2 changes. -/
def changeOfDependency : List Operation :=
  [.addModule 1 "a" 10, .addModule 2 "b" 20, .addDependency 1 2, .markCompiled 2, .markCompiled 1,
    .updateContent 2 21]

theorem not_trustworthy_changeOfDependency :
    ¬ ∃ petgraph, (run changeOfDependency).Trustworthy petgraph := by
  rintro ⟨petgraph, trustworthy⟩
  have stale : (run changeOfDependency).compiledAt 1 < (run changeOfDependency).changedAt 2 := by decide
  have isClean : (run changeOfDependency).incremental.Clean 1 := ⟨_, rfl, rfl⟩
  have depends : (run changeOfDependency).incremental.graph.Depends 1 2 :=
    ⟨0, 1, mem_singleton.mpr rfl, rfl, rfl⟩
  have later := trustworthy.fresh 1 isClean 2 (.single depends)
  omega

end Session

end Modules
