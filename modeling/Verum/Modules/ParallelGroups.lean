import Verum.Modules.Staleness

open List

namespace Modules

open Option

open Function

open Relation

namespace DependencyGraph

section Groups

/-- `groups[level].push(id)`, once the list is long enough. -/
def place (groups : List (List ModuleId)) (level : Nat) (id : ModuleId) : List (List ModuleId) :=
  (groups ++ List.replicate (level + 1 - groups.length) []).modify level (· ++ [id])

/-- The body of the loop over the modules, from the groups and the levels assigned so far. -/
def assignLevel (self : DependencyGraph) (found : List (List ModuleId) × (ModuleId → Option Nat))
    (moduleId : ModuleId) : List (List ModuleId) × (ModuleId → Option Nat) :=
  let (groups, assigned) := found
  let deps := self.dependenciesOf moduleId
  let maxDepLevel := (deps.filterMap assigned).max?.getD 0
  let level := if deps.isEmpty then 0 else maxDepLevel + 1
  (place groups level moduleId, update assigned moduleId (some level))

def independentGroups (petgraph : Petgraph) (self : DependencyGraph) : List (List ModuleId) :=
  match self.topologicalOrder petgraph with
  | .ok topoOrder => (topoOrder.reverse.foldl self.assignLevel ([], fun _ => none)).1
  | .error _ => []

def pushRoot (self : DependencyGraph) (found : List ModuleId × List ModuleId) (root : ModuleId) :
    List ModuleId × List ModuleId :=
  if (self.idToNode root).isSome then IncrementalGraph.visitDependent found root else found

def reachableLoop (self : DependencyGraph) : Nat → List ModuleId → List ModuleId → List ModuleId
  | 0, visited, _ => visited
  | _ + 1, visited, [] => visited
  | fuel + 1, visited, current :: stack =>
    let found := (self.dependenciesOf current).foldl IncrementalGraph.visitDependent (visited, stack)
    reachableLoop self fuel found.1 found.2

def reachableFrom (self : DependencyGraph) (roots : List ModuleId) : List ModuleId :=
  let (visited, stack) := roots.foldl self.pushRoot ([], [])
  self.reachableLoop (self.modules.length + 1) visited stack

def independentGroupsReachableFrom (petgraph : Petgraph) (self : DependencyGraph) (roots : List ModuleId) :
    List (List ModuleId) :=
  let reachable := self.reachableFrom roots
  let kept := (self.independentGroups petgraph).map fun group => group.filter fun id => reachable.contains id
  kept.filter fun group => !group.isEmpty

end Groups

variable {self : DependencyGraph} {petgraph : Petgraph} {id dep : ModuleId}

@[simp] theorem mem_dependenciesOf : dep ∈ self.dependenciesOf id ↔ self.Depends id dep := by
  rw [dependenciesOf, Depends]
  cases hit : self.idToNode id with
  | none =>
    refine ⟨fun mem => (by cases mem), ?_⟩
    rintro ⟨src, tgt, -, isSource, -⟩
    rw [(self.idToNode_iff id src).mpr isSource] at hit
    cases hit
  | some node =>
    have isNode := (self.idToNode_iff id node).mp hit
    simp only [mem_filterMap, mem_filter, Prod.exists, beq_iff_eq, self.nodeToId_eq]
    constructor
    · rintro ⟨src, tgt, ⟨edge, rfl⟩, isTarget⟩
      exact ⟨src, tgt, edge, isNode, isTarget⟩
    · rintro ⟨src, tgt, edge, isSource, isTarget⟩
      exact ⟨src, tgt, ⟨edge, node_unique isSource isNode⟩, isTarget⟩

theorem isSome_idToNode : (self.idToNode id).isSome ↔ id ∈ self.modules := by
  rw [isSome_iff_exists, modules, mem_iff_getElem?]
  exact exists_congr fun node => self.idToNode_iff id node

section Reachable

/-- What holds of the visited set and the stack whenever the loop tests the stack. -/
structure Reaching (built : DependencyGraph) (roots visited stack : List ModuleId) : Prop where
  nodup : visited.Nodup
  sound : ∀ id ∈ visited, id ∈ built.modules ∧ ∃ root ∈ roots, ReflTransGen built.Depends root id
  stacked : stack ⊆ visited
  rooted : ∀ root ∈ roots, root ∈ built.modules → root ∈ visited
  expanded : ∀ id ∈ visited, id ∈ stack ∨ ∀ dep, built.Depends id dep → dep ∈ visited

variable {roots visited stack fresh : List ModuleId} {current : ModuleId}

theorem Reaching.length_le (reaching : Reaching self roots visited stack) :
    visited.length ≤ self.modules.length :=
  (subperm_of_subset reaching.nodup fun id mem => (reaching.sound id mem).1).length_le

theorem Reaching.pop (reaching : Reaching self roots visited (current :: stack)) (nodup : (visited ++ fresh).Nodup)
    (ms : ∀ id, id ∈ fresh ↔ id ∈ self.dependenciesOf current ∧ id ∉ visited) :
    Reaching self roots (visited ++ fresh) (fresh.reverse ++ stack) := by
  obtain ⟨_, root, isRoot, path⟩ := reaching.sound current (reaching.stacked mem_cons_self)
  refine ⟨nodup, ?_, ?_, ?_, ?_⟩
  · intro id isVisited
    rcases mem_append.mp isVisited with old | new
    · exact reaching.sound id old
    · have depends := mem_dependenciesOf.mp ((ms id).mp new).1
      exact ⟨(depends_module depends).2, root, isRoot, path.tail depends⟩
  · intro id onStack
    rcases mem_append.mp onStack with new | old
    · exact mem_append_right _ (mem_reverse.mp new)
    · exact mem_append_left _ (reaching.stacked (.tail _ old))
  · intro root isRoot known
    exact mem_append_left _ (reaching.rooted root isRoot known)
  · intro id isVisited
    rcases mem_append.mp isVisited with old | new
    · rcases reaching.expanded id old with onStack | hc
      · rcases mem_cons.mp onStack with rfl | hlt
        · refine .inr fun dep depends => ?_
          by_cases old : dep ∈ visited
          · exact mem_append_left _ old
          · exact mem_append_right _ ((ms dep).mpr ⟨mem_dependenciesOf.mpr depends, old⟩)
        · exact .inl (mem_append_right _ hlt)
      · exact .inr fun dep depends => mem_append_left _ (hc dep depends)
    · exact .inl (mem_append_left _ (mem_reverse.mpr new))

theorem Reaching.exact (reaching : Reaching self roots visited []) (id : ModuleId) :
    id ∈ visited ↔ id ∈ self.modules ∧ ∃ root ∈ roots, ReflTransGen self.Depends root id := by
  refine ⟨reaching.sound id, ?_⟩
  rintro ⟨known, root, isRoot, path⟩
  induction path with
  | refl => exact reaching.rooted _ isRoot known
  | tail _ depends ih =>
    have pre := ih (depends_module depends).1
    rcases reaching.expanded _ pre with onStack | hc
    · cases onStack
    · exact hc _ depends

theorem reachableLoop_exact (fuel : Nat) (reaching : Reaching self roots visited stack)
    (he : stack.length + (self.modules.length - visited.length) ≤ fuel) (id : ModuleId) :
    id ∈ self.reachableLoop fuel visited stack ↔
      id ∈ self.modules ∧ ∃ root ∈ roots, ReflTransGen self.Depends root id := by
  induction fuel generalizing visited stack with
  | zero =>
    rw [eq_nil_of_length_eq_zero (by omega : stack.length = 0)] at reaching
    exact reaching.exact id
  | succ fuel ih =>
    match stack, reaching, he with
    | [], reaching, _ => exact reaching.exact id
    | current :: stack, reaching, he =>
      obtain ⟨fresh, res, nodup, ms⟩ := IncrementalGraph.foldl_visitDependent
        (self.dependenciesOf current) visited stack reaching.nodup
      have popped := reaching.pop nodup ms
      have hb := popped.length_le
      rw [reachableLoop, res]
      apply ih popped
      simp only [length_append, length_reverse, length_cons] at hb he ⊢
      omega

theorem foldl_pushRoot (roots : List ModuleId) (hit : List ModuleId × List ModuleId) :
    roots.foldl self.pushRoot hit =
      (roots.filter fun root => (self.idToNode root).isSome).foldl IncrementalGraph.visitDependent hit := by
  induction roots generalizing hit with
  | nil => rfl
  | cons root roots ih =>
    rw [foldl_cons, ih, pushRoot, filter_cons]
    split <;> rfl

theorem mem_reachableFrom {roots : List ModuleId} :
    id ∈ self.reachableFrom roots ↔ id ∈ self.modules ∧ ∃ root ∈ roots, ReflTransGen self.Depends root id := by
  obtain ⟨fresh, res, nodup, ms⟩ := IncrementalGraph.foldl_visitDependent
    (roots.filter fun root => (self.idToNode root).isSome) [] [] nodup_nil
  have known : ∀ root, root ∈ fresh ↔ root ∈ roots ∧ root ∈ self.modules := by
    intro root
    rw [ms, mem_filter, isSome_idToNode]
    simp
  have starts : Reaching self roots fresh fresh.reverse := by
    refine ⟨by simpa using nodup, ?_, fun root => mem_reverse.mp, ?_, ?_⟩
    · intro root mem
      obtain ⟨isRoot, hin⟩ := (known root).mp mem
      exact ⟨hin, root, isRoot, .refl⟩
    · intro root isRoot hin
      exact (known root).mpr ⟨isRoot, hin⟩
    · intro root mem
      exact .inl (mem_reverse.mpr mem)
  rw [reachableFrom, foldl_pushRoot, res, nil_append, append_nil]
  apply reachableLoop_exact _ starts
  have hb := starts.length_le
  rw [length_reverse]
  omega

end Reachable

section Levels

theorem getD_place (groups : List (List ModuleId)) (lvl : Nat) (id : ModuleId) (l : Nat) :
    (place groups lvl id).getD l [] = if l = lvl then groups.getD l [] ++ [id] else groups.getD l [] := by
  have padded : (groups ++ List.replicate (lvl + 1 - groups.length) []).getD l [] = groups.getD l [] := by
    rw [getD_eq_getElem?_getD, List.getElem?_append, getD_eq_getElem?_getD]
    split
    · rfl
    · rename_i outside
      rw [List.getElem?_eq_none (Nat.le_of_not_lt outside), List.getElem?_replicate]
      split <;> rfl
  rw [place, getD_eq_getElem?_getD, List.getElem?_modify]
  by_cases eq : l = lvl
  · subst eq
    have hin : l < (groups ++ List.replicate (l + 1 - groups.length) []).length := by
      rw [length_append, length_replicate]
      omega
    rw [← padded, if_pos rfl, getD_eq_getElem?_getD, List.getElem?_eq_getElem hin]
    simp
  · rw [if_neg eq, ← padded, getD_eq_getElem?_getD]
    simp [Ne.symm eq]

variable {groups : List (List ModuleId)} {assigned : ModuleId → Option Nat} {processed : List ModuleId}

theorem mem_place {lvl : Nat} {id : ModuleId} {group : List ModuleId} (hw : lvl ≤ groups.length)
    (mem : group ∈ place groups lvl id) : group ∈ groups ∨ group = groups.getD lvl [] ++ [id] := by
  obtain ⟨l, hin, rfl⟩ := mem_iff_getElem.mp mem
  have v := getD_place groups lvl id l
  rw [getD_eq_getElem?_getD, List.getElem?_eq_getElem hin, getD_some] at v
  by_cases eq : l = lvl
  · rw [if_pos eq] at v
    exact .inr (eq ▸ v)
  · rw [if_neg eq] at v
    have length : (place groups lvl id).length = max groups.length (lvl + 1) := by
      rw [place, length_modify, length_append, length_replicate]
      omega
    have old : l < groups.length := by omega
    rw [getD_eq_getElem?_getD, List.getElem?_eq_getElem old, getD_some] at v
    exact .inl (v ▸ getElem_mem old)

/-- The modules processed so far stand in the groups of their levels, which lie just above those of
their dependencies. -/
structure Levelled (built : DependencyGraph) (processed : List ModuleId) (groups : List (List ModuleId))
    (assigned : ModuleId → Option Nat) : Prop where
  known : ∀ id, (assigned id).isSome ↔ id ∈ processed
  placed : ∀ id l, id ∈ groups.getD l [] ↔ assigned id = some l
  nodup : ∀ group ∈ groups, group.Nodup
  nonempty : ∀ group ∈ groups, group ≠ []
  closed : ∀ id ∈ processed, ∀ dep, built.Depends id dep → dep ∈ processed
  leaf : ∀ id ∈ processed, (∀ dep, ¬ built.Depends id dep) → assigned id = some 0
  above : ∀ id l, assigned id = some l → ∀ dep k, built.Depends id dep → assigned dep = some k → k < l
  tight : ∀ id l, assigned id = some l → (∃ dep, built.Depends id dep) →
    ∃ dep k, built.Depends id dep ∧ assigned dep = some k ∧ l = k + 1

theorem level_spec (id : ModuleId) (dependencies : ∀ dep, self.Depends id dep → (assigned dep).isSome) :
    let lvl := if (self.dependenciesOf id).isEmpty then 0
      else ((self.dependenciesOf id).filterMap assigned).max?.getD 0 + 1
    ((∀ dep, ¬ self.Depends id dep) → lvl = 0) ∧
      (∀ dep k, self.Depends id dep → assigned dep = some k → k < lvl) ∧
      ((∃ dep, self.Depends id dep) → ∃ dep k, self.Depends id dep ∧ assigned dep = some k ∧ lvl = k + 1) := by
  intro lvl
  by_cases empty : self.dependenciesOf id = []
  · have none : ∀ dep, ¬ self.Depends id dep := by
      intro dep depends
      have mem := mem_dependenciesOf.mpr depends
      rw [empty] at mem
      cases mem
    refine ⟨fun _ => by simp [lvl, empty], fun dep _ depends => absurd depends (none dep), ?_⟩
    rintro ⟨dep, depends⟩
    exact absurd depends (none dep)
  · have ms : ∀ k, k ∈ (self.dependenciesOf id).filterMap assigned ↔
        ∃ dep, self.Depends id dep ∧ assigned dep = some k := by
      intro k
      simp only [mem_filterMap, mem_dependenciesOf]
    obtain ⟨fst, rest, split⟩ := exists_cons_of_ne_nil empty
    have isFirst : self.Depends id fst := mem_dependenciesOf.mp (split ▸ mem_cons_self)
    obtain ⟨k, isLevel⟩ := isSome_iff_exists.mp (dependencies fst isFirst)
    have some := (ms k).mpr ⟨fst, isFirst, isLevel⟩
    cases greatest : ((self.dependenciesOf id).filterMap assigned).max? with
    | none =>
      rw [List.max?_eq_none_iff.mp greatest] at some
      cases some
    | some top =>
      have levelEq : lvl = top + 1 := by simp [lvl, empty, greatest]
      obtain ⟨mem, hb⟩ := List.max?_eq_some_iff.mp greatest
      rw [levelEq]
      refine ⟨fun none => absurd isFirst (none fst), ?_, ?_⟩
      · intro dep j depends isAssigned
        exact Nat.lt_succ_of_le (hb j ((ms j).mpr ⟨dep, depends, isAssigned⟩))
      · intro _
        obtain ⟨dep, depends, isAssigned⟩ := (ms top).mp mem
        exact ⟨dep, top, depends, isAssigned, rfl⟩

theorem Levelled.step (levelled : Levelled self processed groups assigned) (fresh : id ∉ processed)
    (dependencies : ∀ dep, self.Depends id dep → dep ∈ processed) :
    Levelled self (processed ++ [id]) (self.assignLevel (groups, assigned) id).1
      (self.assignLevel (groups, assigned) id).2 := by
  obtain ⟨leaf, above, tight⟩ := level_spec id fun dep depends => (levelled.known dep).mpr (dependencies dep depends)
  simp only [assignLevel]
  generalize (if (self.dependenciesOf id).isEmpty then 0
    else ((self.dependenciesOf id).filterMap assigned).max?.getD 0 + 1) = lvl at leaf above tight ⊢
  have unassigned : assigned id = none := by
    rw [← not_isSome_iff_eq_none, levelled.known]
    exact fresh
  have kept : ∀ other, other ∈ processed → update assigned id (some lvl) other = assigned other := by
    intro other mem
    exact update_of_ne (ne_of_mem_of_not_mem mem fresh) _ _
  have old : ∀ {other l}, update assigned id (some lvl) other = some l →
      other = id ∧ l = lvl ∨ other ∈ processed ∧ assigned other = some l := by
    intro other l isAssigned
    by_cases eq : other = id
    · subst eq
      rw [update_self] at isAssigned
      exact .inl ⟨rfl, (Option.some.inj isAssigned).symm⟩
    · rw [update_of_ne eq] at isAssigned
      exact .inr ⟨(levelled.known other).mp (isAssigned ▸ rfl), isAssigned⟩
  have ends : ∀ other, self.Depends id other → other ∈ processed := dependencies
  have hw : lvl ≤ groups.length := by
    by_cases some : ∃ dep, self.Depends id dep
    · obtain ⟨dep, k, _, isAssigned, eq⟩ := tight some
      have inGroup := (levelled.placed dep k).mpr isAssigned
      by_contra beyond
      rw [getD_eq_getElem?_getD, List.getElem?_eq_none (by omega)] at inGroup
      cases inGroup
    · rw [leaf (not_exists.mp some)]
      exact Nat.zero_le _
  refine ⟨?_, ?_, ?_, ?_, ?_, ?_, ?_, ?_⟩
  · intro other
    rw [mem_append, mem_singleton, ← levelled.known]
    by_cases eq : other = id
    · simp [eq]
    · simp [eq]
  · intro other l
    rw [getD_place]
    by_cases eq : other = id
    · subst eq
      have ha : ∀ l, other ∉ groups.getD l [] := by
        intro l mem
        rw [levelled.placed, unassigned] at mem
        cases mem
      have outside := ha l
      rw [update_self, some_inj]
      split
      · rename_i here
        simp [here]
      · rename_i elsewhere
        exact ⟨fun mem => absurd mem outside, fun eq => absurd eq.symm elsewhere⟩
    · rw [update_of_ne eq, ← levelled.placed]
      split
      · simp [eq]
      · rfl
  · intro group mem
    rcases mem_place hw mem with old | rfl
    · exact levelled.nodup group old
    · have ha : id ∉ groups.getD lvl [] := by
        rw [levelled.placed, unassigned]
        exact nofun
      have unique : (groups.getD lvl []).Nodup := by
        rw [getD_eq_getElem?_getD]
        cases hit : groups[lvl]? with
        | none => exact nodup_nil
        | some group => exact levelled.nodup group (mem_of_getElem? hit)
      exact nodup_append.mpr ⟨unique, nodup_singleton _, by grind⟩
  · intro group mem
    rcases mem_place hw mem with old | rfl
    · exact levelled.nonempty group old
    · simp
  · intro other mem dep depends
    rcases mem_append.mp mem with mem | mem
    · exact mem_append_left _ (levelled.closed other mem dep depends)
    · rw [mem_singleton] at mem
      exact mem_append_left _ (dependencies dep (mem ▸ depends))
  · intro other mem none
    rcases mem_append.mp mem with mem | mem
    · rw [kept other mem]
      exact levelled.leaf other mem none
    · rw [mem_singleton] at mem
      subst mem
      rw [update_self, leaf none]
  · intro other l isAssigned dep k depends isBelow
    rcases old isAssigned with ⟨rfl, rfl⟩ | ⟨mem, isAssigned⟩
    · rw [kept dep (dependencies dep depends)] at isBelow
      exact above dep k depends isBelow
    · rw [kept dep (levelled.closed other mem dep depends)] at isBelow
      exact levelled.above other l isAssigned dep k depends isBelow
  · intro other l isAssigned some
    rcases old isAssigned with ⟨rfl, rfl⟩ | ⟨mem, isAssigned⟩
    · obtain ⟨dep, k, depends, isBelow, eq⟩ := tight some
      exact ⟨dep, k, depends, (kept dep (dependencies dep depends)).trans isBelow, eq⟩
    · obtain ⟨dep, k, depends, isBelow, eq⟩ := levelled.tight other l isAssigned some
      exact ⟨dep, k, depends, (kept dep (levelled.closed other mem dep depends)).trans isBelow, eq⟩

theorem Levelled.run {ord : List ModuleId} (levelled : Levelled self processed groups assigned)
    (nodup : (processed ++ ord).Nodup)
    (pre : ∀ front id back, ord = front ++ id :: back → ∀ dep, self.Depends id dep →
      dep ∈ processed ++ front) :
    Levelled self (processed ++ ord) (ord.foldl self.assignLevel (groups, assigned)).1
      (ord.foldl self.assignLevel (groups, assigned)).2 := by
  induction ord generalizing processed groups assigned with
  | nil => rwa [append_nil]
  | cons id ord ih =>
    have fresh : id ∉ processed := by
      intro mem
      exact (nodup_append.mp nodup).2.2 id mem id (.head _) rfl
    have stepped := levelled.step fresh fun dep depends => by
      simpa using pre [] id ord rfl dep depends
    rw [foldl_cons, append_cons]
    apply ih stepped (by rwa [append_cons] at nodup)
    intro front other back split dep depends
    have hin := pre (id :: front) other back (by rw [split, cons_append]) dep depends
    rwa [append_cons] at hin

theorem getD_filter_nonempty (groups : List (List ModuleId))
    (hc : ∀ l, groups.getD (l + 1) [] ≠ [] → groups.getD l [] ≠ []) (l : Nat) :
    (groups.filter fun group => !group.isEmpty).getD l [] = groups.getD l [] := by
  induction groups generalizing l with
  | nil => rfl
  | cons group groups ih =>
    have tail := ih fun l => hc (l + 1)
    by_cases empty : group = []
    · subst empty
      have rest : ∀ l, groups.getD l [] = [] := by
        intro l
        induction l with
        | zero =>
          by_contra some
          exact hc 0 some rfl
        | succ l pre =>
          by_contra some
          exact hc (l + 1) some pre
      rw [filter_cons_of_neg (by simp), tail, rest]
      cases l with
      | zero => rfl
      | succ l => exact (rest l).symm
    · rw [filter_cons_of_pos (by simpa using empty)]
      cases l with
      | zero => rfl
      | succ l => exact tail l

theorem getD_map_filter (groups : List (List ModuleId)) (keep : ModuleId → Bool) (l : Nat) :
    (groups.map fun group => group.filter keep).getD l [] = (groups.getD l []).filter keep := by
  rw [getD_eq_getElem?_getD, getD_eq_getElem?_getD, List.getElem?_map]
  cases groups[l]? <;> rfl

theorem mem_flatten_iff : id ∈ groups.flatten ↔ ∃ l, id ∈ groups.getD l [] := by
  rw [mem_flatten]
  constructor
  · rintro ⟨group, mem, hin⟩
    obtain ⟨l, hit⟩ := mem_iff_getElem?.mp mem
    exact ⟨l, by rwa [getD_eq_getElem?_getD, hit]⟩
  · rintro ⟨l, hin⟩
    rw [getD_eq_getElem?_getD] at hin
    cases hit : groups[l]? with
    | none => simp [hit] at hin
    | some group => exact ⟨group, mem_of_getElem? hit, by simpa [hit] using hin⟩

theorem Levelled.flatten_nodup (levelled : Levelled self processed groups assigned) : groups.flatten.Nodup := by
  rw [nodup_flatten]
  refine ⟨levelled.nodup, ?_⟩
  rw [pairwise_iff_getElem]
  intro i j isFirst isSecond pre id inFirst inSecond
  have fst := (levelled.placed id i).mp (by rwa [getD_eq_getElem?_getD, List.getElem?_eq_getElem isFirst])
  have snd := (levelled.placed id j).mp (by rwa [getD_eq_getElem?_getD, List.getElem?_eq_getElem isSecond])
  rw [fst] at snd
  exact pre.ne (Option.some.inj snd)

/-- The groups are the levels of the modules: 0 without dependencies, else one more than the greatest level of a
dependency; the groups of a root set are these levels cut down to what the roots reach. -/
theorem independentGroups_levels (petgraph : Petgraph) (self : DependencyGraph)
    (correct : petgraph.CorrectOn self.graph) (acyclic : self.Acyclic) :
    (∃ level : ModuleId → Nat,
      (∀ id ∈ self.modules, ((∀ dep, ¬ self.Depends id dep) → level id = 0) ∧
        (∀ dep, self.Depends id dep → level dep < level id) ∧
        ((∃ dep, self.Depends id dep) → ∃ dep, self.Depends id dep ∧ level id = level dep + 1)) ∧
      ∀ l id, id ∈ (self.independentGroups petgraph).getD l [] ↔ id ∈ self.modules ∧ level id = l) ∧
    (self.independentGroups petgraph).flatten.Perm self.modules ∧
    (∀ group ∈ self.independentGroups petgraph, group ≠ []) ∧
    ∀ roots,
      (∀ id, id ∈ self.reachableFrom roots ↔
        id ∈ self.modules ∧ ∃ root ∈ roots, ReflTransGen self.Depends root id) ∧
      (∀ l, (self.independentGroupsReachableFrom petgraph roots).getD l [] =
        ((self.independentGroups petgraph).getD l []).filter fun id => (self.reachableFrom roots).contains id) ∧
      ∀ group ∈ self.independentGroupsReachableFrom petgraph roots, group ≠ [] := by
  obtain ⟨order, sorts, perm, before⟩ := topologicalOrder_acyclic correct acyclic
  have nodup : order.Nodup := perm.nodup_iff.mpr modules_nodup
  have starts : Levelled self [] [] fun _ => none := by
    constructor <;> simp
  have earlier : ∀ front id back, order.reverse = front ++ id :: back → ∀ dep, self.Depends id dep →
      dep ∈ [] ++ front := by
    intro front id back split dep depends
    have pair : [dep, id].Sublist (front ++ id :: back) := split ▸ (before id dep depends).reverse
    have fresh : id ∉ back := by
      have whole := nodup_reverse.mpr nodup
      rw [split] at whole
      exact (nodup_cons.mp (nodup_append.mp whole).2.1).1
    obtain ⟨first, second, same, inFront, inBack⟩ := sublist_append_iff.mp pair
    rw [nil_append]
    match first, same with
    | [], same =>
      rw [nil_append] at same
      subst same
      cases inBack with
      | cons _ inBack | cons_cons _ inBack => exact absurd (inBack.subset (by simp)) fresh
    | [_], same =>
      cases same
      exact inFront.subset (by simp)
    | [_, _], same =>
      cases same
      exact inFront.subset (by simp)
  have levelled := starts.run (by simpa using nodup) earlier
  have groupsEq : self.independentGroups petgraph = (order.reverse.foldl self.assignLevel ([], fun _ => none)).1 := by
    rw [independentGroups, sorts]
  rw [← groupsEq, nil_append] at levelled
  generalize (order.reverse.foldl self.assignLevel ([], fun _ => none)).2 = assigned at levelled
  have members : ∀ id, (assigned id).isSome ↔ id ∈ self.modules := by
    intro id
    rw [levelled.known, mem_reverse, perm.mem_iff]
  have assignedEq : ∀ id ∈ self.modules, assigned id = some ((assigned id).getD 0) := by
    intro id member
    obtain ⟨l, found⟩ := isSome_iff_exists.mp ((members id).mpr member)
    rw [found, getD_some]
  refine ⟨⟨fun id => (assigned id).getD 0, ?_, ?_⟩, ?_, levelled.nonempty, ?_⟩
  · intro id member
    have isLevel := assignedEq id member
    beta_reduce
    refine ⟨?_, ?_, ?_⟩
    · intro none
      rw [levelled.leaf id ((levelled.known id).mp ((members id).mpr member)) none, getD_some]
    · intro dep depends
      exact levelled.above id _ isLevel dep _ depends (assignedEq dep (depends_module depends).2)
    · intro some
      obtain ⟨dep, k, depends, isBelow, same⟩ := levelled.tight id _ isLevel some
      exact ⟨dep, depends, by rw [isBelow, getD_some, same]⟩
  · intro l id
    beta_reduce
    rw [levelled.placed]
    constructor
    · intro found
      exact ⟨(members id).mp (found ▸ rfl), by rw [found, getD_some]⟩
    · rintro ⟨member, rfl⟩
      exact assignedEq id member
  · rw [perm_ext_iff_of_nodup levelled.flatten_nodup modules_nodup]
    intro id
    rw [mem_flatten_iff, ← members, isSome_iff_exists]
    exact exists_congr fun l => levelled.placed id l
  · intro roots
    refine ⟨fun id => mem_reachableFrom, ?_, ?_⟩
    · intro l
      -- a module of a level has a dependency on the level below, which the roots reach as well
      rw [independentGroupsReachableFrom, getD_filter_nonempty, getD_map_filter]
      intro l some
      rw [getD_map_filter] at some ⊢
      obtain ⟨id, inside⟩ := exists_mem_of_ne_nil _ some
      obtain ⟨inGroup, reached⟩ := mem_filter.mp inside
      rw [contains_iff_mem, mem_reachableFrom] at reached
      obtain ⟨known, root, isRoot, path⟩ := reached
      have isLevel := (levelled.placed id (l + 1)).mp inGroup
      have hasDep : ∃ dep, self.Depends id dep := by
        by_contra none
        rw [levelled.leaf id ((levelled.known id).mp ((members id).mpr known)) (not_exists.mp none)] at isLevel
        cases isLevel
      obtain ⟨dep, k, depends, isBelow, same⟩ := levelled.tight id _ isLevel hasDep
      rw [← Nat.succ_inj.mp same] at isBelow
      apply ne_nil_of_mem (a := dep)
      rw [mem_filter, contains_iff_mem, mem_reachableFrom]
      exact ⟨(levelled.placed dep l).mpr isBelow, (depends_module depends).2, root, isRoot, path.tail depends⟩
    · intro group member
      rw [independentGroupsReachableFrom, mem_filter] at member
      simpa using member.2

theorem independentGroups_levels_pair :
    ∃ built, pair = .ok built ∧ pairAnswers.CorrectOn built.graph ∧ built.Acyclic ∧
      (built.independentGroups pairAnswers).flatten.Perm built.modules := by
  obtain ⟨built, isBuilt, graph, -⟩ := pair_graph
  have correct : pairAnswers.CorrectOn built.graph := graph ▸ pairAnswers_correct
  have acyclic : built.Acyclic := by
    by_contra cyclic
    rw [← cyclic_iff, ← correct.isCyclicDirected_iff] at cyclic
    cases cyclic
  exact ⟨built, isBuilt, correct, acyclic, (independentGroups_levels pairAnswers built correct acyclic).2.1⟩

end Levels

end DependencyGraph

end Modules
