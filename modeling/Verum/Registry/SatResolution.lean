import Verum.Registry.SatSearch

open List

namespace Registry.SatResolver

open Cnf

variable {Version VersionReq : Type}

section Encoding

theorem pairs_forall {α : Type} {xs : List α} {related : α → α → Prop} :
    (∀ pair ∈ pairs xs, related pair.1 pair.2) ↔ xs.Pairwise related := by
  induction xs with
  | nil => simp [pairs]
  | cons item rest ih =>
    simp only [pairs, mem_append, mem_map, or_imp, forall_and, pairwise_cons, ih]
    simp

variable {iteration : Iteration} {versionMatches : VersionReq → Version → Bool} {resolver : SatResolver Version}
variable {toName cogName : Text} {versionReq : VersionReq} {var : CogVar Version}

theorem mem_compatibleVersions : var ∈ compatibleVersions iteration versionMatches resolver toName versionReq ↔
      var ∈ resolver.metadataCache ∧ var.name = toName ∧ versionMatches versionReq var.version = true := by
  simp [compatibleVersions, (iteration.perm _ _).mem_iff, AList.mem_keys]

theorem compatibleVersions_nodup : (compatibleVersions iteration versionMatches resolver toName versionReq).Nodup :=
  ((iteration.perm _ _).nodup_iff.mpr resolver.metadataCache.keys_nodup).filter _

theorem mem_versionsOf :
    var ∈ versionsOf iteration resolver cogName ↔ var ∈ resolver.metadataCache ∧ var.name = cogName := by
  simp [versionsOf, (iteration.perm _ _).mem_iff, AList.mem_keys]

theorem versionsOf_nodup : (versionsOf iteration resolver cogName).Nodup :=
  ((iteration.perm _ _).nodup_iff.mpr resolver.metadataCache.keys_nodup).filter _

theorem addDependencyConstraint_eq (dependent : CogVar Version) (toName : Text) (versionReq : VersionReq) :
    addDependencyConstraint iteration versionMatches resolver dependent toName versionReq =
      resolver.addClauses [{ var := dependent, positive := false } ::
        (compatibleVersions iteration versionMatches resolver toName versionReq).map
          fun var => { var, positive := true }] := by
  rw [addDependencyConstraint]
  split
  · next empty =>
    rw [List.isEmpty_iff] at empty
    rw [empty]
    rfl
  · rfl

theorem satisfies_uniqueness {selected : CogVar Version → Bool} :
    Satisfies selected ((pairs (versionsOf iteration resolver cogName)).map fun (one, other) =>
        [{ var := one, positive := false }, { var := other, positive := false }]) ↔
      ∀ one ∈ resolver.metadataCache, ∀ other ∈ resolver.metadataCache, one.name = cogName →
        other.name = cogName → selected one = true → selected other = true → one = other := by
  have cs : Satisfies selected ((pairs (versionsOf iteration resolver cogName)).map fun (one, other) =>
        [{ var := one, positive := false }, { var := other, positive := false }]) ↔
      (versionsOf iteration resolver cogName).Pairwise
        fun one other => selected one = false ∨ selected other = false := by
    rw [← pairs_forall, Satisfies, forall_mem_map]
    simp [Literal.Holds]
  rw [cs]
  constructor
  · intro apart one inOne other inOther named named' chosen chosen'
    by_contra ne
    have symmetric : Std.Symm fun one other : CogVar Version => selected one = false ∨ selected other = false :=
      ⟨fun _ _ => Or.symm⟩
    have rejected := apart.forall (mem_versionsOf.mpr ⟨inOne, named⟩) (mem_versionsOf.mpr ⟨inOther, named'⟩)
      ne
    simp [chosen, chosen'] at rejected
  · intro unique
    apply versionsOf_nodup.pairwise_of_forall_ne
    intro one inOne other inOther ne
    rw [mem_versionsOf] at inOne inOther
    by_contra chosen
    simp only [not_or, Bool.not_eq_false] at chosen
    exact ne (unique one inOne.1 other inOther.1 inOne.2 inOther.2 chosen.1 chosen.2)

variable [DecidableEq Version] (iteration versionMatches)

/-- What a call asks of the selected versions, read where the call is made. -/
def Call.Meets (selected : CogVar Version → Bool) (resolver : SatResolver Version) :
    Call Version VersionReq → Prop
  | .addMetadata _ => True
  | .addDependencyConstraint dependent toName versionReq => selected dependent = true →
      ∃ var ∈ resolver.metadataCache, var.name = toName ∧ versionMatches versionReq var.version = true ∧
        selected var = true
  | .addUniquenessConstraint cogName => ∀ one ∈ resolver.metadataCache, ∀ other ∈ resolver.metadataCache,
      one.name = cogName → other.name = cogName → selected one = true → selected other = true → one = other
  | .addRootConstraint root => selected root = true

def MeetsAll (selected : CogVar Version → Bool) : SatResolver Version → List (Call Version VersionReq) → Prop
  | _, [] => True
  | resolver, call :: rest => Call.Meets versionMatches selected resolver call ∧
      MeetsAll selected (perform iteration versionMatches resolver call) rest

variable {iteration versionMatches}

theorem satisfies_perform (selected : CogVar Version → Bool) (call : Call Version VersionReq) :
    Satisfies selected (perform iteration versionMatches resolver call).clauses ↔
      Satisfies selected resolver.clauses ∧ Call.Meets versionMatches selected resolver call := by
  cases call with
  | addMetadata metadata => simp [perform, addMetadata, Call.Meets]
  | addDependencyConstraint dependent toName versionReq =>
    rw [perform, addDependencyConstraint_eq]
    simp only [addClauses, satisfies_append, satisfies_singleton, Call.Meets, mem_cons, mem_map,
      mem_compatibleVersions, Literal.Holds]
    apply and_congr_right
    intro _
    cases chosen : selected dependent with
    | false => simp [chosen]
    | true => simp [chosen, and_assoc]
  | addUniquenessConstraint cogName =>
    simp only [perform, addUniquenessConstraint, addClauses, satisfies_append, satisfies_uniqueness, Call.Meets]
  | addRootConstraint root =>
    simp [perform, addRootConstraint, addClauses, Call.Meets, Literal.Holds]

theorem satisfies_run (selected : CogVar Version → Bool) (calls : List (Call Version VersionReq)) :
    Satisfies selected (run iteration versionMatches calls).clauses ↔
      MeetsAll iteration versionMatches selected new calls := by
  have from_resolver (resolver : SatResolver Version) :
      Satisfies selected (calls.foldl (perform iteration versionMatches) resolver).clauses ↔
        Satisfies selected resolver.clauses ∧ MeetsAll iteration versionMatches selected resolver calls := by
    induction calls generalizing resolver with
    | nil => simp [MeetsAll]
    | cons call rest ih => simp only [foldl_cons, ih, satisfies_perform, MeetsAll, and_assoc]
  rw [run, from_resolver]
  simp [new, Satisfies]

end Encoding

section Formation

def Call.subject : Call Version VersionReq → Option (CogVar Version)
  | .addDependencyConstraint dependent _ _ => some dependent
  | .addRootConstraint root => some root
  | .addMetadata _ | .addUniquenessConstraint _ => none

/-- The shape of a resolver under construction, whose variables are to be registered in `known`. -/
structure Building (known : CogVar Version → Prop) (resolver : SatResolver Version) : Prop where
  cached : ∀ var ∈ resolver.metadataCache, var ∈ resolver.assignments
  registered : ∀ var ∈ resolver.assignments, known var
  vars : ∀ clause ∈ resolver.clauses, ∀ literal ∈ clause, known literal.var
  nonempty : ∀ clause ∈ resolver.clauses, clause ≠ []
  nodup : ∀ clause ∈ resolver.clauses, clause.Nodup

variable {known : CogVar Version → Prop} {resolver : SatResolver Version} {var : CogVar Version}

theorem Building.addClauses (building : Building known resolver) {cs : List (Clause (CogVar Version))}
    (hf : ∀ c ∈ cs, (∀ lit ∈ c, known lit.var) ∧ c ≠ [] ∧ c.Nodup) :
    Building known (resolver.addClauses cs) := by
  have either {c : Clause (CogVar Version)} (mem : c ∈ resolver.clauses ++ cs) :
      (∀ lit ∈ c, known lit.var) ∧ c ≠ [] ∧ c.Nodup := by
    rcases mem_append.mp mem with old | new
    · exact ⟨building.vars c old, building.nonempty c old, building.nodup c old⟩
    · exact hf c new
  exact ⟨building.cached, building.registered, fun c mem => (either mem).1,
    fun c mem => (either mem).2.1, fun c mem => (either mem).2.2⟩

variable [DecidableEq Version] {iteration : Iteration} {versionMatches : VersionReq → Version → Bool}

theorem mem_perform (call : Call Version VersionReq) (mem : var ∈ resolver.assignments) :
    var ∈ (perform iteration versionMatches resolver call).assignments := by
  cases call with
  | addMetadata metadata => exact (AList.mem_insert _).mpr (.inr mem)
  | addDependencyConstraint dependent toName versionReq =>
    rw [perform, addDependencyConstraint_eq]
    exact mem
  | addUniquenessConstraint cogName | addRootConstraint root => exact mem

theorem mem_run (calls : List (Call Version VersionReq)) (mem : var ∈ resolver.assignments) :
    var ∈ (calls.foldl (perform iteration versionMatches) resolver).assignments := by
  induction calls generalizing resolver with
  | nil => exact mem
  | cons call rest ih => exact ih (mem_perform call mem)

theorem Building.perform (building : Building known resolver) (call : Call Version VersionReq)
    (named : ∀ var ∈ call.subject, known var)
    (hl : ∀ var ∈ (perform iteration versionMatches resolver call).assignments, known var) :
    Building known (perform iteration versionMatches resolver call) := by
  cases call with
  | addMetadata metadata =>
    refine ⟨?_, hl, building.vars, building.nonempty, building.nodup⟩
    intro var mem
    rcases (AList.mem_insert _).mp mem with eq | mem
    · exact (AList.mem_insert _).mpr (.inl eq)
    · exact (AList.mem_insert _).mpr (.inr (building.cached var mem))
  | addDependencyConstraint dependent toName versionReq =>
    rw [SatResolver.perform, addDependencyConstraint_eq]
    apply building.addClauses
    intro c mem
    rw [mem_singleton.mp mem]
    refine ⟨?_, cons_ne_nil _ _, ?_⟩
    · intro lit hin
      rcases mem_cons.mp hin with eq | hin
      · rw [eq]
        exact named dependent rfl
      · obtain ⟨var, compatible, eq⟩ := mem_map.mp hin
        rw [← eq]
        exact building.registered var (building.cached var (mem_compatibleVersions.mp compatible).1)
    · rw [nodup_cons]
      constructor
      · simp
      · apply compatibleVersions_nodup.map
        intro one other eq
        exact congrArg Literal.var eq
  | addUniquenessConstraint cogName =>
    apply building.addClauses
    intro c mem
    obtain ⟨⟨one, other⟩, hin, rfl⟩ := mem_map.mp mem
    have apart : (versionsOf iteration resolver cogName).Pairwise
        fun one other => (known one ∧ known other) ∧ one ≠ other := by
      apply versionsOf_nodup.pairwise_of_forall_ne
      intro one inOne other inOther ne
      rw [mem_versionsOf] at inOne inOther
      exact ⟨⟨building.registered one (building.cached one inOne.1),
        building.registered other (building.cached other inOther.1)⟩, ne⟩
    obtain ⟨⟨knownOne, knownOther⟩, ne⟩ := pairs_forall.mpr apart (one, other) hin
    exact ⟨by simp [knownOne, knownOther], cons_ne_nil _ _, by simp [ne]⟩
  | addRootConstraint root =>
    apply building.addClauses
    intro c mem
    rw [mem_singleton.mp mem]
    exact ⟨by simp [named root rfl], cons_ne_nil _ _, nodup_singleton _⟩

theorem run_building {calls : List (Call Version VersionReq)}
    (registered : ∀ call ∈ calls, ∀ var ∈ call.subject, var ∈ (run iteration versionMatches calls).assignments) :
    Building (· ∈ (run iteration versionMatches calls).assignments) (run iteration versionMatches calls) := by
  have from_resolver (known : CogVar Version → Prop) (resolver : SatResolver Version)
      (building : Building known resolver) (named : ∀ call ∈ calls, ∀ var ∈ call.subject, known var)
      (final : ∀ var ∈ (calls.foldl (perform iteration versionMatches) resolver).assignments, known var) :
      Building known (calls.foldl (perform iteration versionMatches) resolver) := by
    clear registered
    induction calls generalizing resolver with
    | nil => exact building
    | cons call rest ih =>
      rw [forall_mem_cons] at named
      have hl : ∀ var ∈ (perform iteration versionMatches resolver call).assignments, known var :=
        fun var mem => final var (mem_run rest mem)
      exact ih _ (building.perform call named.1 hl) named.2 final
  apply from_resolver _ new ⟨nofun, nofun, nofun, nofun, nofun⟩ registered
  exact fun var mem => mem

theorem assignments_reset (resolver : SatResolver Version) (var : CogVar Version) :
    resolver.reset.assignments.lookup var = (resolver.assignments.lookup var).map fun _ => none := by
  have inserted (vars : List (CogVar Version)) (map : AList fun _ : CogVar Version => Option Bool) :
      (vars.foldl (fun map var => map.insert var none) map).lookup var =
        if var ∈ vars then some none else map.lookup var := by
    induction vars generalizing map with
    | nil => simp
    | cons head rest ih =>
      rw [foldl_cons, ih]
      by_cases eq : var = head
      · subst eq
        simp
      · simp [eq, AList.lookup_insert_ne]
  rw [reset, inserted]
  by_cases mem : var ∈ resolver.assignments
  · obtain ⟨v, hb⟩ := Option.isSome_iff_exists.mp (AList.lookup_isSome.mpr mem)
    rw [if_pos (AList.mem_keys.mp mem), hb]
    rfl
  · rw [if_neg (fun hin => mem (AList.mem_keys.mpr hin)), AList.lookup_eq_none.mpr mem]
    rfl

theorem assigned_reset (resolver : SatResolver Version) : resolver.reset.assigned = fun _ => none := by
  funext var
  rw [assigned, get, assignments_reset]
  cases resolver.assignments.lookup var <;> rfl

theorem mem_reset (resolver : SatResolver Version) (var : CogVar Version) :
    var ∈ resolver.reset.assignments ↔ var ∈ resolver.assignments := by
  rw [← AList.lookup_isSome, ← AList.lookup_isSome, assignments_reset, Option.isSome_map]

theorem Building.reset (building : Building (· ∈ resolver.assignments) resolver) :
    resolver.reset.WellFormed ∧ Consistent resolver.reset.assigned resolver.reset.clauses := by
  refine ⟨⟨?_, building.nonempty, building.nodup⟩, ?_⟩
  · intro c mem lit hin
    exact (mem_reset resolver _).mpr (building.vars c mem lit hin)
  · intro c mem falsified
    obtain ⟨lit, hin⟩ := exists_mem_of_ne_nil c (building.nonempty c mem)
    have falsehood := falsified lit hin
    rw [Literal.IsFalse, assigned_reset] at falsehood
    cases falsehood

theorem openSet_card_le (resolver : SatResolver Version) :
    resolver.openSet.card ≤ resolver.assignments.keys.length :=
  (Finset.card_filter_le _ _).trans (toFinset_card_le _)

end Formation

section Conflicts

variable {iteration : Iteration} {resolver : SatResolver Version}

/-- Some package with two registered versions is in the dependency table of a registered cog. -/
def Reportable (resolver : SatResolver Version) : Prop :=
  ∃ one ∈ resolver.metadataCache, ∃ other ∈ resolver.metadataCache, one ≠ other ∧ one.name = other.name ∧
    ∃ entry ∈ resolver.metadataCache.entries, one.name ∈ entry.2.dependencies

theorem findDependentCogs_eq_nil {cogName : Text} :
    resolver.findDependentCogs iteration cogName = [] ↔
      ∀ e ∈ resolver.metadataCache.entries, cogName ∉ e.2.dependencies := by
  have empty {α : Type} (visit : Nat) (xs : List α) : iteration.order visit xs = [] ↔ xs = [] := by
    rw [← length_eq_zero_iff, (iteration.perm visit xs).length_eq, length_eq_zero_iff]
  rw [findDependentCogs, empty, dedup_eq_nil, map_eq_nil_iff, filter_eq_nil_iff]
  simp only [(iteration.perm _ _).mem_iff, decide_eq_true_eq]

theorem lookup_group (name head : Text) (vars : List (CogVar Version))
    (rest : List (Text × List (CogVar Version))) :
    List.lookup name ((head, vars) :: rest) = if name = head then some vars else rest.lookup name := by
  by_cases eq : name = head
  · simp [eq]
  · simp [lookup_cons, eq, beq_false_of_ne eq]

theorem pushGroup_lookup (groups : List (Text × List (CogVar Version))) (var : CogVar Version) (name : Text) :
    (pushGroup groups var).lookup name =
      if name = var.name then some ((groups.lookup name).getD [] ++ [var]) else groups.lookup name := by
  induction groups with
  | nil => simp [pushGroup, lookup_group]
  | cons group rest ih =>
    obtain ⟨head, vars⟩ := group
    rw [pushGroup]
    split
    · next here =>
      subst here
      by_cases eq : name = var.name <;> simp [lookup_group, eq]
    · next elsewhere =>
      rw [lookup_group, lookup_group, ih]
      by_cases eq : name = head
      · simp [eq, elsewhere]
      · simp [eq]

theorem pushGroup_sound {vars : List (CogVar Version)} {groups : List (Text × List (CogVar Version))}
    (hs : ∀ group ∈ groups, group.2.Sublist vars ∧ ∀ var ∈ group.2, var.name = group.1)
    (var : CogVar Version) :
    ∀ group ∈ pushGroup groups var,
      group.2.Sublist (vars ++ [var]) ∧ ∀ mem ∈ group.2, mem.name = group.1 := by
  induction groups with
  | nil =>
    intro group hin
    rw [pushGroup, mem_singleton] at hin
    subst hin
    exact ⟨sublist_append_right _ _, by simp⟩
  | cons fst rest ih =>
    rw [forall_mem_cons] at hs
    obtain ⟨⟨sublist, named⟩, others⟩ := hs
    have kept : ∀ group ∈ rest, group.2.Sublist (vars ++ [var]) ∧ ∀ mem ∈ group.2, mem.name = group.1 :=
      fun group hin => ⟨(others group hin).1.trans (sublist_append_left _ _), (others group hin).2⟩
    rw [pushGroup]
    split
    · next here =>
      rw [forall_mem_cons]
      refine ⟨⟨sublist.append (.refl _), ?_⟩, kept⟩
      intro mem hin
      rcases mem_append.mp hin with old | new
      · exact named mem old
      · rw [mem_singleton.mp new, here]
    · rw [forall_mem_cons]
      exact ⟨⟨sublist.trans (sublist_append_left _ _), named⟩, ih others⟩

theorem packageGroups_spec (iteration : Iteration) (resolver : SatResolver Version) :
    (∀ group ∈ packageGroups iteration resolver, group.2.Nodup ∧
      ∀ var ∈ group.2, var ∈ resolver.metadataCache ∧ var.name = group.1) ∧
    ∀ name, (packageGroups iteration resolver).lookup name =
      let vars := (iteration.order resolver.visits resolver.metadataCache.keys).filter fun var => var.name = name
      if vars = [] then none else some vars := by
  have grouped (vars : List (CogVar Version)) :
      (∀ group ∈ vars.foldl pushGroup [], group.2.Sublist vars ∧ ∀ var ∈ group.2, var.name = group.1) ∧
      ∀ name, (vars.foldl pushGroup []).lookup name =
        if vars.filter (fun var => var.name = name) = [] then none
        else some (vars.filter fun var => var.name = name) := by
    induction vars using List.reverseRecOn with
    | nil => exact ⟨nofun, fun name => by simp⟩
    | append_singleton vars var ih =>
      simp only [foldl_append, foldl_cons, foldl_nil]
      refine ⟨pushGroup_sound ih.1 var, ?_⟩
      intro name
      rw [pushGroup_lookup, ih.2, filter_append]
      by_cases eq : name = var.name
      · by_cases empty : vars.filter (fun other => other.name = var.name) = [] <;> simp [eq, empty]
      · simp [eq, Ne.symm eq]
  obtain ⟨hs, hit⟩ := grouped (iteration.order resolver.visits resolver.metadataCache.keys)
  refine ⟨?_, hit⟩
  intro group hin
  obtain ⟨sublist, named⟩ := hs group hin
  have nodup := (iteration.perm resolver.visits _).nodup_iff.mpr resolver.metadataCache.keys_nodup
  refine ⟨nodup.sublist sublist, fun var mem => ⟨?_, named var mem⟩⟩
  have visited := sublist.subset mem
  rw [(iteration.perm _ _).mem_iff] at visited
  exact AList.mem_keys.mpr visited

theorem conflictOf_isSome [ToString Version] (n : Nat) {group : Text × List (CogVar Version)} :
    (conflictOf iteration (resolver.visited n) group).isSome = true ↔
      1 < group.2.length ∧ ∃ e ∈ resolver.metadataCache.entries, group.1 ∈ e.2.dependencies := by
  have holders : (resolver.visited n).findDependentCogs iteration group.1 = [] ↔
      ∀ e ∈ resolver.metadataCache.entries, group.1 ∉ e.2.dependencies := findDependentCogs_eq_nil
  rw [conflictOf]
  simp only [List.isEmpty_iff, holders]
  split
  · next several =>
    split
    · next missing =>
      simp only [Option.isSome_none, Bool.false_eq_true, several, true_and, false_iff]
      rintro ⟨e, mem, held⟩
      exact missing e mem held
    · next has =>
      simp only [Option.isSome_some, several, true_and, true_iff]
      by_contra unheld
      exact has fun e mem held => unheld ⟨e, mem, held⟩
  · next single => simp [single]

theorem extractConflicts_eq_nil [ToString Version] :
    resolver.extractConflicts iteration = [] ↔ ¬ Reportable resolver := by
  have ms : resolver.extractConflicts iteration = [] ↔
      ∀ group ∈ packageGroups iteration resolver, ¬ (1 < group.2.length ∧
        ∃ e ∈ resolver.metadataCache.entries, group.1 ∈ e.2.dependencies) := by
    rw [extractConflicts, filterMap_eq_nil_iff]
    constructor
    · intro silent group hin
      rw [← (iteration.perm (resolver.visits + 1) _).mem_iff] at hin
      obtain ⟨idx, placed⟩ := mem_iff_getElem?.mp hin
      have missing := silent (group, idx) (mem_zipIdx_iff_getElem?.mpr placed)
      intro reported
      rw [← conflictOf_isSome (2 + 2 * idx), Option.isSome_iff_ne_none] at reported
      exact reported missing
    · intro quiet (group, idx) placed
      have hin := mem_of_getElem? (mem_zipIdx_iff_getElem?.mp placed)
      rw [(iteration.perm _ _).mem_iff] at hin
      by_contra reported
      exact quiet group hin ((conflictOf_isSome (2 + 2 * idx)).mp (Option.isSome_iff_ne_none.mpr reported))
  obtain ⟨hs, hit⟩ := packageGroups_spec iteration resolver
  rw [ms]
  constructor
  · intro quiet ⟨one, inOne, other, inOther, ne, eq, held⟩
    have visited {var : CogVar Version} (mem : var ∈ resolver.metadataCache) (named : var.name = one.name) :
        var ∈ (iteration.order resolver.visits resolver.metadataCache.keys).filter
          fun var => var.name = one.name := by
      rw [mem_filter, (iteration.perm _ _).mem_iff]
      exact ⟨AList.mem_keys.mp mem, decide_eq_true named⟩
    have fst := visited inOne rfl
    have snd := visited inOther eq.symm
    have group := hit one.name
    rw [if_neg (ne_nil_of_mem fst)] at group
    generalize List.filter _ _ = vars at fst snd group
    obtain ⟨pre, after, placed, _⟩ := lookup_eq_some_iff.mp group
    have hin : (one.name, vars) ∈ packageGroups iteration resolver := by
      rw [placed]
      simp
    apply quiet (one.name, vars) hin
    refine ⟨?_, held⟩
    match vars, fst, snd with
    | [single], fst, snd =>
      rw [mem_singleton] at fst snd
      exact absurd (fst.trans snd.symm) ne
    | _ :: _ :: _, _, _ => simp
  · intro unreportable ⟨name, vars⟩ hin ⟨several, held⟩
    obtain ⟨nodup, named⟩ := hs _ hin
    match vars, nodup, named, several with
    | one :: other :: rest, nodup, named, _ =>
      have fst := named one (by simp)
      have snd := named other (by simp)
      apply unreportable
      refine ⟨one, fst.1, other, snd.1, ?_, fst.2.trans snd.2.symm, ?_⟩
      · intro eq
        simp [eq] at nodup
      · rw [fst.2]
        exact held

end Conflicts

section Solve

variable [DecidableEq Version] [Ord Version] [ToString Version]

/-- What the resolver promises of an answer and of the assignment it was read from. -/
def Decides (resolver : SatResolver Version) (answer : SatResolution Version × SatResolver Version) : Prop :=
  (answer.1.conflicts = [] ↔ Satisfiable resolver.clauses) ∧
    (Satisfiable resolver.clauses →
      Satisfies (fun var => answer.2.get var == some (some true)) resolver.clauses)

/-- The first descent of the search does not end in a conflict below one of its decisions. -/
def Unrefuted (iteration : Iteration) (resolver : SatResolver Version) : Prop :=
  ∀ decisions, firstDescent iteration (resolver.reset.assignments.keys.length + 1) 0 resolver.reset ≠
    some (false, decisions + 1)

theorem solve_of_unrefuted {iteration : Iteration} {resolver : SatResolver Version}
    (building : Building (· ∈ resolver.assignments) resolver) (unrefuted : Unrefuted iteration resolver) :
    ∃ answer, solve iteration resolver = some answer ∧
      ((answer.1.conflicts = [] ∧
          Satisfies (fun var => answer.2.get var == some (some true)) resolver.clauses) ∨
        (answer.1.conflicts = answer.2.extractConflicts iteration ∧
          answer.2.metadataCache = resolver.metadataCache ∧ ¬ Satisfiable resolver.clauses)) := by
  obtain ⟨wf, con⟩ := building.reset
  have he := Nat.lt_succ_of_le (openSet_card_le resolver.reset)
  obtain ⟨⟨solved, deepest⟩, descended⟩ := firstDescent_total iteration 0 wf he
  cases solved with
  | true =>
    obtain ⟨after, ran, extension, model, filled⟩ := firstDescent_solved wf con descended
    refine ⟨_, by simp only [solve, ran, Option.bind_eq_bind, Option.bind_some, if_true]; rfl, .inl ⟨rfl, ?_⟩⟩
    have total : ∀ c ∈ after.clauses, ∀ lit ∈ c, ¬ lit.IsOpen after.assigned := by
      intro c mem lit hin opened
      have known := (extension.wellFormed wf).known c mem lit hin
      exact filled lit.var (get_eq_some_none.mpr ⟨known, opened⟩)
    have satisfied := model.satisfies total
    rw [extension.clauses] at satisfied
    have eq : (fun var => after.assigned var == some true) =
        fun var => after.get var == some (some true) := by
      funext var
      rw [assigned]
      cases after.get var <;> rfl
    rw [eq] at satisfied
    exact satisfied
  | false =>
    cases deepest with
    | succ decisions => exact absurd descended (unrefuted decisions)
    | zero =>
      obtain ⟨⟨after, ran⟩, unsatisfiable⟩ := (firstDescent_conflict wf descended).2 rfl
      have extension := (dpll_refuted wf (fun _ mem => absurd mem List.not_mem_nil) ran).extension
      refine ⟨_, by simp only [solve, ran, Option.bind_eq_bind, Option.bind_some, Bool.false_eq_true, if_false]; rfl,
        .inr ⟨rfl, extension.metadataCache, ?_⟩⟩
      intro satisfiable
      apply unsatisfiable
      rw [assigned_reset]
      exact satisfiable.under

variable {iteration : Iteration} {versionMatches : VersionReq → Version → Bool}

/-- A search that refutes no decision answers what its calls ask, except that an unsatisfiable set of
    constraints goes unreported when no package makes it `Reportable`. -/
theorem solve_decides_iff (calls : List (Call Version VersionReq))
    (registered : ∀ call ∈ calls, ∀ var ∈ call.subject, var ∈ (run iteration versionMatches calls).assignments)
    (unrefuted : Unrefuted iteration (run iteration versionMatches calls)) :
    (∀ selected, Satisfies selected (run iteration versionMatches calls).clauses ↔
      MeetsAll iteration versionMatches selected new calls) ∧
    ∃ answer, solve iteration (run iteration versionMatches calls) = some answer ∧
      (Decides (run iteration versionMatches calls) answer ↔
        Satisfiable (run iteration versionMatches calls).clauses ∨
          Reportable (run iteration versionMatches calls)) := by
  refine ⟨fun selected => satisfies_run selected calls, ?_⟩
  obtain ⟨answer, solved, outcome⟩ := solve_of_unrefuted (run_building registered) unrefuted
  refine ⟨answer, solved, ?_⟩
  rcases outcome with ⟨quiet, satisfied⟩ | ⟨conflicts, cache, unsatisfiable⟩
  · have satisfiable : Satisfiable (run iteration versionMatches calls).clauses := ⟨_, satisfied⟩
    exact ⟨fun _ => .inl satisfiable, fun _ => ⟨⟨fun _ => satisfiable, fun _ => quiet⟩, fun _ => satisfied⟩⟩
  · have reported : answer.1.conflicts = [] ↔ ¬ Reportable (run iteration versionMatches calls) := by
      rw [conflicts, extractConflicts_eq_nil, Reportable, Reportable, cache]
    constructor
    · intro decides
      by_contra neither
      rw [not_or] at neither
      exact unsatisfiable (decides.1.mp (reported.mpr neither.2))
    · rintro (satisfiable | reportable)
      · exact absurd satisfiable unsatisfiable
      · refine ⟨⟨fun empty => absurd reportable (reported.mp empty), fun satisfiable => ?_⟩, fun satisfiable => ?_⟩
        · exact absurd satisfiable unsatisfiable
        · exact absurd satisfiable unsatisfiable

end Solve

section Instances

def inOrder : Iteration := ⟨fun _ items => items, fun _ _ => .refl _⟩

def exactVersion (versionReq : Option Nat) (version : Nat) : Bool := versionReq.all (· == version)

def simpleCalls : List (Call Nat (Option Nat)) :=
  [.addMetadata ⟨"pkg_a", 1, ["pkg_b"]⟩, .addMetadata ⟨"pkg_b", 1, []⟩,
    .addDependencyConstraint ⟨"pkg_a", 1⟩ "pkg_b" (some 1), .addRootConstraint ⟨"pkg_a", 1⟩]

theorem solve_decides_iff_simple :
    ∃ answer, solve inOrder (run inOrder exactVersion simpleCalls) = some answer ∧
      Decides (run inOrder exactVersion simpleCalls) answer := by
  have registered : ∀ call ∈ simpleCalls, ∀ var ∈ call.subject,
      var ∈ (run inOrder exactVersion simpleCalls).assignments := by
    decide +kernel
  have descended : firstDescent inOrder 3 0 (run inOrder exactVersion simpleCalls).reset = some (true, 0) := by
    decide +kernel
  have unrefuted : Unrefuted inOrder (run inOrder exactVersion simpleCalls) := by
    intro decisions conflict
    have same := descended.symm.trans conflict
    simp at same
  obtain ⟨_, answer, solved, decides⟩ := solve_decides_iff simpleCalls registered unrefuted
  have satisfied : Satisfies (fun _ => true) (run inOrder exactVersion simpleCalls).clauses := by
    decide +kernel
  exact ⟨answer, solved, decides.mpr (.inl ⟨_, satisfied⟩)⟩

/-- `a` 2 needs a `b` and every `b` needs `a` 1, so only `a` 1 serves the root. -/
def circularCalls : List (Call Nat (Option Nat)) :=
  [.addMetadata ⟨"r", 1, ["a"]⟩, .addMetadata ⟨"a", 1, []⟩, .addMetadata ⟨"a", 2, ["b"]⟩,
    .addMetadata ⟨"b", 1, ["a"]⟩, .addMetadata ⟨"b", 2, ["a"]⟩, .addRootConstraint ⟨"r", 1⟩,
    .addDependencyConstraint ⟨"r", 1⟩ "a" none, .addDependencyConstraint ⟨"a", 2⟩ "b" none,
    .addDependencyConstraint ⟨"b", 1⟩ "a" (some 1), .addDependencyConstraint ⟨"b", 2⟩ "a" (some 1),
    .addUniquenessConstraint "a"]

/-- The root depends on a package that is not registered. -/
def missingCalls : List (Call Nat (Option Nat)) :=
  [.addMetadata ⟨"r", 1, ["a"]⟩, .addRootConstraint ⟨"r", 1⟩, .addDependencyConstraint ⟨"r", 1⟩ "a" none]

/-- With `a` 2 refuted the values propagated from it stay, and the answer selects no `a` at all; without a
    second version of any package a refuted root is answered with no conflict. -/
theorem solve_not_decides :
    ((∀ call ∈ circularCalls, ∀ var ∈ call.subject, var ∈ (run inOrder exactVersion circularCalls).assignments) ∧
      Satisfiable (run inOrder exactVersion circularCalls).clauses ∧
      ∃ answer, solve inOrder (run inOrder exactVersion circularCalls) = some answer ∧
        answer.1.conflicts = [] ∧ ¬ Decides (run inOrder exactVersion circularCalls) answer) ∧
    ((∀ call ∈ missingCalls, ∀ var ∈ call.subject, var ∈ (run inOrder exactVersion missingCalls).assignments) ∧
      ¬ Satisfiable (run inOrder exactVersion missingCalls).clauses ∧
      ∃ answer, solve inOrder (run inOrder exactVersion missingCalls) = some answer ∧
        answer.1.conflicts = [] ∧ ¬ Decides (run inOrder exactVersion missingCalls) answer) := by
  have satisfiable : Satisfiable (run inOrder exactVersion circularCalls).clauses :=
    ⟨fun var => var.name = "r" || var = ⟨"a", 1⟩, by decide +kernel⟩
  have unsatisfiable : ¬ Satisfiable (run inOrder exactVersion missingCalls).clauses := by
    have clauses : (run inOrder exactVersion missingCalls).clauses =
        [[{ var := ⟨"r", 1⟩, positive := true }], [{ var := ⟨"r", 1⟩, positive := false }]] := by
      decide +kernel
    rintro ⟨selected, satisfied⟩
    simp [clauses, Satisfies, Literal.Holds] at satisfied
  refine ⟨⟨by decide +kernel, satisfiable, ?_⟩, by decide +kernel, unsatisfiable, ?_⟩
  · have evaluated : (solve inOrder (run inOrder exactVersion circularCalls)).map (fun answer =>
        (answer.1.conflicts.isEmpty, decide (Satisfies (fun var => answer.2.get var == some (some true))
          (run inOrder exactVersion circularCalls).clauses))) = some (true, false) := by
      decide +kernel
    obtain ⟨answer, solved, values⟩ := Option.map_eq_some_iff.mp evaluated
    simp only [Prod.mk.injEq, List.isEmpty_iff, decide_eq_false_iff_not] at values
    exact ⟨answer, solved, values.1, fun decides => values.2 (decides.2 satisfiable)⟩
  · have evaluated : (solve inOrder (run inOrder exactVersion missingCalls)).map (fun answer =>
        answer.1.conflicts.isEmpty) = some true := by
      decide +kernel
    obtain ⟨answer, solved, empty⟩ := Option.map_eq_some_iff.mp evaluated
    rw [List.isEmpty_iff] at empty
    exact ⟨answer, solved, empty, fun decides => unsatisfiable (decides.1.mp empty)⟩

end Instances

end Registry.SatResolver
