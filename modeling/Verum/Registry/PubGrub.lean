import Mathlib.Data.Finset.Basic
import Mathlib.Data.Prod.Lex
import Mathlib.Data.String.Basic
import Verum.Collections.SortedMap

open List

namespace Registry

abbrev CogName := String

structure DepEdge (VersionReq : Type) where
  name : CogName
  requirement : VersionReq

/-- `edges` gives the empty list for a pair without an entry. -/
structure PubGrubBuilder (Version VersionReq : Type) where
  versions : SortedMap CogName (List Version)
  edges : CogName × Version → List (DepEdge VersionReq)

structure ResolvedPackage (Version : Type) where
  name : CogName
  version : Version
  deriving DecidableEq

variable {Version VersionReq : Type} [LinearOrder Version]

namespace PubGrubBuilder

def new : PubGrubBuilder Version VersionReq := ⟨.empty, fun _ => []⟩

def versionsOf (self : PubGrubBuilder Version VersionReq) (package : CogName) : List Version :=
  (self.versions.get package).getD []

def addPackageVersion (self : PubGrubBuilder Version VersionReq) (package : CogName) (version : Version) :
    PubGrubBuilder Version VersionReq :=
  let versions := self.versionsOf package
  let versions := if versions.any (· == version) then versions else versions ++ [version]
  { self with versions := self.versions.insert package versions }

def addDependency (self : PubGrubBuilder Version VersionReq) (package : CogName) (version : Version)
    (depName : CogName) (depReq : VersionReq) : PubGrubBuilder Version VersionReq :=
  let key := (package, version)
  { self with edges := Function.update self.edges key (self.edges key ++ [⟨depName, depReq⟩]) }

end PubGrubBuilder

abbrev Dependencies (Version : Type) := CogName → Option (Finset Version)

/-- The table of the offline provider. -/
structure VerumProvider (Version : Type) where
  inner : CogName × Version → Option (Dependencies Version)
  availableVersions : SortedMap CogName (List Version)

namespace VerumProvider

def reqToRanges (accepts : VersionReq → Version → Bool) (req : VersionReq) (candidates : List Version) :
    Finset Version :=
  match candidates.filter (accepts req) with
  | [] => ∅
  | first :: rest => rest.foldl (fun acc version => acc ∪ {version}) {first}

/-- Collecting pairs into a map: a later pair replaces an earlier one of the same name. -/
def collectDependencies (pairs : List (CogName × Finset Version)) : Dependencies Version :=
  pairs.foldl (fun map pair => Function.update map pair.1 (some pair.2)) fun _ => none

def pubgrubDeps (accepts : VersionReq → Version → Bool) (builder : PubGrubBuilder Version VersionReq)
    (key : CogName × Version) : List (CogName × Finset Version) :=
  (builder.edges key).map fun edge =>
    (edge.name, reqToRanges accepts edge.requirement (builder.versionsOf edge.name))

def new (accepts : VersionReq → Version → Bool) (builder : PubGrubBuilder Version VersionReq) :
    VerumProvider Version where
  inner :=
    let registered := builder.versions.entries.flatMap fun entry => entry.2.map fun version => (entry.1, version)
    registered.foldl
      (fun inner key => Function.update inner key (some (collectDependencies (pubgrubDeps accepts builder key))))
      fun _ => none
  availableVersions := builder.versions

end VerumProvider

/-- A selection that the solver may return for a table: at most one version a package, the root among
them, each with its dependencies known and served by the selection. -/
structure IsSolution (provider : VerumProvider Version) (root : CogName × Version)
    (selected : List (CogName × Version)) : Prop where
  functional : (selected.map Prod.fst).Nodup
  root_mem : root ∈ selected
  served : ∀ chosen ∈ selected, ∃ dependencies, provider.inner chosen = some dependencies ∧
    ∀ name range, dependencies name = some range → ∃ version ∈ range, (name, version) ∈ selected

/-- The solver of the `pubgrub` crate, with a type of its errors. -/
structure Solver (Version : Type) [LinearOrder Version] where
  PubGrubError : Type
  resolve : VerumProvider Version → CogName × Version → Except PubGrubError (List (CogName × Version))

/-- It returns a solution exactly when there is one. -/
structure Solver.Correct (solver : Solver Version) : Prop where
  ok : ∀ provider root selected, solver.resolve provider root = .ok selected → IsSolution provider root selected
  error : ∀ provider root failure, solver.resolve provider root = .error failure →
    ¬ ∃ selected, IsSolution provider root selected

/-- The error keeps the solver's value, which the code turns into a report. -/
def resolve (accepts : VersionReq → Version → Bool) (solver : Solver Version)
    (builder : PubGrubBuilder Version VersionReq) (rootPackage : CogName) (rootVersion : Version) :
    Except solver.PubGrubError (List (ResolvedPackage Version)) :=
  (solver.resolve (.new accepts builder) (rootPackage, rootVersion)).map fun selected =>
    let out := selected.map fun (name, version) => ⟨name, version⟩
    out.mergeSort fun a b => toLex (a.name, a.version) ≤ toLex (b.name, b.version)

namespace PubGrubBuilder

inductive Call (Version VersionReq : Type) where
  | addPackageVersion (package : CogName) (version : Version)
  | addDependency (package : CogName) (version : Version) (depName : CogName) (depReq : VersionReq)

def apply (self : PubGrubBuilder Version VersionReq) : Call Version VersionReq → PubGrubBuilder Version VersionReq
  | .addPackageVersion package version => self.addPackageVersion package version
  | .addDependency package version depName depReq => self.addDependency package version depName depReq

def build (calls : List (Call Version VersionReq)) : PubGrubBuilder Version VersionReq := calls.foldl apply new

/-- The requirements of one version of a package on one name, in the order they were declared. -/
def requirements (self : PubGrubBuilder Version VersionReq) (key : CogName × Version) (name : CogName) :
    List VersionReq :=
  ((self.edges key).filter fun edge => edge.name = name).map DepEdge.requirement

section Build

variable {self : PubGrubBuilder Version VersionReq}
variable {package : CogName} {version : Version} {calls : List (Call Version VersionReq)}

theorem mem_versionsOf_addPackageVersion {other : CogName} {version' : Version} :
    version' ∈ (self.addPackageVersion package version).versionsOf other ↔
      other = package ∧ version' = version ∨ version' ∈ self.versionsOf other := by
  by_cases eq : other = package
  · subst eq
    have versions : (self.addPackageVersion other version).versionsOf other =
        if (self.versionsOf other).any (· == version) then self.versionsOf other
        else self.versionsOf other ++ [version] := by
      change ((self.versions.insert other _).get other).getD [] = _
      rw [SortedMap.get_insert, if_pos rfl, Option.getD_some]
    rw [versions]
    split
    · rename_i known
      have : version ∈ self.versionsOf other := by simpa using known
      constructor
      · exact .inr
      · rintro (⟨-, rfl⟩ | old)
        · exact this
        · exact old
    · simp [or_comm]
  · simp [versionsOf, addPackageVersion, SortedMap.get_insert, eq]

theorem mem_versionsOf_build :
    version ∈ (build calls).versionsOf package ↔ .addPackageVersion package version ∈ calls := by
  induction calls using List.reverseRecOn with
  | nil => simp [build, new, versionsOf, SortedMap.get, SortedMap.empty, Entries.get]
  | append_singleton calls call ih =>
    rw [build, foldl_append, ← build, mem_append, ← ih]
    cases call with
    | addPackageVersion added addedVersion =>
      simp only [foldl_cons, foldl_nil, apply, mem_versionsOf_addPackageVersion, mem_singleton,
        Call.addPackageVersion.injEq]
      exact or_comm
    | addDependency src sourceVersion depName depReq => simp [apply, addDependency, versionsOf]

theorem mem_requirements_build {name : CogName} {req : VersionReq} :
    req ∈ (build calls).requirements (package, version) name ↔ .addDependency package version name req ∈ calls := by
  have edges : ∀ edge, edge ∈ (build calls).edges (package, version) ↔
      .addDependency package version edge.name edge.requirement ∈ calls := by
    intro edge
    induction calls using List.reverseRecOn with
    | nil => simp [build, new]
    | append_singleton calls call ih =>
      rw [build, foldl_append, ← build, mem_append, ← ih]
      cases call with
      | addPackageVersion added addedVersion => simp [apply, addPackageVersion]
      | addDependency src sourceVersion depName depReq =>
        simp only [foldl_cons, foldl_nil, apply, addDependency, Function.update_apply, mem_singleton,
          Call.addDependency.injEq]
        split
        · rename_i eq
          rw [Prod.mk.injEq] at eq
          obtain ⟨rfl, rfl⟩ := eq
          cases edge
          simp
        · rename_i ne
          rw [Prod.mk.injEq, not_and] at ne
          constructor
          · exact .inl
          · rintro (old | ⟨rfl, rfl, -⟩)
            · exact old
            · exact absurd rfl (ne rfl)
  simp only [requirements, mem_map, mem_filter, decide_eq_true_eq, edges]
  constructor
  · rintro ⟨edge, ⟨declared, rfl⟩, rfl⟩
    exact declared
  · intro declared
    exact ⟨⟨name, req⟩, ⟨declared, rfl⟩, rfl⟩

end Build

end PubGrubBuilder

namespace VerumProvider

variable {accepts : VersionReq → Version → Bool} {builder : PubGrubBuilder Version VersionReq}

theorem mem_reqToRanges {req : VersionReq} {candidates : List Version} {version : Version} :
    version ∈ reqToRanges accepts req candidates ↔ version ∈ candidates ∧ accepts req version = true := by
  have union : ∀ (rest : List Version) (acc : Finset Version),
      version ∈ rest.foldl (fun acc version => acc ∪ {version}) acc ↔ version ∈ acc ∨ version ∈ rest := by
    intro rest
    induction rest with
    | nil => simp
    | cons fst rest ih =>
      intro acc
      rw [foldl_cons, ih, Finset.mem_union, Finset.mem_singleton, mem_cons, or_assoc]
  rw [reqToRanges, ← mem_filter]
  split
  · rename_i none
    simp [none]
  · rename_i fst rest some
    rw [union, some, Finset.mem_singleton, mem_cons]

omit [LinearOrder Version] in
theorem collectDependencies_apply (pairs : List (CogName × Finset Version)) (name : CogName) :
    collectDependencies pairs name = ((pairs.filter fun pair => pair.1 = name).map Prod.snd).getLast? := by
  induction pairs using List.reverseRecOn with
  | nil => rfl
  | append_singleton pairs pair ih =>
    rw [collectDependencies, foldl_append, ← collectDependencies, filter_append, map_append,
      foldl_cons, foldl_nil, Function.update_apply]
    by_cases eq : name = pair.1
    · simp [eq]
    · simp [eq, Ne.symm eq, ih]

theorem collectDependencies_pubgrubDeps (key : CogName × Version) (name : CogName) :
    collectDependencies (pubgrubDeps accepts builder key) name =
      (builder.requirements key name).getLast?.map fun req =>
        reqToRanges accepts req (builder.versionsOf name) := by
  rw [collectDependencies_apply, pubgrubDeps, PubGrubBuilder.requirements, ← List.getLast?_map, map_map,
    filter_map, map_map]
  congr 1
  refine map_congr_left fun edge mem => ?_
  have eq : edge.name = name := by simpa using (mem_filter.mp mem).2
  simp [eq]

theorem foldl_update_apply {α β : Type*} [DecidableEq α] (v : α → β) (keys : List α) (key : α) :
    (keys.foldl (fun map key => Function.update map key (some (v key))) fun _ => none) key =
      if key ∈ keys then some (v key) else none := by
  induction keys using List.reverseRecOn with
  | nil => simp
  | append_singleton keys last ih =>
    rw [foldl_append, foldl_cons, foldl_nil, Function.update_apply, ih]
    by_cases eq : key = last
    · simp [eq]
    · simp [eq]

theorem inner_new (key : CogName × Version) :
    (new accepts builder).inner key = if key.2 ∈ builder.versionsOf key.1 then
      some (collectDependencies (pubgrubDeps accepts builder key)) else none := by
  have registered : (key ∈ builder.versions.entries.flatMap fun e => e.2.map fun version => (e.1, version))
      ↔ key.2 ∈ builder.versionsOf key.1 := by
    rw [mem_flatMap, PubGrubBuilder.versionsOf]
    constructor
    · rintro ⟨⟨name, versions⟩, mem, isKey⟩
      obtain ⟨version, inVersions, rfl⟩ := mem_map.mp isKey
      have : builder.versions.get name = some versions := SortedMap.get_eq_some.mpr mem
      simpa [this] using inVersions
    · intro inVersions
      cases hit : builder.versions.get key.1 with
      | none => simp [hit] at inVersions
      | some versions =>
        rw [hit] at inVersions
        exact ⟨(key.1, versions), SortedMap.get_eq_some.mp hit, mem_map.mpr ⟨key.2, inVersions, rfl⟩⟩
  simp only [new, foldl_update_apply]
  by_cases mem : key.2 ∈ builder.versionsOf key.1
  · rw [if_pos (registered.mpr mem), if_pos mem]
  · rw [if_neg (registered.not.mpr mem), if_neg mem]

end VerumProvider

section Edges

open PubGrubBuilder

variable (accepts : VersionReq → Version → Bool) (calls : List (Call Version VersionReq))
  (rootPackage : CogName) (rootVersion : Version)

/-- What the declared edges ask of a result. -/
structure RespectsEdges (selection : List (ResolvedPackage Version)) : Prop where
  root_mem : ⟨rootPackage, rootVersion⟩ ∈ selection
  unique : ∀ a ∈ selection, ∀ b ∈ selection, a.name = b.name → a.version = b.version
  registered : ∀ a ∈ selection, .addPackageVersion a.name a.version ∈ calls
  edges : ∀ a ∈ selection, ∀ depName depReq, .addDependency a.name a.version depName depReq ∈ calls →
    ∃ b ∈ selection, b.name = depName ∧ accepts depReq b.version = true

def ResolvesEdges (solver : Solver Version) : Prop :=
  match resolve accepts solver (build calls) rootPackage rootVersion with
  | .ok selection => RespectsEdges accepts calls rootPackage rootVersion selection
  | .error _ => ¬ ∃ selection, RespectsEdges accepts calls rootPackage rootVersion selection

/-- A selection of registered versions that meets the last requirement of each version on each name. -/
structure MeetsLast (selected : List (CogName × Version)) : Prop where
  functional : (selected.map Prod.fst).Nodup
  root_mem : (rootPackage, rootVersion) ∈ selected
  registered : ∀ chosen ∈ selected, .addPackageVersion chosen.1 chosen.2 ∈ calls
  met : ∀ chosen ∈ selected, ∀ name req, ((build calls).requirements chosen name).getLast? = some req →
    ∃ version, (name, version) ∈ selected ∧ accepts req version = true

variable {accepts calls rootPackage rootVersion}
variable {selected : List (CogName × Version)} {selection : List (ResolvedPackage Version)}
  {solver : Solver Version}

theorem isSolution_iff : IsSolution (.new accepts (build calls)) (rootPackage, rootVersion) selected ↔
      MeetsLast accepts calls rootPackage rootVersion selected := by
  have served : ∀ {chosen}, .addPackageVersion chosen.1 chosen.2 ∈ calls →
      (VerumProvider.new accepts (build calls)).inner chosen =
        some (VerumProvider.collectDependencies (VerumProvider.pubgrubDeps accepts (build calls) chosen)) := by
    intro chosen registered
    rw [VerumProvider.inner_new, if_pos (mem_versionsOf_build.mpr registered)]
  constructor
  · intro solution
    have registered : ∀ chosen ∈ selected, .addPackageVersion chosen.1 chosen.2 ∈ calls := by
      intro chosen mem
      obtain ⟨dependencies, known, -⟩ := solution.served chosen mem
      rw [VerumProvider.inner_new] at known
      split at known
      · rename_i inVersions
        exact mem_versionsOf_build.mp inVersions
      · cases known
    refine ⟨solution.functional, solution.root_mem, registered, ?_⟩
    intro chosen mem name req last
    obtain ⟨dependencies, known, ranges⟩ := solution.served chosen mem
    rw [served (registered chosen mem), Option.some.injEq] at known
    obtain ⟨version, hr, isSelected⟩ := ranges name _ (by
      rw [← known, VerumProvider.collectDependencies_pubgrubDeps, last, Option.map_some])
    exact ⟨version, isSelected, (VerumProvider.mem_reqToRanges.mp hr).2⟩
  · intro meets
    refine ⟨meets.functional, meets.root_mem, fun chosen mem => ⟨_, served (meets.registered chosen mem), ?_⟩⟩
    intro name range isRange
    rw [VerumProvider.collectDependencies_pubgrubDeps, Option.map_eq_some_iff] at isRange
    obtain ⟨req, last, rfl⟩ := isRange
    obtain ⟨version, isSelected, accepted⟩ := meets.met chosen mem name req last
    have known := mem_versionsOf_build.mpr (meets.registered _ isSelected)
    exact ⟨version, VerumProvider.mem_reqToRanges.mpr ⟨known, accepted⟩, isSelected⟩

theorem exists_meetsLast (respects : RespectsEdges accepts calls rootPackage rootVersion selection) :
    ∃ selected, MeetsLast accepts calls rootPackage rootVersion selected := by
  let selected := (selection.map fun package => (package.name, package.version)).dedup
  have mem : ∀ {chosen}, chosen ∈ selected ↔ ⟨chosen.1, chosen.2⟩ ∈ selection := by
    intro chosen
    rw [mem_dedup, mem_map]
    constructor
    · rintro ⟨package, inSelection, rfl⟩
      exact inSelection
    · exact fun inSelection => ⟨_, inSelection, rfl⟩
  refine ⟨selected, ?_, mem.mpr respects.root_mem, fun chosen isChosen => respects.registered _ (mem.mp isChosen), ?_⟩
  · refine List.Nodup.map_on ?_ (nodup_dedup _)
    intro a inA b inB eq
    exact Prod.ext eq (respects.unique _ (mem.mp inA) _ (mem.mp inB) eq)
  · intro chosen isChosen name req last
    have declared := mem_requirements_build.mp (mem_of_getLast? last)
    obtain ⟨package, inSelection, rfl, accepted⟩ := respects.edges _ (mem.mp isChosen) name req declared
    exact ⟨package.version, mem.mpr inSelection, accepted⟩

theorem mem_resolve
    (solves : solver.resolve (.new accepts (build calls)) (rootPackage, rootVersion) = .ok selected)
    (res : resolve accepts solver (build calls) rootPackage rootVersion = .ok selection)
    (package : ResolvedPackage Version) : package ∈ selection ↔ (package.name, package.version) ∈ selected := by
  rw [resolve, solves] at res
  cases res
  rw [mem_mergeSort, mem_map]
  constructor
  · rintro ⟨chosen, mem, rfl⟩
    exact mem
  · exact fun mem => ⟨_, mem, rfl⟩

variable (accepts calls) in
/-- A version that the last requirement on its package accepts and an earlier one of the same version
of the same package rejects. -/
def Overwritten (chosen : CogName × Version) (name : CogName) (version : Version) : Prop :=
  ∃ req, .addDependency chosen.1 chosen.2 name req ∈ calls ∧ accepts req version = false ∧
    ∃ last, ((build calls).requirements chosen name).getLast? = some last ∧ accepts last version = true

theorem resolvesEdges_of_separate (correct : solver.Correct)
    (separate : ∀ chosen name version, Overwritten accepts calls chosen name version →
      ∀ selected, MeetsLast accepts calls rootPackage rootVersion selected → chosen ∈ selected →
        (name, version) ∉ selected) : ResolvesEdges accepts calls rootPackage rootVersion solver := by
  rw [ResolvesEdges]
  cases res : resolve accepts solver (build calls) rootPackage rootVersion with
  | error failure =>
    rintro ⟨selection, respects⟩
    obtain ⟨selected, meets⟩ := exists_meetsLast respects
    rw [resolve] at res
    cases solves : solver.resolve (.new accepts (build calls)) (rootPackage, rootVersion) with
    | ok hit => simp [solves, Except.map] at res
    | error failure => exact correct.error _ _ _ solves ⟨selected, isSolution_iff.mpr meets⟩
  | ok selection =>
    cases solves : solver.resolve (.new accepts (build calls)) (rootPackage, rootVersion) with
    | error failure => simp [resolve, solves, Except.map] at res
    | ok selected =>
      have meets := isSolution_iff.mp (correct.ok _ _ _ solves)
      have mem := mem_resolve solves res
      refine ⟨(mem _).mpr meets.root_mem, ?_, fun a inA => meets.registered _ ((mem a).mp inA), ?_⟩
      · intro a inA b inB eq
        have pair := inj_on_of_nodup_map meets.functional ((mem a).mp inA) ((mem b).mp inB) eq
        exact (Prod.mk.inj pair).2
      · intro a inA depName depReq declared
        have required := ne_nil_of_mem (mem_requirements_build.mpr declared)
        obtain ⟨last, isLast⟩ := Option.isSome_iff_exists.mp (List.getLast?_isSome.mpr required)
        obtain ⟨version, isSelected, accepted⟩ := meets.met _ ((mem a).mp inA) depName last isLast
        refine ⟨⟨depName, version⟩, (mem _).mpr isSelected, rfl, ?_⟩
        by_contra rejected
        rw [Bool.not_eq_true] at rejected
        exact separate _ depName version ⟨depReq, declared, rejected, last, isLast, accepted⟩ selected meets
          ((mem a).mp inA) isSelected

theorem exists_solver {provider : VerumProvider Version} {root : CogName × Version}
    (solution : IsSolution provider root selected) :
    ∃ solver : Solver Version, solver.Correct ∧ solver.resolve provider root = .ok selected := by
  classical
  let answer (provider' : VerumProvider Version) (root' : CogName × Version) :
      Except Unit (List (CogName × Version)) :=
    if provider' = provider ∧ root' = root then .ok selected
    else if solvable : ∃ hit, IsSolution provider' root' hit then .ok solvable.choose else .error ()
  refine ⟨⟨Unit, answer⟩, ⟨?_, ?_⟩, ?_⟩
  · intro provider' root' hit answers
    simp only [answer] at answers
    split at answers
    · rename_i eq
      cases answers
      exact eq.1 ▸ eq.2 ▸ solution
    · split at answers
      · rename_i solvable
        cases answers
        exact solvable.choose_spec
      · cases answers
  · intro provider' root' failure answers
    simp only [answer] at answers
    split at answers
    · cases answers
    · split at answers
      · cases answers
      · assumption
  · simp [answer]

def exactly (req version : Nat) : Bool := req == version

/-- The root asks for version 1 of `json` and then for version 2 of it. -/
def twiceRequired : List (Call Nat Nat) :=
  [.addPackageVersion "root" 1, .addPackageVersion "json" 1, .addPackageVersion "json" 2,
    .addDependency "root" 1 "json" 1, .addDependency "root" 1 "json" 2]

end Edges

end Registry
