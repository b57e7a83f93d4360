import Mathlib.Data.List.AList
import Mathlib.Data.List.Sort
import Verum.Registry.Cnf

namespace Registry

open Cnf

abbrev Text := String

/-- The iteration orders of hash maps and sets; `visit` numbers the iterations of a run. -/
structure Iteration where
  order : {α : Type} → Nat → List α → List α
  perm : ∀ {α : Type} (visit : Nat) (items : List α), (order visit items).Perm items

structure CogVar (Version : Type) where
  name : Text
  version : Version
  deriving DecidableEq

/-- `dependencies` holds the keys of the dependency table. -/
structure CogMetadata (Version : Type) where
  name : Text
  version : Version
  dependencies : List Text

structure Decision (Version : Type) where
  var : CogVar Version
  value : Bool
  level : Nat

structure Conflict where
  cog : Text
  requiredBy : List Text
  versions : List Text
  reason : Text

structure SatResolution (Version : Type) where
  selected : AList fun _ : Text => Version
  conflicts : List Conflict

/-- The innermost decision comes first; `visits` counts the map iterations so far. -/
structure SatResolver (Version : Type) where
  assignments : AList fun _ : CogVar Version => Option Bool
  clauses : List (Clause (CogVar Version))
  metadataCache : AList fun _ : CogVar Version => CogMetadata Version
  decisionStack : List (Decision Version)
  visits : Nat

namespace SatResolver

variable {Version VersionReq : Type}

def new : SatResolver Version :=
  { assignments := ∅, clauses := [], metadataCache := ∅, decisionStack := [], visits := 0 }

section Constraints

variable [DecidableEq Version] (iteration : Iteration) (versionMatches : VersionReq → Version → Bool)

def addMetadata (resolver : SatResolver Version) (metadata : CogMetadata Version) : SatResolver Version :=
  let var : CogVar Version := { name := metadata.name, version := metadata.version }
  { resolver with
    metadataCache := resolver.metadataCache.insert var metadata
    assignments := resolver.assignments.insert var none }

def addClauses (resolver : SatResolver Version) (clauses : List (Clause (CogVar Version))) :
    SatResolver Version :=
  { resolver with clauses := resolver.clauses ++ clauses, visits := resolver.visits + 1 }

def compatibleVersions (resolver : SatResolver Version) (toName : Text) (versionReq : VersionReq) :
    List (CogVar Version) :=
  (iteration.order resolver.visits resolver.metadataCache.keys).filter
    fun var => var.name = toName && versionMatches versionReq var.version

def addDependencyConstraint (resolver : SatResolver Version) (dependent : CogVar Version) (toName : Text)
    (versionReq : VersionReq) : SatResolver Version :=
  let compatible := compatibleVersions iteration versionMatches resolver toName versionReq
  if compatible.isEmpty then resolver.addClauses [[{ var := dependent, positive := false }]]
  else
    resolver.addClauses
      [{ var := dependent, positive := false } :: compatible.map fun var => { var, positive := true }]

/-- The pairs `(items[i], items[j])` with `i < j`. -/
def pairs {α : Type} : List α → List (α × α)
  | [] => []
  | item :: rest => rest.map (fun other => (item, other)) ++ pairs rest

def versionsOf (resolver : SatResolver Version) (cogName : Text) : List (CogVar Version) :=
  (iteration.order resolver.visits resolver.metadataCache.keys).filter fun var => var.name = cogName

def addUniquenessConstraint (resolver : SatResolver Version) (cogName : Text) : SatResolver Version :=
  resolver.addClauses <| (pairs (versionsOf iteration resolver cogName)).map fun (one, other) =>
    [{ var := one, positive := false }, { var := other, positive := false }]

def addRootConstraint (resolver : SatResolver Version) (root : CogVar Version) : SatResolver Version :=
  resolver.addClauses [[{ var := root, positive := true }]]

end Constraints

section Search

variable [DecidableEq Version]

def get (resolver : SatResolver Version) (var : CogVar Version) : Option (Option Bool) :=
  resolver.assignments.lookup var

def assign (resolver : SatResolver Version) (var : CogVar Version) (value : Bool) : SatResolver Version :=
  { resolver with assignments := resolver.assignments.insert var (some value) }

/-- The scan of one clause: `none` when it is satisfied or a second literal is unassigned. -/
def scanClause (resolver : SatResolver Version) (unassigned : Option (CogVar Version × Bool)) :
    Clause (CogVar Version) → Option (CogVar Version × Bool)
  | [] => unassigned
  | literal :: rest =>
    match resolver.get literal.var with
    | some (some value) => if value = literal.positive then none else scanClause resolver unassigned rest
    | some none =>
      if unassigned.isSome then none else scanClause resolver (some (literal.var, literal.positive)) rest
    | none => scanClause resolver unassigned rest

def findUnitClause (resolver : SatResolver Version) : Option (CogVar Version × Bool) :=
  resolver.clauses.findSome? (resolver.scanClause none)

/-- The unassigned variables that occur with the given sign, without duplicates. -/
def openVars (resolver : SatResolver Version) (positive : Bool) : List (CogVar Version) :=
  ((resolver.clauses.flatten.filter fun literal =>
    resolver.get literal.var = some none && literal.positive = positive).map Literal.var).dedup

def findPureLiteral (iteration : Iteration) (resolver : SatResolver Version) :
    Option (CogVar Version × Bool) :=
  let positives := resolver.openVars true
  let negatives := resolver.openVars false
  match (iteration.order resolver.visits positives).find? (fun var => var ∉ negatives) with
  | some var => some (var, true)
  | none =>
    ((iteration.order (resolver.visits + 1) negatives).find? (fun var => var ∉ positives)).map (·, false)

def unassignedVars (resolver : SatResolver Version) : List (CogVar Version) :=
  resolver.assignments.keys.filter fun var => resolver.get var = some none

def chooseVariable [Ord Version] (iteration : Iteration) (resolver : SatResolver Version) :
    Option (CogVar Version) :=
  ((iteration.order resolver.visits resolver.unassignedVars).insertionSort
    fun a b => compare b.version a.version ≠ .gt).head?

/-- The orders used up by `find_pure_literal` and `choose_variable`. -/
def visited (resolver : SatResolver Version) (count : Nat) : SatResolver Version :=
  { resolver with visits := resolver.visits + count }

def allAssigned (resolver : SatResolver Version) : Bool :=
  resolver.assignments.keys.all fun var => resolver.get var ≠ some none

def clauseConflicts (resolver : SatResolver Version) (clause : Clause (CogVar Version)) : Bool :=
  let satisfied := clause.any fun literal => resolver.get literal.var = some (some literal.positive)
  let allAssigned := clause.all fun literal => resolver.get literal.var ≠ some none
  allAssigned && !satisfied

def hasConflict (resolver : SatResolver Version) : Bool := resolver.clauses.any resolver.clauseConflicts

def push (resolver : SatResolver Version) (decision : Decision Version) : SatResolver Version :=
  { resolver with decisionStack := decision :: resolver.decisionStack }

def undo (level : Nat) (assignments : AList fun _ : CogVar Version => Option Bool) :
    List (Decision Version) → (AList fun _ : CogVar Version => Option Bool) × List (Decision Version)
  | [] => (assignments, [])
  | decision :: rest =>
    if decision.level ≤ level then (assignments, decision :: rest)
    else undo level (assignments.insert decision.var none) rest

def backtrack (resolver : SatResolver Version) (level : Nat) : SatResolver Version :=
  let (assignments, decisionStack) := undo level resolver.assignments resolver.decisionStack
  { resolver with assignments, decisionStack }

/-- The loop of `dpll`: `false` when a unit clause has led to a conflict. `fuel` bounds the rounds. -/
def propagate : Nat → SatResolver Version → Option (Bool × SatResolver Version)
  | 0, _ => none
  | fuel + 1, resolver =>
    match resolver.findUnitClause with
    | some (var, value) =>
      let resolver := resolver.assign var value
      if resolver.hasConflict then some (false, resolver) else propagate fuel resolver
    | none => some (true, resolver)

def takeDecision (resolver : SatResolver Version) (var : CogVar Version) (value : Bool) (level : Nat) :
    SatResolver Version :=
  (resolver.assign var value).push { var, value, level }

/-- `fuel` bounds the nesting of calls and the rounds of each propagation loop. -/
def dpll [Ord Version] (iteration : Iteration) :
    Nat → Nat → SatResolver Version → Option (Bool × SatResolver Version)
  | 0, _, _ => none
  | fuel + 1, level, resolver => do
    let (consistent, resolver) ← propagate (fuel + 1) resolver
    if !consistent then return (false, resolver)
    if resolver.allAssigned then return (true, resolver)
    match resolver.findPureLiteral iteration with
    | some (var, value) => dpll iteration fuel level ((resolver.visited 2).assign var value)
    | none =>
      let resolver := resolver.visited 2
      match resolver.chooseVariable iteration with
      | some var =>
        let resolver := resolver.visited 1
        let (solved, resolver) ← dpll iteration fuel (level + 1) (resolver.takeDecision var true (level + 1))
        if solved then return (true, resolver)
        let resolver := resolver.backtrack level
        let (solved, resolver) ← dpll iteration fuel (level + 1) (resolver.takeDecision var false (level + 1))
        if solved then return (true, resolver)
        return (false, resolver.backtrack level)
      | none => return (false, resolver.visited 1)

end Search

section Solve

variable [DecidableEq Version] [Ord Version] [ToString Version] (iteration : Iteration)

def findDependentCogs (resolver : SatResolver Version) (cogName : Text) : List Text :=
  let holders := (iteration.order resolver.visits resolver.metadataCache.entries).filter
    fun entry => cogName ∈ entry.2.dependencies
  iteration.order (resolver.visits + 1) (holders.map fun entry => entry.2.name).dedup

def pushGroup (groups : List (Text × List (CogVar Version))) (var : CogVar Version) :
    List (Text × List (CogVar Version)) :=
  match groups with
  | [] => [(var.name, [var])]
  | (name, vars) :: rest =>
    if name = var.name then (name, vars ++ [var]) :: rest else (name, vars) :: pushGroup rest var

def packageGroups (resolver : SatResolver Version) : List (Text × List (CogVar Version)) :=
  (iteration.order resolver.visits resolver.metadataCache.keys).foldl pushGroup []

def conflictOf (resolver : SatResolver Version) (group : Text × List (CogVar Version)) : Option Conflict :=
  let (cog, versions) := group
  if 1 < versions.length then
    let requiredBy := resolver.findDependentCogs iteration cog
    if requiredBy.isEmpty then none
    else
      some
        { cog, requiredBy, versions := versions.map fun var => toString var.version,
          reason := "Multiple incompatible versions required" }
  else none

def extractConflicts (resolver : SatResolver Version) : List Conflict :=
  (iteration.order (resolver.visits + 1) (packageGroups iteration resolver)).zipIdx.filterMap
    fun (group, index) => conflictOf iteration (resolver.visited (2 + 2 * index)) group

def reset (resolver : SatResolver Version) : SatResolver Version :=
  { resolver with
    decisionStack := []
    assignments := resolver.assignments.keys.foldl (fun map var => map.insert var none) resolver.assignments }

/-- The versions assigned true, one for each name: a later entry of the iteration replaces an earlier one. -/
def selected (resolver : SatResolver Version) : AList fun _ : Text => Version :=
  (iteration.order resolver.visits resolver.assignments.keys).foldl
    (fun map var => if resolver.get var = some (some true) then map.insert var.name var.version else map) ∅

def solve (resolver : SatResolver Version) : Option (SatResolution Version × SatResolver Version) := do
  let resolver := resolver.reset
  let (solved, resolver) ← dpll iteration (resolver.assignments.keys.length + 1) 0 resolver
  if solved then return ({ selected := resolver.selected iteration, conflicts := [] }, resolver)
  else return ({ selected := ∅, conflicts := resolver.extractConflicts iteration }, resolver)

end Solve

/-- The calls that build a resolver. -/
inductive Call (Version VersionReq : Type) where
  | addMetadata (metadata : CogMetadata Version)
  | addDependencyConstraint (dependent : CogVar Version) (toName : Text) (versionReq : VersionReq)
  | addUniquenessConstraint (cogName : Text)
  | addRootConstraint (root : CogVar Version)

section Calls

variable [DecidableEq Version] (iteration : Iteration) (versionMatches : VersionReq → Version → Bool)

def perform (resolver : SatResolver Version) : Call Version VersionReq → SatResolver Version
  | .addMetadata metadata => resolver.addMetadata metadata
  | .addDependencyConstraint dependent toName versionReq =>
    addDependencyConstraint iteration versionMatches resolver dependent toName versionReq
  | .addUniquenessConstraint cogName => addUniquenessConstraint iteration resolver cogName
  | .addRootConstraint root => resolver.addRootConstraint root

def run (calls : List (Call Version VersionReq)) : SatResolver Version :=
  calls.foldl (perform iteration versionMatches) new

end Calls

end SatResolver

end Registry
